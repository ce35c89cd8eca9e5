import Mos.Fs.FatWalk

/-!
# Making a file longer

`fatfile_map_cluster` takes new clusters where the chain of a file ends before the cluster that is asked for.
The test for the end comes one step too late for the cluster right behind it, and a file without clusters is
only given its first one.
-/

namespace Mos

open Lib Prog Function

variable {s t u : FatFs} {c f : Nat}

/-! ## Chains in a table that grows -/

/-- A cluster of a chain is not free. -/
theorem FatChain.ne_free {fats : Nat → Word} : ∀ {xs : List Nat} {a : Nat}, FatChain fats a xs →
    (∀ x ∈ xs, x ≠ 0) → ∀ x ∈ xs, fats x ≠ fat32Free := by
  intro xs
  induction xs with
  | nil => intro a _ _ x hx; cases hx
  | cons y ys ih =>
    intro a h hne x hx
    obtain ⟨rfl, h⟩ := h
    rcases List.mem_cons.mp hx with rfl | hx
    · intro hfree
      dsimp only at h
      rw [hfree] at h
      cases ys with
      | nil =>
        have hend : fat32Free.toNat = fat32Used.toNat := h
        exact absurd hend (by decide)
      | cons z zs => exact hne z (by simp) h.1.symm
    · exact ih h (fun z hz => hne z (List.mem_cons_of_mem _ hz)) x hx

/-- Two chains that share a cluster end in the same way. -/
theorem FatChain.last_mem {fats : Nat → Word} {a b o z : Nat} {xs zs : List Nat}
    (h : FatChain fats a (xs ++ [o])) (h' : FatChain fats b zs) (hx : fat32Used.toNat ∉ xs ++ [o])
    (hz : fat32Used.toNat ∉ zs) (hzx : z ∈ xs ++ [o]) (hzz : z ∈ zs) : o ∈ zs := by
  obtain ⟨l, r, hl⟩ := List.append_of_mem hzx
  obtain ⟨l', r', rfl⟩ := List.append_of_mem hzz
  rw [hl] at h hx
  obtain ⟨m, -, hm, hr⟩ := Path.append_iff.mp h
  obtain ⟨m', -, hm', hr'⟩ := Path.append_iff.mp h'
  have heq : r = r' := hr.unique hr'
    (fun hmem => hx (List.mem_append_right _ (List.mem_cons_of_mem z hmem)))
    (fun hmem => hz (List.mem_append_right _ (List.mem_cons_of_mem z hmem)))
  subst heq
  -- the last cluster is the last one of the common end
  have hlast : (xs ++ [o]).getLast? = (z :: r).getLast? := by
    rw [hl, List.getLast?_append_of_ne_nil _ (List.cons_ne_nil z r)]
  rw [List.getLast?_append_of_ne_nil _ (List.cons_ne_nil o []), List.getLast?_singleton] at hlast
  exact List.mem_append_right _ (List.mem_of_getLast? hlast.symm)

namespace FatFs.FileChain

variable {xs : List Nat}

theorem ne_free (h : s.FileChain f xs) : ∀ x ∈ xs, s.fats x ≠ fat32Free := by
  intro x hx
  refine FatChain.ne_free (h.path (List.ne_nil_of_mem hx)) (fun y hy => ?_) x hx
  have := (h.valid y hy).1
  omega

theorem used_notMem (h : s.FileChain f xs) : fat32Used.toNat ∉ xs :=
  fun hm => absurd (h.valid _ hm).lt_used (lt_irrefl _)

/-- Only the last entry of a chain is the end marker. -/
theorem ne_used {zs ws : List Nat} (h : s.FileChain f (zs ++ ws)) (hne : ws ≠ []) :
    ∀ x ∈ zs, s.fats x ≠ fat32Used := by
  intro x hx hused
  obtain ⟨l, l', rfl⟩ := List.append_of_mem hx
  have hpath := h.path (by simp)
  rw [List.append_assoc] at hpath
  obtain ⟨_, -, -, hr⟩ := Path.append_iff.mp hpath
  dsimp only at hr
  rw [hused] at hr
  -- what follows would begin with the end marker
  refine h.used_notMem ?_
  cases hrest : l' ++ ws with
  | nil => exact absurd (List.append_eq_nil_iff.mp hrest).2 hne
  | cons y ys =>
    change Path _ _ (l' ++ ws) _ at hr
    rw [hrest] at hr
    rw [List.append_assoc, List.cons_append, hrest, hr.1]
    simp

end FatFs.FileChain

/-- The result of `fatfile_map_cluster` where the walk comes to a cluster. -/
theorem fatfileMapCluster_walk {k : Nat} {alloc : Bool}
    (h : clusterWalk f k alloc 0 k (s.fstClus f) s = .ret c t) (hc : c ≠ 0) :
    fatfileMapCluster f k alloc s = .ret c t := by
  unfold fatfileMapCluster
  have hwalk : fatfileClusterWalk f k alloc s = .ret c t := h
  rw [bind_ret hwalk, if_neg hc]
  rfl

/-- The file `f` has the clusters `xs`, and their entries are in the table in memory. -/
structure FatFs.StoredChain (s : FatFs) (f : Nat) (xs : List Nat) : Prop extends s.FileChain f xs where
  inside : ∀ x ∈ xs, x < fatWords

/-- **The walk inside a chain is exact.** For a cluster that the file has, `fatfile_cluster_walk` and
`fatfile_map_cluster` return it and change nothing, whether they may take clusters or not. -/
theorem fatfileMapCluster_inside {xs : List Nat} (h : s.StoredChain f xs) {k : Nat} (hk : k < xs.length)
    (alloc : Bool) : fatfileClusterWalk f k alloc s = .ret xs[k] s ∧
      fatfileMapCluster f k alloc s = .ret xs[k] s := by
  have hdrop : xs.drop k = xs[k] :: xs.drop (k + 1) := List.drop_eq_getElem_cons hk
  have hsplit : xs = xs.take k ++ xs[k] :: xs.drop (k + 1) := by
    rw [← hdrop, List.take_append_drop]
  have hpath := h.path (List.ne_nil_of_length_pos (Nat.zero_lt_of_lt hk))
  have hchain := h.toFileChain
  rw [hsplit] at hpath hchain
  obtain ⟨m, htake, rfl, -⟩ := Path.append_iff.mp hpath
  have hwalk : clusterWalk f k alloc 0 ((xs.take k).length + 0) (s.fstClus f) s =
      clusterWalk f k alloc (0 + (xs.take k).length) 0 xs[k] s :=
    clusterWalk_path (xs.take k) _ _ 0 0 htake fun x hx =>
      ⟨h.inside x (List.mem_of_mem_take hx), hchain.ne_used (List.cons_ne_nil _ _) x hx⟩
  rw [Nat.add_zero, List.length_take, Nat.min_eq_left hk.le] at hwalk
  have hvalid := (h.valid xs[k] (List.getElem_mem hk)).1
  exact ⟨hwalk, fatfileMapCluster_walk hwalk (by omega)⟩

/-- The second cluster of three. -/
theorem fatfileMapCluster_inside_three : fatfileMapCluster 0x10400040 1 true threeClusters =
    .ret 4 threeClusters :=
  (fatfileMapCluster_inside ⟨threeClusters_fileChain, by decide⟩ (by decide) true).2

/-! ## Results -/

/-- The group that has been taken, as a chain of its own. -/
theorem Finds.chain {g : Nat} (h : Finds s g) :
    FatChain (claimed s.bpb.group g s.fats) g (List.range' g s.bpb.group) := by
  have hfit := h.fits
  have hwords : fatWords < 2 ^ 32 := by decide
  exact claimed_chain s.fats (by omega) _ 0 (Nat.zero_add _) s.bpb.group_pos

/-- `fatfile_map_cluster(f, 0)` of an empty file. -/
theorem fatfileMapCluster_first (h0 : s.fstClus f = 0) : fatfileMapCluster f 0 true s =
    match allocCluster s with
      | .ret g u => .ret g (if u.fstClus f = 0 then u.setFstClus f g else u)
      | .err e u => .err e u
      | .halt p => .halt p := by
  unfold fatfileMapCluster
  have hwalk : fatfileClusterWalk f 0 true s = .ret 0 s := by
    show Outcome.ret (s.fstClus f) s = _
    rw [h0]
  rw [bind_ret hwalk, if_pos rfl, if_neg (by decide), bind_apply]
  cases allocCluster s with
  | ret g u =>
    dsimp only
    rw [get_bind]
    by_cases hu : u.fstClus f = 0
    · rw [when_pos hu, if_pos hu]
      rfl
    · rw [when_neg hu, if_neg hu]
      rfl
  | err e u => rfl
  | halt p => rfl

/-- Where the group has been linked to a cluster inside of it, no chain leads through this cluster. -/
theorem Loops.mem {o g : Nat} (hg : Finds s g) (hlt : o < g + s.bpb.group)
    (ht : t.fats = update (claimed s.bpb.group g s.fats) o (BitVec.ofNat 32 g)) :
    ∀ (ys : List Nat) (x : Nat), FatChain t.fats x ys → g ≤ x → x ≤ o → o ∈ ys := by
  have hfit := hg.fits
  have hused : fatWords < fat32Used.toNat := by decide
  have hwords : fatWords < 2 ^ 32 := by decide
  intro ys
  induction ys with
  | nil =>
    intro x h hgx hxo
    have : x = fat32Used.toNat := h
    omega
  | cons y ys ih =>
    rintro x ⟨rfl, h⟩ hgx hxo
    by_cases hx : x = o
    · rw [hx]
      exact List.mem_cons_self
    · refine List.mem_cons_of_mem x (ih (x + 1) ?_ (by omega) (by omega))
      dsimp only at h
      rwa [ht, update_of_ne hx, claimed_of_lt hgx (by omega), BitVec.toNat_ofNat,
        Nat.mod_eq_of_lt (by omega), ← ht] at h

/-- What is taken lies inside the table. -/
theorem Appends.lt_words {o : Nat} {gs : List Nat} (h : Appends f s o gs t) :
    ∀ x ∈ s.bpb.groups gs, x < fatWords := by
  induction h with
  | nil => intro x hx; cases hx
  | @cons s u t o g gs hg _ hmap _ ih =>
    intro x hx
    have hfit := hg.fits
    rw [(link_fats hmap).1] at ih
    rw [Fat32Bpb.groups_cons, List.mem_append, List.mem_range'_1] at hx
    rcases hx with hx | hx
    · omega
    · exact ih x hx

end Mos
