import Mos.Fs.FatOverrun
import Mos.Fs.FatCut

/-!
# Walking along a chain and taking clusters

`fatfile_cluster_walk` follows the chain of a file. Where the chain ends, it takes a group of clusters (a page
of them, where clusters are small) and goes on in it, and so on until it has made its rounds.
-/

namespace Mos

open Lib Prog Function

variable {s t u : FatFs} {c f : Nat}

/-! ## Loading a cluster -/

/-- The addresses that `map_cluster(c)` may change. -/
def Fat32Bpb.Reach (bpb : Fat32Bpb) (c a : Nat) : Prop :=
  bpb.cluster2addr c ≤ a ∧ a < bpb.cluster2addr c + 512 * bpb.bytsPerCluster

theorem ideRounds_le (secno n : Nat) : ideRounds secno n ≤ n := by
  unfold ideRounds by2sect
  have hmod := Nat.mod_le (ideBegin secno + n * 512) (2 ^ 32)
  rw [Nat.mul_comm n] at *
  generalize ideBegin secno = b at hmod ⊢
  refine Nat.div_le_of_le_mul ?_
  omega

/-- From `s` to `t`, nothing but the cache has changed, and that only within the reach of the cluster `c`. -/
structure Loaded (s : FatFs) (c : Nat) (t : FatFs) : Prop where
  mapped : ∀ a, s.fatvaIsMapped a = true → ¬s.bpb.Reach c a → t.fatvaIsMapped a = true
  byte : ∀ a, s.fatvaIsMapped a = true → ¬s.bpb.Reach c a → t.byte a = s.byte a
  rest : t = { s with cache := t.cache, avail := t.avail }

/-- The pages of a cluster that is not loaded, or of a large one, are within its reach. -/
theorem Fat32Bpb.reach_of_holds {a : Nat} (hm : s.fatvaIsMapped a = true)
    (hc : s.clusterIsMapped c = false ∨ 4096 < s.bpb.bytsPerCluster) (h : s.bpb.Holds c a) :
    s.bpb.Reach c a := by
  obtain ⟨hle, hlt⟩ := h
  by_cases hlarge : 4096 < s.bpb.bytsPerCluster
  · have hal := s.bpb.cluster2addr_aligned_large c hlarge
    have hpages := s.bpb.bytsPerCluster_large hlarge.le
    rw [s.bpb.pages_large hlarge] at hlt
    unfold Reach
    generalize s.bpb.cluster2addr c = va at *
    omega
  · -- a small cluster: its only page would be mapped
    have hno := hc.resolve_right hlarge
    rw [clusterIsMapped_small (Nat.le_of_not_lt hlarge)] at hno
    rw [s.bpb.pages_small (Nat.le_of_not_lt hlarge)] at hlt
    rw [FatFs.fatvaIsMapped_congr (show s.bpb.cluster2addr c / 4096 = a / 4096 by omega), hm] at hno
    cases hno

/-- The pages have been mapped, and sectors read. -/
theorem Stage.loaded (hc : s.clusterIsMapped c = false ∨ 4096 < s.bpb.bytsPerCluster)
    (h : Stage s (s.bpb.cluster2addr c) s.bpb.pages u)
    (hret : fatIdeRead (s.bpb.cluster2Sec c) (s.bpb.cluster2addr c) s.bpb.bytsPerCluster u =
      .ret () t) : Loaded s c t ∧ ∀ a, s.fatvaIsMapped a = true → t.fatvaIsMapped a = true := by
  have hread := fatIdeRead_sat (s.bpb.cluster2Sec c) s.bpb.bytsPerCluster
    (s.bpb.cluster2addr_aligned c) u
  rw [hret] at hread
  obtain ⟨hin, -⟩ := hread
  have hrounds := ideRounds_le (s.bpb.cluster2Sec c) s.bpb.bytsPerCluster
  have hmapped : ∀ a, s.fatvaIsMapped a = true → t.fatvaIsMapped a = true := by
    intro a ha
    rw [hin.mapped, h.mapped, ha]
    rfl
  refine ⟨⟨fun a ha _ => hmapped a ha, fun a ha hout => ?_, ?_⟩, hmapped⟩
  · have hrange : ¬(s.bpb.cluster2addr c ≤ a ∧ a < s.bpb.cluster2addr c +
        512 * ideRounds (s.bpb.cluster2Sec c) s.bpb.bytsPerCluster) := by
      rintro ⟨hle, hlt⟩
      exact hout ⟨hle, lt_of_lt_of_le hlt (by omega)⟩
    rw [hin.byte_out hrange]
    exact (h.outside a fun hholds => hout (Fat32Bpb.reach_of_holds ha hc hholds)).1
  · rw [hin.rest, h.rest]

/-- What `map_cluster` does when it returns. -/
theorem mapCluster_stage (h : mapCluster c s = .ret () t) :
    t = s ∧ s.clusterIsMapped c = true ∧ s.bpb.bytsPerCluster ≤ 4096 ∨
      (s.clusterIsMapped c = false ∨ 4096 < s.bpb.bytsPerCluster) ∧
      ∃ u, Stage s (s.bpb.cluster2addr c) s.bpb.pages u ∧
      fatIdeRead (s.bpb.cluster2Sec c) (s.bpb.cluster2addr c) s.bpb.bytsPerCluster u = .ret () t := by
  by_cases hlarge : 4096 < s.bpb.bytsPerCluster
  · have hpages := mapPages_sat (s.bpb.cluster2addr_aligned_large c hlarge) s.bpb.pages 0 s
      (Stage.start s _) (fun j hj => absurd hj (Nat.not_lt_zero j))
    rw [mapCluster_large hlarge, bind_apply] at h
    cases hrun : mapPages (s.bpb.cluster2addr c) 0 s.bpb.pages s with
    | ret _ u =>
      rw [hrun] at hpages h
      exact .inr ⟨.inr hlarge, u, by simpa using hpages.1, h⟩
    | err e u => rw [hrun] at h; cases h
    | halt p => rw [hrun] at h; cases h
  · have hle := Nat.le_of_not_lt hlarge
    by_cases hc : s.clusterIsMapped c = true
    · have hm := hc
      rw [clusterIsMapped_small hle] at hm
      unfold mapCluster at h
      rw [get_bind, if_neg hlarge, if_pos hm] at h
      exact .inl ⟨(Outcome.ret.inj h).2.symm, hc, hle⟩
    · rw [Bool.not_eq_true] at hc
      obtain ⟨i, -, -, e, u, herr, -⟩ | ⟨-, u, hstage, heq⟩ := mapCluster_cases hc
      · rw [herr] at h
        cases h
      · exact .inr ⟨.inl hc, u, hstage, heq ▸ h⟩

/-- `map_cluster(c)` returns: within the reach of `c` the cache may have changed. -/
theorem mapCluster_loaded (hret : mapCluster c s = .ret () t) :
    Loaded s c t ∧ ∀ a, s.fatvaIsMapped a = true → t.fatvaIsMapped a = true := by
  obtain ⟨rfl, -⟩ | ⟨hc, u, hstage, hread⟩ := mapCluster_stage hret
  · exact ⟨⟨fun a ha _ => ha, fun a _ _ => rfl, rfl⟩, fun a ha => ha⟩
  · exact Stage.loaded hc hstage hread

/-- With enough memory `map_cluster` returns. -/
theorem mapCluster_supplied (h : ∀ k, s.avail k = true) :
    ∃ t, mapCluster c s = .ret () t ∧ ∀ k, t.avail k = true := by
  have hread : ∀ u : FatFs, (∀ k, u.avail k = true) → ∃ t,
      fatIdeRead (s.bpb.cluster2Sec c) (s.bpb.cluster2addr c) s.bpb.bytsPerCluster u = .ret () t ∧
        ∀ k, t.avail k = true := by
    intro u hu
    have hsat := fatIdeRead_sat (s.bpb.cluster2Sec c) s.bpb.bytsPerCluster (s.bpb.cluster2addr_aligned c) u
    cases hrun : fatIdeRead (s.bpb.cluster2Sec c) (s.bpb.cluster2addr c) s.bpb.bytsPerCluster u with
    | ret _ t =>
      rw [hrun] at hsat
      refine ⟨t, rfl, fun k => ?_⟩
      rw [hsat.2.2]
      exact hu _
    | err e t =>
      rw [hrun] at hsat
      exact hsat.elim
    | halt p =>
      rw [hrun] at hsat
      obtain ⟨-, k, -, hk⟩ := hsat
      rw [hu k] at hk
      cases hk
  by_cases hlarge : 4096 < s.bpb.bytsPerCluster
  · have hpages := mapPages_sat (s.bpb.cluster2addr_aligned_large c hlarge) s.bpb.pages 0 s
      (Stage.start s _) (fun j hj => absurd hj (Nat.not_lt_zero j))
    rw [mapCluster_large hlarge]
    cases hrun : mapPages (s.bpb.cluster2addr c) 0 s.bpb.pages s with
    | ret _ u =>
      rw [hrun] at hpages
      rw [bind_ret hrun]
      refine hread u fun k => ?_
      rw [hpages.1.avail]
      exact h _
    | err e u =>
      rw [hrun] at hpages
      obtain ⟨k, -, hr, -⟩ := hpages
      have hno := hr.refused
      rw [h] at hno
      cases hno
    | halt p =>
      rw [hrun] at hpages
      exact hpages.elim
  · have hle := Nat.le_of_not_lt hlarge
    by_cases hc : s.clusterIsMapped c = true
    · rw [clusterIsMapped_small hle] at hc
      refine ⟨s, ?_, h⟩
      unfold mapCluster
      rw [get_bind, if_neg hlarge, if_pos hc]
      rfl
    · rw [Bool.not_eq_true] at hc
      rw [mapCluster_small hle hc, if_pos (h 0)]
      exact hread _ fun k => h (k + 1)

/-- A directory entry lies within the reach of a cluster or outside of it. -/
theorem Fat32Bpb.reach_entry {bpb : Fat32Bpb} (hal : f % 64 = 0) (h : ¬bpb.Reach c f) {i : Nat}
    (hi : i < 64) : ¬bpb.Reach c (f + i) := by
  have hva := bpb.cluster2addr_aligned c
  unfold Reach at h ⊢
  generalize bpb.cluster2addr c = va at *
  omega

theorem Loaded.fstClus (h : Loaded s c t) (hf : s.IsEntry f) (hout : ¬s.bpb.Reach c f) :
    t.fstClus f = s.fstClus f := by
  have hbyte : ∀ i < 64, t.byte (f + i) = s.byte (f + i) := fun i hi =>
    h.byte _ (hf.byte_mapped hi) (Fat32Bpb.reach_entry hf.aligned hout hi)
  unfold FatFs.fstClus FatFs.half
  rw [hbyte 20 (by decide), hbyte 26 (by decide), show f + 20 + 1 = f + 21 from rfl,
    show f + 26 + 1 = f + 27 from rfl, hbyte 21 (by decide), hbyte 27 (by decide)]

theorem Loaded.isEntry (h : Loaded s c t) (hf : s.IsEntry f) (hout : ¬s.bpb.Reach c f) : t.IsEntry f :=
  ⟨hf.aligned, h.mapped f hf.mapped hout⟩

/-! ## Taking clusters -/

namespace FatFs

/-- The table when the clusters from `g` on have been taken. -/
def claimAt (s : FatFs) (g : Nat) : FatFs := { s with fats := claimed s.bpb.group g s.fats }

/-- The entry of `o` leads to the cluster `g`. -/
def link (s : FatFs) (o g : Nat) : FatFs := { s with fats := update s.fats o (BitVec.ofNat 32 g) }

end FatFs

/-- `g` is the cluster that `alloc_cluster_num` finds, and what it takes lies inside the table. -/
structure Finds (s : FatFs) (g : Nat) : Prop where
  first : FirstFree s.fats 2 g
  lt : g < s.bpb.totSec32
  fits : g + s.bpb.group ≤ fatWords

theorem Finds.lt_words {g : Nat} (h : Finds s g) : g < fatWords := by
  have := h.fits
  have := s.bpb.group_pos
  omega

theorem Finds.two_le {g : Nat} (h : Finds s g) : 2 ≤ g := h.first.le

theorem allocClusterNum_finds {g : Nat} (h : Finds s g) :
    allocClusterNum s = .ret g (s.claimAt g) := by
  obtain ⟨g', -, -, hfirst, heq⟩ | ⟨-, hnone, -⟩ | ⟨-, hnone, -⟩ := allocClusterNum_cases s
  · obtain rfl := h.first.unique hfirst
    rw [heq, bind_ret (claim_eq h.fits s)]
    rfl
  · exact absurd h.first.free (hnone g h.two_le h.lt)
  · exact absurd h.first.free (hnone g h.two_le h.lt_words)

/-- The ways in which `alloc_cluster` can go once it has found clusters. -/
theorem allocCluster_finds {g : Nat} (h : Finds s g) :
    allocCluster s = match mapCluster g (s.claimAt g) with
      | .ret _ u => .ret g u
      | .err e u => .err e { u with fats := update u.fats g fat32Free }
      | .halt p => .halt p := by
  unfold allocCluster
  rw [bind_ret (allocClusterNum_finds h), bind_apply]
  unfold attempt
  cases mapCluster g (s.claimAt g) with
  | ret _ u => rfl
  | err e u =>
    exact bind_ret (writeFat_eq h.lt_words fat32Free u)
  | halt p => rfl

/-- Otherwise there is no free cluster, or the table is left. -/
theorem allocCluster_cases (s : FatFs) :
    (∃ g, Finds s g) ∨ allocCluster s = .err .noDisk s ∨ allocCluster s = .halt .wild := by
  obtain ⟨g, hlt, hw, hfirst, heq⟩ | ⟨-, -, heq⟩ | ⟨-, -, heq⟩ := allocClusterNum_cases s
  · by_cases hfit : g + s.bpb.group ≤ fatWords
    · exact .inl ⟨g, hfirst, hlt, hfit⟩
    · right; right
      refine bind_halt ?_
      rw [heq]
      exact bind_halt (claim_wild hw.le (by omega) s)
  · exact .inr (.inl (bind_err heq))
  · exact .inr (.inr (bind_halt heq))

section Walk

variable {k i n cur : Nat} {alloc : Bool}

/-- What a round does when it may have come upon the end of the chain. -/
def growAt (f : Nat) (alloc : Bool) (cur : Nat) : FatM Unit := do
  let w ← readFat cur
  when (w = fat32Used) do
    if alloc = false then fail .notFound
    else
      let s ← get
      let curno ← allocClusterWord
      if s.fstClus f = 0 then modify fun s => s.setFstClus f curno.toNat else writeFat cur curno

theorem clusterWalk_succ : clusterWalk f k alloc i (n + 1) cur = (do
    when (i + 1 < k) (growAt f alloc cur)
    let w ← readFat cur
    clusterWalk f k alloc (i + 1) n w.toNat) := rfl

theorem growAt_keep (hcur : cur < fatWords) (h : s.fats cur ≠ fat32Used) :
    growAt f alloc cur s = .ret () s := by
  unfold growAt
  rw [bind_ret (readFat_eq hcur s), when_neg h]
  rfl

theorem growAt_end (hcur : cur < fatWords) (h : s.fats cur = fat32Used) : growAt f true cur s =
    (allocClusterWord >>= fun w => if s.fstClus f = 0 then modify fun s => s.setFstClus f w.toNat
      else writeFat cur w : FatM Unit) s := by
  unfold growAt
  rw [bind_ret (readFat_eq hcur s), when_pos h, if_neg (by decide), get_bind]

/-- A round that does not come upon the end, or is the last one. -/
theorem clusterWalk_step (hcur : cur < fatWords) (h : i + 1 < k → s.fats cur ≠ fat32Used) :
    clusterWalk f k alloc i (n + 1) cur s = clusterWalk f k alloc (i + 1) n (s.fats cur).toNat s := by
  have hgrow : when (i + 1 < k) (growAt f alloc cur) s = .ret () s := by
    by_cases hi : i + 1 < k
    · rw [when_pos hi, growAt_keep hcur (h hi)]
    · rw [when_neg hi, pure_apply]
  rw [clusterWalk_succ, bind_ret hgrow, bind_ret (readFat_eq hcur s)]

/-- Along a part of a chain that does not end, the walk changes nothing. -/
theorem clusterWalk_path : ∀ (xs : List Nat) (a b i n : Nat),
    Path (fun c => (s.fats c).toNat) a xs b →
    (∀ x ∈ xs, x < fatWords ∧ s.fats x ≠ fat32Used) →
    clusterWalk f k alloc i (xs.length + n) a s = clusterWalk f k alloc (i + xs.length) n b s := by
  intro xs
  induction xs with
  | nil =>
    rintro a _ i n rfl -
    rw [List.length_nil, Nat.zero_add, Nat.add_zero]
  | cons x xs ih =>
    rintro a b i n ⟨rfl, hrest⟩ hok
    have hx := hok a List.mem_cons_self
    rw [List.length_cons, show xs.length + 1 + n = xs.length + n + 1 by omega,
      clusterWalk_step hx.1 fun _ => hx.2,
      ih _ b (i + 1) n hrest fun y hy => hok y (List.mem_cons_of_mem a hy)]
    congr 1
    omega

/-- A round that comes upon the end of the chain, of a file that has a first cluster. -/
theorem clusterWalk_grow {w : Word} (hcur : cur < fatWords) (hi : i + 1 < k)
    (hend : s.fats cur = fat32Used) (hw : allocClusterWord s = .ret w u) (hf : s.fstClus f ≠ 0) :
    clusterWalk f k true i (n + 1) cur s =
      clusterWalk f k true (i + 1) n w.toNat { u with fats := update u.fats cur w } := by
  have hgrow : when (i + 1 < k) (growAt f true cur) s =
      .ret () { u with fats := update u.fats cur w } := by
    rw [when_pos hi, growAt_end hcur hend, bind_ret hw, if_neg hf, writeFat_eq hcur]
  rw [clusterWalk_succ, bind_ret hgrow, bind_ret (readFat_eq hcur _)]
  dsimp only
  rw [update_self]

end Walk

/-! ## Groups of clusters behind each other -/

/-- The clusters that are taken with the clusters `gs`. -/
def Fat32Bpb.groups (bpb : Fat32Bpb) (gs : List Nat) : List Nat :=
  gs.flatMap fun g => List.range' g bpb.group

@[simp] theorem Fat32Bpb.groups_nil (bpb : Fat32Bpb) : bpb.groups [] = [] := rfl

@[simp] theorem Fat32Bpb.groups_cons (bpb : Fat32Bpb) (g : Nat) (gs : List Nat) :
    bpb.groups (g :: gs) = List.range' g bpb.group ++ bpb.groups gs := rfl

/-- From `s` to `t`, groups of clusters have been taken one after the other, with the first clusters `gs`:
the first one has been linked to the cluster `o`, each of the others to the last cluster of the one
before. -/
inductive Appends (f : Nat) : FatFs → Nat → List Nat → FatFs → Prop where
  | nil (s : FatFs) (o : Nat) : Appends f s o [] s
  | cons {s u t : FatFs} {o g : Nat} {gs : List Nat} : Finds s g → s.fstClus f ≠ 0 →
      mapCluster g (s.claimAt g) = .ret () u →
      Appends f (u.link o g) (g + (s.bpb.group - 1)) gs t → Appends f s o (g :: gs) t

/-- No entry is free up to `b`. -/
def Full (s : FatFs) (b : Nat) : Prop := ∀ x, 2 ≤ x → x ≤ b → s.fats x ≠ fat32Free

theorem Finds.above {g b : Nat} (h : Finds s g) (hfull : Full s b) : b < g :=
  Nat.lt_of_not_le fun hle => hfull g h.two_le hle h.first.free

section Group

variable {g o x : Nat}

/-- The table after a group has been taken and linked. -/
theorem link_fats (h : mapCluster g (s.claimAt g) = .ret () u) :
    (u.link o g).bpb = s.bpb ∧
      (u.link o g).fats = update (claimed s.bpb.group g s.fats) o (BitVec.ofNat 32 g) := by
  have hrest := (mapCluster_loaded h).1.rest
  rw [hrest]
  exact ⟨rfl, rfl⟩

theorem Finds.toNat (h : Finds s g) : (BitVec.ofNat 32 g).toNat = g := by
  have := h.lt_words
  have : fatWords < 2 ^ 32 := by decide
  rw [BitVec.toNat_ofNat, Nat.mod_eq_of_lt (by omega)]

theorem claimed_ne_free {n : Nat} {fats : Nat → Word} (hfit : g + n ≤ fatWords) (h : g ≤ x)
    (h' : x < g + n) : claimed n g fats x ≠ fat32Free := by
  have hwords : fatWords < 2 ^ 32 := by decide
  unfold claimed
  rw [if_pos ⟨h, h'⟩]
  split
  · intro heq
    have hnat := congrArg BitVec.toNat heq
    rw [BitVec.toNat_ofNat, Nat.mod_eq_of_lt (by omega)] at hnat
    exact absurd hnat (Nat.succ_ne_zero x)
  · decide

/-- What has been taken is full. -/
theorem Finds.full (h : Finds s g) (hmap : mapCluster g (s.claimAt g) = .ret () u) :
    Full (u.link o g) (g + (s.bpb.group - 1)) := by
  intro x hx hle
  have hpos := s.bpb.group_pos
  rw [(link_fats hmap).2]
  by_cases hxo : x = o
  · subst hxo
    rw [update_self]
    intro heq
    have hnat := congrArg BitVec.toNat heq
    rw [h.toNat] at hnat
    have := h.two_le
    have hzero : fat32Free.toNat = 0 := rfl
    omega
  · rw [update_of_ne hxo]
    by_cases hlt : x < g
    · rw [claimed_of_not_mem (.inl hlt)]
      exact h.first.before x hx hlt
    · exact claimed_ne_free h.fits (by omega) (by omega)

/-- The links inside a group. -/
theorem Finds.inside (h : Finds s g) (hmap : mapCluster g (s.claimAt g) = .ret () u) {j : Nat}
    (hj : j + 1 < s.bpb.group) (ho : g + j ≠ o) :
    ((u.link o g).fats (g + j)).toNat = g + j + 1 := by
  have hfit := h.fits
  have hwords : fatWords < 2 ^ 32 := by decide
  rw [(link_fats hmap).2, update_of_ne ho, claimed_of_lt (by omega) (by omega), BitVec.toNat_ofNat,
    Nat.mod_eq_of_lt (by omega)]

theorem Finds.last (hmap : mapCluster g (s.claimAt g) = .ret () u)
    (ho : g + (s.bpb.group - 1) ≠ o) : (u.link o g).fats (g + (s.bpb.group - 1)) = fat32Used := by
  rw [(link_fats hmap).2, update_of_ne ho, claimed_last s.bpb.group_pos]

end Group

/-- The walk through a group. -/
theorem walk_group {k i n d g : Nat} {alloc : Bool} (h : ∀ j < d, g + j < fatWords ∧
    (s.fats (g + j)).toNat = g + j + 1) :
    clusterWalk f k alloc i (d + n) g s = clusterWalk f k alloc (i + d) n (g + d) s := by
  have hwords : fatWords < fat32Used.toNat := by decide
  have hpath : (∀ x ∈ List.range' g d, x < fatWords ∧ s.fats x ≠ fat32Used) →
      clusterWalk f k alloc i ((List.range' g d).length + n) g s =
        clusterWalk f k alloc (i + (List.range' g d).length) n (g + d) s :=
    clusterWalk_path _ g (g + d) i n (Path.range' fun j hj => (h j hj).2)
  rw [List.length_range'] at hpath
  refine hpath ?_
  intro x hx
  obtain ⟨j, hj, rfl⟩ := List.mem_range'.mp hx
  rw [Nat.one_mul]
  obtain ⟨hlt, hnext⟩ := h j hj
  refine ⟨hlt, fun hused => ?_⟩
  rw [hused] at hnext
  omega

namespace Appends

variable {o g : Nat} {gs : List Nat}

theorem bpb (h : Appends f s o gs t) : t.bpb = s.bpb := by
  induction h with
  | nil => rfl
  | cons _ _ hmap _ ih => rw [ih, (link_fats hmap).1]

/-- What is taken lies above what is full. -/
theorem above (h : Appends f s o gs t) : ∀ {b}, Full s b → ∀ x ∈ s.bpb.groups gs, b < x := by
  induction h with
  | nil => intro b _ x hx; simp at hx
  | cons hg _ hmap _ ih =>
    intro b hfull x hx
    have hbg := hg.above hfull
    rw [Fat32Bpb.groups_cons, List.mem_append, List.mem_range'_1] at hx
    rcases hx with hx | hx
    · omega
    · rw [← (link_fats hmap).1] at hx
      have := ih (hg.full hmap) x hx
      omega

/-- The groups behind the first one lie above it. -/
theorem rest_above {s u : FatFs} (hg : Finds s g) (hmap : mapCluster g (s.claimAt g) = .ret () u)
    (h : Appends f (u.link o g) (g + (s.bpb.group - 1)) gs t) :
    ∀ x ∈ s.bpb.groups gs, g + (s.bpb.group - 1) < x := by
  intro x hx
  rw [← (link_fats (o := o) hmap).1] at hx
  exact h.above (hg.full hmap) x hx

/-- The rest of the table stays. -/
theorem frame (h : Appends f s o gs t) : ∀ x, x ≠ o → x ∉ s.bpb.groups gs → t.fats x = s.fats x := by
  induction h with
  | nil => intro x _ _; rfl
  | @cons s u t o g gs hg _ hmap _ ih =>
    intro x hxo hx
    have hpos := s.bpb.group_pos
    rw [Fat32Bpb.groups_cons, List.mem_append, List.mem_range'_1, not_or] at hx
    rw [(link_fats hmap).1] at ih
    rw [ih x (by omega) hx.2, (link_fats hmap).2, update_of_ne hxo, claimed_of_not_mem (by omega)]

/-- The cluster `o` leads to the first group, if it is in none of them. -/
theorem linked (h : Appends f s o (g :: gs) t) (ho : o ∉ s.bpb.groups (g :: gs)) :
    (t.fats o).toNat = g := by
  cases h with
  | @cons _ u _ _ _ _ hg _ hmap hrest =>
    have hpos := s.bpb.group_pos
    have hframe := hrest.frame
    rw [(link_fats hmap).1] at hframe
    rw [Fat32Bpb.groups_cons, List.mem_append, List.mem_range'_1, not_or] at ho
    rw [hframe o (by omega) ho.2, (link_fats hmap).2, update_self, hg.toNat]

/-- What has been taken is a chain, unless `o` is in the first group. -/
theorem chain (h : Appends f s o gs t) : ∀ g gs', gs = g :: gs' →
    o ∉ List.range' g s.bpb.group → FatChain t.fats g (s.bpb.groups gs) := by
  induction h with
  | nil => intro g gs' heq; cases heq
  | @cons s u t o g gs hg _ hmap hrest ih =>
    rintro _ _ heq ho
    obtain ⟨rfl, rfl⟩ := List.cons.inj heq
    have hpos := s.bpb.group_pos
    have habove := rest_above hg hmap hrest
    have hframe := hrest.frame
    rw [(link_fats hmap).1] at hframe ih
    rw [List.mem_range'_1] at ho
    -- inside the group the links are as they have been taken
    have hinside : ∀ j < s.bpb.group - 1, (t.fats (g + j)).toNat = g + j + 1 := by
      intro j hj
      rw [hframe (g + j) (by omega) fun hm => absurd (habove _ hm) (by omega)]
      exact hg.inside hmap (by omega) (by omega)
    have hgroup : List.range' g s.bpb.group =
        List.range' g (s.bpb.group - 1) ++ [g + (s.bpb.group - 1)] := by
      rw [← List.range'_1_concat, Nat.sub_add_cancel hpos]
    rw [Fat32Bpb.groups_cons, hgroup, List.append_assoc]
    refine Path.append (Path.range' hinside) ⟨rfl, ?_⟩
    cases gs with
    | nil =>
      cases hrest
      show ((u.link o g).fats _).toNat = _
      rw [Finds.last hmap (by omega)]
    | cons g' gs =>
      have hlast : g + (s.bpb.group - 1) ∉ s.bpb.groups (g' :: gs) :=
        fun hm => absurd (habove _ hm) (lt_irrefl _)
      have hlink := hrest.linked (by rw [(link_fats hmap).1]; exact hlast)
      show Path _ ((t.fats (g + (s.bpb.group - 1))).toNat) _ _
      rw [hlink]
      refine ih g' gs rfl fun hm => hlast ?_
      rw [Fat32Bpb.groups_cons]
      exact List.mem_append_left _ hm

/-- No cluster is taken twice. -/
theorem nodup (h : Appends f s o gs t) : (s.bpb.groups gs).Nodup := by
  induction h with
  | nil => exact List.nodup_nil
  | @cons s u t o g gs hg _ hmap hrest ih =>
    rw [(link_fats hmap).1] at ih
    rw [Fat32Bpb.groups_cons]
    refine List.nodup_append'.mpr ⟨List.nodup_range', ih, ?_⟩
    intro x hx hx'
    have habove := rest_above hg hmap hrest x hx'
    rw [List.mem_range'_1] at hx
    omega

end Appends

theorem allocClusterWord_finds {g : Nat} (hg : Finds s g)
    (hmap : mapCluster g (s.claimAt g) = .ret () u) :
    allocClusterWord s = .ret (BitVec.ofNat 32 g) u := by
  have hall := allocCluster_finds hg
  rw [hmap] at hall
  exact bind_ret (attempt_ret hall)

section Rounds

variable {k i r o g : Nat}

/-- The rounds of the walk from the one that takes the group `g` on, `d` places into the group. -/
theorem clusterWalk_into (hg : Finds s g) (hfst : s.fstClus f ≠ 0)
    (hmap : mapCluster g (s.claimAt g) = .ret () u) (hcur : o < fatWords)
    (hend : s.fats o = fat32Used) (ho : o ∉ List.range' g s.bpb.group) {n d : Nat}
    (hd : d < s.bpb.group) (hi : i + 1 < k) :
    clusterWalk f k true i (d + n + 1) o s =
      clusterWalk f k true (i + 1 + d) n (g + d) (u.link o g) := by
  have hfit := hg.fits
  rw [List.mem_range'_1] at ho
  rw [clusterWalk_grow hcur hi hend (allocClusterWord_finds hg hmap) hfst, hg.toNat]
  exact walk_group fun j hj => ⟨by omega, hg.inside hmap (by omega) (by omega)⟩

/-- The walk takes the groups one after the other, and ends inside the last one. -/
theorem Appends.walk {gs : List Nat} (h : Appends f s o gs t) : ∀ i r g gs', gs = g :: gs' →
    o < fatWords → s.fats o = fat32Used → o ∉ List.range' g s.bpb.group → i + r = k →
    gs'.length * s.bpb.group + 1 < r → r ≤ gs'.length * s.bpb.group + s.bpb.group →
    ∃ c, (s.bpb.groups gs)[r - 1]? = some c ∧ clusterWalk f k true i r o s = .ret c t := by
  induction h with
  | nil => intro i r g gs' heq; cases heq
  | @cons s u t o g gs hg hfst hmap hrest ih =>
    rintro i r _ _ heq hcur hend ho hir hlow hhigh
    obtain ⟨rfl, rfl⟩ := List.cons.inj heq
    have hpos := s.bpb.group_pos
    have hfit := hg.fits
    rw [Fat32Bpb.groups_cons]
    cases gs with
    | nil =>
      cases hrest
      rw [List.length_nil, Nat.zero_mul] at hlow hhigh
      refine ⟨g + (r - 1), ?_, ?_⟩
      · rw [Fat32Bpb.groups_nil, List.append_nil, List.getElem?_range' (by omega), Nat.one_mul]
      · have hwalk := clusterWalk_into (k := k) (i := i) (n := 0) (d := r - 1) hg hfst hmap hcur hend ho
          (by omega) (by omega)
        rw [show r - 1 + 0 + 1 = r by omega] at hwalk
        rw [hwalk]
        rfl
    | cons g' gs =>
      rw [List.length_cons, Nat.succ_mul] at hlow hhigh
      have habove := rest_above hg hmap hrest
      obtain ⟨n, rfl⟩ : ∃ n, r = s.bpb.group - 1 + n + 1 := ⟨r - s.bpb.group, by omega⟩
      have hlast : g + (s.bpb.group - 1) ≠ o := by
        rw [List.mem_range'_1] at ho
        omega
      have hbpb := (link_fats (o := o) hmap).1
      rw [hbpb] at ih
      have hnext : g + (s.bpb.group - 1) ∉ List.range' g' s.bpb.group := by
        intro hm
        refine absurd (habove (g + (s.bpb.group - 1)) ?_) (lt_irrefl _)
        rw [Fat32Bpb.groups_cons]
        exact List.mem_append_left _ hm
      obtain ⟨c, hc, hwalk⟩ := ih (i + 1 + (s.bpb.group - 1)) n g' gs rfl (by omega)
        (Finds.last hmap hlast) hnext (by omega) (by omega) (by omega)
      refine ⟨c, ?_, ?_⟩
      · rw [List.getElem?_append_right (by rw [List.length_range']; omega), List.length_range',
          show s.bpb.group - 1 + n + 1 - 1 - s.bpb.group = n - 1 by omega]
        exact hc
      · rw [clusterWalk_into hg hfst hmap hcur hend ho (by omega) (by omega)]
        exact hwalk

end Rounds

end Mos
