import Mos.Fs.FatMem

/-!
# Cutting a chain

`fatfile_truncate` adds 2 to the number of clusters of the old size and of the new size. So it keeps two
clusters too many and one more, and then frees four entries more than there are: it always arrives at the
end marker and goes on with `fats[FAT32_USED]`, which is no entry of the table.
-/

namespace Mos

open Lib Prog Function

variable {s : FatFs} {a n : Nat} {xs : List Nat}

/-! ## Walking over the end -/

theorem used_wild : fatWords ≤ fat32Used.toNat := by decide

/-- Following a chain for as many steps as it has clusters, or fewer: it leads to the rest of the chain. -/
theorem follow_chain : ∀ n a (xs : List Nat), FatChain s.fats a xs → n ≤ xs.length →
    follow n a s = .halt .wild ∨ ∃ b, follow n a s = .ret b s ∧ FatChain s.fats b (xs.drop n) := by
  intro n
  induction n with
  | zero => intro a xs h _; exact .inr ⟨a, rfl, h⟩
  | succ n ih =>
    intro a xs h hlen
    cases xs with
    | nil => exact absurd hlen (by simp)
    | cons x xs =>
      obtain ⟨rfl, h⟩ := h
      rw [follow]
      by_cases ha : a < fatWords
      · rw [bind_ret (readFat_eq ha s)]
        exact ih _ xs h (by simpa using hlen)
      · exact .inl (bind_halt (readFat_wild (by omega) s))

theorem follow_wild : ∀ n a (xs : List Nat), FatChain s.fats a xs → xs.length < n →
    follow n a s = .halt .wild := by
  intro n
  induction n with
  | zero => intro a xs _ hlen; omega
  | succ n ih =>
    intro a xs h hlen
    rw [follow]
    cases xs with
    | nil =>
      obtain rfl : a = _ := h
      exact bind_halt (readFat_wild used_wild s)
    | cons x xs =>
      obtain ⟨rfl, h⟩ := h
      by_cases ha : a < fatWords
      · rw [bind_ret (readFat_eq ha s)]
        exact ih _ xs h (by simpa using hlen)
      · exact bind_halt (readFat_wild (by omega) s)

/-- Entries outside a chain may change. -/
theorem FatChain.update {fats : Nat → Word} {x : Nat} (h : FatChain fats a xs) (hx : x ∉ xs) (w : Word) :
    FatChain (Function.update fats x w) a xs := by
  refine Path.congr h fun y hy => ?_
  have hne : y ≠ x := by
    rintro rfl
    exact hx hy
  rw [update_of_ne hne]

theorem freeRun_wild : ∀ n a (xs : List Nat) (s : FatFs), FatChain s.fats a xs → xs.Nodup →
    xs.length < n → freeRun n a s = .halt .wild := by
  intro n
  induction n with
  | zero => intro a xs s _ _ hlen; omega
  | succ n ih =>
    intro a xs s h hnd hlen
    rw [freeRun]
    cases xs with
    | nil =>
      obtain rfl : a = _ := h
      exact bind_halt (readFat_wild used_wild s)
    | cons x xs =>
      obtain ⟨rfl, h⟩ := h
      by_cases ha : a < fatWords
      · rw [bind_ret (readFat_eq ha s), bind_ret (writeFat_eq ha _ s)]
        have hnd := List.nodup_cons.mp hnd
        exact ih _ xs _ (FatChain.update h hnd.1 _) hnd.2 (by simpa using hlen)
      · exact bind_halt (readFat_wild (by omega) s)

/-! ## `fatfile_truncate` -/

/-- The number of clusters that a size needs. -/
def Fat32Bpb.clusters (bpb : Fat32Bpb) (size : Nat) : Nat :=
  (size + bpb.bytsPerCluster - 1) / bpb.bytsPerCluster

theorem truncClus_eq (bpb : Fat32Bpb) (size : Nat) : truncClus bpb size = bpb.clusters size + 2 := by
  unfold truncClus Fat32Bpb.clusters
  have hpos := bpb.bytsPerCluster_pos
  generalize bpb.bytsPerCluster = b at hpos ⊢
  have hsplit := Nat.div_add_mod size b
  have hlt := Nat.mod_lt size hpos
  by_cases hmod : size % b = 0
  · have hdiv : (size + b - 1) / b = size / b := by
      rw [show size + b - 1 = (b - 1) + b * (size / b) by omega, Nat.add_mul_div_left _ _ hpos,
        Nat.div_eq_of_lt (by omega)]
      omega
    simp [hmod, hdiv]
  · have hdiv : (size + b - 1) / b = size / b + 1 := by
      rw [show size + b - 1 = (size % b - 1) + b * (size / b + 1) by rw [Nat.mul_add]; omega,
        Nat.add_mul_div_left _ _ hpos, Nat.div_eq_of_lt (by omega)]
      omega
    simp [hmod, hdiv]

theorem Fat32Bpb.clusters_mono (bpb : Fat32Bpb) {m n : Nat} (h : m ≤ n) :
    bpb.clusters m ≤ bpb.clusters n := by
  unfold clusters
  exact Nat.div_le_div_right (by omega)

/-- Cutting at entry `m` of a chain and freeing more entries than remain. -/
theorem cut_wild {m k : Nat} (h : FatChain s.fats a xs) (hnd : xs.Nodup) (hk : xs.length < m + 1 + k)
    (hm : m ≤ xs.length) :
    (do
      let clusno ← follow m a
      let t ← readFat clusno
      writeFat clusno fat32Used
      freeRun k t.toNat : FatM Unit) s = .halt .wild := by
  obtain hwild | ⟨b, hret, hb⟩ := follow_chain m a xs h hm
  · exact bind_halt hwild
  · rw [bind_ret hret]
    have hnd' : (xs.drop m).Nodup := (List.drop_sublist m xs).nodup hnd
    have hlen : (xs.drop m).length = xs.length - m := List.length_drop
    generalize xs.drop m = ys at hb hnd' hlen
    cases ys with
    | nil =>
      obtain rfl : b = _ := hb
      exact bind_halt (readFat_wild used_wild s)
    | cons y ys =>
      obtain ⟨rfl, hb⟩ := hb
      by_cases hw : b < fatWords
      · have hnd' := List.nodup_cons.mp hnd'
        rw [List.length_cons] at hlen
        rw [bind_ret (readFat_eq hw s), bind_ret (writeFat_eq hw _ s)]
        exact freeRun_wild k _ ys _ (FatChain.update hb hnd'.1 _) hnd'.2 (by omega)
      · exact bind_halt (readFat_wild (by omega) s)

/-- The loops of `fatfile_truncate` on a file that has the clusters that its size needs. -/
theorem truncRun_wild {f m : Nat} (h : s.FileChain f xs) (hlen : xs.length = s.bpb.clusters (s.fileSize f))
    (hpos : 0 < s.fileSize f) (hm : m ≤ s.bpb.clusters (s.fileSize f) + 2) :
    (do
      let clusno ← follow m (s.fstClus f)
      let t ← readFat clusno
      writeFat clusno fat32Used
      freeRun (s.bpb.clusters (s.fileSize f) + 2 + 1 - m) t.toNat : FatM Unit) s = .halt .wild := by
  have hclus : 0 < s.bpb.clusters (s.fileSize f) := by
    unfold Fat32Bpb.clusters
    have := s.bpb.bytsPerCluster_pos
    exact Nat.div_pos (by omega) this
  have hpath := h.path (by rintro rfl; simp at hlen; omega)
  by_cases hle : m ≤ xs.length
  · exact cut_wild hpath h.nodup (by omega) hle
  · exact bind_halt (follow_wild _ _ xs hpath (by omega))

/-- A file that has the clusters that its size needs cannot be made smaller. -/
theorem fatfileTruncate_wild {f : Nat} (h : s.FileChain f xs)
    (hlen : xs.length = s.bpb.clusters (s.fileSize f)) (hn : n < s.fileSize f) (h0 : 0 < n) :
    fatfileTruncate f n s = .halt .wild := by
  have hmono := s.bpb.clusters_mono hn.le
  unfold fatfileTruncate
  rw [get_bind, if_neg (by omega), truncClus_eq, truncClus_eq, when_pos (by omega)]
  exact bind_halt (truncRun_wild h hlen (by omega) (by omega))

/-- What making a file smaller is for: it keeps the clusters that the new size needs, the others are free,
and nothing else in the table has changed. That `fatfile_truncate` returns says also that it has not left
the table. -/
def Shrunk (s : FatFs) (f n : Nat) (xs : List Nat) : Prop :=
  ∃ t, fatfileTruncate f n s = .ret () t ∧ t.FileChain f (xs.take (s.bpb.clusters n)) ∧
    (∀ x ∈ xs.drop (s.bpb.clusters n), t.fats x = fat32Free) ∧
    (∀ x, x ∉ xs → t.fats x = s.fats x) ∧ t.fileSize f = n

/-- **`fatfile_truncate` never makes a file smaller.** Whatever the file and the new size, it indexes the
table with `FAT32_USED`. -/
theorem fatfileTruncate_never_shrinks {f : Nat} (h : s.FileChain f xs)
    (hlen : xs.length = s.bpb.clusters (s.fileSize f)) (h0 : 0 < n) (hn : n < s.fileSize f) :
    ¬Shrunk s f n xs := by
  rintro ⟨t, hret, -⟩
  rw [fatfileTruncate_wild h hlen hn h0] at hret
  cases hret

/-- The page of the root directory is mapped, and its second entry is the file. -/
def mountedEmpty : FatFs :=
  { FatFs.blank pageClusters with
    fats := fun c => if c = 3 then 4 else if c = 4 then 5 else if c < 6 then fat32Used else 0
    cache := fun p => if p = 0x10400 then some ⟨fun _ => 0, false⟩ else none }

/-- A file with the three clusters 3, 4 and 5 at the entry `0x10400040`. -/
def threeClusters : FatFs := (mountedEmpty.setFstClus 0x10400040 3).setFileSize 0x10400040 12288

theorem mountedEmpty_isEntry : mountedEmpty.IsEntry 0x10400040 := ⟨by decide, by decide⟩

theorem threeClusters_fileSize : threeClusters.fileSize 0x10400040 = 12288 :=
  FatFs.fileSize_setFileSize ((mountedEmpty_isEntry.setHalf _ _).setHalf _ _) (by decide)

theorem threeClusters_fileChain : threeClusters.FileChain 0x10400040 [3, 4, 5] := by
  have hfst : threeClusters.fstClus 0x10400040 = 3 :=
    (FatFs.fstClus_setFileSize ((mountedEmpty_isEntry.setHalf _ _).setHalf _ _)).trans
      (FatFs.fstClus_setFstClus mountedEmpty_isEntry (by decide))
  refine ⟨.inr ⟨by simp, ?_⟩, by decide, by decide⟩
  rw [hfst]
  exact ⟨rfl, rfl, rfl, rfl⟩

/-- Two of the three clusters should stay. -/
theorem fatfileTruncate_never_shrinks_three :
    threeClusters.FileChain 0x10400040 [3, 4, 5] ∧ ¬Shrunk threeClusters 0x10400040 8192 [3, 4, 5] :=
  ⟨threeClusters_fileChain, fatfileTruncate_never_shrinks threeClusters_fileChain
    (by rw [threeClusters_fileSize]; rfl) (by decide) (by rw [threeClusters_fileSize]; decide)⟩

/-- One of the three clusters should stay. -/
theorem fatfileTruncate_leaves_table : ¬Shrunk threeClusters 0x10400040 4096 [3, 4, 5] := by
  rintro ⟨t, hret, -⟩
  rw [fatfileTruncate_wild threeClusters_fileChain (by rw [threeClusters_fileSize]; rfl)
    (by rw [threeClusters_fileSize]; decide) (by decide)] at hret
  cases hret

end Mos
