import Mos.Fs.FatCut

/-!
# Writing a file's part of the table back

`fat_flush` goes along the chain of a file and writes a sector of the table for each cluster, each sector
once. It computes the number of the page in which the entry lies and takes it for the number of the sector.
The two agree for the clusters of the first sector only.
-/

namespace Mos

open Lib Prog Function

/-- `flushedClus` at the end, when it is `ps` before the clusters `xs`. -/
def flushList : List Nat → List Nat → List Nat
  | ps, [] => ps
  | ps, x :: xs => flushList (if flushSec x ∈ ps then ps else ps ++ [flushSec x]) xs

theorem length_le_flushList : ∀ (xs ps : List Nat), ps.length ≤ (flushList ps xs).length := by
  intro xs
  induction xs with
  | nil => intro ps; exact le_refl _
  | cons x xs ih =>
    intro ps
    rw [flushList]
    refine le_trans ?_ (ih _)
    split
    · exact le_refl _
    · simp

theorem mem_flushList {p : Nat} : ∀ (xs ps : List Nat),
    p ∈ flushList ps xs ↔ p ∈ ps ∨ ∃ x ∈ xs, flushSec x = p := by
  intro xs
  induction xs with
  | nil => intro ps; simp [flushList]
  | cons x xs ih =>
    intro ps
    rw [flushList, ih]
    split
    next h =>
      constructor
      · rintro (hp | ⟨y, hy, rfl⟩)
        · exact .inl hp
        · exact .inr ⟨y, List.mem_cons_of_mem x hy, rfl⟩
      · rintro (hp | ⟨y, hy, rfl⟩)
        · exact .inl hp
        · rcases List.mem_cons.mp hy with rfl | hy
          · exact .inl h
          · exact .inr ⟨y, hy, rfl⟩
    next => simp [or_assoc, eq_comm]

namespace FatFs

/-- The disk when the sectors `ps` have been written. -/
def flushedDisk (s : FatFs) (ps : List Nat) : Nat → Byte := fun a =>
  if s.bpb.rsvdSecCnt ≤ a / 512 ∧ a / 512 - s.bpb.rsvdSecCnt ∈ ps
    then s.fatByte ((a / 512 - s.bpb.rsvdSecCnt) * s.bpb.bytsPerSec + a % 512)
    else s.disk a

/-- The state when the sectors `ps` have been written. -/
def flushedTo (s : FatFs) (ps : List Nat) : FatFs :=
  { s with disk := s.flushedDisk ps, written := s.written ++ ps.map (s.bpb.rsvdSecCnt + ·) }

theorem flushedTo_nil (s : FatFs) : s.flushedTo [] = s := by
  unfold flushedTo flushedDisk
  simp

end FatFs

variable {s : FatFs}

/-! ## One round -/

theorem flushSec_lt (c : Nat) : flushSec c < 2 ^ 20 := by
  unfold flushSec
  omega

theorem ideRounds_one {n : Nat} (h : n < 2 ^ 21) : ideRounds n 1 = 1 ∧ ideBegin n = 512 * n := by
  have hbegin : ideBegin n = 512 * n := by
    unfold ideBegin by2sect
    rw [Nat.mul_comm, Nat.mod_eq_of_lt (by omega)]
  refine ⟨?_, hbegin⟩
  unfold ideRounds
  rw [hbegin]
  unfold by2sect
  rw [Nat.one_mul, Nat.mod_eq_of_lt (by omega), Nat.add_sub_cancel_left]

/-- The write of one sector. -/
theorem fatIdeWrite_flush {sec : Nat} {ps : List Nat} (hsec : sec < 2 ^ 20) :
    fatIdeWrite (s.bpb.rsvdSecCnt + sec) (fun j => s.fatByte (sec * s.bpb.bytsPerSec + j)) 1
      (s.flushedTo ps) = .ret () (s.flushedTo (ps ++ [sec])) := by
  have hrsvd := s.bpb.width.1
  obtain ⟨hone, hbegin⟩ := ideRounds_one (n := s.bpb.rsvdSecCnt + sec) (by omega)
  unfold fatIdeWrite
  rw [hone, hbegin]
  show Outcome.ret () _ = _
  congr 1
  unfold FatFs.flushedTo by2sect
  dsimp only
  congr 1
  · funext a
    unfold writeSector readSector FatFs.flushedDisk by2sect
    rw [Nat.mul_zero, Nat.add_zero]
    by_cases ha : a / 512 = s.bpb.rsvdSecCnt + sec
    · have hin : 512 * (s.bpb.rsvdSecCnt + sec) ≤ a ∧ a < 512 * (s.bpb.rsvdSecCnt + sec) + 512 := by
        rw [← ha]
        omega
      have hsub : a / 512 - s.bpb.rsvdSecCnt = sec := by omega
      have hmod : 0 + (a - 512 * (s.bpb.rsvdSecCnt + sec)) = a % 512 := by
        rw [← ha]
        omega
      rw [if_pos hin, hsub, hmod, if_pos ⟨by omega, by simp⟩]
    · have hout : ¬(512 * (s.bpb.rsvdSecCnt + sec) ≤ a ∧ a < 512 * (s.bpb.rsvdSecCnt + sec) + 512) := by
        rintro ⟨h₁, h₂⟩
        refine ha ?_
        rw [Nat.div_eq_iff (by decide)]
        omega
      rw [if_neg hout]
      have hiff : (s.bpb.rsvdSecCnt ≤ a / 512 ∧ a / 512 - s.bpb.rsvdSecCnt ∈ ps ++ [sec]) ↔
          (s.bpb.rsvdSecCnt ≤ a / 512 ∧ a / 512 - s.bpb.rsvdSecCnt ∈ ps) := by
        refine and_congr_right fun hle => ?_
        rw [List.mem_append, List.mem_singleton]
        constructor
        · rintro (hm | heq)
          · exact hm
          · omega
        · exact .inl
      simp only [hiff]
  · rw [List.map_append, ← List.append_assoc]
    congr 1
    simp

/-- One round of the loop, at the cluster `x`. -/
theorem fatFlushFrom_succ (fuel x : Nat) (ps : List Nat) :
    fatFlushFrom (fuel + 1) ps x (s.flushedTo ps) =
      if (flushSec x ∉ ps ∧ 128 ≤ ps.length) ∨ fatWords ≤ x then .halt .wild
      else if (s.fats x).toNat > s.bpb.nclus then .ret () (s.flushedTo (flushList ps [x]))
      else fatFlushFrom fuel (flushList ps [x]) (s.fats x).toNat (s.flushedTo (flushList ps [x])) := by
  rw [fatFlushFrom, get_bind]
  show (when (flushSec x ∉ ps) _ >>= fun _ => _) _ = _
  -- what remains after the sector has been dealt with
  have hrest : ∀ ps', (readFat x >>= fun w => if w.toNat > (s.flushedTo ps).bpb.nclus then pure ()
      else fatFlushFrom fuel (if flushSec x ∈ ps then ps else ps ++ [flushSec x]) w.toNat)
        (s.flushedTo ps') =
      if fatWords ≤ x then .halt .wild
      else if (s.fats x).toNat > s.bpb.nclus then .ret () (s.flushedTo ps')
      else fatFlushFrom fuel (flushList ps [x]) (s.fats x).toNat (s.flushedTo ps') := by
    intro ps'
    by_cases hx : fatWords ≤ x
    · rw [if_pos hx, bind_halt (readFat_wild hx _)]
    · rw [if_neg hx, bind_ret (readFat_eq (by omega) _)]
      show (if (s.fats x).toNat > s.bpb.nclus then _ else _ : FatM Unit) _ = _
      split <;> rfl
  by_cases hmem : flushSec x ∈ ps
  · rw [when_neg (not_not_intro hmem), pure_bind]
    refine (hrest ps).trans ?_
    simp only [flushList, hmem, not_true_eq_false, false_and, false_or, if_true]
  · rw [when_pos hmem]
    by_cases hlen : 128 ≤ ps.length
    · have hfull : (flushSec x ∉ ps ∧ 128 ≤ ps.length) ∨ fatWords ≤ x := .inl ⟨hmem, hlen⟩
      refine Eq.trans ?_ (if_pos hfull).symm
      exact bind_halt ((bind_ret (@fatIdeWrite_flush s _ ps (flushSec_lt x))).trans
        (assert_neg (by omega)))
    · have hwrite : (fatIdeWrite ((s.flushedTo ps).bpb.rsvdSecCnt + flushSec x)
          (fun j => (s.flushedTo ps).fatByte (flushSec x * (s.flushedTo ps).bpb.bytsPerSec + j)) 1 >>=
          fun _ => assert (ps.length < 128) FatPanic.wild : FatM Unit) (s.flushedTo ps) =
          .ret () (s.flushedTo (ps ++ [flushSec x])) :=
        (bind_ret (@fatIdeWrite_flush s _ ps (flushSec_lt x))).trans (assert_pos (by omega))
      rw [bind_ret hwrite]
      refine (hrest _).trans ?_
      simp only [flushList, hmem, if_false, hlen, and_false, false_or]

/-! ## The loop -/

/-- What `fat_flush` needs to get along the chain `xs`, when `flushedClus` holds `ps` already. -/
structure FlushFits (s : FatFs) (ps xs : List Nat) : Prop where
  words : ∀ x ∈ xs, x < fatWords
  ends : s.bpb.nclus < fat32Used.toNat
  few : (flushList ps xs).length ≤ 128

theorem flushList_cons (ps : List Nat) (x : Nat) (xs : List Nat) :
    flushList ps (x :: xs) = flushList (flushList ps [x]) xs := rfl

/-- The first round does not leave the table or the array. -/
theorem FlushFits.round {ps xs : List Nat} {x : Nat} (h : FlushFits s ps (x :: xs)) :
    ¬((flushSec x ∉ ps ∧ 128 ≤ ps.length) ∨ fatWords ≤ x) := by
  rintro (⟨hmem, hlen⟩ | hx)
  · have hle := length_le_flushList xs (flushList ps [x])
    rw [← flushList_cons] at hle
    have hone : (flushList ps [x]).length = ps.length + 1 := by
      simp [flushList, hmem]
    have := h.few
    omega
  · have := h.words x List.mem_cons_self
    omega

theorem FlushFits.tail {ps xs : List Nat} {x : Nat} (h : FlushFits s ps (x :: xs)) :
    FlushFits s (flushList ps [x]) xs :=
  ⟨fun y hy => h.words y (List.mem_cons_of_mem x hy), h.ends, h.few⟩

/-- With enough fuel, the loop writes the sectors and comes back. -/
theorem fatFlushFrom_ret : ∀ (xs : List Nat) (x fuel : Nat) (ps : List Nat),
    FatChain s.fats x (x :: xs) → (∀ y ∈ xs, y < s.bpb.nclus) → FlushFits s ps (x :: xs) →
    xs.length < fuel →
    fatFlushFrom fuel ps x (s.flushedTo ps) = .ret () (s.flushedTo (flushList ps (x :: xs))) := by
  intro xs
  induction xs with
  | nil =>
    intro x fuel ps h _ hfits hfuel
    obtain ⟨fuel, rfl⟩ : ∃ n, fuel = n + 1 := ⟨fuel - 1, by simp at hfuel; omega⟩
    have hend : (s.fats x).toNat = fat32Used.toNat := h.2
    rw [fatFlushFrom_succ, if_neg hfits.round, if_pos (by rw [hend]; exact hfits.ends)]
  | cons y ys ih =>
    intro x fuel ps h hlt hfits hfuel
    rw [List.length_cons] at hfuel
    obtain ⟨fuel, rfl⟩ : ∃ n, fuel = n + 1 := ⟨fuel - 1, by omega⟩
    obtain ⟨-, hnext, hrest⟩ := h
    dsimp only at hnext
    have hy := hlt y List.mem_cons_self
    rw [fatFlushFrom_succ, if_neg hfits.round, hnext, if_neg (by omega)]
    exact ih y fuel _ ⟨rfl, hrest⟩ (fun z hz => hlt z (List.mem_cons_of_mem y hz)) hfits.tail
      (by omega)

theorem length_flushList_one {ps : List Nat} {x : Nat} (hlen : ps.length ≤ 128)
    (h : ¬(flushSec x ∉ ps ∧ 128 ≤ ps.length)) : (flushList ps [x]).length ≤ 128 := by
  rw [flushList, flushList]
  split
  · exact hlen
  next hmem =>
    rw [List.length_append, List.length_singleton]
    exact Nat.lt_of_not_le fun hfull => h ⟨hmem, hfull⟩

/-- When it comes back, it has not left the table or the array. -/
theorem flushFits_of_ret : ∀ (xs : List Nat) (x fuel : Nat) (ps : List Nat) (t : FatFs),
    FatChain s.fats x (x :: xs) → (∀ y ∈ xs, y < s.bpb.nclus) → ps.length ≤ 128 →
    fatFlushFrom fuel ps x (s.flushedTo ps) = .ret () t →
    FlushFits s ps (x :: xs) ∧ xs.length < fuel := by
  intro xs
  induction xs with
  | nil =>
    intro x fuel ps t h _ hlen hret
    cases fuel with
    | zero => cases hret
    | succ fuel =>
      have hend : (s.fats x).toNat = fat32Used.toNat := h.2
      rw [fatFlushFrom_succ] at hret
      split at hret
      · cases hret
      next hok =>
        rw [hend] at hret
        have hends : s.bpb.nclus < fat32Used.toNat := by
          by_contra hno
          rw [if_neg hno] at hret
          cases fuel with
          | zero => cases hret
          | succ fuel =>
            rw [fatFlushFrom_succ, if_pos (.inr (by decide))] at hret
            cases hret
        refine ⟨⟨fun y hy => ?_, hends, ?_⟩, by simp⟩
        · rw [List.mem_singleton.mp hy]
          exact Nat.lt_of_not_le fun hx => hok (.inr hx)
        · exact length_flushList_one hlen fun hfull => hok (.inl hfull)
  | cons y ys ih =>
    intro x fuel ps t h hlt hlen hret
    cases fuel with
    | zero => cases hret
    | succ fuel =>
      obtain ⟨-, hnext, hrest⟩ := h
      dsimp only at hnext
      have hy := hlt y List.mem_cons_self
      rw [fatFlushFrom_succ] at hret
      split at hret
      · cases hret
      next hok =>
        rw [hnext, if_neg (by omega)] at hret
        have hlen' := length_flushList_one hlen fun hfull => hok (.inl hfull)
        obtain ⟨hfits, hfuel⟩ := ih y fuel _ t ⟨rfl, hrest⟩
          (fun z hz => hlt z (List.mem_cons_of_mem y hz)) hlen' hret
        refine ⟨⟨fun z hz => ?_, hfits.ends, hfits.few⟩, by rw [List.length_cons]; omega⟩
        rcases List.mem_cons.mp hz with rfl | hz
        · exact Nat.lt_of_not_le fun hx => hok (.inr hx)
        · exact hfits.words z hz

/-! ## What a flush is for -/

theorem nodup_flushList : ∀ (xs ps : List Nat), ps.Nodup → (flushList ps xs).Nodup := by
  intro xs
  induction xs with
  | nil => intro ps h; exact h
  | cons x xs ih =>
    intro ps h
    refine ih _ ?_
    split
    · exact h
    next hx => exact List.nodup_append'.mpr ⟨h, List.nodup_singleton _, by simpa using hx⟩

/-- `flushedClus` holds each page number of the chain once. -/
theorem length_flushList (xs : List Nat) :
    (flushList [] xs).length = (xs.map flushSec).toFinset.card := by
  rw [← List.toFinset_card_of_nodup (nodup_flushList xs [] List.nodup_nil)]
  congr 1
  ext p
  simp [mem_flushList]

/-- Where the first table on the disk has the entry of the cluster `c`. -/
def Fat32Bpb.fatAddr (bpb : Fat32Bpb) (c : Nat) : Nat := bpb.rsvdSecCnt * bpb.bytsPerSec + 4 * c

/-- The 512 bytes with the number `sec` belong to the tables on the disk. -/
def Fat32Bpb.InFat (bpb : Fat32Bpb) (sec : Nat) : Prop :=
  bpb.rsvdSecCnt * bpb.bytsPerSec ≤ 512 * sec ∧
    512 * sec + 512 ≤ (bpb.rsvdSecCnt + bpb.numFATs * bpb.fatSz32) * bpb.bytsPerSec

instance (bpb : Fat32Bpb) (sec : Nat) : Decidable (bpb.InFat sec) :=
  inferInstanceAs (Decidable (_ ∧ _))

/-- `fat_flush` returns, the disk has the entries of the file's clusters as the table in memory has them,
and only sectors of the tables have been written. -/
def Flushed (s : FatFs) (f : Nat) (xs : List Nat) : Prop :=
  ∃ fuel t ws, fatFlush fuel f s = .ret () t ∧
    (∀ c ∈ xs, ∀ i < 4, t.disk (s.bpb.fatAddr c + i) = t.fatByte (4 * c + i)) ∧
    t.written = s.written ++ ws ∧ ∀ sec ∈ ws, s.bpb.InFat sec

/-- Byte `i` of the entry of `c` on the disk is right after the flush of the chain `xs`: either it lies in
a sector that is written, and the bytes for that sector are taken from the right place, or it was right. -/
def EntryLands (s : FatFs) (xs : List Nat) (c i : Nat) : Prop :=
  let a := s.bpb.fatAddr c + i
  if s.bpb.rsvdSecCnt ≤ a / 512 ∧ ∃ d ∈ xs, flushSec d = a / 512 - s.bpb.rsvdSecCnt
    then s.fatByte ((a / 512 - s.bpb.rsvdSecCnt) * s.bpb.bytsPerSec + a % 512) = s.fatByte (4 * c + i)
    else s.disk a = s.fatByte (4 * c + i)

theorem entryLands_iff {xs : List Nat} {c i : Nat} : EntryLands s xs c i ↔
    s.flushedDisk (flushList [] xs) (s.bpb.fatAddr c + i) = s.fatByte (4 * c + i) := by
  unfold EntryLands FatFs.flushedDisk
  simp only [mem_flushList, List.not_mem_nil, false_or]
  split <;> rfl

/-- Where sectors have 512 bytes, the entry must lie in one of the written sectors if the disk does not
have it already: sector `c / 128` of the table, and the flush writes the sectors `d / 1024`. -/
theorem entryLands_iff_of_512 (h512 : s.bpb.bytsPerSec = 512) {xs : List Nat} {c i : Nat} (hi : i < 4) :
    EntryLands s xs c i ↔ (∃ d ∈ xs, flushSec d = c / 128) ∨
      s.disk (s.bpb.fatAddr c + i) = s.fatByte (4 * c + i) := by
  have hsec : (s.bpb.fatAddr c + i) / 512 = s.bpb.rsvdSecCnt + c / 128 ∧
      c / 128 * 512 + (s.bpb.fatAddr c + i) % 512 = 4 * c + i := by
    unfold Fat32Bpb.fatAddr
    rw [h512, Nat.mul_comm s.bpb.rsvdSecCnt, Nat.mul_comm (c / 128)]
    omega
  unfold EntryLands
  dsimp only
  rw [hsec.1, Nat.add_sub_cancel_left, h512, hsec.2]
  split
  next h => simp [h.2]
  next h =>
    have hno : ¬∃ d ∈ xs, flushSec d = c / 128 := fun hd => h ⟨Nat.le_add_right _ _, hd⟩
    simp [hno]

/-- **`fat_flush` writes a file's chain back if and only if** it stays inside the table and its local
array, every entry of the chain lands on the disk, and every sector that it writes for a cluster lies in
the tables. -/
theorem fatFlush_flushed_iff {f : Nat} {xs : List Nat} (h : s.FileChain f xs) (hne : xs ≠ []) :
    Flushed s f xs ↔
      ((∀ c ∈ xs, c < fatWords) ∧ s.bpb.nclus < fat32Used.toNat ∧
        (xs.map flushSec).toFinset.card ≤ 128) ∧
      (∀ c ∈ xs, ∀ i < 4, EntryLands s xs c i) ∧
      ∀ c ∈ xs, s.bpb.InFat (s.bpb.rsvdSecCnt + flushSec c) := by
  obtain ⟨x, ys, rfl⟩ := List.exists_cons_of_ne_nil hne
  have hpath := h.path hne
  have hfirst : s.fstClus f = x := hpath.1
  rw [hfirst] at hpath
  have hrest : ∀ y ∈ ys, y < s.bpb.nclus := fun y hy => (h.valid y (List.mem_cons_of_mem x hy)).2
  have hx : x ≠ 0 := by
    have := (h.valid x List.mem_cons_self).1
    omega
  have hrun : ∀ fuel, fatFlush fuel f s = fatFlushFrom fuel [] x (s.flushedTo []) := by
    intro fuel
    unfold fatFlush
    rw [get_bind, hfirst, if_neg hx, FatFs.flushedTo_nil]
  have hmem : ∀ p, p ∈ flushList [] (x :: ys) ↔ ∃ c ∈ x :: ys, flushSec c = p := by
    intro p
    rw [mem_flushList]
    simp only [List.not_mem_nil, false_or]
  constructor
  · rintro ⟨fuel, t, ws, hret, hdisk, hwritten, hin⟩
    rw [hrun] at hret
    obtain ⟨hfits, hfuel⟩ := flushFits_of_ret ys x fuel [] t hpath hrest (by simp) hret
    have ht : t = s.flushedTo (flushList [] (x :: ys)) := by
      rw [fatFlushFrom_ret ys x fuel [] hpath hrest hfits hfuel] at hret
      exact ((Outcome.ret.inj hret).2).symm
    subst ht
    refine ⟨⟨hfits.words, hfits.ends, ?_⟩, fun c hc i hi => ?_, fun c hc => hin _ ?_⟩
    · rw [← length_flushList]
      exact hfits.few
    · exact entryLands_iff.mpr (hdisk c hc i hi)
    · rw [← List.append_cancel_left hwritten]
      exact List.mem_map_of_mem ((hmem _).mpr ⟨c, hc, rfl⟩)
  · rintro ⟨⟨hwords, hends, hfew⟩, hlands, hin⟩
    have hfits : FlushFits s [] (x :: ys) := ⟨hwords, hends, by rw [length_flushList]; exact hfew⟩
    refine ⟨ys.length + 1, s.flushedTo (flushList [] (x :: ys)), _, ?_, fun c hc i hi => ?_, rfl, ?_⟩
    · rw [hrun, fatFlushFrom_ret ys x _ [] hpath hrest hfits (Nat.lt_succ_self _)]
    · exact entryLands_iff.mp (hlands c hc i hi)
    · intro sec hsec
      obtain ⟨p, hp, rfl⟩ := List.mem_map.mp hsec
      obtain ⟨c, hc, rfl⟩ := (hmem p).mp hp
      exact hin c hc

/-- A file with the cluster `c` only, at the entry `0x10400040`. -/
def oneCluster (c : Nat) : FatFs :=
  FatFs.setFstClus { mountedEmpty with fats := update (fun _ => 0) c fat32Used } 0x10400040 c

theorem oneCluster_fileChain {c : Nat} (hc : pageClusters.Valid c) :
    (oneCluster c).FileChain 0x10400040 [c] := by
  have hlt : c < 1024 := hc.2
  have hfst : (oneCluster c).fstClus 0x10400040 = c :=
    FatFs.fstClus_setFstClus ⟨by decide, rfl⟩ (by omega)
  refine ⟨.inr ⟨by simp, ?_⟩, by simp, fun x hx => ?_⟩
  · rw [hfst]
    refine ⟨rfl, ?_⟩
    show (update (fun _ => (0 : Word)) c fat32Used c).toNat = _
    rw [update_self]
  · rw [List.mem_singleton.mp hx]
    exact hc

/-- The entry of cluster 3 is written back. -/
theorem fatFlush_flushed_three : Flushed (oneCluster 3) 0x10400040 [3] := by
  rw [fatFlush_flushed_iff (oneCluster_fileChain (by decide)) (by simp)]
  refine ⟨⟨by decide, by decide, by decide⟩, fun c hc i hi => ?_, by decide⟩
  rw [List.mem_singleton.mp hc]
  exact (entryLands_iff_of_512 rfl hi).mpr (.inl ⟨3, by simp, rfl⟩)

/-- For the file with cluster 200 the first sector of the table is written. Its entry is in the second. -/
theorem fatFlush_misses : ¬Flushed (oneCluster 200) 0x10400040 [200] := by
  rw [fatFlush_flushed_iff (oneCluster_fileChain (by decide)) (by simp)]
  rintro ⟨-, hlands, -⟩
  rcases (entryLands_iff_of_512 rfl (by decide)).mp (hlands 200 (by simp) 0 (by decide)) with
    ⟨d, hd, hsec⟩ | hdisk
  · rw [List.mem_singleton.mp hd] at hsec
    exact absurd hsec (by decide)
  · exact absurd hdisk (by decide)

end Mos
