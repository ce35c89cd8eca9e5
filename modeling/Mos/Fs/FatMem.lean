import Mos.Fs.FatAlloc
import Mathlib.Data.Finset.Card

/-!
# The memory of the FAT32 server

What the primitive operations on the pages of the cache do to what can be seen of it: the bytes, which
pages are mapped, and which are dirty. `ReadIn` says this of `ide_read`, and `fatIdeRead_sat` that it does
so exactly when the kernel has a page for each page that is touched and not mapped.
-/

namespace Mos

open Lib Prog Function

namespace FatFs

variable {s : FatFs} {va a : Nat}

/-! ## Single pages -/

theorem fatvaIsMapped_congr (h : va / 4096 = a / 4096) : s.fatvaIsMapped va = s.fatvaIsMapped a := by
  unfold fatvaIsMapped
  rw [h]

theorem byte_of_not_mapped (h : s.fatvaIsMapped va = false) : s.byte va = 0 := by
  unfold fatvaIsMapped at h
  unfold byte
  cases hp : s.cache (va / 4096) with
  | none => rfl
  | some p => rw [hp] at h; cases h

theorem fatvaIsDirty_of_not_mapped (h : s.fatvaIsMapped va = false) : s.fatvaIsDirty va = false := by
  unfold fatvaIsMapped at h
  unfold fatvaIsDirty
  cases hp : s.cache (va / 4096) with
  | none => rfl
  | some p => rw [hp] at h; cases h

theorem fatvaIsMapped_mapZero : (s.mapZero va).fatvaIsMapped a =
    (s.fatvaIsMapped a || decide (a / 4096 = va / 4096)) := by
  unfold fatvaIsMapped mapZero
  by_cases h : a / 4096 = va / 4096 <;> simp [h]

theorem byte_mapZero : (s.mapZero va).byte a = if a / 4096 = va / 4096 then 0 else s.byte a := by
  unfold byte mapZero
  by_cases h : a / 4096 = va / 4096 <;> simp [h]

theorem fatvaIsDirty_mapZero : (s.mapZero va).fatvaIsDirty a =
    if a / 4096 = va / 4096 then false else s.fatvaIsDirty a := by
  unfold fatvaIsDirty mapZero
  by_cases h : a / 4096 = va / 4096 <;> simp [h]

theorem fatvaIsMapped_unmap : (s.unmap va).fatvaIsMapped a =
    (s.fatvaIsMapped a && decide (a / 4096 ≠ va / 4096)) := by
  unfold fatvaIsMapped unmap
  by_cases h : a / 4096 = va / 4096 <;> simp [h]

theorem byte_unmap (h : a / 4096 ≠ va / 4096) : (s.unmap va).byte a = s.byte a := by
  unfold byte unmap
  simp [h]

theorem fatvaIsDirty_unmap (h : a / 4096 ≠ va / 4096) :
    (s.unmap va).fatvaIsDirty a = s.fatvaIsDirty a := by
  unfold fatvaIsDirty unmap
  simp [h]

theorem fatvaIsMapped_editPage (g : FatPage → FatPage) :
    (s.editPage va g).fatvaIsMapped a = s.fatvaIsMapped a := by
  unfold fatvaIsMapped editPage
  by_cases h : a / 4096 = va / 4096 <;> simp [h]

theorem fatvaIsDirty_editPage {g : FatPage → FatPage} (hg : ∀ p, (g p).dirty = p.dirty) :
    (s.editPage va g).fatvaIsDirty a = s.fatvaIsDirty a := by
  unfold fatvaIsDirty editPage
  by_cases h : a / 4096 = va / 4096
  · rw [h]
    dsimp only
    rw [update_self]
    cases s.cache (va / 4096) with
    | none => rfl
    | some p => exact hg p
  · simp [h]

theorem byte_setByte {b : Byte} (hm : s.fatvaIsMapped va = true) :
    (s.setByte va b).byte a = if a = va then b else s.byte a := by
  unfold fatvaIsMapped at hm
  unfold byte setByte editPage
  dsimp only
  by_cases h : a / 4096 = va / 4096
  · rw [h, update_self]
    cases hp : s.cache (va / 4096) with
    | none => rw [hp] at hm; cases hm
    | some p =>
      dsimp only [Option.map_some]
      by_cases ha : a = va
      · rw [if_pos ha, ha, update_self]
      · rw [if_neg ha, update_of_ne (by omega)]
  · rw [update_of_ne h, if_neg (fun ha => h (by rw [ha]))]

theorem byte_setSector {b : Nat → Byte} (hm : s.fatvaIsMapped va = true) (hal : va % 512 = 0) :
    (s.setSector va b).byte a = if va ≤ a ∧ a < va + 512 then b (a - va) else s.byte a := by
  unfold fatvaIsMapped at hm
  unfold byte setSector editPage
  dsimp only
  by_cases h : a / 4096 = va / 4096
  · rw [h, update_self]
    cases hp : s.cache (va / 4096) with
    | none => rw [hp] at hm; cases hm
    | some p =>
      dsimp only [Option.map_some]
      unfold writeSector by2sect
      by_cases ha : va ≤ a ∧ a < va + 512
      · rw [if_pos ha, if_pos (by omega)]
        congr 1
        omega
      · rw [if_neg ha, if_neg (by omega)]
  · rw [update_of_ne h, if_neg (by omega)]

end FatFs

/-! ## Reading sectors -/

/-- A page that the rounds `i`, …, `i + n - 1` of a transfer to `dst` touch. -/
def Touched (dst i n p : Nat) : Prop := ∃ k, i ≤ k ∧ k < i + n ∧ (dst + 512 * k) / 4096 = p

instance (dst i n p : Nat) : Decidable (Touched dst i n p) :=
  decidable_of_iff (∃ k < i + n, i ≤ k ∧ (dst + 512 * k) / 4096 = p)
    ⟨fun ⟨k, h, h', h''⟩ => ⟨k, h', h, h''⟩, fun ⟨k, h, h', h''⟩ => ⟨k, h', h, h''⟩⟩

/-- From `s` to `t`, the rounds `i`, …, `i + n - 1` of `ide_read` to `dst` have been made, where round `k`
brings the sector at `base + 512 * k` of the disk. -/
structure ReadIn (base dst i n : Nat) (s t : FatFs) : Prop where
  byte : ∀ va, t.byte va =
    if dst + 512 * i ≤ va ∧ va < dst + 512 * (i + n) then s.disk (base + (va - dst)) else s.byte va
  mapped : ∀ va, t.fatvaIsMapped va = (s.fatvaIsMapped va || decide (Touched dst i n (va / 4096)))
  dirty : ∀ va, t.fatvaIsDirty va = s.fatvaIsDirty va
  rest : t = { s with cache := t.cache, avail := t.avail }

/-- The pages that have to be mapped for it. -/
def missing (dst i n : Nat) (s : FatFs) : Finset Nat :=
  ((Finset.range n).image fun k => (dst + 512 * (i + k)) / 4096).filter fun p => s.cache p = none

/-- `s` when the kernel has answered once. -/
def FatFs.asked (s : FatFs) : FatFs := { s with avail := fun n => s.avail (n + 1) }

theorem touchPage_mapped {s : FatFs} {va : Nat} (h : s.fatvaIsMapped va = true) :
    touchPage va s = .ret () s := by
  unfold touchPage
  rw [get_bind, if_pos h]
  rfl

theorem touchPage_not_mapped {s : FatFs} {va : Nat} (h : s.fatvaIsMapped va = false) :
    touchPage va s = if s.avail 0 then .ret () (s.asked.mapZero va) else .halt .noMemory := by
  unfold touchPage
  rw [get_bind, if_neg (by simp [h]), bind_apply]
  dsimp only [askFatPage]
  split <;> rfl

/-- The loop of `ide_read`. -/
def readRounds (base dst : Nat) : Nat → Nat → FatM Unit := Prog.loop fun i => do
  touchPage (dst + by2sect * i)
  Prog.modify fun s => s.setSector (dst + by2sect * i) (readSector s.disk (base + by2sect * i))

theorem readRounds_succ (base dst i n : Nat) : readRounds base dst i (n + 1) = (do
    touchPage (dst + 512 * i)
    Prog.modify fun s => s.setSector (dst + 512 * i) (readSector s.disk (base + 512 * i))
    readRounds base dst (i + 1) n) := by
  unfold readRounds
  rw [loop]
  funext s
  simp only [by2sect]
  rw [bind_apply, bind_apply, bind_apply]
  cases touchPage (dst + 512 * i) s <;> rfl

section ReadRounds

variable {base dst i n : Nat} {s t u : FatFs}

theorem touched_succ {p : Nat} :
    Touched dst i (n + 1) p ↔ (dst + 512 * i) / 4096 = p ∨ Touched dst (i + 1) n p := by
  constructor
  · rintro ⟨k, hk, hlt, hp⟩
    by_cases h : k = i
    · exact .inl (h ▸ hp)
    · exact .inr ⟨k, by omega, by omega, hp⟩
  · rintro (hp | ⟨k, hk, hlt, hp⟩)
    · exact ⟨i, le_refl i, by omega, hp⟩
    · exact ⟨k, by omega, by omega, hp⟩

theorem mem_missing {p : Nat} : p ∈ missing dst i n s ↔ Touched dst i n p ∧ s.cache p = none := by
  unfold missing Touched
  simp only [Finset.mem_filter, Finset.mem_image, Finset.mem_range]
  constructor
  · rintro ⟨⟨k, hk, rfl⟩, hnone⟩
    exact ⟨⟨i + k, by omega, by omega, rfl⟩, hnone⟩
  · rintro ⟨⟨k, hik, hk, rfl⟩, hnone⟩
    exact ⟨⟨k - i, by omega, by rw [show i + (k - i) = k by omega]⟩, hnone⟩

/-- One round on a mapped page. -/
theorem ReadIn.round (hm : s.fatvaIsMapped (dst + 512 * i) = true) (hal : dst % 512 = 0)
    (h : ReadIn base dst (i + 1) n
      (s.setSector (dst + 512 * i) (readSector s.disk (base + 512 * i))) t) :
    ReadIn base dst i (n + 1) s t := by
  refine ⟨fun va => ?_, fun va => ?_, fun va => ?_, ?_⟩
  · rw [h.byte, FatFs.byte_setSector hm (by omega)]
    by_cases h₁ : dst + 512 * (i + 1) ≤ va ∧ va < dst + 512 * (i + 1 + n)
    · have h₂ : dst + 512 * i ≤ va ∧ va < dst + 512 * (i + (n + 1)) := by omega
      rw [if_pos h₁, if_pos h₂]
      rfl
    · rw [if_neg h₁]
      by_cases h₂ : dst + 512 * i ≤ va ∧ va < dst + 512 * i + 512
      · have h₃ : dst + 512 * i ≤ va ∧ va < dst + 512 * (i + (n + 1)) := by grind
        rw [if_pos h₂, if_pos h₃]
        unfold readSector
        congr 1
        omega
      · have h₃ : ¬(dst + 512 * i ≤ va ∧ va < dst + 512 * (i + (n + 1))) := by grind
        rw [if_neg h₂, if_neg h₃]
  · rw [h.mapped, show (s.setSector _ _).fatvaIsMapped va = s.fatvaIsMapped va from
      FatFs.fatvaIsMapped_editPage _]
    by_cases hp : (dst + 512 * i) / 4096 = va / 4096
    · rw [FatFs.fatvaIsMapped_congr hp.symm, hm, Bool.true_or, Bool.true_or]
    · simp only [touched_succ, hp, false_or]
  · rw [h.dirty]
    exact FatFs.fatvaIsDirty_editPage fun _ => rfl
  · rw [h.rest]
    rfl

/-- A page is mapped on the way. -/
theorem ReadIn.mapZero (hm : s.fatvaIsMapped (dst + 512 * i) = false)
    (h : ReadIn base dst i (n + 1) (s.asked.mapZero (dst + 512 * i)) t) :
    ReadIn base dst i (n + 1) s t := by
  have hzero : ∀ va, va / 4096 = (dst + 512 * i) / 4096 → s.fatvaIsMapped va = false := by
    intro va hva
    rw [FatFs.fatvaIsMapped_congr hva, hm]
  refine ⟨fun va => ?_, fun va => ?_, fun va => ?_, ?_⟩
  · rw [h.byte]
    split
    · rfl
    · rw [FatFs.byte_mapZero]
      split
      next hva => exact (FatFs.byte_of_not_mapped (hzero va hva)).symm
      next => rfl
  · rw [h.mapped, FatFs.fatvaIsMapped_mapZero, Bool.or_assoc]
    show (s.fatvaIsMapped va || _) = _
    congr 1
    by_cases hp : va / 4096 = (dst + 512 * i) / 4096
    · simp [hp, touched_succ]
    · simp [hp]
  · rw [h.dirty, FatFs.fatvaIsDirty_mapZero]
    split
    next hva => exact (FatFs.fatvaIsDirty_of_not_mapped (hzero va hva)).symm
    next => rfl
  · rw [h.rest]
    rfl

/-- After all rounds, the bytes in the range come from the disk. -/
theorem ReadIn.byte_in {va : Nat} (h : ReadIn base dst 0 n s t) (hle : dst ≤ va)
    (hlt : va < dst + 512 * n) : t.byte va = s.disk (base + (va - dst)) := by
  have hbyte := h.byte va
  rw [Nat.mul_zero, Nat.add_zero, Nat.zero_add, if_pos ⟨hle, hlt⟩] at hbyte
  exact hbyte

theorem ReadIn.byte_out {va : Nat} (h : ReadIn base dst 0 n s t)
    (hout : ¬(dst ≤ va ∧ va < dst + 512 * n)) : t.byte va = s.byte va := by
  have hbyte := h.byte va
  rw [Nat.mul_zero, Nat.add_zero, Nat.zero_add, if_neg hout] at hbyte
  exact hbyte

theorem missing_of_mapped (hm : s.fatvaIsMapped (dst + 512 * i) = true) (b : Nat → Byte) :
    missing dst (i + 1) n (s.setSector (dst + 512 * i) b) = missing dst i (n + 1) s := by
  ext p
  have hnone : (s.setSector (dst + 512 * i) b).cache p = none ↔ s.cache p = none := by
    unfold FatFs.setSector FatFs.editPage
    by_cases hp : p = (dst + 512 * i) / 4096
    · subst hp
      simp
    · simp [hp]
  rw [mem_missing, mem_missing, hnone, touched_succ]
  constructor
  · rintro ⟨h, h'⟩
    exact ⟨.inr h, h'⟩
  · rintro ⟨rfl | h, h'⟩
    · unfold FatFs.fatvaIsMapped at hm
      rw [h'] at hm
      cases hm
    · exact ⟨h, h'⟩

theorem missing_mapZero (hm : s.fatvaIsMapped (dst + 512 * i) = false) :
    (missing dst i (n + 1) s).card =
      (missing dst i (n + 1) (s.asked.mapZero (dst + 512 * i))).card + 1 := by
  have hnone : s.cache ((dst + 512 * i) / 4096) = none := by
    unfold FatFs.fatvaIsMapped at hm
    simpa using hm
  have hmem : (dst + 512 * i) / 4096 ∈ missing dst i (n + 1) s :=
    mem_missing.mpr ⟨touched_succ.mpr (.inl rfl), hnone⟩
  have herase : missing dst i (n + 1) (s.asked.mapZero (dst + 512 * i)) =
      (missing dst i (n + 1) s).erase ((dst + 512 * i) / 4096) := by
    ext p
    rw [Finset.mem_erase, mem_missing, mem_missing]
    unfold FatFs.mapZero FatFs.asked
    by_cases hp : p = (dst + 512 * i) / 4096
    · subst hp
      simp
    · simp [hp]
  rw [herase, Finset.card_erase_add_one hmem]

/-- What the loop of `ide_read` does, and when it ends: the kernel has as many pages as are missing. -/
theorem readRounds_sat (base : Nat) (hal : dst % 512 = 0) : ∀ n i (s : FatFs),
    (readRounds base dst i n s).Sat
      (fun _ t => ReadIn base dst i n s t ∧ (∀ k < (missing dst i n s).card, s.avail k = true) ∧
        t.avail = fun k => s.avail (k + (missing dst i n s).card))
      (fun _ _ => False)
      (fun p => p = .noMemory ∧ ∃ k < (missing dst i n s).card, s.avail k = false) := by
  intro n
  induction n with
  | zero =>
    intro i s
    refine ⟨⟨fun va => ?_, fun va => ?_, fun _ => rfl, rfl⟩, ?_, ?_⟩
    · rw [if_neg (by omega)]
    · have hno : ¬Touched dst i 0 (va / 4096) := by
        rintro ⟨k, hk, hlt, -⟩
        omega
      simp [hno]
    · intro k hk
      simp [missing] at hk
    · simp [missing]
  | succ n ih =>
    -- the rounds on a page that is mapped
    have hmapped : ∀ i (s : FatFs), s.fatvaIsMapped (dst + 512 * i) = true →
        (readRounds base dst i (n + 1) s).Sat
          (fun _ t => ReadIn base dst i (n + 1) s t ∧
            (∀ k < (missing dst i (n + 1) s).card, s.avail k = true) ∧
            t.avail = fun k => s.avail (k + (missing dst i (n + 1) s).card))
          (fun _ _ => False)
          (fun p => p = .noMemory ∧
            ∃ k < (missing dst i (n + 1) s).card, s.avail k = false) := by
      intro i s hm
      rw [readRounds_succ, bind_ret (touchPage_mapped hm), modify_bind]
      have h := ih (i + 1) (s.setSector (dst + 512 * i) (readSector s.disk (base + 512 * i)))
      rw [missing_of_mapped hm] at h
      exact h.mono (fun _ _ ht => ⟨ht.1.round hm hal, ht.2⟩) (fun _ _ hf => hf) (fun _ hp => hp)
    intro i s
    by_cases hm : s.fatvaIsMapped (dst + 512 * i) = true
    · exact hmapped i s hm
    · rw [Bool.not_eq_true] at hm
      have hcard := missing_mapZero (n := n) hm
      have htouch := touchPage_not_mapped hm
      by_cases ha : s.avail 0 = true
      · rw [if_pos ha] at htouch
        have hm' : (s.asked.mapZero (dst + 512 * i)).fatvaIsMapped (dst + 512 * i) = true := by
          rw [FatFs.fatvaIsMapped_mapZero]
          simp
        have hrun : readRounds base dst i (n + 1) s =
            readRounds base dst i (n + 1) (s.asked.mapZero (dst + 512 * i)) := by
          rw [readRounds_succ, bind_ret htouch, bind_ret (touchPage_mapped hm')]
        rw [hrun]
        refine (hmapped i _ hm').mono ?_ (fun _ _ hf => hf) ?_
        · rintro _ t ⟨hread, havail, hshift⟩
          refine ⟨hread.mapZero hm, fun k hk => ?_, ?_⟩
          · cases k with
            | zero => exact ha
            | succ k => exact havail k (by omega)
          · rw [hshift, hcard]
            rfl
        · rintro p ⟨rfl, k, hk, hfalse⟩
          exact ⟨rfl, k + 1, by omega, hfalse⟩
      · rw [if_neg ha] at htouch
        rw [readRounds_succ, bind_halt htouch]
        exact ⟨rfl, 0, by omega, by simpa using ha⟩

theorem fatIdeRead_sat (secno nsecs : Nat) (hal : dst % 512 = 0) (s : FatFs) :
    (fatIdeRead secno dst nsecs s).Sat
      (fun _ t => ReadIn (ideBegin secno) dst 0 (ideRounds secno nsecs) s t ∧
        (∀ k < (missing dst 0 (ideRounds secno nsecs) s).card, s.avail k = true) ∧
        t.avail = fun k => s.avail (k + (missing dst 0 (ideRounds secno nsecs) s).card))
      (fun _ _ => False)
      (fun p => p = .noMemory ∧
        ∃ k < (missing dst 0 (ideRounds secno nsecs) s).card, s.avail k = false) :=
  readRounds_sat (ideBegin secno) hal (ideRounds secno nsecs) 0 s

end ReadRounds

/-! ## Fields of directory entries -/

/-- `f` points to an entry in a mapped page. -/
structure FatFs.IsEntry (s : FatFs) (f : Nat) : Prop where
  aligned : f % 64 = 0
  mapped : s.fatvaIsMapped f = true

namespace FatFs

variable {s : FatFs} {f va n i : Nat}

theorem IsEntry.congr {u : FatFs} (h : u.cache = s.cache) (hs : s.IsEntry f) : u.IsEntry f := by
  refine ⟨hs.aligned, ?_⟩
  have := hs.mapped
  unfold fatvaIsMapped at this ⊢
  rwa [h]

theorem IsEntry.byte_mapped (h : s.IsEntry f) (hi : i < 64) : s.fatvaIsMapped (f + i) = true := by
  have hal := h.aligned
  rw [← h.mapped]
  exact fatvaIsMapped_congr (by omega)

theorem half_setHalf (h : s.fatvaIsMapped va = true) (h' : s.fatvaIsMapped (va + 1) = true) :
    (s.setHalf va n).half va = n % 65536 := by
  unfold half setHalf
  have hm : (s.setByte va (BitVec.ofNat 8 n)).fatvaIsMapped (va + 1) = true := by
    rw [← h']
    exact fatvaIsMapped_editPage _
  rw [byte_setByte hm, byte_setByte hm, byte_setByte h, if_neg (by omega), if_pos rfl, if_pos rfl,
    BitVec.toNat_ofNat, BitVec.toNat_ofNat]
  omega

theorem byte_setHalf {a : Nat} (h : s.fatvaIsMapped va = true)
    (h' : s.fatvaIsMapped (va + 1) = true) (ha : a ≠ va) (ha' : a ≠ va + 1) :
    (s.setHalf va n).byte a = s.byte a := by
  unfold setHalf
  have hm : (s.setByte va (BitVec.ofNat 8 n)).fatvaIsMapped (va + 1) = true := by
    rw [← h']
    exact fatvaIsMapped_editPage _
  rw [byte_setByte hm, byte_setByte h, if_neg ha', if_neg ha]

theorem half_setHalf_of_ne {a : Nat} (h : s.fatvaIsMapped va = true)
    (h' : s.fatvaIsMapped (va + 1) = true) (ha : a + 1 < va ∨ va + 1 < a) :
    (s.setHalf va n).half a = s.half a := by
  unfold half
  rw [byte_setHalf h h' (by omega) (by omega), byte_setHalf h h' (by omega) (by omega)]

theorem fatvaIsMapped_setHalf {a : Nat} : (s.setHalf va n).fatvaIsMapped a = s.fatvaIsMapped a := by
  unfold setHalf
  rw [show ((s.setByte va _).setByte (va + 1) _).fatvaIsMapped a = _ from fatvaIsMapped_editPage _]
  exact fatvaIsMapped_editPage _

theorem IsEntry.setHalf (h : s.IsEntry f) (va n : Nat) : (s.setHalf va n).IsEntry f :=
  ⟨h.aligned, by rw [fatvaIsMapped_setHalf, h.mapped]⟩

theorem IsEntry.setFileSize (h : s.IsEntry f) (n : Nat) : (s.setFileSize f n).IsEntry f :=
  (h.setHalf _ _).setHalf _ _

/-- A field of an entry that is set. -/
theorem IsEntry.half_set (h : s.IsEntry f) (i : Nat) (hi : i + 1 < 64) :
    (s.setHalf (f + i) n).half (f + i) = n % 65536 :=
  half_setHalf (h.byte_mapped (by omega)) (h.byte_mapped hi)

/-- The other fields stay. -/
theorem IsEntry.half_keep (h : s.IsEntry f) (i j : Nat) (hi : i + 1 < 64)
    (hij : j + 1 < i ∨ i + 1 < j) : (s.setHalf (f + i) n).half (f + j) = s.half (f + j) :=
  half_setHalf_of_ne (h.byte_mapped (by omega)) (h.byte_mapped hi) (by omega)

theorem fstClus_setFstClus (h : s.IsEntry f) (hn : n < 2 ^ 32) : (s.setFstClus f n).fstClus f = n := by
  have h₁ := h.setHalf (f + 20) (n / 65536)
  unfold fstClus setFstClus
  rw [h₁.half_set 26 (by decide), h₁.half_keep 26 20 (by decide) (by decide), h.half_set 20 (by decide)]
  omega

theorem fstClus_setFileSize (h : s.IsEntry f) : (s.setFileSize f n).fstClus f = s.fstClus f := by
  have h₁ := h.setHalf (f + 30) (n / 65536)
  unfold fstClus setFileSize
  rw [h₁.half_keep 28 20 (by decide) (by decide), h.half_keep 30 20 (by decide) (by decide),
    h₁.half_keep 28 26 (by decide) (by decide), h.half_keep 30 26 (by decide) (by decide)]

theorem fileSize_setFileSize (h : s.IsEntry f) (hn : n < 2 ^ 32) :
    (s.setFileSize f n).fileSize f = n := by
  have h₁ := h.setHalf (f + 30) (n / 65536)
  unfold fileSize setFileSize
  rw [h₁.half_set 28 (by decide), h₁.half_keep 28 30 (by decide) (by decide), h.half_set 30 (by decide)]
  omega

/-- The chain of the file `f` is well formed and has the clusters `xs`. A file without clusters has the
first cluster 0. -/
structure FileChain (s : FatFs) (f : Nat) (xs : List Nat) : Prop where
  chain : (xs = [] ∧ s.fstClus f = 0) ∨ (xs ≠ [] ∧ FatChain s.fats (s.fstClus f) xs)
  nodup : xs.Nodup
  valid : ∀ x ∈ xs, s.bpb.Valid x

theorem FileChain.path {xs : List Nat} (h : s.FileChain f xs) (hne : xs ≠ []) :
    FatChain s.fats (s.fstClus f) xs :=
  h.chain.elim (fun h' => absurd h'.1 hne) And.right

end FatFs

end Mos
