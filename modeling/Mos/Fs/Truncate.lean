import Mos.Fs.OwnRun
import Mathlib.Tactic.IntervalCases

/-!
# Truncation of native files

`file_truncate` walks over the blocks that a file loses, one at a time, and gives each of them back. What it
leaves behind is described here exactly: which slots are empty afterwards, which blocks are free, and that
every other word of the disk's data is as before. The walk fails for the blocks of an index block that does
not exist and for the numbers that no file has; both have no block to lose.
-/

namespace Mos

open Lib Prog Function

variable {s t u : Fs} {f n i j k p a b c : Nat} {w : Word}

namespace Fs

/-! ## The slots of a file, by block number -/

/-- The address of the slot of block `n` of `f`. -/
def slotOf (s : Fs) (f n : Nat) : Nat :=
  if n < ndirect then fDirect f n else 1024 * s.num (fIndirect f) + n

/-- `f` has a slot for its block `n`. -/
def HasSlot (s : Fs) (f n : Nat) : Prop := n < ndirect ∨ n < nindirect ∧ s.num (fIndirect f) ≠ 0

/-- A file: it lies in the super block or in a data block that is in the cache. Its index block and its other
blocks are data blocks in use, all different, and none is past its size. -/
structure Sound (s : Fs) (f : Nat) : Prop where
  mounted : s.Mounted
  place : f = sRoot ∨ f % 64 = 0 ∧ s.firstData ≤ f / 1024
  mapped : s.isMapped (f / 1024) = true
  index : s.num (fIndirect f) ≠ 0 → s.num (fIndirect f) ∈ s.used
  used : ∀ n, s.block f n ≠ 0 → s.block f n ∈ s.used
  distinct : ∀ n m, s.block f n ≠ 0 → s.block f n = s.block f m → n = m
  apart : ∀ n, s.block f n ≠ 0 → s.block f n ≠ s.num (fIndirect f)
  beyond : ∀ n, (s.look (fSize f)).toNat / by2blk + 1 ≤ n → s.block f n = 0

theorem block_of_slot (h : s.HasSlot f n) : s.block f n = s.num (s.slotOf f n) := by
  unfold block slotOf
  by_cases hn : n < ndirect
  · rw [if_pos hn, if_pos hn]
  · rcases h with h | h
    · exact absurd h hn
    · rw [if_neg hn, if_neg hn, if_pos h]

/-- The slots stay where they are, as long as the index block does. -/
theorem slotOf_congr (h : n < ndirect ∨ t.num (fIndirect f) = s.num (fIndirect f)) :
    t.slotOf f n = s.slotOf f n := by
  unfold slotOf
  rcases h with h | h
  · rw [if_pos h, if_pos h]
  · rw [h]

theorem hasSlot_congr (h : n < ndirect ∨ t.num (fIndirect f) = s.num (fIndirect f)) :
    t.HasSlot f n ↔ s.HasSlot f n := by
  unfold HasSlot
  rcases h with h | h
  · exact ⟨fun _ => .inl h, fun _ => .inl h⟩
  · rw [h]

theorem block_of_no_slot (h : ¬s.HasSlot f n) : s.block f n = 0 := by
  unfold HasSlot at h
  unfold block
  rw [if_neg (fun hn => h (.inl hn)), if_neg (fun hn => h (.inr hn))]

/-- The words of a file are in the block of the file. -/
theorem place_word (h : f = sRoot ∨ f % 64 = 0 ∧ s.firstData ≤ f / 1024) (hi : i < 64) :
    (f + i) / 1024 = f / 1024 ∧ s.InData (f / 1024) ∧ f + i ≠ 1025 := by
  have h3 := s.three_le_firstData
  rcases h with rfl | ⟨h, hd⟩
  · refine ⟨?_, .inr (.inl rfl), ?_⟩ <;> unfold sRoot <;> omega
  · exact ⟨by omega, .inr (.inr hd), by omega⟩

namespace Sound

theorem size_word (h : s.Sound f) : fSize f / 1024 = f / 1024 := (place_word h.place (by decide)).1

theorem indirect_word (h : s.Sound f) : fIndirect f / 1024 = f / 1024 :=
  (place_word h.place (by decide)).1

/-- The file does not lie in its own index block: one of the entries would be the number of the index block
itself. -/
theorem ne_index (h : s.Sound f) (h0 : s.num (fIndirect f) ≠ 0) : s.num (fIndirect f) ≠ f / 1024 := by
  intro heq
  have hx := (h.index h0).1
  have h3 := s.three_le_firstData
  rcases h.place with rfl | ⟨ha, -⟩
  · rw [show sRoot / 1024 = 1 from rfl] at heq
    omega
  · have hslot : s.HasSlot f (f % 1024 + 44) := .inr ⟨by unfold nindirect; omega, h0⟩
    have haddr : s.slotOf f (f % 1024 + 44) = fIndirect f := by
      unfold slotOf ndirect
      rw [if_neg (by omega), heq]
      unfold fIndirect
      omega
    have hb := block_of_slot hslot
    rw [haddr] at hb
    exact h.apart _ (by rwa [hb]) hb

/-- The slots of a file are data, and different from the words of the file that are not slots of blocks. -/
theorem slot_word (h : s.Sound f) (hs : s.HasSlot f n) :
    s.InData (s.slotOf f n / 1024) ∧ s.slotOf f n ≠ 1025 ∧ s.slotOf f n ≠ fIndirect f ∧
      s.slotOf f n ≠ fSize f := by
  unfold slotOf
  by_cases hn : n < ndirect
  · have hw := place_word (i := 34 + n) h.place (by unfold ndirect at hn; omega)
    rw [if_pos hn]
    unfold fDirect fIndirect fSize
    unfold ndirect at hn
    rw [Nat.add_assoc, hw.1]
    exact ⟨hw.2.1, hw.2.2, by omega, by omega⟩
  · obtain ⟨hlt, h0⟩ := hs.resolve_left hn
    have hx := (h.index h0).1
    have hne := h.ne_index h0
    have h3 := s.three_le_firstData
    have hi := h.indirect_word
    have hsz := h.size_word
    rw [if_neg hn]
    unfold nindirect at hlt
    refine ⟨?_, by omega, ?_, ?_⟩
    · rw [show (1024 * s.num (fIndirect f) + n) / 1024 = s.num (fIndirect f) by omega]
      exact .inr (.inr hx)
    · intro heq
      rw [← heq] at hi
      omega
    · intro heq
      rw [← heq] at hsz
      omega

/-- Different blocks have different slots. -/
theorem slot_inj (h : s.Sound f) (hn : s.HasSlot f n) (hk : s.HasSlot f k)
    (heq : s.slotOf f n = s.slotOf f k) : n = k := by
  have hblk : ∀ {i}, i < ndirect → fDirect f i / 1024 = f / 1024 := by
    intro i hi
    unfold fDirect
    rw [Nat.add_assoc]
    exact (place_word h.place (by unfold ndirect at hi; omega)).1
  unfold slotOf at heq
  by_cases hn' : n < ndirect <;> by_cases hk' : k < ndirect
  · rw [if_pos hn', if_pos hk'] at heq
    unfold fDirect at heq
    omega
  · obtain ⟨hlt, h0⟩ := hk.resolve_left hk'
    have hne := h.ne_index h0
    have hb := hblk hn'
    rw [if_pos hn', if_neg hk'] at heq
    unfold nindirect at hlt
    omega
  · obtain ⟨hlt, h0⟩ := hn.resolve_left hn'
    have hne := h.ne_index h0
    have hb := hblk hk'
    rw [if_neg hn', if_pos hk'] at heq
    unfold nindirect at hlt
    omega
  · rw [if_neg hn', if_neg hk'] at heq
    omega

end Sound

/-! ## Clearing one slot -/

/-- The slot `p` is empty and its block, if it had one, is free; otherwise nothing has changed. -/
structure Emptied (s : Fs) (p : Nat) (t : Fs) : Prop where
  mounted : t.Mounted
  nblocks : t.nblocks = s.nblocks
  free : ∀ c, t.Free c ↔ s.Free c ∨ c = s.num p ∧ c ≠ 0
  look : ∀ a, s.InData (a / 1024) → a ≠ p → t.look a = s.look a
  self : t.num p = 0
  mapped : ∀ b, s.isMapped b = true → t.isMapped b = true
  unmapped : ∀ b, t.isMapped b = false → s.isMapped b = false ∧ t.avail = s.avail

end Fs

/-- A slot of a file is cleared. -/
theorem clearSlot_emptied (hs : s.Mounted) (hd : s.InData (p / 1024)) (hne : p ≠ 1025)
    (hm : s.isMapped (p / 1024) = true) (hv : s.num p ≠ 0 → s.num p ∈ s.used) :
    (clearSlot p s).Sat (fun _ t => s.Emptied p t) (fun _ _ => False) (fun _ => False) := by
  rw [clearSlot, bind_ret (load_look hm)]
  refine sat_when ?_ ?_
  · intro h0
    have h0 : s.num p ≠ 0 := fun h => h0 (look_eq_zero.mpr h)
    have hv := hv h0
    have hfree : freeBlock (s.look p).toNat s = .ret () (s.give (s.num p)) :=
      freeBlock_eq hs.hasBitmap h0 hv.2.1
    rw [bind_ret hfree, store_mapped (Fs.isMapped_give s hm)]
    obtain ⟨hdrop, hmt⟩ := hs.dropped hd hne hm hv
    refine ⟨hmt, hdrop.nblocks, ?_, hdrop.look, hdrop.self, hdrop.mapped, ?_⟩
    · intro c
      rw [hdrop.free]
      constructor
      · rintro (h | rfl)
        · exact .inl h
        · exact .inr ⟨rfl, h0⟩
      · rintro (h | ⟨h, -⟩)
        · exact .inl h
        · exact .inr h
    · intro b hb
      refine ⟨?_, rfl⟩
      by_contra hb'
      rw [hdrop.mapped b (by simpa using hb')] at hb
      exact absurd hb (by decide)
  · intro h0
    have h0 : s.num p = 0 := look_eq_zero.mp (not_not.mp h0)
    refine ⟨hs, rfl, ?_, fun _ _ _ => rfl, h0, fun _ h => h, fun _ h => ⟨h, rfl⟩⟩
    intro c
    rw [h0]
    constructor
    · exact .inl
    · rintro (h | ⟨rfl, h⟩)
      · exact h
      · exact absurd rfl h

/-! ## Finding a slot -/

/-- `file_block_walk` without `alloc`: the slot of a block, whose page is in the cache. It fails exactly if
there is no slot. -/
theorem fileBlockWalk_slot (hs : s.Mounted) (hm : s.isMapped (f / 1024) = true)
    (hw : ∀ i < 64, (f + i) / 1024 = f / 1024)
    (hx : s.num (fIndirect f) ≠ 0 → s.num (fIndirect f) ∈ s.used) (n : Nat) :
    (fileBlockWalk f n false s).Sat
      (fun p t => s.HasSlot f n ∧ p = s.slotOf f n ∧ s.Sees t ∧ t.isMapped (p / 1024) = true ∧
        (t.isMapped (s.num (fIndirect f)) = false → t = s))
      (fun _ t => ¬s.HasSlot f n ∧ t = s)
      (fun q => q = .noMemory ∧ s.Starved (s.num (fIndirect f))) := by
  have hind : s.isMapped (fIndirect f / 1024) = true := by rwa [fIndirect, hw 44 (by decide)]
  unfold fileBlockWalk
  by_cases hn : n < ndirect
  · rw [if_pos hn]
    refine ⟨.inl hn, by rw [Fs.slotOf, if_pos hn], Fs.Sees.refl s, ?_, fun _ => rfl⟩
    unfold ndirect at hn
    rwa [fDirect, Nat.add_assoc, hw (34 + n) (by omega)]
  rw [if_neg hn]
  by_cases hlt : n < nindirect
  · rw [if_pos hlt, fillSlot, sat_bind, bind_ret (load_look hind)]
    by_cases h0 : s.num (fIndirect f) = 0
    · rw [when_pos (look_eq_zero.mpr h0)]
      exact ⟨fun h => h.elim hn fun h => h.2 h0, rfl⟩
    · rw [when_neg (fun h => h0 (look_eq_zero.mp h))]
      change ((load (fIndirect f) >>= _) s).Sat _ _ _
      rw [bind_ret (load_look hind)]
      refine sat_call (readBlock_comes hs (hx h0).2.1 (hx h0).2.2) ?_ (fun _ _ h => h.elim)
        (fun _ h => h)
      rintro - t ⟨hsees, hmap⟩
      refine ⟨.inr ⟨hlt, h0⟩, by rw [Fs.slotOf, if_neg hn]; rfl, hsees, ?_, ?_⟩
      · unfold nindirect at hlt
        rwa [show (1024 * (s.look (fIndirect f)).toNat + n) / 1024 = (s.look (fIndirect f)).toNat by omega]
      · intro hno
        rw [show s.num (fIndirect f) = (s.look (fIndirect f)).toNat from rfl, hmap] at hno
        exact absurd hno (by decide)
  · rw [if_neg hlt]
    exact ⟨fun h => h.elim hn fun h => hlt h.1, rfl⟩

/-! ## The loop of `file_truncate` -/

namespace Fs

/-- The slots of the blocks from `N` to `i - 1` of `f` have been cleared. -/
structure Cut (s : Fs) (f N i : Nat) (t : Fs) : Prop where
  mounted : t.Mounted
  nblocks : t.nblocks = s.nblocks
  free : ∀ c, t.Free c ↔ s.Free c ∨ c ≠ 0 ∧ ∃ n, N ≤ n ∧ n < i ∧ s.block f n = c
  look : ∀ a, s.InData (a / 1024) → (∀ n, N ≤ n → n < i → s.HasSlot f n → a ≠ s.slotOf f n) →
    t.look a = s.look a
  cleared : ∀ n, N ≤ n → n < i → s.HasSlot f n → t.num (s.slotOf f n) = 0
  mapped : ∀ b, s.isMapped b = true → t.isMapped b = true
  starved : t.Starved (s.num (fIndirect f)) → s.Starved (s.num (fIndirect f))

namespace Cut

theorem start (h : s.Mounted) (f N : Nat) : s.Cut f N N s where
  mounted := h
  nblocks := rfl
  free c := ⟨.inl, fun h => h.elim id fun ⟨_, _, hn, hlt, _⟩ => absurd hn (by omega)⟩
  look _ _ _ := rfl
  cleared n hn hlt := absurd hn (by omega)
  mapped _ h := h
  starved h := h

variable {N : Nat}

theorem firstData (h : s.Cut f N i t) : t.firstData = s.firstData := by
  unfold Fs.firstData
  rw [h.nblocks]

theorem indirect (hs : s.Sound f) (h : s.Cut f N i t) :
    t.look (fIndirect f) = s.look (fIndirect f) := by
  refine h.look _ ?_ fun n _ _ hn => (hs.slot_word hn).2.2.1.symm
  rw [hs.indirect_word]
  exact (place_word (i := 0) hs.place (by decide)).2.1

theorem hasSlot (hs : s.Sound f) (h : s.Cut f N i t) : t.HasSlot f n ↔ s.HasSlot f n :=
  hasSlot_congr (.inr (by rw [num, h.indirect hs]; rfl))

theorem slotOf (hs : s.Sound f) (h : s.Cut f N i t) : t.slotOf f n = s.slotOf f n :=
  slotOf_congr (.inr (by rw [num, h.indirect hs]; rfl))

/-- A slot that is not cleared yet. -/
theorem slot (hs : s.Sound f) (h : s.Cut f N i t) (hn : s.HasSlot f n) (hlt : n < N ∨ i ≤ n) :
    t.num (s.slotOf f n) = s.block f n := by
  rw [block_of_slot hn, num, num, h.look _ (hs.slot_word hn).1]
  intro k hk hki hslot heq
  have := hs.slot_inj hn hslot heq
  omega

/-- The index block is in use until the end. -/
theorem index_used (hs : s.Sound f) (h : s.Cut f N i t) (h0 : t.num (fIndirect f) ≠ 0) :
    t.num (fIndirect f) ∈ t.used := by
  have heq : t.num (fIndirect f) = s.num (fIndirect f) := by rw [num, h.indirect hs]; rfl
  rw [heq] at h0 ⊢
  have hx := hs.index h0
  refine ⟨by rw [h.firstData]; exact hx.1, by rw [h.nblocks]; exact hx.2.1, ?_⟩
  intro hf
  rcases (h.free _).mp hf with hf | ⟨-, n, -, -, hn⟩
  · exact hx.2.2 hf
  · exact hs.apart n (by rwa [hn]) hn

/-- A block that is not lost yet is in use. -/
theorem block_used (hs : s.Sound f) (h : s.Cut f N i t) (hlt : i ≤ n) (h0 : s.block f n ≠ 0) :
    s.block f n ∈ t.used := by
  have hv := hs.used n h0
  refine ⟨by rw [h.firstData]; exact hv.1, by rw [h.nblocks]; exact hv.2.1, ?_⟩
  intro hf
  rcases (h.free _).mp hf with hf | ⟨-, k, -, hk, heq⟩
  · exact hv.2.2 hf
  · have := hs.distinct k n (by rwa [heq]) heq
    omega

/-- Nothing is done for a block without a slot. -/
theorem skip (h : s.Cut f N i t) (hn : ¬s.HasSlot f i) : s.Cut f N (i + 1) t where
  mounted := h.mounted
  nblocks := h.nblocks
  free c := by
    rw [h.free]
    refine or_congr_right (and_congr_right fun hc => exists_congr fun n => ?_)
    constructor
    · rintro ⟨h1, h2, h3⟩
      exact ⟨h1, by omega, h3⟩
    · rintro ⟨h1, h2, h3⟩
      refine ⟨h1, ?_, h3⟩
      have : n ≠ i := by
        rintro rfl
        rw [block_of_no_slot hn] at h3
        exact hc h3.symm
      omega
  look a ha hne := h.look a ha fun n h1 h2 => hne n h1 (by omega)
  cleared n h1 h2 hslot := by
    have : n ≠ i := by
      rintro rfl
      exact hn hslot
    exact h.cleared n h1 (by omega) hslot
  mapped := h.mapped
  starved := h.starved

/-- The slot of block `i` is cleared, after `read_block` has looked at the index block. -/
theorem next (hs : s.Sound f) (h : s.Cut f N i t) (hN : N ≤ i) (hn : s.HasSlot f i) (hsees : t.Sees u)
    (hu : u.isMapped (s.num (fIndirect f)) = false → u = t) {v : Fs}
    (he : u.Emptied (s.slotOf f i) v) : s.Cut f N (i + 1) v where
  mounted := he.mounted
  nblocks := by rw [he.nblocks, hsees.nblocks, h.nblocks]
  free c := by
    rw [he.free, hsees.free, h.free, hsees.num, h.slot hs hn (.inr (le_refl i))]
    constructor
    · rintro ((hf | ⟨hc, n, h1, h2, h3⟩) | ⟨rfl, hc⟩)
      · exact .inl hf
      · exact .inr ⟨hc, n, h1, by omega, h3⟩
      · exact .inr ⟨hc, i, hN, by omega, rfl⟩
    · rintro (hf | ⟨hc, n, h1, h2, h3⟩)
      · exact .inl (.inl hf)
      · by_cases hni : n = i
        · subst hni
          exact .inr ⟨h3.symm, hc⟩
        · exact .inl (.inr ⟨hc, n, h1, by omega, h3⟩)
  look a ha hne := by
    have hd : u.InData (a / 1024) := by
      rwa [InData, hsees.firstData, h.firstData]
    rw [he.look a hd (hne i hN (by omega) hn), hsees.look,
      h.look a ha fun n h1 h2 => hne n h1 (by omega)]
  cleared n h1 h2 hslot := by
    by_cases hni : n = i
    · subst hni
      exact he.self
    · have hw := hs.slot_word hslot
      have hd : u.InData (s.slotOf f n / 1024) := by
        rw [InData, hsees.firstData, h.firstData]
        exact hw.1
      rw [num, he.look _ hd fun heq => hni (hs.slot_inj hslot hn heq), hsees.look]
      exact h.cleared n h1 (by omega) hslot
  mapped b hb := he.mapped b (hsees.mapped b (h.mapped b hb))
  starved hv := by
    obtain ⟨hmu, hav⟩ := he.unmapped _ hv.1
    have heq := hu hmu
    rw [heq] at hmu hav
    exact h.starved ⟨hmu, by rw [← hav]; exact hv.2.1, by rw [← hav]; exact hv.2.2⟩

end Cut

end Fs

/-- One round of the loop. -/
theorem Fs.Cut.round (hs : s.Sound f) {N : Nat} (h : s.Cut f N i t) (hN : N ≤ i) :
    ((do let _ ← Prog.attempt (fileClearBlock f i) : FsM Unit) t).Sat
      (fun _ u => s.Cut f N (i + 1) u) (fun _ _ => False)
      (fun q => q = .noMemory ∧ s.Starved (s.num (fIndirect f))) := by
  have hnum : t.num (fIndirect f) = s.num (fIndirect f) := by rw [Fs.num, h.indirect hs]; rfl
  rw [sat_bind, sat_attempt, fileClearBlock]
  refine sat_call (fileBlockWalk_slot h.mounted (h.mapped _ hs.mapped)
    (fun i hi => (Fs.place_word hs.place hi).1) (h.index_used hs) i) ?_ ?_ ?_
  · rintro p u ⟨hslot, rfl, hsees, hm, hu⟩
    rw [h.slotOf hs] at hm ⊢
    rw [h.hasSlot hs] at hslot
    rw [hnum] at hu
    have hw := hs.slot_word hslot
    have hd : u.InData (s.slotOf f i / 1024) := by
      rw [Fs.InData, hsees.firstData, h.firstData]
      exact hw.1
    have hblock : u.num (s.slotOf f i) = s.block f i := by
      rw [hsees.num, h.slot hs hslot (.inr (le_refl i))]
    refine (clearSlot_emptied (hsees.mounted h.mounted) hd hw.2.1 hm ?_).mono ?_ (fun _ _ h => h.elim)
      (fun _ h => h.elim)
    · intro h0
      rw [hblock] at h0 ⊢
      rw [hsees.used]
      exact h.block_used hs (le_refl i) h0
    · exact fun _ v he => h.next hs hN hslot hsees hu he
  · rintro e u ⟨hslot, rfl⟩
    exact h.skip fun hn => hslot ((h.hasSlot hs).mpr hn)
  · rintro q ⟨rfl, hst⟩
    rw [hnum] at hst
    exact ⟨rfl, h.starved hst⟩

/-! ## The whole function -/

/-- `new_nblocks`: the number of blocks that `file_truncate` leaves. -/
def newNblocks (newsize : Word) : Nat := if newsize = 0 then 0 else newsize.toNat / by2blk + 1

namespace Fs

/-- `f` has been truncated to `newsize`, and nothing else has happened to the data on the disk. -/
structure Truncated (s : Fs) (f : Nat) (newsize : Word) (t : Fs) : Prop where
  kept : ∀ n < newNblocks newsize, t.block f n = s.block f n
  cleared : ∀ n, newNblocks newsize ≤ n → t.block f n = 0
  free : ∀ c, t.Free c ↔ s.Free c ∨ c ≠ 0 ∧ (∃ n, newNblocks newsize ≤ n ∧ s.block f n = c) ∨
    c ≠ 0 ∧ newNblocks newsize ≤ ndirect ∧ s.num (fIndirect f) = c
  indirect : t.num (fIndirect f) = if newNblocks newsize ≤ ndirect then 0 else s.num (fIndirect f)
  size : t.look (fSize f) = newsize
  rest : ∀ a, s.InData (a / 1024) → a ≠ fSize f → a ≠ fIndirect f →
    (∀ n, s.HasSlot f n → a ≠ s.slotOf f n) → t.look a = s.look a
  mounted : t.Mounted
  nblocks : t.nblocks = s.nblocks
  mapped : ∀ b, s.isMapped b = true → t.isMapped b = true

/-- The state before the new size is stored: `f` has lost its blocks from `N` on, and its index block if that
is not needed any more. -/
structure Shed (s : Fs) (f N : Nat) (t : Fs) : Prop where
  mounted : t.Mounted
  nblocks : t.nblocks = s.nblocks
  free : ∀ c, t.Free c ↔ s.Free c ∨ c ≠ 0 ∧ (∃ n, N ≤ n ∧ s.block f n = c) ∨
    c ≠ 0 ∧ N ≤ ndirect ∧ s.num (fIndirect f) = c
  look : ∀ a, s.InData (a / 1024) → a ≠ fIndirect f →
    (∀ n, N ≤ n → s.HasSlot f n → a ≠ s.slotOf f n) → t.look a = s.look a
  cleared : ∀ n, N ≤ n → s.HasSlot f n → t.num (s.slotOf f n) = 0
  indirect : t.num (fIndirect f) = if N ≤ ndirect then 0 else s.num (fIndirect f)
  mapped : ∀ b, s.isMapped b = true → t.isMapped b = true

/-- The blocks at the end of the loop: past the old size there is none. -/
theorem Cut.lost (hs : s.Sound f) {N : Nat} (hi : (s.look (fSize f)).toNat / by2blk + 1 ≤ i) (hc : c ≠ 0) :
    (∃ n, N ≤ n ∧ n < i ∧ s.block f n = c) ↔ ∃ n, N ≤ n ∧ s.block f n = c := by
  constructor
  · rintro ⟨n, h1, -, h3⟩
    exact ⟨n, h1, h3⟩
  · rintro ⟨n, h1, h3⟩
    refine ⟨n, h1, ?_, h3⟩
    by_contra hlt
    exact hc (by rw [← h3, hs.beyond n (by omega)])

theorem Cut.cleared_all (hs : s.Sound f) {N : Nat} (h : s.Cut f N i t)
    (hi : (s.look (fSize f)).toNat / by2blk + 1 ≤ i) (hN : N ≤ n) (hn : s.HasSlot f n) :
    t.num (s.slotOf f n) = 0 := by
  by_cases hlt : n < i
  · exact h.cleared n hN hlt hn
  · rw [h.slot hs hn (.inr (by omega)), hs.beyond n (by omega)]

/-- More than `NDIRECT` blocks are left: the index block stays. -/
theorem Cut.shed_keep (hs : s.Sound f) {N : Nat} (h : s.Cut f N i t)
    (hi : (s.look (fSize f)).toNat / by2blk + 1 ≤ i) (hN : ¬N ≤ ndirect) : s.Shed f N t where
  mounted := h.mounted
  nblocks := h.nblocks
  free c := by
    rw [h.free]
    refine or_congr_right ⟨?_, ?_⟩
    · rintro ⟨hc, hex⟩
      exact .inl ⟨hc, (Cut.lost hs hi hc).mp hex⟩
    · rintro (⟨hc, hex⟩ | ⟨-, hle, -⟩)
      · exact ⟨hc, (Cut.lost hs hi hc).mpr hex⟩
      · exact absurd hle hN
  look a ha _ hne := h.look a ha fun n h1 _ => hne n h1
  cleared n h1 hn := h.cleared_all hs hi h1 hn
  indirect := by
    rw [if_neg hN, num, h.indirect hs]
    rfl
  mapped := h.mapped

/-- At most `NDIRECT` blocks are left: the index block goes. -/
theorem Cut.shed_drop (hs : s.Sound f) {N : Nat} (h : s.Cut f N i t)
    (hi : (s.look (fSize f)).toNat / by2blk + 1 ≤ i) (hN : N ≤ ndirect)
    (he : t.Emptied (fIndirect f) u) : s.Shed f N u where
  mounted := he.mounted
  nblocks := he.nblocks.trans h.nblocks
  free c := by
    have hnum : t.num (fIndirect f) = s.num (fIndirect f) := by rw [num, h.indirect hs]; rfl
    rw [he.free, h.free, hnum, or_assoc]
    refine or_congr_right (or_congr ?_ ?_)
    · exact and_congr_right fun hc => Cut.lost hs hi hc
    · constructor
      · rintro ⟨rfl, hc⟩
        exact ⟨hc, hN, rfl⟩
      · rintro ⟨hc, -, rfl⟩
        exact ⟨rfl, hc⟩
  look a ha hind hne := by
    have hd : t.InData (a / 1024) := by rwa [InData, h.firstData]
    rw [he.look a hd hind, h.look a ha fun n h1 _ => hne n h1]
  cleared n h1 hn := by
    have hw := hs.slot_word hn
    have hd : t.InData (s.slotOf f n / 1024) := by
      rw [InData, h.firstData]
      exact hw.1
    rw [num, he.look _ hd hw.2.2.1]
    exact h.cleared_all hs hi h1 hn
  indirect := by rw [if_pos hN, he.self]
  mapped b hb := he.mapped b (h.mapped b hb)

/-- The new size is stored. -/
theorem Shed.truncated (hs : s.Sound f) {newsize : Word} (h : s.Shed f (newNblocks newsize) t) :
    s.Truncated f newsize (t.setWord (fSize f) newsize) := by
  have hmap : t.isMapped (fSize f / 1024) = true := by
    rw [hs.size_word]
    exact h.mapped _ hs.mapped
  have hplace := place_word (i := 32) hs.place (by decide)
  have hd : t.InData (fSize f / 1024) := by
    rw [hs.size_word, InData, Fs.firstData, h.nblocks]
    exact hplace.2.1
  obtain ⟨hm, hn, hfree⟩ := h.mounted.store hd hplace.2.2 hmap newsize
  have hlook : ∀ a, a ≠ fSize f → (t.setWord (fSize f) newsize).look a = t.look a := by
    intro a ha
    rw [look_setWord hmap, if_neg ha]
  have hind : (t.setWord (fSize f) newsize).num (fIndirect f) = t.num (fIndirect f) := by
    rw [num, hlook _ (by unfold fSize fIndirect; omega)]
    rfl
  have hslotNum : ∀ n, s.HasSlot f n →
      (t.setWord (fSize f) newsize).num (s.slotOf f n) = t.num (s.slotOf f n) := by
    intro n hn
    rw [num, hlook _ (hs.slot_word hn).2.2.2]
    rfl
  refine ⟨?_, ?_, ?_, by rw [hind, h.indirect], look_setWord_self, ?_, hm, hn.trans h.nblocks, ?_⟩
  · intro n hlt
    have hind' : n < ndirect ∨ (t.setWord (fSize f) newsize).num (fIndirect f) = s.num (fIndirect f) := by
      by_cases hN : newNblocks newsize ≤ ndirect
      · exact .inl (by omega)
      · rw [hind, h.indirect, if_neg hN]
        exact .inr rfl
    have hiff := hasSlot_congr hind'
    by_cases hslot : s.HasSlot f n
    · rw [block_of_slot (hiff.mpr hslot), slotOf_congr hind', hslotNum n hslot, block_of_slot hslot, num,
        num, h.look _ (hs.slot_word hslot).1 (hs.slot_word hslot).2.2.1]
      intro k hk hslotk heq
      have := hs.slot_inj hslot hslotk heq
      omega
    · rw [block_of_no_slot hslot, block_of_no_slot fun h => hslot (hiff.mp h)]
  · intro n hle
    by_cases hslot : (t.setWord (fSize f) newsize).HasSlot f n
    · have hkeep : n < ndirect ∨ (t.setWord (fSize f) newsize).num (fIndirect f) = s.num (fIndirect f) := by
        rcases hslot with h | ⟨-, h0⟩
        · exact .inl h
        · rw [hind, h.indirect] at h0 ⊢
          by_cases hN : newNblocks newsize ≤ ndirect
          · exact absurd (if_pos hN) h0
          · exact .inr (if_neg hN)
      have hslot' := (hasSlot_congr hkeep).mp hslot
      rw [block_of_slot hslot, slotOf_congr hkeep, hslotNum n hslot', h.cleared n hle hslot']
    · exact block_of_no_slot hslot
  · intro c
    rw [hfree, h.free]
  · intro a ha hsz hi hne
    rw [hlook a hsz, h.look a ha hi fun n _ => hne n]
  · intro b hb
    rw [isMapped_setWord, h.mapped b hb]
    rfl

end Fs

/-- `file_truncate` of a file, and the only way in which it does not come back. -/
theorem fileTruncate_truncated (hs : s.Sound f) (newsize : Word) :
    (fileTruncate f newsize s).Sat (fun _ t => s.Truncated f newsize t) (fun _ _ => False)
      (fun q => q = .noMemory ∧ s.Starved (s.num (fIndirect f))) := by
  have hmap : s.isMapped (fSize f / 1024) = true := by rw [hs.size_word]; exact hs.mapped
  rw [fileTruncate, bind_ret (load_look hmap)]
  have hloop := sat_loop (m := fun bno => do let _ ← Prog.attempt (fileClearBlock f bno))
    (I := fun i t => s.Cut f (newNblocks newsize) i t ∧ newNblocks newsize ≤ i) (E := fun _ _ => False)
    (H := fun q => q = .noMemory ∧ s.Starved (s.num (fIndirect f)))
    (n := (s.look (fSize f)).toNat / by2blk + 1 - newNblocks newsize) (i := newNblocks newsize) (s := s)
    (fun j t hj _ ht => (ht.1.round hs hj).mono (fun _ _ h => ⟨h, by omega⟩) (fun _ _ h => h)
      (fun _ h => h)) ⟨Fs.Cut.start hs.mounted f _, le_refl _⟩
  refine sat_call hloop ?_ (fun _ _ h => h.elim) (fun _ h => h)
  rintro - t ⟨hcut, -⟩
  have hi : (s.look (fSize f)).toNat / by2blk + 1 ≤
      newNblocks newsize + ((s.look (fSize f)).toNat / by2blk + 1 - newNblocks newsize) := by omega
  have hind : s.isMapped (fIndirect f / 1024) = true := by rw [hs.indirect_word]; exact hs.mapped
  have hplace := Fs.place_word (i := 44) hs.place (by decide)
  -- the index block is given back after the loop, if it is given back at all
  have hshed : (Prog.when (newNblocks newsize ≤ ndirect) (clearSlot (fIndirect f)) t).Sat
      (fun _ u => s.Shed f (newNblocks newsize) u) (fun _ _ => False) (fun _ => False) := by
    refine sat_when ?_ fun hN => hcut.shed_keep hs hi hN
    intro hN
    have hd : t.InData (fIndirect f / 1024) := by
      rw [hs.indirect_word, Fs.InData, hcut.firstData]
      exact hplace.2.1
    exact (clearSlot_emptied hcut.mounted hd hplace.2.2 (hcut.mapped _ hind) (hcut.index_used hs)).mono
      (fun _ u he => hcut.shed_drop hs hi hN he) (fun _ _ h => h) (fun _ h => h)
  refine sat_call hshed ?_ (fun _ _ h => h.elim) (fun _ h => h.elim)
  intro _ u hu
  rw [store_mapped (hu.mapped _ hmap)]
  exact hu.truncated hs

/-- **Truncation is exact.** `file_truncate(f, newsize)` leaves the blocks before `N` in place, clears the slots
of all others, and gives back exactly the blocks that were there, and the index block if `N` is at most
`NDIRECT`. It does not come back only if the index block is not in the cache and there is no memory for
it. -/
theorem truncation_exact (hs : s.Sound f) (newsize : Word) :
    (∃ t, fileTruncate f newsize s = .ret () t ∧ s.Truncated f newsize t) ∨
      fileTruncate f newsize s = .halt .noMemory ∧ s.Starved (s.num (fIndirect f)) := by
  have h := fileTruncate_truncated hs newsize
  cases hr : fileTruncate f newsize s with
  | ret _ t =>
    rw [hr] at h
    exact .inl ⟨t, rfl, h⟩
  | err e t =>
    rw [hr] at h
    exact h.elim
  | halt q =>
    rw [hr] at h
    obtain ⟨rfl, hst⟩ := h
    exact .inr ⟨rfl, hst⟩

/-- The small file system with the root directory's block in the cache. -/
def openedFs : Fs :=
  { smallFs with
    cache := fun b => if b = 1 ∨ b = 2 ∨ b = 3 then some ⟨smallDisk b, false⟩ else none }

theorem openedFs_block (n : Nat) : openedFs.block (fileIn 3 0) n = if n = 0 then 4 else 0 := by
  by_cases hn : n < ndirect
  · unfold ndirect at hn
    interval_cases n <;> rfl
  · unfold Fs.block
    rw [if_neg hn, if_neg (fun h => h.2 rfl), if_neg]
    rintro rfl
    exact hn (by decide)

theorem openedFs_mounted : openedFs.Mounted where
  super := rfl
  bitmap := rfl
  nblocks := by decide
  mapped b h1 h2 := by
    rw [show openedFs.firstData = 3 from rfl] at h2
    interval_cases b <;> rfl
  reserved b hb := by
    rw [show openedFs.firstData = 3 from rfl] at hb
    interval_cases b <;> decide

theorem openedFs_sound : openedFs.Sound (fileIn 3 0) where
  mounted := openedFs_mounted
  place := by decide
  mapped := rfl
  index h := absurd rfl h
  used n h := by
    rw [openedFs_block] at h ⊢
    split at h
    · rw [if_pos ‹_›]
      exact ⟨by decide, by decide, by decide⟩
    · exact absurd rfl h
  distinct n m h heq := by
    rw [heq, openedFs_block] at h
    rw [openedFs_block, openedFs_block] at heq
    have hm : m = 0 := by
      by_contra hm
      exact h (if_neg hm)
    have hn : n = 0 := by
      by_contra hn
      rw [if_neg hn, if_pos hm] at heq
      exact absurd heq (by decide)
    rw [hn, hm]
  apart n h heq := h (heq.trans rfl)
  beyond n h := by
    rw [openedFs_block, if_neg]
    rintro rfl
    exact absurd h (by decide)

theorem truncation_exact_small :
    (∃ t, fileTruncate (fileIn 3 0) 0 openedFs = .ret () t ∧ openedFs.Truncated (fileIn 3 0) 0 t) ∨
      fileTruncate (fileIn 3 0) 0 openedFs = .halt .noMemory ∧
        openedFs.Starved (openedFs.num (fIndirect (fileIn 3 0))) :=
  truncation_exact openedFs_sound 0

end Mos
