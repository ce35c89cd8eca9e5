import Mos.Fs.BlockSpec
import Mos.Lib.Holding

/-!
# Which file owns which block

The blocks that files, directories and index blocks hold are found by following the block numbers from the
root directory on. The file system is consistent if every number that is found this way is the number of a
data block which is in use, and none is found twice.

For proofs the same is said about a set `D` of directory blocks and a set `X` of index blocks that are given
and not found (`Own`): then it is a condition on the words of memory, and a store that does not touch the
words it speaks about leaves it alone.
-/

namespace Mos

open Lib Prog Function

namespace Fs

variable {s t u : Fs} {a b c d f f' i j p x : Nat} {w : Word} {D X D' X' : Set Nat}

/-! ## Consistent file systems -/

/-- The number in the slot at the address `a`. -/
def num (s : Fs) (a : Nat) : Nat := (s.look a).toNat

/-- `f->f_type == FTYPE_DIR`. -/
def IsDir (s : Fs) (f : Nat) : Prop := s.look (fType f) = ftypeDir

instance (s : Fs) (f : Nat) : Decidable (s.IsDir f) := inferInstanceAs (Decidable (_ = _))

/-- The slots of a file. -/
inductive Slot where
  | direct (i : Fin 10)
  | indirect
  | entry (i : Fin 1024)
deriving DecidableEq

/-- The number in a slot of the file `f`. Without an index block there are no entries in it. -/
def held (s : Fs) (f : Nat) : Slot → Nat
  | .direct i => s.num (fDirect f i)
  | .indirect => s.num (fIndirect f)
  | .entry i => if s.num (fIndirect f) = 0 then 0 else s.num (1024 * s.num (fIndirect f) + i)

/-- The files that can be reached from the root directory: those in the blocks of directories. -/
inductive IsFile (s : Fs) : Nat → Prop
  | root : IsFile s sRoot
  | entry {d j : Nat} {k : Slot} (hd : IsFile s d) (hdir : s.IsDir d) (hk : k ≠ .indirect)
      (hb : s.held d k ≠ 0) (hj : j < file2blk) : IsFile s (fileIn (s.held d k) j)

/-- The data blocks that are in use. -/
def used (s : Fs) : Set Nat := {b | s.firstData ≤ b ∧ b < s.nblocks ∧ ¬s.Free b}

/-- Every block number that is found in a file is the number of a data block in use, and no number is
found in two slots. -/
structure Consistent (s : Fs) : Prop where
  mounted : s.Mounted
  used : ∀ f k, s.IsFile f → s.held f k ≠ 0 → s.held f k ∈ s.used
  unique : ∀ f k f' k', s.IsFile f → s.IsFile f' → s.held f k ≠ 0 → s.held f k = s.held f' k' →
    f = f' ∧ k = k'

/-! ## Consistent memory -/

/-- The files in the blocks `D`, and the root directory. -/
def files (D : Set Nat) : Set Nat := {f | f = sRoot ∨ ∃ b ∈ D, ∃ j < file2blk, f = fileIn b j}

/-- The slots of these files, and those of the index blocks `X`. -/
def slots (D X : Set Nat) : Set Nat :=
  {a | (∃ f ∈ files D, ∃ i ≤ 10, a = f + 34 + i) ∨ ∃ x ∈ X, ∃ i < 1024, a = 1024 * x + i}

/-- The slots in which the numbers of the blocks of `f` are. -/
def pointers (s : Fs) (f : Nat) : Set Nat :=
  {a | (∃ i < 10, a = fDirect f i) ∨
    s.num (fIndirect f) ≠ 0 ∧ ∃ i < 1024, a = 1024 * s.num (fIndirect f) + i}

/-- The directory blocks `D` and the index blocks `X` hold blocks as they should. -/
structure Own (s : Fs) (D X : Set Nat) : Prop where
  mounted : s.Mounted
  holds : Holds (slots D X) s.num s.used
  dirs : D ⊆ s.used
  indexes : X ⊆ s.used
  apart : ∀ b ∈ D, b ∉ X
  index : ∀ f ∈ files D, s.num (fIndirect f) ≠ 0 → s.num (fIndirect f) ∈ X
  dirBlock : ∀ f ∈ files D, s.IsDir f → ∀ a ∈ s.pointers f, s.num a ≠ 0 → s.num a ∈ D
  fileBlock : ∀ f ∈ files D, ¬s.IsDir f → ∀ a ∈ s.pointers f, s.num a ≠ 0 → s.num a ∉ D ∧ s.num a ∉ X

theorem files_mono (h : D ⊆ D') : files D ⊆ files D' := by
  rintro f (rfl | ⟨b, hb, j, hj, rfl⟩)
  · exact .inl rfl
  · exact .inr ⟨b, h hb, j, hj, rfl⟩

theorem direct_mem_slots (hf : f ∈ files D) (hi : i < 10) : fDirect f i ∈ slots D X :=
  .inl ⟨f, hf, i, by omega, rfl⟩

theorem indirect_mem_slots (hf : f ∈ files D) : fIndirect f ∈ slots D X :=
  .inl ⟨f, hf, 10, le_refl _, rfl⟩

theorem entry_mem_slots (hx : x ∈ X) (hi : i < 1024) : 1024 * x + i ∈ slots D X :=
  .inr ⟨x, hx, i, hi, rfl⟩

/-- The address of a slot. -/
def slotAddr (s : Fs) (f : Nat) : Slot → Nat
  | .direct i => fDirect f i
  | .indirect => fIndirect f
  | .entry i => 1024 * s.num (fIndirect f) + i

theorem held_eq_num {k : Slot} (h : s.held f k ≠ 0) : s.held f k = s.num (s.slotAddr f k) := by
  cases k with
  | direct i => rfl
  | indirect => rfl
  | entry i =>
    by_cases h0 : s.num (fIndirect f) = 0
    · simp [held, h0] at h
    · simp only [held, if_neg h0, slotAddr]

/-- The words of a file are in one block. -/
theorem file_words (hf : f ∈ files D) (hi : i < 64) : (f + i) / 1024 = f / 1024 := by
  rcases hf with rfl | ⟨b, hb, j, hj, rfl⟩
  · unfold sRoot
    omega
  · unfold fileIn file2blk at *
    omega

namespace Own

/-- Files are aligned, and the block of the root directory's own entry is the super block. -/
theorem file_block (ho : s.Own D X) (hf : f ∈ files D) :
    f = sRoot ∨ f / 1024 ∈ D ∧ s.firstData ≤ f / 1024 ∧ f % 64 = 0 := by
  rcases hf with rfl | ⟨b, hb, j, hj, rfl⟩
  · exact .inl rfl
  · have hblk : fileIn b j / 1024 = b := by
      unfold fileIn file2blk at *
      omega
    rw [hblk]
    refine .inr ⟨hb, (ho.dirs hb).1, ?_⟩
    unfold fileIn
    omega

theorem slotAddr_mem (ho : s.Own D X) (hf : f ∈ files D) {k : Slot} (h : s.held f k ≠ 0) :
    s.slotAddr f k ∈ slots D X := by
  cases k with
  | direct i => exact direct_mem_slots hf i.isLt
  | indirect => exact indirect_mem_slots hf
  | entry i =>
    refine entry_mem_slots (ho.index f hf ?_) i.isLt
    intro h0
    simp [held, h0] at h

/-- The files that can be reached are in directory blocks. -/
theorem isFile (ho : s.Own D X) (hf : s.IsFile f) : f ∈ files D := by
  induction hf with
  | root => exact .inl rfl
  | @entry d j k hd hdir hk hb hj ih =>
    refine .inr ⟨_, ?_, j, hj, rfl⟩
    rw [held_eq_num hb]
    refine ho.dirBlock d ih hdir _ ?_ (by rwa [← held_eq_num hb])
    cases k with
    | direct i => exact .inl ⟨i, i.isLt, rfl⟩
    | indirect => exact absurd rfl hk
    | entry i =>
      refine .inr ⟨?_, i, i.isLt, rfl⟩
      intro h0
      simp [held, h0] at hb

/-- A word of a file is not a word of another file. -/
theorem file_word_inj (ho : s.Own D X) (hf : f ∈ files D) (hf' : f' ∈ files D) (hi : i < 64)
    (hj : j < 64) (heq : f + i = f' + j) : f = f' ∧ i = j := by
  have hb := file_words hf hi
  have hb' := file_words hf' hj
  have h3 := s.three_le_firstData
  rcases ho.file_block hf with rfl | ⟨-, hD, ha⟩ <;> rcases ho.file_block hf' with rfl | ⟨-, hD', ha'⟩
  · omega
  · unfold sRoot at *
    omega
  · unfold sRoot at *
    omega
  · omega

/-- Files are in the super block or in directory blocks, and not in index blocks. -/
theorem file_word_ne_entry (ho : s.Own D X) (hf : f ∈ files D) (hi : i < 64) (hx : x ∈ X)
    (hj : j < 1024) : f + i ≠ 1024 * x + j := by
  intro heq
  have hblk := file_words hf hi
  rw [heq, show (1024 * x + j) / 1024 = x by omega] at hblk
  rcases ho.file_block hf with rfl | ⟨hD, -, -⟩
  · have h1 := (ho.indexes hx).1
    have h3 := s.three_le_firstData
    unfold sRoot at hblk
    omega
  · rw [← hblk] at hD
    exact ho.apart _ hD hx

/-- Different slots are at different addresses. -/
theorem slotAddr_inj (ho : s.Own D X) (hf : f ∈ files D) (hf' : f' ∈ files D) {k k' : Slot}
    (h : s.held f k ≠ 0) (h' : s.held f' k' ≠ 0) (heq : s.slotAddr f k = s.slotAddr f' k') :
    f = f' ∧ k = k' := by
  have hx : ∀ {g : Nat} {j : Fin 1024}, g ∈ files D → s.held g (.entry j) ≠ 0 →
      s.num (fIndirect g) ≠ 0 ∧ s.num (fIndirect g) ∈ X := by
    intro g j hg hh
    have h0 : s.num (fIndirect g) ≠ 0 := fun h0 => by simp [held, h0] at hh
    exact ⟨h0, ho.index g hg h0⟩
  cases k with
  | direct i =>
    cases k' with
    | direct i' =>
      obtain ⟨rfl, hi⟩ := ho.file_word_inj hf hf' (i := 34 + i) (j := 34 + i') (by omega) (by omega)
        (by simp only [slotAddr, fDirect] at heq; omega)
      exact ⟨rfl, by rw [Fin.ext (by omega : i.val = i'.val)]⟩
    | indirect =>
      have hi := (ho.file_word_inj hf hf' (i := 34 + i) (j := 44) (by omega) (by omega)
        (by simp only [slotAddr, fDirect, fIndirect] at heq; omega)).2
      omega
    | entry i' =>
      simp only [slotAddr, fDirect, Nat.add_assoc] at heq
      exact absurd heq (ho.file_word_ne_entry hf (by omega) (hx hf' h').2 i'.isLt)
  | indirect =>
    cases k' with
    | direct i' =>
      have hi := (ho.file_word_inj hf hf' (i := 44) (j := 34 + i') (by omega) (by omega)
        (by simp only [slotAddr, fDirect, fIndirect] at heq; omega)).2
      omega
    | indirect => exact ⟨(ho.file_word_inj hf hf' (by decide) (by decide) heq).1, rfl⟩
    | entry i' => exact absurd heq (ho.file_word_ne_entry hf (by decide) (hx hf' h').2 i'.isLt)
  | entry i =>
    cases k' with
    | direct i' =>
      simp only [slotAddr, fDirect, Nat.add_assoc] at heq
      exact absurd heq.symm (ho.file_word_ne_entry hf' (by omega) (hx hf h).2 i.isLt)
    | indirect => exact absurd heq.symm (ho.file_word_ne_entry hf' (by decide) (hx hf h).2 i.isLt)
    | entry i' =>
      have hi := i.isLt
      have hi' := i'.isLt
      simp only [slotAddr] at heq
      have hslot := ho.holds.unique _ (indirect_mem_slots hf) _ (indirect_mem_slots hf') (hx hf h).1
        (by omega)
      obtain ⟨rfl, -⟩ := ho.file_word_inj hf hf' (i := 44) (j := 44) (by decide) (by decide) hslot
      exact ⟨rfl, by rw [Fin.ext (by omega : i.val = i'.val)]⟩

/-- Consistent memory is a consistent file system. -/
theorem consistent (ho : s.Own D X) : s.Consistent where
  mounted := ho.mounted
  used f k hf h0 := by
    rw [held_eq_num h0]
    exact ho.holds.held _ (ho.slotAddr_mem (ho.isFile hf) h0) (by rwa [← held_eq_num h0])
  unique f k f' k' hf hf' h0 heq := by
    have h0' : s.held f' k' ≠ 0 := heq ▸ h0
    refine ho.slotAddr_inj (ho.isFile hf) (ho.isFile hf') h0 h0' ?_
    refine ho.holds.unique _ (ho.slotAddr_mem (ho.isFile hf) h0) _
      (ho.slotAddr_mem (ho.isFile hf') h0') (by rwa [← held_eq_num h0]) ?_
    rw [← held_eq_num h0, ← held_eq_num h0', heq]

end Own

/-- The blocks of the directories that can be reached. -/
def dirBlocks (s : Fs) : Set Nat :=
  {b | ∃ d k, s.IsFile d ∧ s.IsDir d ∧ k ≠ .indirect ∧ s.held d k = b ∧ b ≠ 0}

/-- The index blocks of the files that can be reached. -/
def indexBlocks (s : Fs) : Set Nat := {x | ∃ f, s.IsFile f ∧ s.num (fIndirect f) = x ∧ x ≠ 0}

theorem mem_files_dirBlocks : f ∈ files s.dirBlocks ↔ s.IsFile f := by
  constructor
  · rintro (rfl | ⟨b, ⟨d, k, hd, hdir, hk, rfl, hb⟩, j, hj, rfl⟩)
    · exact .root
    · exact .entry hd hdir hk hb hj
  · intro hf
    cases hf with
    | root => exact .inl rfl
    | @entry d j k hd hdir hk hb hj => exact .inr ⟨_, ⟨d, k, hd, hdir, hk, rfl, hb⟩, j, hj, rfl⟩

theorem exists_slot_of_mem (h : a ∈ slots s.dirBlocks s.indexBlocks) :
    ∃ f k, s.IsFile f ∧ s.slotAddr f k = a ∧ s.held f k = s.num a := by
  rcases h with ⟨f, hf, i, hi, rfl⟩ | ⟨x, ⟨f, hf, rfl, hx⟩, i, hi, rfl⟩
  · have hf := mem_files_dirBlocks.mp hf
    by_cases h10 : i = 10
    · subst h10
      exact ⟨f, .indirect, hf, rfl, rfl⟩
    · exact ⟨f, .direct ⟨i, by omega⟩, hf, rfl, rfl⟩
  · refine ⟨f, .entry ⟨i, hi⟩, hf, rfl, ?_⟩
    simp only [held, if_neg hx]

/-- A slot with the number of a block is the slot of a block. -/
theorem exists_slot_of_pointer (h : a ∈ s.pointers f) :
    ∃ k, k ≠ .indirect ∧ s.slotAddr f k = a ∧ s.held f k = s.num a := by
  rcases h with ⟨i, hi, rfl⟩ | ⟨hx, i, hi, rfl⟩
  · exact ⟨.direct ⟨i, hi⟩, by simp, rfl, rfl⟩
  · refine ⟨.entry ⟨i, hi⟩, by simp, rfl, ?_⟩
    simp only [held, if_neg hx]

/-- A consistent file system is consistent memory, with the blocks that are found. -/
theorem Consistent.own (h : s.Consistent) : s.Own s.dirBlocks s.indexBlocks where
  mounted := h.mounted
  holds := by
    constructor
    · intro a ha h0
      obtain ⟨f, k, hf, -, heq⟩ := exists_slot_of_mem ha
      rw [← heq] at h0 ⊢
      exact h.used f k hf h0
    · intro a ha a' ha' h0 heq
      obtain ⟨f, k, hf, rfl, hk⟩ := exists_slot_of_mem ha
      obtain ⟨f', k', hf', rfl, hk'⟩ := exists_slot_of_mem ha'
      obtain ⟨rfl, rfl⟩ := h.unique f k f' k' hf hf' (by rwa [hk]) (by rw [hk, hk', heq])
      rfl
  dirs := by
    rintro b ⟨d, k, hd, -, -, rfl, hb⟩
    exact h.used d k hd hb
  indexes := by
    rintro x ⟨f, hf, rfl, hx⟩
    exact h.used f .indirect hf hx
  apart := by
    rintro b ⟨d, k, hd, -, hk, rfl, hb⟩ ⟨f, hf, heq, hx⟩
    exact hk (h.unique d k f .indirect hd hf hb heq.symm).2
  index f hf h0 := ⟨f, mem_files_dirBlocks.mp hf, rfl, h0⟩
  dirBlock f hf hdir a ha h0 := by
    obtain ⟨k, hk, -, heq⟩ := exists_slot_of_pointer ha
    exact ⟨f, k, mem_files_dirBlocks.mp hf, hdir, hk, heq, h0⟩
  fileBlock f hf hdir a ha h0 := by
    have hf := mem_files_dirBlocks.mp hf
    obtain ⟨k, hk, -, heq⟩ := exists_slot_of_pointer ha
    rw [← heq] at h0 ⊢
    constructor
    · rintro ⟨d, k', hd, hdir', -, heq', -⟩
      obtain ⟨rfl, -⟩ := h.unique f k d k' hf hd h0 heq'.symm
      exact hdir hdir'
    · rintro ⟨f', hf', heq', -⟩
      exact hk (h.unique f k f' .indirect hf hf' h0 heq'.symm).2

theorem consistent_iff : s.Consistent ↔ ∃ D X, s.Own D X :=
  ⟨fun h => ⟨_, _, h.own⟩, fun ⟨_, _, h⟩ => h.consistent⟩

/-! ## Stores -/

/-- The blocks `c` with words about which `Own` speaks. -/
theorem Own.slot_block (ho : s.Own D X) (ha : a ∈ slots D X) :
    a / 1024 = 1 ∧ a ≠ 1025 ∨ a / 1024 ∈ D ∨ a / 1024 ∈ X := by
  rcases ha with ⟨f, hf, i, hi, rfl⟩ | ⟨x, hx, i, hi, rfl⟩
  · rw [Nat.add_assoc, file_words hf (by omega)]
    rcases ho.file_block hf with rfl | ⟨hD, -, -⟩
    · unfold sRoot
      omega
    · exact .inr (.inl hD)
  · rw [show (1024 * x + i) / 1024 = x by omega]
    exact .inr (.inr hx)

theorem Own.slot_inData (ho : s.Own D X) (ha : a ∈ slots D X) : s.InData (a / 1024) := by
  rcases ho.slot_block ha with ⟨h, -⟩ | h | h
  · exact .inr (.inl h)
  · exact .inr (.inr (ho.dirs h).1)
  · exact .inr (.inr (ho.indexes h).1)

theorem Own.type_inData (ho : s.Own D X) (hf : f ∈ files D) : s.InData (fType f / 1024) := by
  rw [fType, file_words hf (by omega)]
  rcases ho.file_block hf with rfl | ⟨-, hD, -⟩
  · exact .inr (.inl rfl)
  · exact .inr (.inr hD)

theorem Own.pointer_mem_slots (ho : s.Own D X) (hf : f ∈ files D) (ha : a ∈ s.pointers f) :
    a ∈ slots D X := by
  rcases ha with ⟨i, hi, rfl⟩ | ⟨hx, i, hi, rfl⟩
  · exact direct_mem_slots hf hi
  · exact entry_mem_slots (ho.index f hf hx) hi

theorem IsDir.congr (h : t.look (fType f) = s.look (fType f)) : t.IsDir f ↔ s.IsDir f := by
  unfold IsDir
  rw [h]

theorem pointers_congr (h : t.look (fIndirect f) = s.look (fIndirect f)) :
    t.pointers f = s.pointers f := by
  unfold pointers num
  rw [h]

/-- Only the slots and the types of the files matter. -/
theorem Own.congr (ho : s.Own D X) (hm : t.Mounted) (hused : s.used ⊆ t.used)
    (hslot : ∀ a ∈ slots D X, t.look a = s.look a)
    (htype : ∀ f ∈ files D, t.look (fType f) = s.look (fType f)) : t.Own D X := by
  have hnum : ∀ a ∈ slots D X, t.num a = s.num a := by
    intro a ha
    rw [num, hslot a ha]
    rfl
  have hptr : ∀ f ∈ files D, ∀ a ∈ t.pointers f, a ∈ s.pointers f ∧ t.num a = s.num a := by
    intro f hf a ha
    rw [pointers_congr (hslot _ (indirect_mem_slots hf))] at ha
    exact ⟨ha, hnum a (ho.pointer_mem_slots hf ha)⟩
  refine ⟨hm, ?_, ho.dirs.trans hused, ho.indexes.trans hused, ho.apart, ?_, ?_, ?_⟩
  · exact ho.holds.congr (fun a ha _ => ⟨ha, hnum a ha⟩) hused
  · intro f hf h0
    rw [hnum _ (indirect_mem_slots hf)] at h0 ⊢
    exact ho.index f hf h0
  · intro f hf hdir a ha h0
    obtain ⟨ha, heq⟩ := hptr f hf a ha
    rw [heq] at h0 ⊢
    exact ho.dirBlock f hf ((IsDir.congr (htype f hf)).mp hdir) a ha h0
  · intro f hf hdir a ha h0
    obtain ⟨ha, heq⟩ := hptr f hf a ha
    rw [heq] at h0 ⊢
    exact ho.fileBlock f hf (fun h => hdir ((IsDir.congr (htype f hf)).mpr h)) a ha h0

theorem Sees.used (h : s.Sees t) : t.used = s.used := by
  unfold Fs.used
  simp only [h.firstData, h.nblocks, h.free]

theorem Own.sees (ho : s.Own D X) (h : s.Sees t) : t.Own D X :=
  ho.congr (h.mounted ho.mounted) (by rw [h.used]) (fun a _ => h.look a) (fun _ _ => h.look _)

/-- Only the words at the addresses `A` may have changed. -/
structure Alters (s : Fs) (A : Set Nat) (t : Fs) : Prop where
  super : t.super = s.super
  bitmap : t.bitmap = s.bitmap
  look : ∀ a ∉ A, t.look a = s.look a
  mapped : ∀ b, s.isMapped b = true → t.isMapped b = true
  idle : ∀ b, s.Free b → t.page b = s.page b

/-- The addresses `A` are neither in the bitmap nor that of `s_nblocks`. -/
def Plain (s : Fs) (A : Set Nat) : Prop := ∀ a ∈ A, s.InData (a / 1024) ∧ a ≠ 1025

namespace Alters

variable {A B : Set Nat}

theorem nblocks (h : s.Alters A t) (hA : s.Plain A) : t.nblocks = s.nblocks := by
  unfold Fs.nblocks
  rw [h.look _ fun ha => (hA _ ha).2 rfl]

theorem free (h : s.Alters A t) (hA : s.Plain A) (b : Nat) : t.Free b ↔ s.Free b := by
  unfold Free
  rw [h.nblocks hA]
  refine and_congr_right fun hb => ?_
  unfold freeBit
  rw [h.look _ fun ha => bitmapWord_ne hb (hA _ ha).1 rfl]

theorem firstData (h : s.Alters A t) (hA : s.Plain A) : t.firstData = s.firstData := by
  unfold Fs.firstData
  rw [h.nblocks hA]

theorem used (h : s.Alters A t) (hA : s.Plain A) : t.used = s.used := by
  unfold Fs.used
  simp only [h.firstData hA, h.nblocks hA, h.free hA]

theorem mounted (h : s.Alters A t) (hA : s.Plain A) (hs : s.Mounted) : t.Mounted where
  super := h.super.trans hs.super
  bitmap := h.bitmap.trans hs.bitmap
  nblocks := by rw [h.nblocks hA]; exact hs.nblocks
  mapped b h₁ hb := h.mapped b (hs.mapped b h₁ (by rw [← h.firstData hA]; exact hb))
  reserved b hb hf := hs.reserved b (by rw [← h.firstData hA]; exact hb) ((h.free hA b).mp hf)

theorem mono (h : s.Alters A t) (hAB : A ⊆ B) : s.Alters B t :=
  ⟨h.super, h.bitmap, fun a ha => h.look a fun hA => ha (hAB hA), h.mapped, h.idle⟩

theorem trans (h : s.Alters A t) (h' : t.Alters A u) (hA : s.Plain A) : s.Alters A u where
  super := h'.super.trans h.super
  bitmap := h'.bitmap.trans h.bitmap
  look a ha := (h'.look a ha).trans (h.look a ha)
  mapped b hb := h'.mapped b (h.mapped b hb)
  idle b hb := (h'.idle b ((h.free hA b).mpr hb)).trans (h.idle b hb)

end Alters

/-- Outside of the bitmap and of blocks that were free, only the words at the addresses `W` may have
changed; only blocks that are all in `W` may have been freed. -/
structure Frames (s : Fs) (W : Set Nat) (t : Fs) : Prop where
  nblocks : t.nblocks = s.nblocks
  look : ∀ a ∉ W, s.InData (a / 1024) → ¬s.Free (a / 1024) → t.look a = s.look a
  free : ∀ b, t.Free b → s.Free b ∨ ∀ a, a / 1024 = b → a ∈ W

namespace Frames

variable {W W' : Set Nat}

theorem firstData (h : s.Frames W t) : t.firstData = s.firstData := by
  unfold Fs.firstData
  rw [h.nblocks]

theorem inData (h : s.Frames W t) : t.InData b ↔ s.InData b := by
  unfold InData
  rw [h.firstData]

theorem mono (h : s.Frames W t) (hW : W ⊆ W') : s.Frames W' t :=
  ⟨h.nblocks, fun a ha => h.look a fun h => ha (hW h),
    fun b hb => (h.free b hb).imp_right fun h a ha => hW (h a ha)⟩

/-- The second change may be to blocks that were free before the first. -/
theorem trans (h : s.Frames W t) (h' : t.Frames W' u) (hW : ∀ a ∈ W', a ∈ W ∨ s.Free (a / 1024)) :
    s.Frames W u where
  nblocks := h'.nblocks.trans h.nblocks
  look a ha hd hf := by
    have ha' : a ∉ W' := fun haW => (hW a haW).elim ha hf
    have hf' : ¬t.Free (a / 1024) := fun htf => (h.free _ htf).elim hf fun hall => ha (hall a rfl)
    rw [h'.look a ha' (h.inData.mpr hd) hf', h.look a ha hd hf]
  free b hb := by
    rcases h'.free b hb with htb | hall
    · exact h.free b htb
    · by_cases hsb : s.Free b
      · exact .inl hsb
      · refine .inr fun a ha => ?_
        rcases hW a (hall a ha) with haW | hfree
        · exact haW
        · exact absurd (ha ▸ hfree) hsb

end Frames

theorem Sees.frames (h : s.Sees t) (W : Set Nat) : s.Frames W t :=
  ⟨h.nblocks, fun a _ _ _ => h.look a, fun b hb => .inl ((h.free b).mp hb)⟩

theorem Alters.frames {A : Set Nat} (h : s.Alters A t) (hA : s.Plain A) : s.Frames A t :=
  ⟨h.nblocks hA, fun a ha _ _ => h.look a ha, fun b hb => .inl ((h.free hA b).mp hb)⟩

theorem Took.frames (h : s.Took b t) (W : Set Nat) : s.Frames W t where
  nblocks := h.nblocks
  look a _ hd hf := h.look a hd (by rintro rfl; exact hf h.first.1)
  free c hc := .inl ((h.free c).mp hc).1

theorem Sees.alters (h : s.Sees t) (A : Set Nat) : s.Alters A t :=
  ⟨h.super, h.bitmap, fun a _ => h.look a, h.mapped, h.idle⟩

theorem Sees.trans_alters {A : Set Nat} (h : s.Sees t) (h' : t.Alters A u) : s.Alters A u where
  super := h'.super.trans h.super
  bitmap := h'.bitmap.trans h.bitmap
  look a ha := (h'.look a ha).trans (h.look a)
  mapped b hb := h'.mapped b (h.mapped b hb)
  idle b hb := (h'.idle b ((h.free b).mpr hb)).trans (h.idle b hb)

/-- A store to a page that is mapped and not that of a free block. -/
theorem alters_setWord (hm : s.isMapped (a / 1024) = true) (hf : ¬s.Free (a / 1024)) :
    s.Alters {a} (s.setWord a w) where
  super := rfl
  bitmap := rfl
  look a' ha' := by
    rw [look_setWord hm]
    exact if_neg ha'
  mapped b hb := by simp [hb]
  idle b hb := page_setWord_ne (by rintro rfl; exact hf hb)

/-- A client writes to a page that is not that of a free block. -/
theorem alters_setPage (hf : ¬s.Free b) (p : Page) : s.Alters {a | a / 1024 = b} (s.setPage b p) where
  super := rfl
  bitmap := rfl
  look a ha := by
    rw [look_setPage]
    exact if_neg ha
  mapped c hc := by simp [hc]
  idle c hc := by
    rw [page_setPage, if_neg]
    rintro rfl
    exact hf hc

/-- The words that `Own` does not speak about. -/
def Inert (s : Fs) (D X A : Set Nat) : Prop :=
  s.Plain A ∧ (∀ a ∈ A, a ∉ slots D X) ∧ ∀ f ∈ files D, fType f ∉ A

theorem Own.alters (ho : s.Own D X) {A : Set Nat} (hA : s.Inert D X A) (h : s.Alters A t) :
    t.Own D X :=
  ho.congr (h.mounted hA.1 ho.mounted) (by rw [h.used hA.1])
    (fun a ha => h.look a fun haA => hA.2.1 a haA ha) (fun f hf => h.look _ (hA.2.2 f hf))

/-- The block of a file is in use. -/
theorem Own.file_not_free (ho : s.Own D X) (hf : f ∈ files D) : ¬s.Free (f / 1024) := by
  rcases ho.file_block hf with rfl | ⟨hD, -, -⟩
  · exact ho.mounted.reserved _ (by have := s.three_le_firstData; unfold sRoot; omega)
  · exact (ho.dirs hD).2.2

/-- The name, the size and `f_dir` of a file are such words. -/
theorem Own.inert_file (ho : s.Own D X) (hf : f ∈ files D) (hi : i < 64) (h : i < 33 ∨ 44 < i) :
    s.Inert D X {f + i} := by
  refine ⟨?_, ?_, ?_⟩
  · rintro _ rfl
    rw [file_words hf hi]
    rcases ho.file_block hf with rfl | ⟨-, hD, -⟩
    · refine ⟨.inr (.inl rfl), ?_⟩
      unfold sRoot
      omega
    · refine ⟨.inr (.inr hD), ?_⟩
      have := file_words hf hi
      have := s.three_le_firstData
      omega
  · rintro _ rfl (⟨f', hf', i', hi', heq⟩ | ⟨x, hx, i', hi', heq⟩)
    · rw [Nat.add_assoc] at heq
      have := (ho.file_word_inj hf hf' hi (by omega) heq).2
      omega
    · exact ho.file_word_ne_entry hf hi hx hi' heq
  · rintro f' hf' heq
    have := (ho.file_word_inj hf hf' hi (by omega) (Eq.symm heq)).2
    omega

/-- So are those of a data block. -/
theorem Own.inert_page (ho : s.Own D X) (hb : s.firstData ≤ b) (hD : b ∉ D) (hX : b ∉ X) :
    s.Inert D X {a | a / 1024 = b} := by
  have h3 := s.three_le_firstData
  refine ⟨?_, ?_, ?_⟩
  · rintro a rfl
    exact ⟨.inr (.inr hb), by omega⟩
  · rintro a rfl ha
    rcases ho.slot_block ha with ⟨h, -⟩ | h | h
    · omega
    · exact hD h
    · exact hX h
  · intro f hf (heq : fType f / 1024 = b)
    rw [fType, file_words hf (by omega)] at heq
    rcases ho.file_block hf with rfl | ⟨h, -, -⟩
    · unfold sRoot at heq
      omega
    · exact hD (heq ▸ h)

/-! ## Taking blocks -/

theorem Took.firstData (h : s.Took b t) : t.firstData = s.firstData := by
  unfold Fs.firstData
  rw [h.nblocks]

theorem Took.used (hs : s.Mounted) (h : s.Took b t) : t.used = insert b s.used := by
  ext c
  simp only [Fs.used, Set.mem_ofPred_eq, Set.mem_insert_iff, h.firstData, h.nblocks, h.free]
  constructor
  · rintro ⟨h₁, h₂, h₃⟩
    by_cases hc : c = b
    · exact .inl hc
    · exact .inr ⟨h₁, h₂, fun hf => h₃ ⟨hf, hc⟩⟩
  · rintro (rfl | ⟨h₁, h₂, h₃⟩)
    · exact ⟨hs.firstData_le h.first.1, h.first.1.1, fun hf => hf.2 rfl⟩
    · exact ⟨h₁, h₂, fun hf => h₃ hf.1⟩

theorem Took.notMem_used (h : s.Took b t) : b ∉ s.used := fun hb => hb.2.2 h.first.1

/-- A block that is in use and not held by any slot. -/
structure Spare (s : Fs) (D X : Set Nat) (b : Nat) : Prop where
  used : b ∈ s.used
  dir : b ∉ D
  index : b ∉ X
  unheld : ∀ a ∈ slots D X, s.num a ≠ b

/-- `alloc_block` leaves what is owned as it is; the block that it takes is spare. -/
theorem Own.took (ho : s.Own D X) (h : s.Took b t) : t.Own D X ∧ t.Spare D X b := by
  have hused := h.used ho.mounted
  have hne : ∀ c ∈ s.used, c ≠ b := by
    rintro c hc rfl
    exact h.notMem_used hc
  have hslot : ∀ a ∈ slots D X, t.look a = s.look a := by
    intro a ha
    refine h.look a (ho.slot_inData ha) ?_
    rcases ho.slot_block ha with ⟨h₁, -⟩ | hD | hX
    · have := ho.mounted.firstData_le h.first.1
      have := s.three_le_firstData
      omega
    · exact hne _ (ho.dirs hD)
    · exact hne _ (ho.indexes hX)
  refine ⟨ho.congr h.mounted (by rw [hused]; exact Set.subset_insert b _) hslot ?_, ?_⟩
  · intro f hf
    refine h.look _ (ho.type_inData hf) ?_
    rw [fType, file_words hf (by omega)]
    rintro heq
    exact ho.file_not_free hf (heq ▸ h.first.1)
  · refine ⟨by rw [hused]; exact Set.mem_insert b _, fun hD => hne b (ho.dirs hD) rfl,
      fun hX => hne b (ho.indexes hX) rfl, ?_⟩
    intro a ha heq
    rw [num, hslot a ha] at heq
    have h0 : s.num a ≠ 0 := by
      have := ho.mounted.firstData_le h.first.1
      have := s.three_le_firstData
      unfold num
      omega
    exact hne _ (ho.holds.held a ha h0) heq

/-- Block `b` is full of zeros. -/
def Zero (s : Fs) (b : Nat) : Prop := ∀ a, a / 1024 = b → s.look a = 0

theorem Zero.num (h : s.Zero b) (ha : a / 1024 = b) : s.num a = 0 := by
  rw [Fs.num, h a ha]
  rfl

/-- The files in a block full of zeros. -/
theorem files_insert (hf : f ∈ files (insert b D)) : f ∈ files D ∨ ∃ j < file2blk, f = fileIn b j := by
  rcases hf with rfl | ⟨c, hc | hc, j, hj, rfl⟩
  · exact .inl (.inl rfl)
  · exact .inr ⟨j, hj, by rw [hc]⟩
  · exact .inl (.inr ⟨c, hc, j, hj, rfl⟩)

theorem fileIn_block (hj : j < file2blk) (hi : i < 64) : (fileIn b j + i) / 1024 = b := by
  unfold fileIn file2blk at *
  omega

/-- A spare block full of zeros may become a directory block. -/
theorem Own.insert_dir (ho : s.Own D X) (hb : s.Spare D X b) (hz : s.Zero b) :
    s.Own (insert b D) X := by
  have hslot : ∀ a ∈ slots (insert b D) X, s.num a ≠ 0 → a ∈ slots D X := by
    rintro a (⟨f, hf, i, hi, rfl⟩ | hx) h0
    · rcases files_insert hf with hf | ⟨j, hj, rfl⟩
      · exact .inl ⟨f, hf, i, hi, rfl⟩
      · exact absurd (hz.num (by rw [Nat.add_assoc]; exact fileIn_block hj (by omega))) h0
    · exact .inr hx
  have hzero : ∀ {j : Nat}, j < file2blk → ∀ a ∈ s.pointers (fileIn b j), s.num a = 0 := by
    rintro j hj a (⟨i, hi, rfl⟩ | ⟨h0, -⟩)
    · exact hz.num (by rw [fDirect, Nat.add_assoc]; exact fileIn_block hj (by omega))
    · exact absurd (hz.num (fileIn_block hj (by decide))) h0
  refine ⟨ho.mounted, ?_, ?_, ho.indexes, ?_, ?_, ?_, ?_⟩
  · exact ho.holds.congr (fun a ha h0 => ⟨hslot a ha h0, rfl⟩) (subset_refl _)
  · rintro c (rfl | hc)
    · exact hb.used
    · exact ho.dirs hc
  · rintro c (rfl | hc)
    · exact hb.index
    · exact ho.apart c hc
  · intro f hf h0
    rcases files_insert hf with hf | ⟨j, hj, rfl⟩
    · exact ho.index f hf h0
    · exact absurd (hz.num (fileIn_block hj (by decide))) h0
  · intro f hf hdir a ha h0
    rcases files_insert hf with hf | ⟨j, hj, rfl⟩
    · exact .inr (ho.dirBlock f hf hdir a ha h0)
    · exact absurd (hzero hj a ha) h0
  · intro f hf hdir a ha h0
    rcases files_insert hf with hf | ⟨j, hj, rfl⟩
    · obtain ⟨h₁, h₂⟩ := ho.fileBlock f hf hdir a ha h0
      refine ⟨?_, h₂⟩
      rintro (heq | h)
      · exact hb.unheld a (ho.pointer_mem_slots hf ha) heq
      · exact h₁ h
    · exact absurd (hzero hj a ha) h0

/-- Or an index block. -/
theorem Own.insert_index (ho : s.Own D X) (hb : s.Spare D X b) (hz : s.Zero b) :
    s.Own D (insert b X) := by
  have hslot : ∀ a ∈ slots D (insert b X), s.num a ≠ 0 → a ∈ slots D X := by
    rintro a (hf | ⟨x, rfl | hx, i, hi, rfl⟩) h0
    · exact .inl hf
    · exact absurd (hz.num (by omega)) h0
    · exact .inr ⟨x, hx, i, hi, rfl⟩
  refine ⟨ho.mounted, ?_, ho.dirs, ?_, ?_, fun f hf h0 => .inr (ho.index f hf h0), ho.dirBlock, ?_⟩
  · exact ho.holds.congr (fun a ha h0 => ⟨hslot a ha h0, rfl⟩) (subset_refl _)
  · rintro c (rfl | hc)
    · exact hb.used
    · exact ho.indexes hc
  · rintro c hc (rfl | hx)
    · exact hb.dir hc
    · exact ho.apart c hc hx
  · intro f hf hdir a ha h0
    obtain ⟨h₁, h₂⟩ := ho.fileBlock f hf hdir a ha h0
    refine ⟨h₁, ?_⟩
    rintro (heq | h)
    · exact hb.unheld a (ho.pointer_mem_slots hf ha) heq
    · exact h₂ h

/-- The page in which a slot is belongs to a block in use. -/
theorem Own.slot_not_free (ho : s.Own D X) (ha : a ∈ slots D X) : ¬s.Free (a / 1024) := by
  rcases ho.slot_block ha with ⟨h, -⟩ | h | h
  · rw [h]
    exact ho.mounted.reserved 1 (by have := s.three_le_firstData; omega)
  · exact (ho.dirs h).2.2
  · exact (ho.indexes h).2.2

theorem Own.slot_plain (ho : s.Own D X) (ha : a ∈ slots D X) : s.Plain {a} := by
  rintro _ rfl
  refine ⟨ho.slot_inData ha, ?_⟩
  rintro rfl
  rcases ho.slot_block ha with ⟨-, h⟩ | h | h
  · exact h rfl
  · have := (ho.dirs h).1
    have := s.three_le_firstData
    omega
  · have := (ho.indexes h).1
    have := s.three_le_firstData
    omega

/-- A slot is not the type of a file. -/
theorem Own.slot_ne_type (ho : s.Own D X) (ha : a ∈ slots D X) (hf : f ∈ files D) : fType f ≠ a := by
  rintro rfl
  rcases ha with ⟨f', hf', i, hi, heq⟩ | ⟨x, hx, i, hi, heq⟩
  · rw [fType, Nat.add_assoc] at heq
    have := (ho.file_word_inj hf hf' (by omega) (by omega) heq).2
    omega
  · exact ho.file_word_ne_entry hf (by decide) hx hi heq

theorem num_setWord (hm : s.isMapped (p / 1024) = true) (a : Nat) :
    (s.setWord p w).num a = if a = p then w.toNat else s.num a := by
  rw [num, look_setWord hm]
  split <;> rfl

/-- The slots of the blocks of `f` after a store to the slot `p`: they are the same, unless `p` is
`f_indirect`. -/
theorem pointers_setWord (hm : s.isMapped (p / 1024) = true) (hp : p ≠ fIndirect f) :
    (s.setWord p w).pointers f = s.pointers f :=
  pointers_congr (by rw [look_setWord hm, if_neg (Ne.symm hp)])

/-- An empty slot gets a spare block: an index block full of zeros if the slot is an `f_indirect`, a
directory block if it is a slot of a directory, and otherwise neither. -/
theorem Own.attach (ho : s.Own D X) (hp : p ∈ slots D X) (hm : s.isMapped (p / 1024) = true)
    (hb : b ∈ s.used) (hun : ∀ a ∈ slots D X, s.num a ≠ b)
    (hidx : ∀ f ∈ files D, p = fIndirect f → b ∈ X ∧ s.Zero b)
    (hdir : ∀ f ∈ files D, s.IsDir f → p ∈ s.pointers f → b ∈ D)
    (hfile : ∀ f ∈ files D, ¬s.IsDir f → p ∈ s.pointers f → b ∉ D ∧ b ∉ X) :
    (s.setWord p (BitVec.ofNat 32 b)).Own D X := by
  have hlt : (BitVec.ofNat 32 b : Word).toNat = b := by
    have := hb.2.1
    have := ho.mounted.nblocks
    simp only [BitVec.toNat_ofNat]
    omega
  have hnum := fun a => num_setWord (w := BitVec.ofNat 32 b) hm a
  rw [hlt] at hnum
  have halt := alters_setWord (w := BitVec.ofNat 32 b) hm (ho.slot_not_free hp)
  have hplain := ho.slot_plain hp
  set t := s.setWord p (BitVec.ofNat 32 b) with ht
  have htype : ∀ f ∈ files D, (t.IsDir f ↔ s.IsDir f) := fun f hf =>
    IsDir.congr (halt.look _ (ho.slot_ne_type hp hf))
  -- a slot of a block after the store was one before, or it is in the new index block
  have hptr : ∀ f ∈ files D, ∀ a ∈ t.pointers f, t.num a ≠ 0 → a ∈ s.pointers f := by
    intro f hf a ha h0
    by_cases hpf : p = fIndirect f
    · rcases ha with ha | ⟨-, i, hi, rfl⟩
      · exact .inl ha
      · rw [hnum (fIndirect f), if_pos hpf.symm] at h0
        have hne : 1024 * b + i ≠ p := by
          rintro rfl
          exact ho.file_word_ne_entry hf (by decide) (hidx f hf hpf).1 hi hpf.symm
        rw [hnum, if_neg hne, (hidx f hf hpf).2.num (by omega)] at h0
        exact absurd rfl h0
    · rwa [pointers_setWord hm hpf] at ha
  refine ⟨halt.mounted hplain ho.mounted, ?_, ?_, ?_, ho.apart, ?_, ?_, ?_⟩
  · rw [halt.used hplain]
    have hholds : Holds (slots D X) s.num (s.used \ {b}) :=
      ⟨fun a ha h0 => ⟨ho.holds.held a ha h0, hun a ha⟩, ho.holds.unique⟩
    have := hholds.take (w := t.num) (a := p) (r := b) (fun h => h.2 rfl)
      (fun a _ hne => by rw [hnum, if_neg hne]) (by rw [hnum, if_pos rfl])
    rwa [Set.insert_sdiff_singleton, Set.insert_eq_of_mem hb] at this
  · rw [halt.used hplain]
    exact ho.dirs
  · rw [halt.used hplain]
    exact ho.indexes
  · intro f hf h0
    rw [hnum] at h0 ⊢
    split
    next heq => exact (hidx f hf heq.symm).1
    next hne => exact ho.index f hf (by rwa [if_neg hne] at h0)
  · intro f hf hd a ha h0
    have ha' := hptr f hf a ha h0
    rw [hnum] at h0 ⊢
    split
    next heq => exact hdir f hf ((htype f hf).mp hd) (heq ▸ ha')
    next hne => exact ho.dirBlock f hf ((htype f hf).mp hd) a ha' (by rwa [if_neg hne] at h0)
  · intro f hf hd a ha h0
    have hd : ¬s.IsDir f := fun h => hd ((htype f hf).mpr h)
    have ha' := hptr f hf a ha h0
    rw [hnum] at h0 ⊢
    split
    next heq => exact hfile f hf hd (heq ▸ ha')
    next hne => exact ho.fileBlock f hf hd a ha' (by rwa [if_neg hne] at h0)

/-! ## Giving blocks back -/

theorem nblocks_give (h : s.Mounted) (hb : b < s.nblocks) : (s.give b).nblocks = s.nblocks :=
  nblocks_setBits h.hasBitmap hb

theorem mounted_give (h : s.Mounted) (hb : b ∈ s.used) : (s.give b).Mounted := by
  have hn := nblocks_give h hb.2.1
  have hd : (s.give b).firstData = s.firstData := by rw [firstData, hn]; rfl
  refine ⟨h.super, h.bitmap, by rw [hn]; exact h.nblocks, ?_, ?_⟩
  · intro c h₁ hc
    rw [give, isMapped_setWord, h.mapped c h₁ (by omega)]
    rfl
  · intro c hc hf
    rcases (free_give h.hasBitmap hb.2.1 c).mp hf with hf | rfl
    · exact h.reserved c (by omega) hf
    · have := hb.1
      omega

theorem used_give (h : s.Mounted) (hb : b ∈ s.used) : (s.give b).used = s.used \ {b} := by
  have hn := nblocks_give h hb.2.1
  have hd : (s.give b).firstData = s.firstData := by rw [firstData, hn]; rfl
  ext c
  simp only [used, Set.mem_ofPred_eq, Set.mem_sdiff, Set.mem_singleton_iff, hn, hd,
    free_give h.hasBitmap hb.2.1, not_or, and_assoc]

theorem isMapped_give (s : Fs) (h : s.isMapped c = true) : (s.give b).isMapped c = true := by
  rw [give, isMapped_setWord, h]
  rfl

/-- A slot gives its block back, which is not a directory block; it may be an index block. -/
theorem Own.detach (ho : s.Own D X) (hp : p ∈ slots D X) (hm : s.isMapped (p / 1024) = true)
    (h0 : s.num p ≠ 0) (hD : s.num p ∉ D) (hpv : p / 1024 ≠ s.num p) :
    ((s.give (s.num p)).setWord p 0).Own D (X \ {s.num p}) := by
  have hv := ho.holds.held p hp h0
  set v := s.num p with hvp
  have hm' : (s.give v).isMapped (p / 1024) = true := isMapped_give s hm
  have hlook : ∀ a, s.InData (a / 1024) → (s.give v).look a = s.look a := fun a ha =>
    look_setBits ho.mounted.hasBitmap hv.2.1 ha
  have hfree : ¬(s.give v).Free (p / 1024) := by
    intro hf
    rcases (free_give ho.mounted.hasBitmap hv.2.1 _).mp hf with hf | hf
    · exact ho.slot_not_free hp hf
    · exact hpv hf
  have halt := alters_setWord (w := 0) hm' hfree
  have hplain : (s.give v).Plain {p} := by
    rintro _ rfl
    have := ho.slot_plain hp _ rfl
    rwa [InData, show (s.give v).firstData = s.firstData by
      rw [Fs.firstData, nblocks_give ho.mounted hv.2.1]; rfl]
  set t := (s.give v).setWord p 0 with ht
  have hnum : ∀ a ∈ slots D X, t.num a = if a = p then 0 else s.num a := by
    intro a ha
    rw [num_setWord hm']
    split
    · rfl
    · rw [num, hlook a (ho.slot_inData ha)]
      rfl
  have hused : t.used = s.used \ {v} := by
    rw [halt.used hplain, used_give ho.mounted hv]
  have htype : ∀ f ∈ files D, (t.IsDir f ↔ s.IsDir f) := fun f hf => IsDir.congr (by
    rw [halt.look _ (ho.slot_ne_type hp hf), hlook _ (ho.type_inData hf)])
  have hptr : ∀ f ∈ files D, ∀ a ∈ t.pointers f, t.num a ≠ 0 → a ∈ s.pointers f ∧ a ≠ p := by
    intro f hf a ha hne
    have hmem : a ∈ s.pointers f := by
      rcases ha with ha | ⟨hx, i, hi, rfl⟩
      · exact .inl ha
      · rw [hnum _ (indirect_mem_slots hf)] at hx ⊢
        split at hx
        next => exact absurd rfl hx
        next hne' =>
          rw [if_neg hne']
          exact .inr ⟨hx, i, hi, rfl⟩
    refine ⟨hmem, ?_⟩
    rintro rfl
    rw [hnum _ hp, if_pos rfl] at hne
    exact hne rfl
  refine ⟨halt.mounted hplain (mounted_give ho.mounted hv), ?_, ?_, ?_, ?_, ?_, ?_, ?_⟩
  · rw [hused]
    have := ho.holds.give (w := t.num) hp (fun a ha hne => by rw [hnum a ha, if_neg hne])
      (by rw [hnum p hp, if_pos rfl])
    refine this.congr ?_ (subset_refl _)
    rintro a (ha | ⟨x, hx, i, hi, rfl⟩) _
    · exact ⟨.inl ha, rfl⟩
    · exact ⟨entry_mem_slots hx.1 hi, rfl⟩
  · rw [hused]
    exact fun b hb => ⟨ho.dirs hb, by rintro rfl; exact hD hb⟩
  · rw [hused]
    exact fun b hb => ⟨ho.indexes hb.1, hb.2⟩
  · exact fun b hb hX => ho.apart b hb hX.1
  · intro f hf hne
    rw [hnum _ (indirect_mem_slots hf)] at hne ⊢
    split at hne
    next => exact absurd rfl hne
    next hfp =>
      rw [if_neg hfp]
      refine ⟨ho.index f hf hne, fun heq => hfp ?_⟩
      exact ho.holds.unique _ (indirect_mem_slots hf) _ hp hne heq
  · intro f hf hd a ha hne
    obtain ⟨ha', hap⟩ := hptr f hf a ha hne
    rw [hnum a (ho.pointer_mem_slots hf ha'), if_neg hap] at hne ⊢
    exact ho.dirBlock f hf ((htype f hf).mp hd) a ha' hne
  · intro f hf hd a ha hne
    obtain ⟨ha', hap⟩ := hptr f hf a ha hne
    rw [hnum a (ho.pointer_mem_slots hf ha'), if_neg hap] at hne ⊢
    obtain ⟨h₁, h₂⟩ := ho.fileBlock f hf (fun h => hd ((htype f hf).mpr h)) a ha' hne
    exact ⟨h₁, fun h => h₂ h.1⟩

end Fs

end Mos
