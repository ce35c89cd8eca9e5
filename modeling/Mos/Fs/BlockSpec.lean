import Mos.Fs.File

/-!
# What the functions of the block cache do

What the server sees of block `b` is its page, if the block is mapped, and otherwise what is on the disk:
the page is read from there when it is first needed. On a mounted file system the functions of the block
cache and of the bitmap are stated in terms of these words: reading, marking and writing back blocks does
not change them, `alloc_block` takes the first free block, and `free_block` gives a block back.
-/

namespace Mos

open Lib Prog Function

variable {s t u : Fs} {a a' b c n i : Nat} {w : Word} {p : Page}

/-! ## Bits -/

theorem getLsbD_bitOf (b i : Nat) : (bitOf b).getLsbD i = decide (i = b % 32) := by
  have hb : b % 32 < 32 := Nat.mod_lt _ (by decide)
  unfold bitOf
  rw [show (1 <<< (b % 32) : Word) = 1#32 <<< (b % 32) from rfl, BitVec.getLsbD_shiftLeft,
    BitVec.getLsbD_one]
  by_cases h : i = b % 32
  · subst h
    simp [hb]
  · simp [h]
    omega

theorem and_bitOf_ne_zero (w : Word) (b : Nat) : w &&& bitOf b ≠ 0 ↔ w.getLsbD (b % 32) = true := by
  constructor
  · intro h
    by_contra hw
    apply h
    apply BitVec.eq_of_getLsbD_eq
    intro i hi
    rw [BitVec.getLsbD_and, getLsbD_bitOf]
    by_cases hib : i = b % 32
    · subst hib
      simpa using hw
    · simp [hib]
  · intro h hz
    have hbit := congrArg (fun v => v.getLsbD (b % 32)) hz
    simp [BitVec.getLsbD_and, getLsbD_bitOf, h] at hbit

namespace Fs

/-! ## Words of memory -/

@[simp] theorem page_setPage (s : Fs) (b : Nat) (p : Page) (c : Nat) :
    (s.setPage b p).page c = if c = b then p else s.page c := by
  unfold setPage page
  by_cases h : c = b
  · subst h
    simp
  · simp [h]

@[simp] theorem isMapped_setPage (s : Fs) (b : Nat) (p : Page) (c : Nat) :
    (s.setPage b p).isMapped c = (s.isMapped c || decide (c = b)) := by
  unfold setPage isMapped
  by_cases h : c = b
  · subst h
    simp
  · simp [h]

@[simp] theorem isDirty_setPage (s : Fs) (b : Nat) (p : Page) (c : Nat) :
    (s.setPage b p).isDirty c = s.isDirty c := by
  unfold setPage
  by_cases h : c = b
  · subst h
    simp [isDirty]
  · simp [isDirty, h]

@[simp] theorem disk_setPage (s : Fs) (b : Nat) (p : Page) : (s.setPage b p).disk = s.disk := rfl

theorem word_setWord (s : Fs) (a a' : Nat) (w : Word) :
    (s.setWord a w).word a' = if a' = a then w else s.word a' := by
  show (s.setPage (a / 1024) _).page (a' / 1024) (a' % 1024) = _
  rw [page_setPage]
  by_cases h : a' = a
  · subst h
    simp
  · rw [if_neg h]
    split
    next hb =>
      rw [update_of_ne (by omega), ← hb]
      rfl
    next => rfl

@[simp] theorem isMapped_setWord (s : Fs) (a : Nat) (w : Word) (c : Nat) :
    (s.setWord a w).isMapped c = (s.isMapped c || decide (c = a / 1024)) :=
  isMapped_setPage s (a / 1024) _ c

@[simp] theorem isDirty_setWord (s : Fs) (a : Nat) (w : Word) (c : Nat) :
    (s.setWord a w).isDirty c = s.isDirty c :=
  isDirty_setPage s (a / 1024) _ c

theorem page_setWord_ne (h : c ≠ a / 1024) : (s.setWord a w).page c = s.page c := by
  show (s.setPage (a / 1024) _).page c = _
  rw [page_setPage, if_neg h]

@[simp] theorem disk_setWord (s : Fs) (a : Nat) (w : Word) : (s.setWord a w).disk = s.disk := rfl
@[simp] theorem super_setWord (s : Fs) (a : Nat) (w : Word) : (s.setWord a w).super = s.super := rfl
@[simp] theorem bitmap_setWord (s : Fs) (a : Nat) (w : Word) : (s.setWord a w).bitmap = s.bitmap :=
  rfl

@[simp] theorem page_mapZero (s : Fs) (b c : Nat) :
    (s.mapZero b).page c = if c = b then fun _ => 0 else s.page c := by
  unfold mapZero page
  by_cases h : c = b
  · subst h
    simp
  · simp [h]

@[simp] theorem isMapped_mapZero (s : Fs) (b c : Nat) :
    (s.mapZero b).isMapped c = (s.isMapped c || decide (c = b)) := by
  unfold mapZero isMapped
  by_cases h : c = b
  · subst h
    simp
  · simp [h]

@[simp] theorem page_mark (s : Fs) (b c : Nat) : (s.mark b).page c = s.page c := by
  unfold mark
  by_cases h : c = b
  · subst h
    simp [page]
  · simp [page, h]

@[simp] theorem isMapped_mark (s : Fs) (b c : Nat) :
    (s.mark b).isMapped c = (s.isMapped c || decide (c = b)) := by
  unfold mark isMapped
  by_cases h : c = b
  · subst h
    simp
  · simp [h]

@[simp] theorem page_writeBack (s : Fs) (b c : Nat) : (s.writeBack b).page c = s.page c := rfl
@[simp] theorem isMapped_writeBack (s : Fs) (b c : Nat) :
    (s.writeBack b).isMapped c = s.isMapped c := rfl
@[simp] theorem page_fill (s : Fs) (b c : Nat) :
    (s.fill b).page c = if c = b then s.disk b else s.page c :=
  page_setPage s b (s.disk b) c
@[simp] theorem isMapped_fill (s : Fs) (b c : Nat) :
    (s.fill b).isMapped c = (s.isMapped c || decide (c = b)) :=
  isMapped_setPage s b (s.disk b) c

/-! ## What the server sees -/

/-- The word at the address `a` as the server sees it: in the page of its block, or on the disk. -/
def look (s : Fs) (a : Nat) : Word :=
  if s.isMapped (a / 1024) then s.word a else s.disk (a / 1024) (a % 1024)

theorem look_of_mapped (h : s.isMapped (a / 1024) = true) : s.look a = s.word a := by
  rw [look, if_pos h]

theorem look_of_unmapped (h : s.isMapped (a / 1024) = false) :
    s.look a = s.disk (a / 1024) (a % 1024) := by
  rw [look, if_neg (by simp [h])]

/-- Equal blocks look equal. -/
theorem look_congr (hm : t.isMapped (a / 1024) = s.isMapped (a / 1024))
    (hp : t.page (a / 1024) = s.page (a / 1024)) (hd : t.disk (a / 1024) = s.disk (a / 1024)) :
    t.look a = s.look a := by
  unfold look word
  rw [hm, hp, hd]

theorem look_setWord (h : s.isMapped (a / 1024) = true) (a' : Nat) :
    (s.setWord a w).look a' = if a' = a then w else s.look a' := by
  by_cases hb : a' / 1024 = a / 1024
  · rw [look_of_mapped (by simp [hb]), word_setWord, look_of_mapped (by rw [hb]; exact h)]
  · rw [if_neg (by intro ha; rw [ha] at hb; exact hb rfl)]
    exact look_congr (by simp [hb]) (page_setWord_ne hb) rfl

theorem look_setPage (s : Fs) (b : Nat) (p : Page) (a : Nat) :
    (s.setPage b p).look a = if a / 1024 = b then p (a % 1024) else s.look a := by
  by_cases hb : a / 1024 = b
  · rw [if_pos hb, look_of_mapped (by simp [hb]), word, page_setPage, if_pos hb]
  · rw [if_neg hb]
    exact look_congr (by simp [hb]) (by simp [hb]) rfl

theorem look_writeBack (h : s.isMapped b = true) (a : Nat) : (s.writeBack b).look a = s.look a := by
  by_cases hb : a / 1024 = b
  · rw [look_of_mapped (by simpa [hb] using h), look_of_mapped (by rw [hb]; exact h)]
    rfl
  · exact look_congr rfl rfl (update_of_ne hb _ _)

theorem look_mark (h : s.isMapped b = true) (a : Nat) : (s.mark b).look a = s.look a := by
  refine look_congr ?_ (page_mark s b _) rfl
  by_cases hb : a / 1024 = b
  · simp [hb, h]
  · simp [hb]

theorem look_fill (h : s.isMapped b = false) (a : Nat) : (s.fill b).look a = s.look a := by
  by_cases hb : a / 1024 = b
  · rw [look_of_mapped (by simp [hb]), look_of_unmapped (by rw [hb]; exact h), word, page_fill,
      if_pos hb, hb]
  · exact look_congr (by simp [hb]) (by simp [hb]) rfl

end Fs

/-! ## Loads and stores -/

theorem touch_mapped (h : s.isMapped b = true) : touch b s = .ret () s := by
  simp [touch, h]

theorem load_mapped (h : s.isMapped (a / 1024) = true) : load a s = .ret (s.word a) s := by
  rw [load, bind_ret (touch_mapped h)]
  rfl

theorem store_mapped (h : s.isMapped (a / 1024) = true) (w : Word) :
    store a w s = .ret () (s.setWord a w) := by
  rw [store, bind_ret (touch_mapped h)]
  rfl

/-! ## Mounted file systems -/

namespace Fs

/-- `super->s_nblocks`. -/
def nblocks (s : Fs) : Nat := (s.look 1025).toNat

/-- The bit of block `b` in the bitmap. -/
def freeBit (s : Fs) (b : Nat) : Bool := (s.look (bitmapWord (b / 32))).getLsbD (b % 32)

/-- Block `b` is free. -/
def Free (s : Fs) (b : Nat) : Prop := b < s.nblocks ∧ s.freeBit b = true

instance (s : Fs) (b : Nat) : Decidable (s.Free b) := inferInstanceAs (Decidable (_ ∧ _))

/-- The first block after the bitmap. -/
def firstData (s : Fs) : Nat := 2 + nbitmap s.nblocks

/-- The super block and the bitmap are in memory, and marked as used. -/
structure Mounted (s : Fs) : Prop where
  super : s.super = true
  bitmap : s.bitmap = true
  nblocks : s.nblocks ≤ 2 ^ 18
  mapped : ∀ b, 1 ≤ b → b < s.firstData → s.isMapped b = true
  reserved : ∀ b < s.firstData, ¬s.Free b

/-- The super block and the bitmap are in memory, whatever the bitmap says. -/
structure HasBitmap (s : Fs) : Prop where
  super : s.super = true
  bitmap : s.bitmap = true
  nblocks : s.nblocks ≤ 2 ^ 18
  mapped : ∀ b, 1 ≤ b → b < s.firstData → s.isMapped b = true

theorem Mounted.hasBitmap (h : s.Mounted) : s.HasBitmap := ⟨h.super, h.bitmap, h.nblocks, h.mapped⟩

theorem three_le_firstData (s : Fs) : 3 ≤ s.firstData := by
  unfold firstData
  have : 1 ≤ nbitmap s.nblocks := Nat.le_add_left 1 _
  omega

theorem HasBitmap.mapped_super (h : s.HasBitmap) : s.isMapped 1 = true :=
  h.mapped 1 (le_refl 1) (by have := s.three_le_firstData; omega)

theorem bitmapWord_block (i : Nat) : bitmapWord i / 1024 = 2 + i / 1024 := by
  unfold bitmapWord
  omega

/-- The bits of the blocks of the disk are in the bitmap. -/
theorem bitmap_block_lt (h : b < s.nblocks) : 2 + b / 32 / 1024 < s.firstData := by
  unfold firstData nbitmap bit2blk
  omega

theorem HasBitmap.mapped_bitmap (h : s.HasBitmap) (hb : b < s.nblocks) :
    s.isMapped (bitmapWord (b / 32) / 1024) = true := by
  rw [bitmapWord_block]
  exact h.mapped _ (by omega) (bitmap_block_lt hb)

theorem Mounted.firstData_le (h : s.Mounted) (hb : s.Free b) : s.firstData ≤ b := by
  by_contra hlt
  exact h.reserved b (by omega) hb

end Fs

theorem sNblocks_eq (h : s.HasBitmap) : sNblocks s = .ret s.nblocks s := by
  rw [sNblocks, bind_ret (load_mapped h.mapped_super), Fs.nblocks, Fs.look_of_mapped h.mapped_super]
  rfl

theorem diskaddr_eq (h : b < 2 ^ 18) : diskaddr b s = .ret b s := by
  have hlt : ¬(diskmap + by2blk * b) % 2 ^ 32 ≥ diskmax + diskmap := by
    simp only [diskmap, diskmax, by2blk]
    omega
  rw [diskaddr, if_neg hlt]
  rfl

theorem blockIsMapped_eq (h : b < 2 ^ 18) : blockIsMapped b s = .ret (s.isMapped b) s := by
  rw [blockIsMapped, bind_ret (diskaddr_eq h)]
  rfl

theorem blockIsDirty_eq (h : b < 2 ^ 18) : blockIsDirty b s = .ret (s.isDirty b) s := by
  rw [blockIsDirty, bind_ret (diskaddr_eq h)]
  rfl

/-- The word of the bitmap in which the bit of a block is. -/
theorem load_bitmap (h : s.HasBitmap) (hb : b < s.nblocks) :
    load (bitmapWord (b / 32)) s = .ret (s.look (bitmapWord (b / 32))) s := by
  rw [load_mapped (h.mapped_bitmap hb), Fs.look_of_mapped (h.mapped_bitmap hb)]

theorem blockIsFree_eq (h : s.HasBitmap) (b : Nat) :
    blockIsFree b s = .ret (decide (s.Free b)) s := by
  rw [blockIsFree, get_bind, if_neg (by simp [h.super]), bind_ret (sNblocks_eq h)]
  by_cases hb : b < s.nblocks
  · rw [if_neg (by omega), bind_ret (load_bitmap h hb), pure_apply]
    simp only [and_bitOf_ne_zero, Fs.Free, Fs.freeBit, hb, true_and]
  · rw [if_pos (by omega), pure_apply]
    simp [Fs.Free, hb]

theorem writeBlock_mapped (hb : b < 2 ^ 18) (h : s.isMapped b = true) :
    writeBlock b s = .ret () (s.writeBack b) := by
  rw [writeBlock, bind_ret (blockIsMapped_eq hb), if_pos h]
  rfl

/-! ## Reading, marking and writing back -/

namespace Fs

/-- `t` is `s` after blocks have been read, marked or written back: the server sees the same words, and
the pages of free blocks are as they were. -/
structure Sees (s t : Fs) : Prop where
  super : t.super = s.super
  bitmap : t.bitmap = s.bitmap
  look : ∀ a, t.look a = s.look a
  mapped : ∀ b, s.isMapped b = true → t.isMapped b = true
  idle : ∀ b, s.Free b → t.page b = s.page b

namespace Sees

theorem refl (s : Fs) : s.Sees s := ⟨rfl, rfl, fun _ => rfl, fun _ h => h, fun _ _ => rfl⟩

theorem nblocks (h : s.Sees t) : t.nblocks = s.nblocks := by
  unfold Fs.nblocks
  rw [h.look]

theorem firstData (h : s.Sees t) : t.firstData = s.firstData := by
  unfold Fs.firstData
  rw [h.nblocks]

theorem free (h : s.Sees t) (b : Nat) : t.Free b ↔ s.Free b := by
  unfold Free freeBit
  rw [h.nblocks, h.look]

theorem trans (h : s.Sees t) (h' : t.Sees u) : s.Sees u where
  super := h'.super.trans h.super
  bitmap := h'.bitmap.trans h.bitmap
  look a := (h'.look a).trans (h.look a)
  mapped b hb := h'.mapped b (h.mapped b hb)
  idle b hb := (h'.idle b ((h.free b).mpr hb)).trans (h.idle b hb)

theorem mounted (h : s.Sees t) (hs : s.Mounted) : t.Mounted where
  super := h.super.trans hs.super
  bitmap := h.bitmap.trans hs.bitmap
  nblocks := by rw [h.nblocks]; exact hs.nblocks
  mapped b h₁ hb := h.mapped b (hs.mapped b h₁ (by rw [← h.firstData]; exact hb))
  reserved b hb hf := hs.reserved b (by rw [← h.firstData]; exact hb) ((h.free b).mp hf)

end Sees

theorem sees_writeBack (h : s.isMapped b = true) : s.Sees (s.writeBack b) :=
  ⟨rfl, rfl, look_writeBack h, fun _ hc => hc, fun _ _ => rfl⟩

theorem sees_mark (h : s.isMapped b = true) : s.Sees (s.mark b) :=
  ⟨rfl, rfl, look_mark h, fun c hc => by simp [hc], fun c _ => page_mark s b c⟩

theorem sees_fill (h : s.isMapped b = false) (hb : ¬s.Free b) : s.Sees (s.fill b) where
  super := rfl
  bitmap := rfl
  look := look_fill h
  mapped c hc := by simp [hc]
  idle c hc := by
    rw [page_fill, if_neg]
    rintro rfl
    exact hb hc

/-- The kernel is asked for pages. -/
theorem sees_avail (s : Fs) (av : Nat → Bool) : s.Sees { s with avail := av } :=
  ⟨rfl, rfl, fun _ => rfl, fun _ h => h, fun _ _ => rfl⟩

end Fs

theorem askPage_eq (s : Fs) :
    askPage s = .ret (s.avail 0) { s with avail := fun n => s.avail (n + 1) } := rfl

theorem checkExists_eq (h : s.Mounted) (hb : b < s.nblocks) : checkExists b s = .ret () s := by
  rw [checkExists, get_bind, when_pos h.super, bind_ret (sNblocks_eq h.hasBitmap), assert_pos hb]

theorem checkUsed_eq (h : s.Mounted) (hf : ¬s.Free b) : checkUsed b s = .ret () s := by
  rw [checkUsed, get_bind, when_pos h.bitmap, bind_ret (blockIsFree_eq h.hasBitmap b),
    assert_pos (by simpa using hf)]

theorem readBlock_mapped (h : s.Mounted) (hb : b < s.nblocks) (hf : ¬s.Free b)
    (hm : s.isMapped b = true) : readBlock b s = .ret () s := by
  have hlt : b < 2 ^ 18 := by have := h.nblocks; omega
  rw [readBlock, bind_ret (checkExists_eq h hb), bind_ret (checkUsed_eq h hf),
    bind_ret (diskaddr_eq hlt), bind_ret (blockIsMapped_eq hlt), if_pos hm]
  rfl

namespace Fs

theorem fill_mapZero (h : s.isMapped b = false) : (s.mapZero b).fill b = s.fill b := by
  have hd : s.isDirty b = false := by
    unfold isMapped at h
    unfold isDirty
    rw [Option.isSome_eq_false_iff, Option.isNone_iff_eq_none] at h
    rw [h]
    rfl
  unfold fill setPage
  rw [hd]
  simp [mapZero, isDirty]

end Fs

/-- Block `b` is not in the cache, and the kernel will not have a page for it: neither when the server asks
for one nor when the server touches the page all the same. -/
def Fs.Starved (s : Fs) (b : Nat) : Prop :=
  s.isMapped b = false ∧ s.avail 0 = false ∧ s.avail 1 = false

/-- `read_block` of a block that passes its checks and is not in the cache yet: it comes in off the disk. -/
theorem readBlock_fetch (hexists : checkExists b s = .ret () s) (hused : checkUsed b s = .ret () s)
    (hlt : b < 2 ^ 18) (hm : s.isMapped b = false) :
    (readBlock b s = .halt .noMemory ∧ s.Starved b) ∨
      ∃ av, readBlock b s = .ret () (({ s with avail := av } : Fs).fill b) := by
  rw [readBlock, bind_ret hexists, bind_ret hused, bind_ret (diskaddr_eq hlt),
    bind_ret (blockIsMapped_eq hlt), if_neg (by simp [hm])]
  unfold fsMemAlloc ideReadBlock touch
  cases h₀ : s.avail 0 with
  | true =>
    refine .inr ⟨fun n => s.avail (n + 1), ?_⟩
    rw [← Fs.fill_mapZero (s := { s with avail := fun n => s.avail (n + 1) }) hm]
    simp [bind_apply, attempt, askPage_eq, h₀]
  | false =>
    have hm' (av : Nat → Bool) : ({ s with avail := av } : Fs).isMapped b = false := hm
    cases h₁ : s.avail 1 with
    | true =>
      refine .inr ⟨fun n => s.avail (n + 1 + 1), ?_⟩
      rw [← Fs.fill_mapZero (s := { s with avail := fun n => s.avail (n + 1 + 1) }) hm]
      simp [bind_apply, attempt, askPage_eq, h₀, hm', h₁]
    | false =>
      refine .inl ⟨?_, hm, h₀, h₁⟩
      simp [bind_apply, attempt, askPage_eq, h₀, hm', h₁]

/-- `read_block` of a block of a mounted file system that is in use and not in the cache yet. -/
theorem readBlock_unmapped (h : s.Mounted) (hb : b < s.nblocks) (hf : ¬s.Free b)
    (hm : s.isMapped b = false) :
    (readBlock b s = .halt .noMemory ∧ s.Starved b) ∨
      ∃ av, readBlock b s = .ret () (({ s with avail := av } : Fs).fill b) :=
  readBlock_fetch (checkExists_eq h hb) (checkUsed_eq h hf) (by have := h.nblocks; omega) hm

/-- `read_block` of a block that is in use: it comes into the cache, unless there is no memory for it. -/
theorem readBlock_comes (h : s.Mounted) (hb : b < s.nblocks) (hf : ¬s.Free b) :
    (readBlock b s).Sat (fun _ t => s.Sees t ∧ t.isMapped b = true) (fun _ _ => False)
      (fun p => p = .noMemory ∧ s.Starved b) := by
  by_cases hm : s.isMapped b = true
  · rw [readBlock_mapped h hb hf hm]
    exact ⟨Fs.Sees.refl s, hm⟩
  · have hm : s.isMapped b = false := by simpa using hm
    rcases readBlock_unmapped h hb hf hm with ⟨heq, hstarved⟩ | ⟨av, heq⟩
    · rw [heq]
      exact ⟨rfl, hstarved⟩
    · rw [heq]
      exact ⟨(Fs.sees_avail s av).trans (Fs.sees_fill hm hf), by simp⟩

theorem readBlock_sat (h : s.Mounted) (hb : b < s.nblocks) (hf : ¬s.Free b) :
    (readBlock b s).Sat (fun _ t => s.Sees t ∧ t.isMapped b = true) (fun _ _ => False)
      (fun p => p = .noMemory) :=
  (readBlock_comes h hb hf).mono (fun _ _ h => h) (fun _ _ h => h) (fun _ h => h.1)

/-! ## The bitmap -/

namespace Fs

/-- Block `b` is marked as used, and its part of the bitmap is written. -/
def take (s : Fs) (b : Nat) : Fs :=
  (s.setWord (bitmapWord (b / 32)) (s.look (bitmapWord (b / 32)) &&& ~~~bitOf b)).writeBack
    (b / bit2blk + 2)

/-- Block `b` is marked as free. -/
def give (s : Fs) (b : Nat) : Fs :=
  s.setWord (bitmapWord (b / 32)) (s.look (bitmapWord (b / 32)) ||| bitOf b)

/-- The first free block of the disk. -/
def FirstFree (s : Fs) (b : Nat) : Prop := s.Free b ∧ ∀ c < b, ¬s.Free c

/-- The blocks in which files and directories can be. -/
def InData (s : Fs) (b : Nat) : Prop := b = 0 ∨ b = 1 ∨ s.firstData ≤ b

theorem bitmapWord_ne (hb : b < s.nblocks) (ha : s.InData (a / 1024)) : a ≠ bitmapWord (b / 32) := by
  have hblk := bitmapWord_block (b / 32)
  have hlt := bitmap_block_lt hb
  unfold InData at ha
  rintro rfl
  omega

/-- A change of the word of the bitmap in which the bit of `b` is. -/
theorem look_setBits (h : s.HasBitmap) (hb : b < s.nblocks) (ha : s.InData (a / 1024)) :
    (s.setWord (bitmapWord (b / 32)) w).look a = s.look a := by
  rw [look_setWord (h.mapped_bitmap hb), if_neg (bitmapWord_ne hb ha)]

theorem nblocks_setBits (h : s.HasBitmap) (hb : b < s.nblocks) :
    (s.setWord (bitmapWord (b / 32)) w).nblocks = s.nblocks := by
  unfold nblocks
  rw [look_setBits h hb (.inr (.inl rfl))]

theorem freeBit_setBits (h : s.HasBitmap) (hb : b < s.nblocks) (c : Nat) :
    (s.setWord (bitmapWord (b / 32)) w).freeBit c =
      if c / 32 = b / 32 then w.getLsbD (c % 32) else s.freeBit c := by
  unfold freeBit
  rw [look_setWord (h.mapped_bitmap hb)]
  by_cases hc : c / 32 = b / 32
  · rw [if_pos hc, if_pos (by rw [hc])]
  · rw [if_neg hc, if_neg]
    unfold bitmapWord
    omega

theorem free_give (h : s.HasBitmap) (hb : b < s.nblocks) (c : Nat) :
    (s.give b).Free c ↔ s.Free c ∨ c = b := by
  unfold give Free
  rw [nblocks_setBits h hb, freeBit_setBits h hb]
  split
  next hc =>
    have hbit : decide (c % 32 = b % 32) = decide (c = b) := decide_eq_decide.mpr (by omega)
    rw [BitVec.getLsbD_or, getLsbD_bitOf, ← hc, hbit]
    unfold freeBit
    constructor
    · rintro ⟨hlt, hw⟩
      simpa [hlt] using hw
    · rintro (⟨hlt, hw⟩ | rfl)
      · exact ⟨hlt, by simp [hw]⟩
      · exact ⟨hb, by simp⟩
  next hc =>
    constructor
    · exact .inl
    · rintro (hf | rfl)
      · exact hf
      · exact absurd rfl hc

theorem block_bits (b : Nat) : b / bit2blk + 2 = bitmapWord (b / 32) / 1024 := by
  unfold bitmapWord bit2blk
  omega

theorem look_take (s : Fs) (b a : Nat) :
    (s.take b).look a =
      (s.setWord (bitmapWord (b / 32)) (s.look (bitmapWord (b / 32)) &&& ~~~bitOf b)).look a := by
  unfold take
  exact look_writeBack (by simp [block_bits]) a

theorem nblocks_take (h : s.HasBitmap) (hb : b < s.nblocks) : (s.take b).nblocks = s.nblocks := by
  rw [nblocks, look_take]
  exact nblocks_setBits h hb

theorem free_take (h : s.HasBitmap) (hb : b < s.nblocks) (c : Nat) :
    (s.take b).Free c ↔ s.Free c ∧ c ≠ b := by
  unfold Free
  rw [nblocks_take h hb, freeBit, look_take, ← freeBit, freeBit_setBits h hb]
  split
  next hc =>
    have hbit : decide (c % 32 = b % 32) = decide (c = b) := decide_eq_decide.mpr (by omega)
    rw [BitVec.getLsbD_and, BitVec.getLsbD_not, getLsbD_bitOf, ← hc, hbit]
    unfold freeBit
    have h32 : c % 32 < 32 := Nat.mod_lt _ (by decide)
    simp [h32, and_assoc]
  next hc =>
    constructor
    · exact fun hf => ⟨hf, by rintro rfl; exact hc rfl⟩
    · exact And.left

/-- Taking a block and giving it back changes nothing that the server sees. -/
theorem look_give_take (h : s.HasBitmap) (hb : s.Free b) (ht : t.HasBitmap) (hbt : b < t.nblocks)
    (hl : ∀ a, t.look a = (s.take b).look a) (a : Nat) : (t.give b).look a = s.look a := by
  unfold give
  rw [look_setWord (ht.mapped_bitmap hbt), hl, hl]
  rw [look_take, look_take, look_setWord (h.mapped_bitmap hb.1),
    look_setWord (h.mapped_bitmap hb.1), if_pos rfl]
  by_cases ha : a = bitmapWord (b / 32)
  · rw [if_pos ha, ha]
    apply BitVec.eq_of_getLsbD_eq
    intro i hi
    rw [BitVec.getLsbD_or, BitVec.getLsbD_and, BitVec.getLsbD_not, getLsbD_bitOf]
    by_cases hib : i = b % 32
    · rw [hib]
      simp [show (s.look (bitmapWord (b / 32))).getLsbD (b % 32) = true from hb.2]
    · simp [hib, hi]
  · rw [if_neg ha, if_neg ha]

end Fs

theorem freeBlock_eq (h : s.HasBitmap) (h0 : b ≠ 0) (hb : b < s.nblocks) :
    freeBlock b s = .ret () (s.give b) := by
  rw [freeBlock, bind_ret (sNblocks_eq h), if_neg (by omega), bind_ret (load_bitmap h hb),
    store_mapped (h.mapped_bitmap hb)]
  rfl

/-- The loop of `alloc_block_num` passes by the blocks that are not free. -/
theorem allocFrom_succ (h : s.HasBitmap) (hc : ¬s.Free c) (n : Nat) :
    allocFrom c (n + 1) s = if c < s.nblocks then allocFrom (c + 1) n s else .err .noDisk s := by
  rw [allocFrom, bind_ret (sNblocks_eq h)]
  split
  next hlt =>
    rw [bind_ret (load_bitmap h hlt), if_neg]
    rw [and_bitOf_ne_zero]
    exact fun hbit => hc ⟨hlt, hbit⟩
  next => rfl

theorem allocFrom_free (h : s.HasBitmap) (hb : s.Free b) (n : Nat) :
    allocFrom b (n + 1) s = .ret b (s.take b) := by
  have hbit : s.look (bitmapWord (b / 32)) &&& bitOf b ≠ 0 := (and_bitOf_ne_zero _ _).mpr hb.2
  have hlt : b / bit2blk + 2 < 2 ^ 18 := by
    have hn := h.nblocks
    have hb := hb.1
    unfold bit2blk
    omega
  rw [allocFrom, bind_ret (sNblocks_eq h), if_pos hb.1, bind_ret (load_bitmap h hb.1), if_pos hbit,
    bind_ret (store_mapped (h.mapped_bitmap hb.1) _),
    bind_ret (writeBlock_mapped hlt (by simp [Fs.block_bits]))]
  rfl

theorem allocFrom_none (h : s.HasBitmap) :
    ∀ n c, (∀ b, c ≤ b → ¬s.Free b) → allocFrom c n s = .err .noDisk s := by
  intro n
  induction n with
  | zero => exact fun _ _ => rfl
  | succ n ih =>
    intro c hnone
    rw [allocFrom_succ h (hnone c (le_refl c)), ih (c + 1) fun b hb => hnone b (by omega)]
    split <;> rfl

theorem allocFrom_some (h : s.HasBitmap) (hb : s.Free b) :
    ∀ n c, (∀ d, c ≤ d → d < b → ¬s.Free d) → c ≤ b → b < c + n →
      allocFrom c n s = .ret b (s.take b) := by
  intro n
  induction n with
  | zero => intro c _ hc hlt; omega
  | succ n ih =>
    intro c hbefore hc hlt
    by_cases hcb : c = b
    · rw [hcb]
      exact allocFrom_free h hb n
    · have hcn : c < s.nblocks := by have := hb.1; omega
      rw [allocFrom_succ h (hbefore c (le_refl c) (by omega)), if_pos hcn]
      exact ih (c + 1) (fun d hd => hbefore d (by omega)) (by omega) (by omega)

/-- `alloc_block_num`: the first free block from block 3 on, if there is one. -/
theorem allocBlockNum_cases (h : s.HasBitmap) :
    (allocBlockNum s = .err .noDisk s ∧ ∀ b, 3 ≤ b → ¬s.Free b) ∨
      ∃ b, 3 ≤ b ∧ s.Free b ∧ (∀ d, 3 ≤ d → d < b → ¬s.Free d) ∧
        allocBlockNum s = .ret b (s.take b) := by
  rw [allocBlockNum, bind_ret (sNblocks_eq h)]
  by_cases hex : ∃ b, 3 ≤ b ∧ s.Free b
  · obtain ⟨h3, hfree⟩ := Nat.find_spec hex
    have hbefore : ∀ d, 3 ≤ d → d < Nat.find hex → ¬s.Free d :=
      fun d hd hlt hf => Nat.find_min hex hlt ⟨hd, hf⟩
    refine .inr ⟨Nat.find hex, h3, hfree, hbefore, allocFrom_some h hfree _ 3 hbefore h3 ?_⟩
    have := hfree.1
    omega
  · push Not at hex
    exact .inl ⟨allocFrom_none h _ 3 hex, hex⟩

/-- Where the first blocks are marked as used, it is the first free block of the disk. -/
theorem allocBlockNum_eq (h : s.Mounted) :
    (allocBlockNum s = .err .noDisk s ∧ ∀ b, ¬s.Free b) ∨
      ∃ b, s.FirstFree b ∧ allocBlockNum s = .ret b (s.take b) := by
  have hthree : ∀ b, s.Free b → 3 ≤ b := by
    intro b hb
    have := h.firstData_le hb
    have := s.three_le_firstData
    omega
  obtain ⟨herr, hnone⟩ | ⟨b, -, hfree, hbefore, hret⟩ := allocBlockNum_cases h.hasBitmap
  · exact .inl ⟨herr, fun b hb => hnone b (hthree b hb) hb⟩
  · exact .inr ⟨b, ⟨hfree, fun c hc hf => hbefore c (hthree c hf) hc hf⟩, hret⟩

/-! ## `alloc_block` -/

namespace Fs

theorem isMapped_take (s : Fs) (b c : Nat) :
    (s.take b).isMapped c = (s.isMapped c || decide (c = bitmapWord (b / 32) / 1024)) :=
  isMapped_setWord s _ _ c

theorem mounted_take (h : s.Mounted) (hb : b < s.nblocks) : (s.take b).Mounted := by
  have hn := nblocks_take h.hasBitmap hb
  have hd : (s.take b).firstData = s.firstData := by rw [firstData, hn]; rfl
  refine ⟨h.super, h.bitmap, by rw [hn]; exact h.nblocks, ?_, ?_⟩
  · intro c h₁ hc
    rw [isMapped_take, h.mapped c h₁ (by omega)]
    rfl
  · intro c hc hf
    exact h.reserved c (by omega) ((free_take h.hasBitmap hb c).mp hf).1

/-- What is known after `alloc_block` has taken block `b`: the other blocks are as they were, and so is the
page of `b`, which is full of zeros if `b` was not in the cache. -/
structure Took (s : Fs) (b : Nat) (t : Fs) : Prop where
  first : s.FirstFree b
  mounted : t.Mounted
  nblocks : t.nblocks = s.nblocks
  free : ∀ c, t.Free c ↔ s.Free c ∧ c ≠ b
  look : ∀ a, s.InData (a / 1024) → a / 1024 ≠ b → t.look a = s.look a
  fresh : ∀ a, a / 1024 = b → t.look a = s.word a
  mapped : ∀ c, s.isMapped c = true → t.isMapped c = true
  self : t.isMapped b = true
  idle : ∀ c, t.Free c → t.page c = s.page c

theorem page_take_ne (s : Fs) (h : c ≠ bitmapWord (b / 32) / 1024) :
    (s.take b).page c = s.page c := page_setWord_ne h

/-- The data blocks are not in the bitmap. -/
theorem ne_bitmap_block (hb : b < s.nblocks) (hc : s.firstData ≤ c) :
    c ≠ bitmapWord (b / 32) / 1024 := by
  have := bitmap_block_lt hb
  rw [bitmapWord_block]
  omega

theorem took_take (h : s.Mounted) (hb : s.FirstFree b) (hm : s.isMapped b = true) :
    s.Took b (s.take b) where
  first := hb
  mounted := mounted_take h hb.1.1
  nblocks := nblocks_take h.hasBitmap hb.1.1
  free := free_take h.hasBitmap hb.1.1
  look a ha _ := by rw [look_take, look_setBits h.hasBitmap hb.1.1 ha]
  fresh a ha := by
    have hd : s.InData (a / 1024) := .inr (.inr (by rw [ha]; exact h.firstData_le hb.1))
    rw [look_take, look_setBits h.hasBitmap hb.1.1 hd, look_of_mapped (by rw [ha]; exact hm)]
  mapped c hc := by rw [isMapped_take, hc]; rfl
  self := by rw [isMapped_take, hm]; rfl
  idle c hc := page_take_ne s
    (ne_bitmap_block hb.1.1 (h.firstData_le ((free_take h.hasBitmap hb.1.1 c).mp hc).1))

theorem look_mapZero_ne (h : a / 1024 ≠ b) : (s.mapZero b).look a = s.look a :=
  look_congr (by simp [h]) (by simp [h]) rfl

theorem took_mapZero (h : s.Mounted) (hb : s.FirstFree b) (hm : s.isMapped b = false)
    (av : Nat → Bool) : s.Took b (({ s.take b with avail := av } : Fs).mapZero b) := by
  have hd : s.firstData ≤ b := h.firstData_le hb.1
  have h3 := s.three_le_firstData
  have hlt := bitmap_block_lt hb.1.1
  set u : Fs := { s.take b with avail := av } with hu
  have hlook : ∀ a, a / 1024 ≠ b → (u.mapZero b).look a = (s.take b).look a :=
    fun a ha => look_mapZero_ne ha
  have hn : (u.mapZero b).nblocks = s.nblocks := by
    rw [Fs.nblocks, hlook 1025 (by omega)]
    exact nblocks_take h.hasBitmap hb.1.1
  have hfree : ∀ c, (u.mapZero b).Free c ↔ s.Free c ∧ c ≠ b := by
    intro c
    rw [← free_take h.hasBitmap hb.1.1 c]
    unfold Free freeBit
    rw [hn, nblocks_take h.hasBitmap hb.1.1]
    refine and_congr_right fun hc => ?_
    rw [hlook]
    have := bitmap_block_lt hc
    rw [bitmapWord_block]
    omega
  have hfd : (u.mapZero b).firstData = s.firstData := by rw [firstData, hn]; rfl
  have hmap : ∀ c, s.isMapped c = true → (u.mapZero b).isMapped c = true := by
    intro c hc
    rw [isMapped_mapZero, hu]
    show ((s.take b).isMapped c || _) = true
    rw [isMapped_take, hc]
    rfl
  refine ⟨hb, ⟨h.super, h.bitmap, by rw [hn]; exact h.nblocks, ?_, ?_⟩, hn, hfree, ?_, ?_, hmap,
    by simp, ?_⟩
  · exact fun c h₁ hc => hmap c (h.mapped c h₁ (by omega))
  · exact fun c hc hf => h.reserved c (by omega) ((hfree c).mp hf).1
  · intro a ha hab
    rw [hlook a hab, look_take, look_setBits h.hasBitmap hb.1.1 ha]
  · intro a ha
    rw [look_of_mapped (by simp [ha]), word, page_mapZero, if_pos ha, word, ha, page]
    unfold isMapped at hm
    rw [Option.isSome_eq_false_iff, Option.isNone_iff_eq_none] at hm
    rw [hm]
  · intro c hc
    have hcf := (hfree c).mp hc
    rw [page_mapZero, if_neg hcf.2]
    exact page_take_ne s (ne_bitmap_block hb.1.1 (h.firstData_le hcf.1))

end Fs

theorem mapBlock_mapped (hb : b < 2 ^ 18) (h : s.isMapped b = true) : mapBlock b s = .ret () s := by
  rw [mapBlock, bind_ret (blockIsMapped_eq hb), if_pos h]
  rfl

theorem mapBlock_unmapped (hb : b < 2 ^ 18) (h : s.isMapped b = false) :
    mapBlock b s = if s.avail 0 then .ret () (({ s with avail := fun n => s.avail (n + 1) } : Fs).mapZero b)
      else .err .noMem { s with avail := fun n => s.avail (n + 1) } := by
  rw [mapBlock, bind_ret (blockIsMapped_eq hb), if_neg (by simp [h]), bind_ret (diskaddr_eq hb),
    fsMemAlloc, bind_ret (askPage_eq s)]
  split <;> rfl

/-- How `alloc_block` can end. -/
theorem allocBlock_cases (h : s.Mounted) :
    (allocBlock s = .err .noDisk s ∧ ∀ b, ¬s.Free b) ∨
      ∃ b, s.FirstFree b ∧
        ((s.isMapped b = true ∧ allocBlock s = .ret b (s.take b)) ∨
          s.isMapped b = false ∧ ∃ av,
            allocBlock s = .ret b (({ s.take b with avail := av } : Fs).mapZero b) ∨
              allocBlock s = .err .noMem (({ s.take b with avail := av } : Fs).give b)) := by
  rcases allocBlockNum_eq h with ⟨heq, hnone⟩ | ⟨b, hb, heq⟩
  · exact .inl ⟨bind_err heq, hnone⟩
  refine .inr ⟨b, hb, ?_⟩
  have hlt : b < 2 ^ 18 := by have := hb.1.1; have := h.nblocks; omega
  have hd : s.firstData ≤ b := h.firstData_le hb.1
  have hmap : (s.take b).isMapped b = s.isMapped b := by
    rw [Fs.isMapped_take, decide_eq_false (Fs.ne_bitmap_block hb.1.1 hd), Bool.or_false]
  rw [allocBlock, bind_ret heq]
  cases hm : s.isMapped b with
  | true =>
    rw [hm] at hmap
    refine .inl ⟨rfl, ?_⟩
    simp [bind_apply, attempt, mapBlock_mapped hlt hmap]
  | false =>
    rw [hm] at hmap
    refine .inr ⟨rfl, fun n => (s.take b).avail (n + 1), ?_⟩
    cases hav : (s.take b).avail 0 with
    | true =>
      refine .inl ?_
      simp [bind_apply, attempt, mapBlock_unmapped hlt hmap, hav]
    | false =>
      refine .inr ?_
      have hfree := freeBlock_eq (s := { s.take b with avail := fun n => (s.take b).avail (n + 1) })
        ((Fs.sees_avail _ _).mounted (Fs.mounted_take h hb.1.1)).hasBitmap (b := b)
        (by have := s.three_le_firstData; omega)
        (by rw [(Fs.sees_avail _ _).nblocks, Fs.nblocks_take h.hasBitmap hb.1.1]; exact hb.1.1)
      simp [bind_apply, attempt, mapBlock_unmapped hlt hmap, hav, hfree]

/-- `alloc_block` takes the first free block; when it fails, the server sees what it saw before. -/
theorem allocBlock_sat (h : s.Mounted) :
    (allocBlock s).Sat (fun b t => s.Took b t) (fun _ t => s.Sees t) (fun _ => False) := by
  rcases allocBlock_cases h with ⟨heq, -⟩ | ⟨b, hb, ⟨hm, heq⟩ | ⟨hm, av, heq | heq⟩⟩
  · rw [heq]
    exact Fs.Sees.refl s
  · rw [heq]
    exact Fs.took_take h hb hm
  · rw [heq]
    exact Fs.took_mapZero h hb hm av
  · rw [heq]
    have hv := Fs.sees_avail (s.take b) av
    have hlook := Fs.look_give_take h.hasBitmap hb.1 (hv.mounted (Fs.mounted_take h hb.1.1)).hasBitmap
      (by rw [hv.nblocks, Fs.nblocks_take h.hasBitmap hb.1.1]; exact hb.1.1) hv.look
    refine ⟨rfl, rfl, hlook, ?_, ?_⟩
    · intro c hc
      rw [Fs.give, Fs.isMapped_setWord]
      show ((s.take b).isMapped c || _) = true
      rw [Fs.isMapped_take, hc]
      rfl
    · intro c hc
      have hne := Fs.ne_bitmap_block hb.1.1 (h.firstData_le hc)
      rw [Fs.give, Fs.page_setWord_ne hne]
      exact Fs.page_take_ne s hne

end Mos
