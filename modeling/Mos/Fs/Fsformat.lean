import Mos.Kern.ElfLoad
import Mos.Fs.BlockSpec
import Mos.Fs.Supply

/-!
# The image that `fsformat` builds

`tools/fsformat.c` lays out a disk of `n` blocks: the boot block, the super block, the bitmap and no files.
The server mounts it with `fs_init`. Both compute from `n` how many blocks the bitmap has, in different ways:
the builder rounds `n / BIT2BLK` up, and the server adds one to it. The two differ where `BIT2BLK` divides
`n`: the server then takes the block after the bitmap for one more bitmap block, finds it free, and stops.

A host that runs the builder is little-endian here: byte `k` of a word are its bits from `8 * k` on.
-/

namespace Mos

open Lib Prog Function

variable {s t : Fs} {b c i j m n : Nat} {d : Nat → Page}

/-! ## The builder -/

/-- `memset(p + off, c, len)` in the data of a block. -/
def memset (p : Page) (off : Nat) (c : Byte) (len : Nat) : Page := copyBytes p off len fun _ => c

/-- `nbitblock`, as `init_disk` computes it. -/
def nbitblock (n : Nat) : Nat := (n + bit2blk - 1) / bit2blk

/-- The loop of `init_disk` that fills the first `k` bitmap blocks. -/
def fillBitmap (d : Nat → Page) : Nat → Nat → Page
  | 0 => d
  | k + 1 =>
    let d := fillBitmap d k
    update d (2 + k) (memset (d (2 + k)) 0 0xff by2blk)

/-- `init_disk()`, for the blocks `disk`; they are zero in the beginning. -/
def initDisk (n : Nat) : Nat → Page :=
  let d := fillBitmap (fun _ _ => 0) (nbitblock n)
  if n ≠ nbitblock n * bit2blk then
    let diff := n % bit2blk / 8
    let last := 2 + (nbitblock n - 1)
    update d last (memset (d last) diff 0 (by2blk - diff))
  else d

/-- The super block: `FS_MAGIC`, the number of blocks, and the root directory `/root1`. -/
def superBlock (n : Nat) : Page := fun i =>
  if i = 0 then fsMagic
  else if i = 1 then BitVec.ofNat 32 n
  else if i = 2 then 0x6f6f722f
  else if i = 3 then 0x00003174
  else if i = 35 then ftypeDir
  else 0

/-- `nextbno` after `init_disk`: the first block that is not in use. -/
def nextbno (n : Nat) : Nat := 2 + nbitblock n

/-- The body of the loop of `flush_bitmap`. -/
def clearBit (d : Nat → Page) (i : Nat) : Nat → Page :=
  let p := d (2 + i / bit2blk)
  update d (2 + i / bit2blk)
    (update p (i % bit2blk / 32) (p (i % bit2blk / 32) &&& ~~~bitOf i))

/-- `flush_bitmap()`, when `nextbno` is `k`. -/
def flushBitmap (d : Nat → Page) : Nat → Nat → Page
  | 0 => d
  | k + 1 => clearBit (flushBitmap d k) k

/-- The blocks that `finish_fs` writes when no file has been added. -/
def formatted (n : Nat) : Nat → Page :=
  update (flushBitmap (initDisk n) (nextbno n)) 1 (superBlock n)

/-! ## The bits of the image -/

/-- The bit of block `b` in the bitmap of an image. -/
def imageBit (d : Nat → Page) (b : Nat) : Bool :=
  (d (2 + b / bit2blk) (b % bit2blk / 32)).getLsbD (b % 32)

theorem getLsbD_byteOf (w : Word) (j : Nat) :
    (byteOf w (j / 8)).getLsbD (j % 8) = w.getLsbD j := by
  unfold byteOf
  rw [BitVec.getLsbD_setWidth, decide_eq_true (Nat.mod_lt _ (by decide)), Bool.true_and,
    BitVec.getLsbD_ushiftRight, Nat.div_add_mod]

theorem getLsbD_memset (p : Page) (off : Nat) (c : Byte) (len i : Nat) (hj : j < 32) :
    (memset p off c len i).getLsbD j =
      if off ≤ 4 * i + j / 8 ∧ 4 * i + j / 8 < off + len then c.getLsbD (j % 8)
      else (p i).getLsbD j := by
  rw [← getLsbD_byteOf, memset, copyBytes, byteOf_wordOf _ (by omega)]
  split
  · rfl
  · exact getLsbD_byteOf (p i) j

theorem ones_byte {r : Nat} (hr : r < 8) : (0xff#8).getLsbD r = true := by
  have hall : ∀ r < 8, (0xff#8).getLsbD r = true := by decide
  exact hall r hr

theorem imageBit_congr {d d' : Nat → Page} (h : d (2 + b / bit2blk) = d' (2 + b / bit2blk)) :
    imageBit d b = imageBit d' b := by
  unfold imageBit
  rw [h]

/-- The bit of block `b`, when its bitmap block has just been filled with bytes `c` from `off` on. -/
theorem imageBit_memset (d : Nat → Page) (b off : Nat) (c : Byte) (len : Nat) :
    imageBit (update d (2 + b / bit2blk) (memset (d (2 + b / bit2blk)) off c len)) b =
      if off ≤ b % bit2blk / 8 ∧ b % bit2blk / 8 < off + len then c.getLsbD (b % 8)
      else imageBit d b := by
  have hbyte : 4 * (b % bit2blk / 32) + b % 32 / 8 = b % bit2blk / 8 := by
    unfold bit2blk
    omega
  have hbit : b % 32 % 8 = b % 8 := by omega
  unfold imageBit
  rw [update_self, getLsbD_memset _ _ _ _ _ (Nat.mod_lt _ (by decide)), hbyte, hbit]

/-- A full bitmap block has all its bits. -/
theorem imageBit_fillBitmap (k : Nat) (hb : b / bit2blk < k) :
    imageBit (fillBitmap d k) b = true := by
  induction k with
  | zero => exact absurd hb (Nat.not_lt_zero _)
  | succ k ih =>
    rw [fillBitmap]
    by_cases hk : b / bit2blk = k
    · subst hk
      have hlt : b % bit2blk / 8 < 0 + by2blk := by
        unfold bit2blk by2blk
        omega
      rw [imageBit_memset, if_pos ⟨Nat.zero_le _, hlt⟩]
      exact ones_byte (Nat.mod_lt _ (by decide))
    · rw [imageBit_congr (update_of_ne (by omega) _ _)]
      exact ih (by omega)

/-- The bits that `init_disk` leaves: those of the blocks of the disk, in whole bytes. -/
theorem imageBit_initDisk (hb : b / bit2blk < nbitblock n) :
    imageBit (initDisk n) b = decide (b / 8 < n / 8) := by
  have hfull := imageBit_fillBitmap (d := fun _ _ => 0) (nbitblock n) hb
  have hlen : b % bit2blk / 8 < n % bit2blk / 8 + (by2blk - n % bit2blk / 8) := by
    unfold bit2blk by2blk
    omega
  unfold initDisk
  by_cases hn : n ≠ nbitblock n * bit2blk
  · rw [if_pos hn]
    by_cases hlast : b / bit2blk = nbitblock n - 1
    · simp only [← hlast]
      rw [imageBit_memset, hfull]
      unfold nbitblock bit2blk at *
      split
      next h => simp; omega
      next h => exact (decide_eq_true (by omega)).symm
    · rw [imageBit_congr (update_of_ne (by omega) _ _), hfull]
      unfold nbitblock bit2blk at *
      exact (decide_eq_true (by omega)).symm
  · rw [if_neg hn, hfull]
    unfold nbitblock bit2blk at *
    exact (decide_eq_true (by omega)).symm

theorem imageBit_clearBit (d : Nat → Page) (i b : Nat) :
    imageBit (clearBit d i) b = (imageBit d b && decide (b ≠ i)) := by
  unfold clearBit
  by_cases hblk : b / bit2blk = i / bit2blk
  · unfold imageBit
    rw [hblk, update_self]
    by_cases hw : b % bit2blk / 32 = i % bit2blk / 32
    · have h32 : b % 32 < 32 := Nat.mod_lt _ (by decide)
      have hbit : decide (b % 32 = i % 32) = decide (b = i) := by
        unfold bit2blk at hblk hw
        exact decide_eq_decide.mpr (by omega)
      rw [hw, update_self, BitVec.getLsbD_and, BitVec.getLsbD_not, getLsbD_bitOf, hbit]
      simp [h32]
    · have hne : b ≠ i := by
        rintro rfl
        exact hw rfl
      rw [update_of_ne hw]
      simp [hne]
  · have hne : b ≠ i := by
      rintro rfl
      exact hblk rfl
    rw [imageBit_congr (update_of_ne (by omega) _ _)]
    simp [hne]

theorem imageBit_flushBitmap (d : Nat → Page) (b : Nat) :
    ∀ k, imageBit (flushBitmap d k) b = (imageBit d b && decide (k ≤ b)) := by
  intro k
  induction k with
  | zero => simp [flushBitmap]
  | succ k ih =>
    rw [flushBitmap, imageBit_clearBit, ih, Bool.and_assoc, ← Bool.decide_and]
    congr 1
    exact decide_eq_decide.mpr (by omega)

/-- **What the bitmap of the image says**: the blocks from `nextbno` on are free, except that the blocks in
the last byte that `n` does not fill are marked as used. -/
theorem imageBit_formatted (hb : b < n) :
    imageBit (formatted n) b = decide (nextbno n ≤ b ∧ b / 8 < n / 8) := by
  have hlt : b / bit2blk < nbitblock n := by
    unfold nbitblock bit2blk
    omega
  have h1 : 1 < 2 + b / bit2blk := Nat.lt_of_lt_of_le (by decide) (Nat.le_add_right 2 _)
  rw [formatted, imageBit_congr (update_of_ne (Nat.ne_of_gt h1) _ _), imageBit_flushBitmap,
    imageBit_initDisk hlt, ← Bool.decide_and]
  exact decide_eq_decide.mpr and_comm

/-! ## The server reads the disk -/

namespace Fs

/-- Block `b` has come in off the disk. -/
structure Fetched (b : Nat) (s t : Fs) : Prop where
  super : t.super = s.super
  bitmap : t.bitmap = s.bitmap
  mapped : ∀ c, t.isMapped c = true ↔ s.isMapped c = true ∨ c = b
  page : ∀ c, t.page c = if c = b then s.disk b else s.page c
  disk : t.disk = s.disk

/-- The server has read the super block of the disk `d`, and nothing else. -/
structure SuperRead (d : Nat → Page) (s : Fs) : Prop where
  super : s.super = true
  bitmap : s.bitmap = false
  mapped : ∀ b, s.isMapped b = true ↔ b = 1
  page : s.page 1 = d 1
  disk : ∀ b, 1 ≤ b → s.disk b = d b

/-- In the middle of `check_write_block`: a copy of the super block is in block 0, and `"OOPS!"` was written
over block 1. -/
structure Smashed (d : Nat → Page) (s : Fs) : Prop where
  super : s.super = false
  bitmap : s.bitmap = false
  mapped : ∀ b, s.isMapped b = true ↔ b = 0
  page : s.page 0 = d 1
  disk : ∀ b, 1 ≤ b → s.disk b = if b = 1 then oops (d 1) else d b

/-- The server has read the blocks below `m` of the disk `d`, and has not looked at the bitmap yet. -/
structure Reading (d : Nat → Page) (m : Nat) (s : Fs) : Prop where
  super : s.super = true
  bitmap : s.bitmap = false
  mapped : ∀ b, s.isMapped b = true ↔ b < m
  page : ∀ b, 1 ≤ b → b < m → s.page b = d b
  disk : ∀ b, 1 ≤ b → s.disk b = d b

end Fs

/-- `read_block` of a block that passes its checks and is not in the cache yet. -/
theorem readBlock_fetched (hexists : checkExists b s = .ret () s) (hused : checkUsed b s = .ret () s)
    (hb : b < 2 ^ 18) (hm : s.isMapped b = false) :
    (readBlock b s).Sat (fun _ t => s.Fetched b t) (fun _ _ => False) (fun p => p = .noMemory) := by
  rcases readBlock_fetch hexists hused hb hm with ⟨heq, -⟩ | ⟨av, heq⟩
  · rw [heq]
    rfl
  · rw [heq]
    refine ⟨rfl, rfl, fun c => ?_, fun c => ?_, rfl⟩
    · rw [Fs.isMapped_fill, Bool.or_eq_true, decide_eq_true_eq]
      rfl
    · rw [Fs.page_fill]
      rfl

theorem checkUsed_blind (h : s.bitmap = false) : checkUsed b s = .ret () s := by
  rw [checkUsed, get_bind, when_neg (by simp [h])]
  rfl

/-- `read_block` while neither the super block nor the bitmap is known. -/
theorem readBlock_blind (hsuper : s.super = false) (hbitmap : s.bitmap = false) (hb : b < 2 ^ 18)
    (hm : s.isMapped b = false) :
    (readBlock b s).Sat (fun _ t => s.Fetched b t) (fun _ _ => False) (fun p => p = .noMemory) := by
  refine readBlock_fetched ?_ (checkUsed_blind hbitmap) hb hm
  rw [checkExists, get_bind, when_neg (by simp [hsuper])]
  rfl

/-- A word of the super block. -/
theorem load_super (h : s.isMapped 1 = true) (hi : i < 1024) :
    load (1024 + i) s = .ret (s.page 1 i) s := by
  have hblk : (1024 + i) / 1024 = 1 := by omega
  have hoff : (1024 + i) % 1024 = i := by omega
  rw [load_mapped (by rw [hblk]; exact h), Fs.word, hblk, hoff]

theorem sNblocks_super (h : s.isMapped 1 = true) : sNblocks s = .ret (s.page 1 1).toNat s := by
  rw [sNblocks, bind_ret (load_super h (by decide))]
  rfl

theorem readSuper_sat (avail : Nat → Bool) (hmagic : d 1 0 = fsMagic) (hn : (d 1 1).toNat ≤ 2 ^ 18) :
    (readSuper (unmounted d avail)).Sat (fun _ t => t.SuperRead d) (fun _ _ => False)
      (fun p => p = .noMemory) := by
  refine sat_call (readBlock_blind rfl rfl (by decide) rfl) ?_ (fun _ _ h => h) (fun _ h => h)
  intro _ t ht
  rw [modify_bind]
  generalize hu : ({ t with super := true } : Fs) = u
  have hmapped (b : Nat) : u.isMapped b = true ↔ b = 1 := by
    rw [show u.isMapped = t.isMapped by rw [← hu]; rfl, ht.mapped]
    simp [unmounted, Fs.isMapped]
  have hpage : u.page 1 = d 1 := by
    rw [show u.page = t.page by rw [← hu]; rfl, ht.page, if_pos rfl]
    rfl
  have hm : u.isMapped 1 = true := (hmapped 1).mpr rfl
  rw [bind_ret (load_super hm (i := 0) (by decide)), bind_ret (assert_pos (by rw [hpage, hmagic])),
    bind_ret (sNblocks_super hm), assert_pos (by rw [hpage]; exact hn)]
  subst hu
  exact ⟨rfl, ht.bitmap, hmapped, hpage, fun b _ => by rw [show _ = _ from ht.disk]; rfl⟩

namespace Fs

/-- `check_write_block` up to the test that block 1 is mapped. -/
def smash (s : Fs) : Fs :=
  ((s.copyPage 0 (s.page 1)).copyPage 1 (oops ((s.copyPage 0 (s.page 1)).page 1)))

theorem page_copyPage (s : Fs) (b : Nat) (p : Page) (c : Nat) :
    (s.copyPage b p).page c = if c = b then p else s.page c := page_setPage s b p c

theorem isMapped_copyPage (s : Fs) (b : Nat) (p : Page) (c : Nat) :
    (s.copyPage b p).isMapped c = (s.isMapped c || decide (c = b)) := isMapped_setPage s b p c

theorem isMapped_smash (s : Fs) : s.smash.isMapped 1 = true := by
  rw [smash, isMapped_copyPage]
  simp

/-- The page of block `b` is taken out of the cache. -/
def uncache (s : Fs) (b : Nat) : Fs := { s with cache := update s.cache b none }

theorem isMapped_uncache (s : Fs) (b c : Nat) :
    (s.uncache b).isMapped c = true ↔ s.isMapped c = true ∧ c ≠ b := by
  unfold uncache isMapped
  by_cases h : c = b
  · subst h
    simp
  · simp [h]

theorem page_uncache (h : c ≠ b) : (s.uncache b).page c = s.page c := by
  unfold uncache page
  simp [h]

theorem disk_writeBack (s : Fs) (b c : Nat) :
    (s.writeBack b).disk c = if c = b then s.page b else s.disk c := by
  unfold writeBack
  exact update_apply _ _ _ _

/-- `super` is set. -/
def withSuper (s : Fs) : Fs := { s with super := true }

theorem isMapped_withSuper (s : Fs) (b : Nat) : s.withSuper.isMapped b = s.isMapped b := rfl

/-- The super block is overwritten in memory and on the disk, and taken out of the cache. -/
theorem Fetched.smashed (h : s.SuperRead d) (ht : Fetched 0 { s with super := false } t) :
    ((t.smash.writeBack 1).uncache 1).Smashed d := by
  have hp1 : t.page 1 = d 1 := by
    rw [ht.page, if_neg (by decide)]
    exact h.page
  have hsm : t.smash.page 1 = oops (d 1) := by
    rw [smash, page_copyPage, if_pos rfl, page_copyPage, if_neg (by decide), hp1]
  refine ⟨ht.super, ht.bitmap.trans h.bitmap, fun b => ?_, ?_, fun b hb => ?_⟩
  · have htm : t.isMapped b = true ↔ b = 1 ∨ b = 0 := by
      rw [ht.mapped]
      exact or_congr (h.mapped b) Iff.rfl
    rw [isMapped_uncache, isMapped_writeBack, smash, isMapped_copyPage, isMapped_copyPage,
      Bool.or_eq_true, Bool.or_eq_true, htm, decide_eq_true_eq, decide_eq_true_eq]
    omega
  · rw [page_uncache (by decide), page_writeBack, smash, page_copyPage, if_neg (by decide),
      page_copyPage, if_pos rfl, hp1]
  · have hd : t.smash.disk b = d b := by
      rw [show t.smash.disk = t.disk from rfl, ht.disk]
      exact h.disk b hb
    rw [show ((t.smash.writeBack 1).uncache 1).disk = (t.smash.writeBack 1).disk from rfl,
      disk_writeBack, hsm, hd]

/-- The super block is put back. -/
theorem Smashed.restored (h : s.Smashed d) (ht : Fetched 1 s t) :
    ((t.copyPage 1 (t.page 0)).writeBack 1).withSuper.Reading d 2 := by
  have hp : (t.copyPage 1 (t.page 0)).page 1 = d 1 := by
    rw [page_copyPage, if_pos rfl, ht.page, if_neg (by decide), h.page]
  refine ⟨rfl, ht.bitmap.trans h.bitmap, fun b => ?_, fun b h1 h2 => ?_, fun b h1 => ?_⟩
  · rw [isMapped_withSuper, isMapped_writeBack, isMapped_copyPage, Bool.or_eq_true, ht.mapped,
      h.mapped, decide_eq_true_eq]
    omega
  · rw [show b = 1 by omega]
    exact hp
  · rw [show ((t.copyPage 1 (t.page 0)).writeBack 1).withSuper.disk =
      ((t.copyPage 1 (t.page 0)).writeBack 1).disk from rfl, disk_writeBack]
    split
    next hb => rw [hb, hp]
    next hb =>
      rw [show (t.copyPage 1 (t.page 0)).disk = t.disk from rfl, ht.disk, h.disk b h1, if_neg hb]

end Fs

theorem Fs.Reading.sNblocks (h : s.Reading d m) (hm : 2 ≤ m) :
    Mos.sNblocks s = .ret (d 1 1).toNat s := by
  rw [sNblocks_super ((h.mapped 1).mpr (by omega)), h.page 1 (le_refl 1) (by omega)]

theorem oops_reads (p : Page) : oops p 0 = 0x53504f4f ∧ oops p 1 &&& 0x00ffffff = 0x00000a21 := by
  unfold oops
  refine ⟨by rw [update_of_ne (by decide), update_self], ?_⟩
  have hclear : (0x00ffffff : Word) &&& (p 1 &&& 0xff000000) = 0 := by
    rw [BitVec.and_comm (p 1), ← BitVec.and_assoc,
      show (0x00ffffff : Word) &&& 0xff000000 = 0#32 from rfl, BitVec.zero_and]
    rfl
  rw [update_self, BitVec.and_comm, BitVec.and_or_distrib_left, hclear]
  rfl

/-- `check_write_block` leaves the disk as it was, and the server with the blocks 0 and 1. -/
theorem checkWriteBlock_sat (h : s.SuperRead d) :
    (checkWriteBlock s).Sat (fun _ t => t.Reading d 2) (fun _ _ => False) (fun p => p = .noMemory) := by
  have h0 : s.isMapped 0 = false := by simp [← Bool.not_eq_true, h.mapped]
  rw [checkWriteBlock, modify_bind]
  refine sat_call (readBlock_blind rfl h.bitmap (by decide) h0) ?_ (fun _ _ h => h) (fun _ h => h)
  intro _ t ht
  have hm1 : t.isMapped 1 = true := (ht.mapped 1).mpr (.inl ((h.mapped 1).mpr rfl))
  have hwb : (t.smash.writeBack 1).isMapped 1 = true := t.isMapped_smash
  rw [bind_ret (touch_mapped hm1), modify_bind, modify_bind, ← Fs.smash,
    bind_ret (writeBlock_mapped (by decide) t.isMapped_smash), bind_ret (blockIsMapped_eq (by decide)),
    bind_ret (assert_pos hwb), modify_bind, ← Fs.uncache]
  have hs := ht.smashed h
  generalize (t.smash.writeBack 1).uncache 1 = u at *
  have hu1 : u.isMapped 1 = false := by simp [← Bool.not_eq_true, hs.mapped]
  rw [bind_ret (blockIsMapped_eq (by decide)), bind_ret (assert_pos hu1)]
  refine sat_call (readBlock_blind hs.super hs.bitmap (by decide) hu1) ?_ (fun _ _ h => h)
    (fun _ h => h)
  intro _ v hv
  have hv1 : v.isMapped 1 = true := (hv.mapped 1).mpr (.inr rfl)
  have hpage : v.page 1 = oops (d 1) := by rw [hv.page, if_pos rfl, hs.disk 1 (le_refl 1), if_pos rfl]
  have hoops : v.page 1 0 = 0x53504f4f ∧ v.page 1 1 &&& 0x00ffffff = 0x00000a21 := by
    rw [hpage]
    exact oops_reads (d 1)
  have hcopy : (v.copyPage 1 (v.page 0)).isMapped 1 = true := by simp [Fs.isMapped_copyPage]
  rw [bind_ret (load_super hv1 (i := 0) (by decide)), bind_ret (load_super hv1 (i := 1) (by decide)),
    bind_ret (assert_pos hoops), modify_bind, bind_ret (writeBlock_mapped (by decide) hcopy)]
  exact hs.restored hv

/-! ## The bitmap -/

/-- `read_block` of the next block of the bitmap. -/
theorem readBlock_next (h : s.Reading d m) (hm : 2 ≤ m) (hlt : m < (d 1 1).toNat)
    (hn : (d 1 1).toNat ≤ 2 ^ 18) :
    (readBlock m s).Sat (fun _ t => t.Reading d (m + 1)) (fun _ _ => False) (fun p => p = .noMemory) := by
  have hexists : checkExists m s = .ret () s := by
    rw [checkExists, get_bind, when_pos h.super, bind_ret (h.sNblocks hm), assert_pos hlt]
  have hun : s.isMapped m = false := by simp [← Bool.not_eq_true, h.mapped]
  refine (readBlock_fetched hexists (checkUsed_blind h.bitmap) (by omega) hun).mono ?_
    (fun _ _ h => h) (fun _ h => h)
  intro _ t ht
  refine ⟨ht.super.trans h.super, ht.bitmap.trans h.bitmap, fun b => ?_, fun b h1 hb => ?_,
    fun b h1 => by rw [ht.disk, h.disk b h1]⟩
  · rw [ht.mapped, h.mapped]
    omega
  · rw [ht.page]
    split
    next hbm => rw [h.disk m (by omega), hbm]
    next hbm => exact h.page b h1 (by omega)

/-- A block that the super block denies stops the server. -/
theorem readBlock_missing (h : s.Reading d m) (hm : 2 ≤ m) (hge : (d 1 1).toNat ≤ b) :
    readBlock b s = .halt .nonexistent := by
  have hexists : checkExists b s = .halt .nonexistent := by
    rw [checkExists, get_bind, when_pos h.super, bind_ret (h.sNblocks hm), assert_neg (by omega)]
  rw [readBlock, bind_halt hexists]

/-- `read_bitmap` has set `bitmap`. -/
def Fs.withBitmap (s : Fs) : Fs := { s with bitmap := true }

namespace Fs.Reading

/-- The server has all blocks of the bitmap that it knows of. -/
theorem hasBitmap (h : s.Reading d (2 + nbitmap n)) (hd : (d 1 1).toNat = n) (hn : n ≤ 2 ^ 18) :
    s.withBitmap.HasBitmap ∧ s.withBitmap.nblocks = n := by
  have h1 : s.withBitmap.isMapped (1025 / 1024) = true := (h.mapped 1).mpr (by omega)
  have hnb : s.withBitmap.nblocks = n := by
    rw [Fs.nblocks, Fs.look_of_mapped h1, ← hd, ← h.page 1 (le_refl 1) (by omega)]
    rfl
  refine ⟨⟨h.super, rfl, by rw [hnb]; exact hn, fun b _ hb => (h.mapped b).mpr ?_⟩, hnb⟩
  rw [Fs.firstData, hnb] at hb
  exact hb

/-- What `block_is_free` says then. -/
theorem blockIsFree (h : s.Reading d (2 + nbitmap n)) (hd : (d 1 1).toNat = n) (hn : n ≤ 2 ^ 18) :
    Mos.blockIsFree b s.withBitmap = .ret (decide (b < n) && imageBit d b) s.withBitmap := by
  obtain ⟨hb, hnb⟩ := h.hasBitmap hd hn
  rw [blockIsFree_eq hb]
  simp only [Fs.Free, Bool.decide_and, hnb]
  by_cases hlt : b < n
  · have hm := hb.mapped_bitmap (b := b) (by rw [hnb]; exact hlt)
    have hblk : bitmapWord (b / 32) / 1024 = 2 + b / bit2blk := by
      unfold bitmapWord bit2blk
      omega
    have hoff : bitmapWord (b / 32) % 1024 = b % bit2blk / 32 := by
      unfold bitmapWord bit2blk
      omega
    have h1 : 1 ≤ 2 + b / bit2blk := Nat.le_trans (by decide) (Nat.le_add_right 2 _)
    have hbit : s.withBitmap.freeBit b = imageBit d b := by
      rw [Fs.freeBit, Fs.look_of_mapped hm, Fs.word, hblk, hoff, imageBit]
      rw [hblk] at hm
      rw [show s.withBitmap.page = s.page from rfl, h.page _ h1 ((h.mapped _).mp hm)]
    rw [hbit, Bool.decide_eq_true]
  · rw [decide_eq_false hlt, Bool.false_and, Bool.false_and]

end Fs.Reading

/-- The first loop of `read_bitmap`. -/
theorem readBlocks_sat (h : s.Reading d 2) (hd : (d 1 1).toNat = n) (h3 : 3 ≤ n) (hn : n ≤ 2 ^ 18) :
    (Prog.loop (fun i => readBlock (i + 2)) 0 (nbitmap n) s).Sat
      (fun _ t => t.Reading d (2 + nbitmap n)) (fun _ _ => False) (fun p => p = .noMemory) := by
  refine (sat_loop (I := fun j t => t.Reading d (2 + j)) (fun j t _ hj ht => ?_) h).mono
    (fun _ t ht => by rwa [Nat.zero_add] at ht) (fun _ _ h => h) (fun _ h => h)
  have hlt : 2 + j < n := by
    unfold nbitmap bit2blk at hj
    omega
  rw [Nat.add_comm j 2, ← Nat.add_assoc]
  exact readBlock_next ht (by omega) (by rw [hd]; exact hlt) (by rw [hd]; exact hn)

/-- The super block of the image. -/
theorem formatted_super (n : Nat) : formatted n 1 = superBlock n := update_self _ _ _

theorem formatted_nblocks (hn : n ≤ 2 ^ 18) : (formatted n 1 1).toNat = n := by
  rw [formatted_super, superBlock, if_neg (by decide), if_pos rfl, BitVec.toNat_ofNat]
  omega

/-! ## Builder and server -/

/-- The server has read the bitmap of the image of `n` blocks: all the words in which `block_is_free` and
`alloc_block_num` look for a block of the disk, and no block that the builder has left free. -/
structure BitmapRead (n : Nat) (t : Fs) : Prop where
  bitmap : t.bitmap = true
  words : ∀ b < n, t.isMapped (bitmapWord (b / 32) / 1024) = true
  agree : ∀ b < n, blockIsFree b t = .ret (imageBit (formatted n) b) t
  blocks : ∀ b, 2 ≤ b → (t.isMapped b = true ↔ b < nextbno n)

/-- `fs_init` mounts the image of `n` blocks, unless the kernel has no memory for it. -/
def BitmapAgrees (n : Nat) : Prop :=
  ∀ avail, (fsInit (unmounted (formatted n) avail)).Sat (fun _ t => BitmapRead n t) (fun _ _ => False)
    (fun p => p = .noMemory ∧ ¬∀ k, avail k = true)

/-- The server never comes back from `read_bitmap`. -/
def Fs.NeverRead (s : Fs) : Prop :=
  (readBitmap s).Sat (fun _ _ => False) (fun _ _ => False) (fun _ => True)

/-- Builder and server compute the same number of bitmap blocks, except where `BIT2BLK` divides `n`. -/
theorem nbitmap_eq (n : Nat) : nbitmap n = if bit2blk ∣ n then nbitblock n + 1 else nbitblock n := by
  unfold nbitmap nbitblock
  split
  next h =>
    obtain ⟨q, rfl⟩ := h
    unfold bit2blk
    omega
  next h =>
    rw [Nat.dvd_iff_mod_eq_zero] at h
    unfold bit2blk at *
    omega

/-- The reserved blocks and the bitmap are marked as used. -/
theorem imageBit_used (hb : b < nextbno n) (hn : b < n) : imageBit (formatted n) b = false := by
  rw [imageBit_formatted hn]
  exact decide_eq_false fun h => by omega

/-- The block after the bitmap is marked as free. -/
theorem imageBit_nextbno (hdvd : bit2blk ∣ n) (hpos : 0 < n) :
    nextbno n < n ∧ imageBit (formatted n) (nextbno n) = true := by
  obtain ⟨q, rfl⟩ := hdvd
  have hlt : nextbno (bit2blk * q) / 8 < bit2blk * q / 8 := by
    unfold nextbno nbitblock bit2blk at *
    omega
  refine ⟨by omega, ?_⟩
  rw [imageBit_formatted (by omega)]
  exact decide_eq_true ⟨le_refl _, hlt⟩

/-- The server reads the bitmap that the builder has laid out. -/
theorem readBitmap_agrees (h : s.Reading (formatted n) 2) (h3 : 3 ≤ n) (hn : n ≤ 2 ^ 18)
    (hdvd : ¬bit2blk ∣ n) :
    (readBitmap s).Sat (fun _ t => BitmapRead n t) (fun _ _ => False) (fun p => p = .noMemory) := by
  have hd := formatted_nblocks hn
  have hnb : nbitmap n = nbitblock n := by rw [nbitmap_eq, if_neg hdvd]
  rw [readBitmap, bind_ret (h.sNblocks (le_refl 2)), hd]
  refine sat_call (readBlocks_sat h hd h3 hn) ?_ (fun _ _ h => h) (fun _ h => h)
  intro _ t ht
  have hfree : ∀ b < nextbno n, blockIsFree b t.withBitmap = .ret false t.withBitmap := by
    intro b hb
    rw [ht.blockIsFree hd hn]
    by_cases hbn : b < n
    · rw [imageBit_used hb hbn, Bool.and_false]
    · rw [decide_eq_false hbn, Bool.false_and]
  rw [modify_bind, ← Fs.withBitmap]
  rw [bind_ret (hfree 0 (by unfold nextbno; omega)), bind_ret (assert_pos rfl),
    bind_ret (hfree 1 (by unfold nextbno; omega)), bind_ret (assert_pos rfl)]
  refine (sat_loop (I := fun _ u => u = t.withBitmap) (fun j u _ hj hu => ?_) rfl).mono ?_
    (fun _ _ h => h) (fun _ h => h)
  · subst hu
    rw [bind_ret (hfree (j + 2) (by unfold nextbno; omega)), assert_pos rfl]
    rfl
  · rintro _ u rfl
    obtain ⟨hb, hnbl⟩ := ht.hasBitmap hd hn
    refine ⟨rfl, fun b hlt => hb.mapped_bitmap (by rw [hnbl]; exact hlt), fun b hlt => ?_, fun b _ => ?_⟩
    · rw [ht.blockIsFree hd hn, decide_eq_true hlt, Bool.true_and]
    · rw [show t.withBitmap.isMapped b = t.isMapped b from rfl, ht.mapped, hnb, nextbno]

/-- Where `BIT2BLK` divides `n`, the last assertion of `read_bitmap` fails. -/
theorem readBitmap_divides (h : s.Reading (formatted n) 2) (hpos : 0 < n) (hn : n ≤ 2 ^ 18)
    (hdvd : bit2blk ∣ n) : s.NeverRead := by
  have hd := formatted_nblocks hn
  have hnb : nbitmap n = nbitblock n + 1 := by rw [nbitmap_eq, if_pos hdvd]
  obtain ⟨hlt, hbit⟩ := imageBit_nextbno hdvd hpos
  have h3 : 3 ≤ n := by unfold nextbno at hlt; omega
  unfold Fs.NeverRead
  rw [readBitmap, bind_ret (h.sNblocks (le_refl 2)), hd]
  refine sat_call (readBlocks_sat h hd h3 hn) ?_ (fun _ _ h => h) (fun _ _ => trivial)
  intro _ t ht
  have hfree (b : Nat) : blockIsFree b t.withBitmap =
      .ret (decide (b < n) && imageBit (formatted n) b) t.withBitmap := ht.blockIsFree hd hn
  have hused : ∀ b < nextbno n, (decide (b < n) && imageBit (formatted n) b) = false := by
    intro b hb
    rw [imageBit_used hb (by omega), Bool.and_false]
  rw [modify_bind, ← Fs.withBitmap, bind_ret (hfree 0),
    bind_ret (assert_pos (hused 0 (by unfold nextbno; omega))), bind_ret (hfree 1),
    bind_ret (assert_pos (hused 1 (by unfold nextbno; omega)))]
  -- the round with the block after the bitmap does not end
  refine (sat_loop (I := fun j u => u = t.withBitmap ∧ j ≤ nbitblock n) (fun j u _ hj hu => ?_)
    ⟨rfl, Nat.zero_le _⟩).mono (fun _ u hu => ?_) (fun _ _ h => h) (fun _ h => h)
  · obtain ⟨rfl, -⟩ := hu
    rw [bind_ret (hfree (j + 2))]
    by_cases hlast : j = nbitblock n
    · have heq : j + 2 = nextbno n := by unfold nextbno; omega
      rw [heq, hbit, decide_eq_true hlt, assert_neg (by decide)]
      trivial
    · rw [hused (j + 2) (by unfold nextbno; omega), assert_pos rfl]
      exact ⟨rfl, by omega⟩
  · omega

/-- A disk of one or two blocks has no room for its bitmap. -/
theorem readBitmap_small (h : s.Reading (formatted n) 2) (hn : n ≤ 2) : s.NeverRead := by
  have hd := formatted_nblocks (n := n) (by omega)
  have hnb : nbitmap n = 0 + 1 := by
    unfold nbitmap bit2blk
    omega
  unfold Fs.NeverRead
  rw [readBitmap, bind_ret (h.sNblocks (le_refl 2)), hd, hnb, Prog.loop]
  have hmiss := readBlock_missing (b := 0 + 2) h (le_refl 2) (by rw [hd]; omega)
  rw [bind_halt (bind_halt hmiss)]
  trivial

/-! ## Mounting -/

theorem readSuper_feeds : Feeds readSuper :=
  within_bind (readBlock_feeds 1) fun _ => within_bind (within_modify fun _ h => h) fun _ =>
    within_bind (load_feeds _) fun _ => within_bind (within_assert _ (by decide)) fun _ =>
      within_bind sNblocks_feeds fun _ => within_assert _ (by decide)

theorem checkWriteBlock_feeds : Feeds checkWriteBlock := by
  have hmodify (f : Fs → Fs) (hf : ∀ s, (f s).avail = s.avail) : Feeds (Prog.modify f) :=
    within_modify fun s hs k => by rw [hf]; exact hs k
  have hassert (c : Prop) [Decidable c] : Feeds (Prog.assert c FsPanic.assertion) :=
    within_assert _ (by decide)
  unfold checkWriteBlock
  refine within_bind (hmodify _ fun _ => rfl) fun _ => within_bind (readBlock_feeds 0) fun _ => ?_
  refine within_bind (touch_feeds 1) fun _ => within_bind (hmodify _ fun _ => rfl) fun _ => ?_
  refine within_bind (hmodify _ fun _ => rfl) fun _ => within_bind (writeBlock_feeds 1) fun _ => ?_
  refine within_bind (blockIsMapped_feeds 1) fun _ => within_bind (hassert _) fun _ => ?_
  refine within_bind (hmodify _ fun _ => rfl) fun _ => within_bind (blockIsMapped_feeds 1) fun _ => ?_
  refine within_bind (hassert _) fun _ => within_bind (readBlock_feeds 1) fun _ => ?_
  refine within_bind (load_feeds _) fun _ => within_bind (load_feeds _) fun _ => ?_
  refine within_bind (hassert _) fun _ => within_bind (hmodify _ fun _ => rfl) fun _ => ?_
  exact within_bind (writeBlock_feeds 1) fun _ => hmodify _ fun _ => rfl

theorem readBitmap_feeds : Feeds readBitmap :=
  within_bind sNblocks_feeds fun _ =>
    within_bind (within_loop (fun i => readBlock_feeds (i + 2)) _ 0) fun _ =>
      within_bind (within_modify fun _ h => h) fun _ =>
        within_bind (blockIsFree_feeds 0) fun _ => within_bind (within_assert _ (by decide)) fun _ =>
          within_bind (blockIsFree_feeds 1) fun _ => within_bind (within_assert _ (by decide)) fun _ =>
            within_loop (fun i => within_bind (blockIsFree_feeds (i + 2)) fun _ =>
              within_assert _ (by decide)) _ 0

theorem fsInit_feeds : Feeds fsInit :=
  within_bind readSuper_feeds fun _ => within_bind checkWriteBlock_feeds fun _ => readBitmap_feeds

/-- `fs_init` comes to `read_bitmap` on every image, unless there is no memory. -/
theorem fsInit_sat (avail : Nat → Bool) (hn : n ≤ 2 ^ 18) {Q : Unit → Fs → Prop} {H : FsPanic → Prop}
    (hH : H .noMemory)
    (h : ∀ s : Fs, s.Reading (formatted n) 2 → (readBitmap s).Sat Q (fun _ _ => False) H) :
    (fsInit (unmounted (formatted n) avail)).Sat Q (fun _ _ => False) H := by
  have hmagic : formatted n 1 0 = fsMagic := by rw [formatted_super, superBlock, if_pos rfl]
  refine sat_call (readSuper_sat avail hmagic (by rw [formatted_nblocks hn]; exact hn)) ?_
    (fun _ _ h => h) (fun _ hp => hp ▸ hH)
  intro _ t ht
  exact sat_call (checkWriteBlock_sat ht) (fun _ u hu => h u hu) (fun _ _ h => h) (fun _ hp => hp ▸ hH)

/-- No disk is mounted whose bitmap the server cannot read. -/
theorem not_bitmapAgrees (hn : n ≤ 2 ^ 18)
    (h : ∀ s : Fs, s.Reading (formatted n) 2 → s.NeverRead) : ¬BitmapAgrees n := by
  intro hagrees
  have hnever := fsInit_sat (Q := fun _ _ => False) (H := fun _ => True) (fun _ => true) hn trivial h
  have hmounts := hagrees fun _ => true
  cases hrun : fsInit (unmounted (formatted n) fun _ => true) with
  | ret a t =>
    rw [hrun] at hnever
    exact hnever
  | err e t =>
    rw [hrun] at hnever
    exact hnever
  | halt p =>
    rw [hrun] at hmounts
    exact hmounts.2 fun _ => rfl

/-- **Builder and server agree on the bitmap** of a disk of `n` blocks if and only if the disk has room for it
and `BIT2BLK` does not divide `n`. -/
theorem bitmap_agrees_iff (hpos : 0 < n) (hn : n ≤ diskmax / by2blk) :
    BitmapAgrees n ↔ 3 ≤ n ∧ ¬bit2blk ∣ n := by
  constructor
  · intro hagrees
    refine ⟨?_, fun hdvd => ?_⟩
    · by_contra hlt
      exact not_bitmapAgrees hn (fun s hs => readBitmap_small hs (by omega)) hagrees
    · exact not_bitmapAgrees hn (fun s hs => readBitmap_divides hs hpos hn hdvd) hagrees
  · rintro ⟨h3, hdvd⟩ avail
    exact fsInit_feeds.sat (fsInit_sat avail hn rfl fun s hs => readBitmap_agrees hs h3 hn hdvd)

theorem bitmap_agrees_iff_tested : BitmapAgrees 1024 ↔ 3 ≤ 1024 ∧ ¬bit2blk ∣ 1024 :=
  bitmap_agrees_iff (by decide) (by decide)

/-- On a disk of 32768 blocks the builder makes one bitmap block and the server reads two. -/
theorem bitmap_disagrees : ¬∀ n, 0 < n → n ≤ diskmax / by2blk → BitmapAgrees n := by
  intro h
  exact not_bitmapAgrees (n := bit2blk) (by decide)
    (fun s hs => readBitmap_divides hs (by decide) (by decide) (dvd_refl _))
    (h bit2blk (by decide) (by decide))

end Mos
