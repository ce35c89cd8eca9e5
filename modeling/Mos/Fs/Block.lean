import Mos.Kern.State

/-!
# The block cache of the native file server

`fs/fs.c` maps block `b` of its disk at `DISKMAP + b * BY2BLK` when it is first needed, and works on
the mapped page from then on; nothing is ever unmapped again. A page is written back by `write_block`
only. `PTE_DIRTY` in the page table entry tells `fs_sync` and `file_flush` which pages to write; no
function takes it away again.

Memory of the server is addressed here by words: word `i` of the page of block `b` has the address
`1024 * b + i`. A page that is not mapped is mapped by the kernel when it is touched, full of zeros.
-/

namespace Mos

open Lib Function

/-! ## Sizes -/

/-- `BY2BLK`. -/
def by2blk : Nat := 4096
/-- `BIT2BLK`. -/
def bit2blk : Nat := 32768
/-- `DISKMAP`. -/
def diskmap : Nat := 0x10000000
/-- `DISKMAX`. -/
def diskmax : Nat := 0x40000000

/-- The words of a block or of a page. -/
abbrev Page := Nat → Word

/-- A page of the block cache: its contents, and `PTE_DIRTY`. -/
structure CachePage where
  page : Page
  dirty : Bool

/-- The state of the file server. -/
structure Fs where
  /-- The contents of the disk. -/
  disk : Nat → Page
  /-- The pages at which blocks are mapped. -/
  cache : Nat → Option CachePage
  /-- `super` is set. -/
  super : Bool
  /-- `bitmap` is set. -/
  bitmap : Bool
  /-- Whether the kernel will have a page when it is asked the next time, the time after, … -/
  avail : Nat → Bool
  /-- Not part of the server's memory: the server has changed the page of the block since the block was
  read or last written. -/
  edited : Nat → Bool

/-- Why the server stops: calls of `user_panic`, failed assertions, and a page that the kernel cannot
supply. -/
inductive FsPanic where
  | diskaddr
  | writeUnmapped
  | nonexistent
  | readFree
  | badMagic
  | tooLarge
  | assertion
  | noMemory
deriving DecidableEq

/-- Functions of the file server. -/
abbrev FsM := Prog Fs Err FsPanic

namespace Fs

/-- Maps a page of zeros at block `b`. -/
def mapZero (s : Fs) (b : Nat) : Fs :=
  { s with
    cache := update s.cache b (some ⟨fun _ => 0, false⟩)
    edited := update s.edited b false }

/-- The contents of the page of block `b`; a page that is not mapped counts as zeros. -/
def page (s : Fs) (b : Nat) : Page :=
  match s.cache b with
  | some c => c.page
  | none => fun _ => 0

/-- `PTE_DIRTY` of block `b`. -/
def isDirty (s : Fs) (b : Nat) : Bool := (s.cache b).any CachePage.dirty

/-- Block `b` is mapped. -/
def isMapped (s : Fs) (b : Nat) : Bool := (s.cache b).isSome

/-- The word at the address `a`. -/
def word (s : Fs) (a : Nat) : Word := s.page (a / 1024) (a % 1024)

/-- New contents for a page, which stays as dirty as it was. -/
def setPage (s : Fs) (b : Nat) (p : Page) : Fs :=
  { s with cache := update s.cache b (some ⟨p, s.isDirty b⟩) }

/-- The server copies a page over another one. -/
def copyPage (s : Fs) (b : Nat) (p : Page) : Fs :=
  { s.setPage b p with edited := update s.edited b true }

/-- The server writes the word at the address `a`. -/
def setWord (s : Fs) (a : Nat) (w : Word) : Fs :=
  { s.setPage (a / 1024) (update (s.page (a / 1024)) (a % 1024) w) with
    edited := update s.edited (a / 1024) (s.edited (a / 1024) || decide (s.word a ≠ w)) }

/-- The page of block `b` goes to the disk. -/
def writeBack (s : Fs) (b : Nat) : Fs :=
  { s with disk := update s.disk b (s.page b), edited := update s.edited b false }

/-- The page of block `b` is filled from the disk. -/
def fill (s : Fs) (b : Nat) : Fs :=
  { s.setPage b (s.disk b) with edited := update s.edited b false }

/-- `PTE_DIRTY` is set for the page of block `b`. -/
def mark (s : Fs) (b : Nat) : Fs :=
  { s with cache := update s.cache b (some ⟨s.page b, true⟩) }

end Fs

/-! ## Memory -/

/-- The kernel is asked for a page; it may have none. -/
def askPage : FsM Bool := fun s => .ret (s.avail 0) { s with avail := fun n => s.avail (n + 1) }

/-- `syscall_mem_alloc(0, va, PTE_D)` for the page of block `b`. -/
def fsMemAlloc (b : Nat) : FsM Unit := do
  if ← askPage then Prog.modify fun s => s.mapZero b else Prog.fail .noMem

/-- The server touches the page of block `b`: if it is not mapped, the kernel maps one
(`passive_alloc`). -/
def touch (b : Nat) : FsM Unit := do
  let s ← Prog.get
  if s.isMapped b then pure ()
  else if ← askPage then Prog.modify fun s => s.mapZero b
  else Prog.halt .noMemory

/-- A load. -/
def load (a : Nat) : FsM Word := do
  touch (a / 1024)
  let s ← Prog.get
  return s.word a

/-- A store. -/
def store (a : Nat) (w : Word) : FsM Unit := do
  touch (a / 1024)
  Prog.modify fun s => s.setWord a w

/-! ## Blocks in the cache -/

/-- `diskaddr(blockno)`, as the number of the block whose page it is. -/
def diskaddr (blockno : Nat) : FsM Nat :=
  if (diskmap + by2blk * blockno) % 2 ^ 32 ≥ diskmax + diskmap then Prog.halt .diskaddr
  else pure blockno

/-- `block_is_mapped(blockno)`. -/
def blockIsMapped (blockno : Nat) : FsM Bool := do
  let va ← diskaddr blockno
  let s ← Prog.get
  return s.isMapped va

/-- `block_is_dirty(blockno)`. -/
def blockIsDirty (blockno : Nat) : FsM Bool := do
  let va ← diskaddr blockno
  let s ← Prog.get
  return s.isDirty va

/-- `dirty_block(blockno)`: the page is mapped again at the same address, with `PTE_DIRTY`. -/
def dirtyBlock (blockno : Nat) : FsM Unit := do
  let va ← diskaddr blockno
  let s ← Prog.get
  if ¬s.isMapped va then Prog.fail .notFound
  else if s.isDirty va then pure ()
  else Prog.put (s.mark va)

/-- `write_block(blockno)`. -/
def writeBlock (blockno : Nat) : FsM Unit := do
  if ← blockIsMapped blockno then
    Prog.modify fun s => s.writeBack blockno
  else Prog.halt .writeUnmapped

/-- `super->s_nblocks`. -/
def sNblocks : FsM Nat := do
  let w ← load (1024 + 1)
  return w.toNat

/-- The address of `bitmap[i]`: the bitmap begins with block 2. -/
def bitmapWord (i : Nat) : Nat := 2 * 1024 + i

/-- `1 << (blockno % 32)`. -/
def bitOf (blockno : Nat) : Word := 1 <<< (blockno % 32)

/-- `block_is_free(blockno)`. -/
def blockIsFree (blockno : Nat) : FsM Bool := do
  let s ← Prog.get
  if s.super = false then return false
  let n ← sNblocks
  if blockno ≥ n then return false
  let w ← load (bitmapWord (blockno / 32))
  return w &&& bitOf blockno ≠ 0

/-- `ide_read(0, blockno * SECT2BLK, va, SECT2BLK)` with `va` the page of the block. -/
def ideReadBlock (blockno : Nat) : FsM Unit := do
  touch blockno
  Prog.modify fun s => s.fill blockno

/-- Step 1 of `read_block`: the block exists. -/
def checkExists (blockno : Nat) : FsM Unit := do
  let s ← Prog.get
  Prog.when s.super do
    let n ← sNblocks
    Prog.assert (blockno < n) .nonexistent

/-- Step 2 of `read_block`: the block is not free. -/
def checkUsed (blockno : Nat) : FsM Unit := do
  let s ← Prog.get
  Prog.when s.bitmap do
    let free ← blockIsFree blockno
    Prog.assert (free = false) .readFree

/-- `read_block(blockno, blk, isnew)`. It does not look at what `syscall_mem_alloc` returns. -/
def readBlock (blockno : Nat) : FsM Unit := do
  checkExists blockno
  checkUsed blockno
  let va ← diskaddr blockno
  if ← blockIsMapped va then pure ()
  else
    let _ ← Prog.attempt (fsMemAlloc va)
    ideReadBlock va

/-- `map_block(blockno)`. -/
def mapBlock (blockno : Nat) : FsM Unit := do
  if ← blockIsMapped blockno then pure ()
  else
    let va ← diskaddr blockno
    fsMemAlloc va

/-! ## The bitmap -/

/-- `free_block(blockno)`. -/
def freeBlock (blockno : Nat) : FsM Unit := do
  let n ← sNblocks
  if blockno = 0 ∨ blockno ≥ n then pure ()
  else
    let w ← load (bitmapWord (blockno / 32))
    store (bitmapWord (blockno / 32)) (w ||| bitOf blockno)

/-- The loop of `alloc_block_num` over the `n` blocks from `blockno` on; `s_nblocks` is read again
before every round. -/
def allocFrom (blockno : Nat) : Nat → FsM Nat
  | 0 => Prog.fail .noDisk
  | n + 1 => do
    let nblocks ← sNblocks
    if blockno < nblocks then
      let w ← load (bitmapWord (blockno / 32))
      if w &&& bitOf blockno ≠ 0 then
        store (bitmapWord (blockno / 32)) (w &&& ~~~bitOf blockno)
        writeBlock (blockno / bit2blk + 2)
        return blockno
      else allocFrom (blockno + 1) n
    else Prog.fail .noDisk

/-- `alloc_block_num()`. The loop ends by itself before the bound that is given to it: `s_nblocks` is at
most `DISKMAX / BY2BLK`. -/
def allocBlockNum : FsM Nat := do
  let n ← sNblocks
  allocFrom 3 n

/-- `alloc_block()`. -/
def allocBlock : FsM Nat := do
  let bno ← allocBlockNum
  match ← Prog.attempt (mapBlock bno) with
  | .ok _ => return bno
  | .error e => do
    freeBlock bno
    Prog.fail e

/-! ## Mounting -/

/-- `FS_MAGIC`. -/
def fsMagic : Word := 0x68286097

/-- `read_super()`. -/
def readSuper : FsM Unit := do
  readBlock 1
  Prog.modify fun s => { s with super := true }
  let magic ← load 1024
  Prog.assert (magic = fsMagic) .badMagic
  let n ← sNblocks
  Prog.assert (n ≤ diskmax / by2blk) .tooLarge

/-- The number of bitmap blocks that `read_bitmap` reads. -/
def nbitmap (n : Nat) : Nat := n / bit2blk + 1

/-- `read_bitmap()`. -/
def readBitmap : FsM Unit := do
  let n ← sNblocks
  Prog.loop (fun i => readBlock (i + 2)) 0 (nbitmap n)
  Prog.modify fun s => { s with bitmap := true }
  let free ← blockIsFree 0
  Prog.assert (free = false) .assertion
  let free ← blockIsFree 1
  Prog.assert (free = false) .assertion
  Prog.loop (fun i => do
    let free ← blockIsFree (i + 2)
    Prog.assert (free = false) .assertion) 0 (nbitmap n)

/-- `"OOPS!\n"`, as words: the second one keeps its last byte. -/
def oops (p : Page) : Page :=
  update (update p 0 0x53504f4f) 1 (p 1 &&& 0xff000000 ||| 0x00000a21)

/-- `check_write_block()`. -/
def checkWriteBlock : FsM Unit := do
  Prog.modify fun s => { s with super := false }
  readBlock 0
  touch 1
  Prog.modify fun s => s.copyPage 0 (s.page 1)
  Prog.modify fun s => s.copyPage 1 (oops (s.page 1))
  writeBlock 1
  let mapped ← blockIsMapped 1
  Prog.assert (mapped = true) .assertion
  Prog.modify fun s => { s with cache := update s.cache 1 none }
  let mapped ← blockIsMapped 1
  Prog.assert (mapped = false) .assertion
  readBlock 1
  let w₀ ← load 1024
  let w₁ ← load 1025
  Prog.assert (w₀ = 0x53504f4f ∧ w₁ &&& 0x00ffffff = 0x00000a21) .assertion
  Prog.modify fun s => s.copyPage 1 (s.page 0)
  writeBlock 1
  Prog.modify fun s => { s with super := true }

/-- `fs_init()`. -/
def fsInit : FsM Unit := do
  readSuper
  checkWriteBlock
  readBitmap

end Mos
