import Mos.Fs.Block

/-!
# Files and directories of the native file server

`struct File` is 64 words long. The root directory is in the super block; the other files are in the
blocks of directories, 16 to a block. A `struct File *` is the address of its first word.
-/

namespace Mos

open Lib Function

/-! ## `struct File` -/

/-- `MAXNAMELEN`. -/
def maxnamelen : Nat := 128
/-- `NDIRECT`. -/
def ndirect : Nat := 10
/-- `NINDIRECT`. -/
def nindirect : Nat := 1024
/-- `FILE2BLK`. -/
def file2blk : Nat := 16
/-- `FTYPE_REG`. -/
def ftypeReg : Word := 0
/-- `FTYPE_DIR`. -/
def ftypeDir : Word := 1

/-- `&f->f_size`. -/
def fSize (f : Nat) : Nat := f + 32
/-- `&f->f_type`. -/
def fType (f : Nat) : Nat := f + 33
/-- `&f->f_direct[i]`. -/
def fDirect (f i : Nat) : Nat := f + 34 + i
/-- `&f->f_indirect`. -/
def fIndirect (f : Nat) : Nat := f + 44
/-- `&f->f_dir`. -/
def fDir (f : Nat) : Nat := f + 45

/-- `&super->s_root`. -/
def sRoot : Nat := 1026

/-- `&((struct File *)blk)[j]`. -/
def fileIn (blk j : Nat) : Nat := 1024 * blk + 64 * j

/-- The address of a file as a pointer. -/
def filePtr (f : Nat) : Word := BitVec.ofNat 32 (diskmap + 4 * f)

/-- The file that a pointer points at. -/
def ptrFile (w : Word) : Nat := (w.toNat - diskmap) / 4

/-- Byte `k` of the string at the address `a`; words are little-endian. -/
def Fs.byte (s : Fs) (a k : Nat) : Byte := (s.word (a + k / 4)).extractLsb' (8 * (k % 4)) 8

/-- Writes byte `k` of the string at the address `a`. -/
def Fs.setByte (s : Fs) (a k : Nat) (c : Byte) : Fs :=
  s.setWord (a + k / 4) (s.word (a + k / 4) &&& ~~~(0xff#32 <<< (8 * (k % 4))) |||
    c.setWidth 32 <<< (8 * (k % 4)))

/-- `strcmp(name, str) == 0` for the string at the address `a`, from its byte `k` on. -/
def Fs.strEq (s : Fs) (a k : Nat) : List Byte → Bool
  | [] => s.byte a k = 0
  | c :: cs => s.byte a k = c && s.strEq a (k + 1) cs

/-- `strcpy` to the string at the address `a`, from its byte `k` on. -/
def Fs.strcpy (s : Fs) (a k : Nat) : List Byte → Fs
  | [] => s.setByte a k 0
  | c :: cs => (s.setByte a k c).strcpy a (k + 1) cs

/-! ## The blocks of a file -/

/-- If the slot at the address `ptr` is empty, it gets a new block, as `file_block_walk` does for
`f_indirect` and `file_map_block` for the slot of a block. -/
def fillSlot (ptr : Nat) (alloc : Bool) : FsM Unit := do
  let bno ← load ptr
  Prog.when (bno = 0) do
    if alloc = false then Prog.fail .notFound
    else
      let r ← allocBlock
      store ptr (BitVec.ofNat 32 r)

/-- `file_block_walk(f, filebno, ppdiskbno, alloc)`. -/
def fileBlockWalk (f filebno : Nat) (alloc : Bool) : FsM Nat :=
  if filebno < ndirect then pure (fDirect f filebno)
  else if filebno < nindirect then do
    fillSlot (fIndirect f) alloc
    let ind ← load (fIndirect f)
    readBlock ind.toNat
    return 1024 * ind.toNat + filebno
  else Prog.fail .inval

/-- `file_map_block(f, filebno, diskbno, alloc)`. -/
def fileMapBlock (f filebno : Nat) (alloc : Bool) : FsM Nat := do
  let ptr ← fileBlockWalk f filebno alloc
  fillSlot ptr alloc
  let bno ← load ptr
  return bno.toNat

/-- If the slot at the address `ptr` holds a block, the block is freed, as `file_clear_block` does for the
slot of a block and `file_truncate` for `f_indirect`. -/
def clearSlot (ptr : Nat) : FsM Unit := do
  let bno ← load ptr
  Prog.when (bno ≠ 0) do
    freeBlock bno.toNat
    store ptr 0

/-- `file_clear_block(f, filebno)`. -/
def fileClearBlock (f filebno : Nat) : FsM Unit := do
  let ptr ← fileBlockWalk f filebno false
  clearSlot ptr

/-- `file_get_block(f, filebno, blk)`: the block whose page is `*blk`. -/
def fileGetBlock (f filebno : Nat) : FsM Nat := do
  let diskbno ← fileMapBlock f filebno true
  readBlock diskbno
  return diskbno

/-- `file_dirty(f, offset)`. -/
def fileDirty (f : Nat) (offset : Word) : FsM Unit := do
  let diskbno ← fileMapBlock f (offset.toNat / by2blk) false
  dirtyBlock diskbno

/-- `file_flush(f)`. -/
def fileFlush (f : Nat) : FsM Unit := do
  let size ← load (fSize f)
  Prog.loop (fun bno => do
    match ← Prog.attempt (fileMapBlock f bno false) with
    | .error _ => pure ()
    | .ok diskno =>
      let dirty ← blockIsDirty diskno
      Prog.when dirty (writeBlock diskno)) 0 (size.toNat / by2blk + 1)

/-- `if (f->f_dir) file_flush(f->f_dir)`. -/
def flushDir (f : Nat) : FsM Unit := do
  let dir ← load (fDir f)
  Prog.when (dir ≠ 0) (fileFlush (ptrFile dir))

/-- The rounds of `fs_sync` for the `n` blocks from `i` on; `s_nblocks` is read again before every
round. -/
def syncFrom (i : Nat) : Nat → FsM Unit
  | 0 => pure ()
  | n + 1 => do
    let nblocks ← sNblocks
    if i < nblocks then
      let dirty ← blockIsDirty i
      Prog.when dirty (writeBlock i)
      syncFrom (i + 1) n
    else pure ()

/-- `fs_sync()`. -/
def fsSync : FsM Unit := do
  let n ← sNblocks
  syncFrom 0 n

/-- `file_truncate(f, newsize)`. -/
def fileTruncate (f : Nat) (newsize : Word) : FsM Unit := do
  let size ← load (fSize f)
  let oldNblocks := size.toNat / by2blk + 1
  let newNblocks := if newsize = 0 then 0 else newsize.toNat / by2blk + 1
  Prog.loop (fun bno => do
    let _ ← Prog.attempt (fileClearBlock f bno)) newNblocks (oldNblocks - newNblocks)
  Prog.when (newNblocks ≤ ndirect) (clearSlot (fIndirect f))
  store (fSize f) newsize

/-- `file_set_size(f, newsize)`. -/
def fileSetSize (f : Nat) (newsize : Word) : FsM Unit := do
  let size ← load (fSize f)
  Prog.when (size > newsize) (fileTruncate f newsize)
  store (fSize f) newsize
  flushDir f

/-- `file_close(f)`. -/
def fileClose (f : Nat) : FsM Unit := do
  fileFlush f
  flushDir f

/-! ## Directories -/

/-- The inner loop of `dir_lookup` and of `dir_alloc_file`: the first file of a block that passes a
test. -/
def findFile (blk : Nat) (test : Fs → Nat → Bool) : FsM (Option Nat) := do
  touch blk
  let s ← Prog.get
  return ((List.range file2blk).find? fun j => test s (fileIn blk j)).map (fileIn blk)

/-- The loop of `dir_lookup` over the `n` blocks from `i` on. -/
def lookupFrom (dir : Nat) (name : List Byte) (i : Nat) : Nat → FsM Nat
  | 0 => Prog.fail .notFound
  | n + 1 => do
    let blk ← fileGetBlock dir i
    match ← findFile blk fun s f => s.strEq f 0 name with
    | some f => do
      store (fDir f) (filePtr dir)
      let _ ← Prog.attempt (dirtyBlock blk)
      return f
    | none => lookupFrom dir name (i + 1) n

/-- `dir_lookup(dir, name, file)`. -/
def dirLookup (dir : Nat) (name : List Byte) : FsM Nat := do
  let size ← load (fSize dir)
  lookupFrom dir name 0 (size.toNat / by2blk)

/-- The loop of `dir_alloc_file` over the `n` blocks from `i` on. -/
def allocFileFrom (dir i : Nat) : Nat → FsM (Option Nat)
  | 0 => return none
  | n + 1 => do
    let blk ← fileGetBlock dir i
    match ← findFile blk fun s f => s.byte f 0 = 0 with
    | some f => return some f
    | none => allocFileFrom dir (i + 1) n

/-- `dir_alloc_file(dir, file)`. -/
def dirAllocFile (dir : Nat) : FsM Nat := do
  let size ← load (fSize dir)
  let nblock := size.toNat / by2blk
  match ← allocFileFrom dir 0 nblock with
  | some f => return f
  | none => do
    let size ← load (fSize dir)
    store (fSize dir) (size + BitVec.ofNat 32 by2blk)
    let blk ← fileGetBlock dir nblock
    return fileIn blk 0

/-! ## Paths -/

/-- `'/'`. -/
def slash : Byte := 0x2f

/-- `skip_slash(p)`. -/
def skipSlash (p : List Byte) : List Byte := p.dropWhile (· = slash)

/-- Where `walk_path` ends: at a file, or at a directory in which the last name of the path is missing.
The directory of the root is `none`. -/
inductive Walk where
  | found (dir : Option Nat) (file : Nat)
  | missing (dir : Nat) (lastelem : List Byte)

/-- The loop of `walk_path`. Every round takes at least one byte off the path. -/
def walkFrom : Nat → Option Nat → Nat → List Byte → FsM Walk
  | _, dir, file, [] => return .found dir file
  | 0, _, _, _ :: _ => Prog.halt .assertion
  | n + 1, _, file, c :: cs => do
    let dir := file
    let name := (c :: cs).takeWhile (· ≠ slash)
    let path := skipSlash ((c :: cs).dropWhile (· ≠ slash))
    if name.length ≥ maxnamelen then Prog.fail .badPath
    else
      let type ← load (fType dir)
      if type ≠ ftypeDir then Prog.fail .notFound
      else
        match ← Prog.attempt (dirLookup dir name) with
        | .ok file => walkFrom n (some dir) file path
        | .error e =>
          if e = .notFound ∧ path = [] then return .missing dir name else Prog.fail e

/-- `walk_path(path, pdir, pfile, lastelem)`: the name of the root directory is skipped. -/
def walkPath (path : List Byte) : FsM Walk :=
  let path := skipSlash (path.drop 6)
  walkFrom path.length none sRoot path

/-- `file_open(path, file)`. -/
def fileOpen (path : List Byte) : FsM Nat := do
  match ← walkPath path with
  | .found _ file => return file
  | .missing _ _ => Prog.fail .notFound

/-- `file_create(path, file)`. When `dir_alloc_file` fails, `-E_NOT_FOUND` of the walk is returned. -/
def fileCreate (path : List Byte) : FsM Nat := do
  match ← walkPath path with
  | .found _ _ => Prog.fail .fileExists
  | .missing dir name => do
    match ← Prog.attempt (dirAllocFile dir) with
    | .error _ => Prog.fail .notFound
    | .ok f => do
      touch (f / 1024)
      Prog.modify fun s => s.strcpy f 0 name
      return f

/-- `file_remove(path)`. -/
def fileRemove (path : List Byte) : FsM Unit := do
  let f ← fileOpen path
  fileTruncate f 0
  touch (f / 1024)
  Prog.modify fun s => s.setByte f 0 0
  fileFlush f
  flushDir f

/-! ## Sequences of operations -/

/-- The operations of the server on its files. A client that has got a block of a file may write to the
page: it shares it with the server. -/
inductive FsOp where
  | openFile (path : List Byte)
  | create (path : List Byte)
  | getBlock (f filebno : Nat) (data : Option Page)
  | setSize (f : Nat) (newsize : Word)
  | remove (path : List Byte)
  | dirty (f : Nat) (offset : Word)

/-- An operation, and what the client does with the page it gets. -/
def FsOp.exec : FsOp → FsM Unit
  | .openFile path => do
    let _ ← fileOpen path
  | .create path => do
    let _ ← fileCreate path
  | .getBlock f filebno data => do
    let blk ← fileGetBlock f filebno
    match data with
    | some p => Prog.modify fun s => s.setPage blk p
    | none => pure ()
  | .setSize f newsize => fileSetSize f newsize
  | .remove path => fileRemove path
  | .dirty f offset => fileDirty f offset

/-- The state after an operation that comes back, with or without an error. -/
def FsOp.step (s : Fs) (op : FsOp) : Option Fs := (op.exec s).state?

/-- The server before it has mounted a disk: the cache is empty. `avail` tells when the kernel has a page
for it. -/
def unmounted (disk : Nat → Page) (avail : Nat → Bool) : Fs :=
  { disk, cache := fun _ => none, super := false, bitmap := false, avail, edited := fun _ => false }

/-- A disk of 8 blocks. Block 3 is the block of the root directory. It has the files `a` with block 4, `b`
without blocks and `c` with block 5; word 10 of block 4 is the number 5. -/
def smallDisk : Nat → Page := fun blk i =>
  match blk, i with
  | 1, 0 => fsMagic
  | 1, 1 => 8
  | 1, 34 => 4096
  | 1, 35 => ftypeDir
  | 1, 36 => 3
  | 2, 0 => 0xc0
  | 3, 0 => 0x61
  | 3, 32 => 4096
  | 3, 34 => 4
  | 3, 64 => 0x62
  | 3, 128 => 0x63
  | 3, 160 => 4096
  | 3, 162 => 5
  | 4, 10 => 5
  | _, _ => 0

/-- The path `/root1/a`. -/
def pathA : List Byte := [0x2f, 0x72, 0x6f, 0x6f, 0x74, 0x31, 0x2f, 0x61]

/-- The server after it has mounted the small disk: the cache holds the super block and the bitmap. -/
def smallFs : Fs :=
  { unmounted smallDisk (fun _ => true) with
    cache := fun b => if b = 1 ∨ b = 2 then some ⟨smallDisk b, false⟩ else none
    super := true
    bitmap := true }

end Mos
