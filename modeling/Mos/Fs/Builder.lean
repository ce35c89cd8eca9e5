import Mos.Fs.Fsformat
import Mos.Fs.Reverse

/-!
# The builder of images

`tools/fsformat.c` copies files and directories of the host into an image, on a host of either byte order. The model
follows it byte by byte: `disk` with the types of its blocks, the super block, and `nextbno`.

What `read`, `lseek` and `readdir` answer is the input. The builder stops if an assertion fails; where it would leave
one of its arrays, the model stops too.
-/

namespace Mos

open Lib Prog Function

/-- `NBLOCK`. -/
def nblock : Nat := 1024

/-- The byte arrays of the builder: `super`, and the data of a block of `disk`. -/
inductive Region where
  | super
  | block (b : Nat)
deriving DecidableEq

/-- A `struct File *`. -/
structure FileLoc where
  region : Region
  off : Nat
deriving DecidableEq

/-- The variables of the builder. -/
structure Builder where
  mem : Region → Nat → Byte
  type : Nat → BlockType
  nextbno : Nat

/-- Why the builder stops. -/
inductive BuilderPanic where
  /-- An assertion fails, or the builder calls `exit`. -/
  | abort
  /-- An access outside an array. -/
  | wild
deriving DecidableEq

/-- Functions of the builder. -/
abbrev BuilderM := Prog Builder Empty BuilderPanic

/-- A name in a directory of the host. -/
structure HostName where
  bytes : List Byte
  nonempty : bytes ≠ []
  noNul : 0 ∉ bytes

/-- What one call of `read` brings. -/
structure Chunk where
  bytes : List Byte
  nonempty : bytes ≠ []
  fits : bytes.length ≤ by2blk

/-- A file or a directory of the host. -/
inductive HostFile where
  /-- A file, the answer of `lseek` to its end, and those of `read` that are greater than 0. -/
  | file (name : HostName) (size : Word) (reads : List Chunk)
  | dir (name : HostName) (entries : List HostFile)
  /-- A directory that `opendir` does not open. -/
  | closed

namespace Builder

/-- `disk[b]`. -/
def blockAt (s : Builder) (b : Nat) : Block := ⟨s.mem (.block b), s.type b⟩

/-- The word at the address `a` of an array. -/
def word (e : Endian) (s : Builder) (r : Region) (a : Nat) : Word := wordAt e (s.mem r) a

/-- Writes the word at the address `a` of an array. -/
def setWord (e : Endian) (s : Builder) (r : Region) (a : Nat) (w : Word) : Builder :=
  { s with mem := update s.mem r (setWordAt e (s.mem r) a w) }

/-- Writes some bytes from the address `a` on. -/
def setBytes (s : Builder) (r : Region) (a : Nat) (bytes : List Byte) : Builder :=
  { s with
    mem := update s.mem r fun x =>
      if a ≤ x ∧ x < a + bytes.length then bytes.getD (x - a) 0 else s.mem r x }

/-! ## `struct File` -/

/-- The offset of `f_size`. -/
def sizeField : Nat := 128
/-- The offset of `f_type`. -/
def typeField : Nat := 132
/-- The offset of `f_direct[k]`. -/
def directField (k : Nat) : Nat := 136 + 4 * k
/-- The offset of `f_indirect`. -/
def indirectField : Nat := 176

/-- `&super.s_root`. -/
def root : FileLoc := ⟨.super, 8⟩

/-- `&((struct File *)disk[b].data)[i]`. -/
def slot (b i : Nat) : FileLoc := ⟨.block b, 256 * i⟩

variable (e : Endian)

/-- Reads a field of a file. -/
def field (f : FileLoc) (off : Nat) : BuilderM Word := fun s => .ret (s.word e f.region (f.off + off)) s

/-- Writes a field of a file. -/
def setField (f : FileLoc) (off : Nat) (w : Word) : BuilderM Unit :=
  Prog.modify fun s => s.setWord e f.region (f.off + off) w

/-- The index of a block that `disk` has. -/
def inDisk (w : Word) : BuilderM Nat := do
  Prog.assert (w.toNat < nblock) .wild
  pure w.toNat

/-- `strcpy(f->f_name, name)`. -/
def copyName (f : FileLoc) (name : List Byte) : BuilderM Unit := do
  Prog.assert (name.length < maxnamelen) .wild
  Prog.modify fun s => s.setBytes f.region f.off (name ++ [0])

/-- `strncpy(f->f_name, name, MAXNAMELEN - 1)`. -/
def copyPrefix (f : FileLoc) (name : List Byte) : BuilderM Unit :=
  Prog.modify fun s => s.setBytes f.region f.off (name.takeD (maxnamelen - 1) 0)

/-! ## `tools/fsformat.c` -/

/-- `next_block(type)`. -/
def nextBlock (type : BlockType) : BuilderM Nat := do
  let s ← Prog.get
  Prog.assert (s.nextbno < nblock) .wild
  Prog.put { s with type := update s.type s.nextbno type, nextbno := s.nextbno + 1 }
  pure s.nextbno

/-- `save_block_link(f, nblk, bno)`. -/
def saveBlockLink (f : FileLoc) (nblk bno : Nat) : BuilderM Unit := do
  Prog.assert (nblk < nindirect) .abort
  if nblk < ndirect then setField e f (directField nblk) (BitVec.ofNat 32 bno)
  else do
    let indirect ← field e f indirectField
    Prog.when (indirect = 0) do
      let b ← nextBlock .index
      setField e f indirectField (BitVec.ofNat 32 b)
    let indirect ← field e f indirectField
    let b ← inDisk indirect
    Prog.modify fun s => s.setWord e (.block b) (4 * nblk) (BitVec.ofNat 32 bno)

/-- `make_link_block(dirf, nblk)`. -/
def makeLinkBlock (dirf : FileLoc) (nblk : Nat) : BuilderM Nat := do
  let bno ← nextBlock .file
  saveBlockLink e dirf nblk bno
  let size ← field e dirf sizeField
  setField e dirf sizeField (size + 4096)
  pure bno

/-- Step 1 of `create_file`: the number of block `i` of the directory. -/
def directoryBlock (dirf : FileLoc) (i : Nat) : BuilderM Nat :=
  if i < ndirect then do
    let bno ← field e dirf (directField i)
    inDisk bno
  else do
    let indirect ← field e dirf indirectField
    let b ← inDisk indirect
    Prog.assert (i < nindirect) .wild
    let s ← Prog.get
    inDisk (s.word e (.block b) (4 * i))

/-- The first unused file of a block, from the file `j` on, among `n` files. -/
def unusedFrom (d : Nat → Byte) (j : Nat) : Nat → Option Nat
  | 0 => none
  | n + 1 => if d (256 * j) = 0 then some j else unusedFrom d (j + 1) n

/-- Step 1 of `create_file`, from the block `i` of the directory on, for `n` more blocks. -/
def findUnused (dirf : FileLoc) (i : Nat) : Nat → BuilderM (Option FileLoc)
  | 0 => pure none
  | n + 1 => do
    let bno ← directoryBlock e dirf i
    let s ← Prog.get
    match unusedFrom (s.mem (.block bno)) 0 file2blk with
    | some j => pure (some (slot bno j))
    | none => findUnused dirf (i + 1) n

/-- `create_file(dirf)`. -/
def createFile (dirf : FileLoc) : BuilderM FileLoc := do
  let size ← field e dirf sizeField
  let nblk := size.toNat / by2blk
  let found ← findUnused e dirf 0 nblk
  match found with
  | some f => pure f
  | none => do
    let bno ← makeLinkBlock e dirf nblk
    pure (slot bno 0)

/-- The loop of `write_file`, from the block `iblk` of the file on. -/
def readBlocks (target : FileLoc) (iblk : Nat) : List Chunk → BuilderM Unit
  | [] => pure ()
  | c :: cs => do
    let s ← Prog.get
    Prog.assert (s.nextbno < nblock) .wild
    Prog.put (s.setBytes (.block s.nextbno) 0 c.bytes)
    let bno ← nextBlock .data
    saveBlockLink e target iblk bno
    readBlocks target (iblk + 1) cs

/-- `write_file(dirf, path)`. -/
def writeFile (dirf : FileLoc) (name : HostName) (size : Word) (reads : List Chunk) : BuilderM Unit := do
  let target ← createFile e dirf
  copyName target name.bytes
  setField e target sizeField size
  setField e target typeField ftypeReg
  readBlocks e target 0 reads

/-- `write_directory(dirf, path)`; the loop over the entries is an argument. -/
def writeDirectory (dirf : FileLoc) (name : HostName) (entries : FileLoc → BuilderM Unit) : BuilderM Unit := do
  let pdir ← createFile e dirf
  copyPrefix pdir name.bytes
  let s ← Prog.get
  Prog.assert (s.mem pdir.region (pdir.off + (maxnamelen - 1)) = 0) .abort
  setField e pdir typeField ftypeDir
  entries pdir

mutual

/-- One file or directory. -/
def writeEntry : HostFile → FileLoc → BuilderM Unit
  | .file name size reads, dirf => writeFile e dirf name size reads
  | .dir name entries, dirf => writeDirectory e dirf name (writeEntries entries)
  | .closed, _ => pure ()

/-- The loop over the entries of a directory, or over the arguments of `main`. -/
def writeEntries : List HostFile → FileLoc → BuilderM Unit
  | [], _ => pure ()
  | t :: ts, dirf => do
    writeEntry t dirf
    writeEntries ts dirf

end

/-- The variables before `main`. -/
def zeroed : Builder := ⟨fun _ _ => 0, fun _ => .free, 0⟩

/-- `"/root1"`. -/
def rootName : List Byte := [0x2f, 0x72, 0x6f, 0x6f, 0x74, 0x31]

/-- `init_disk()`. -/
def initDisk : BuilderM Unit := do
  Prog.modify fun s => { s with type := update s.type 0 .boot }
  let nbitblock := nbitblock nblock
  Prog.modify fun s => { s with nextbno := 2 + nbitblock }
  Prog.loop (fun i => Prog.modify fun s => { s with type := update s.type (2 + i) .bmap }) 0 nbitblock
  Prog.loop (fun i => Prog.modify fun s => s.setBytes (.block (2 + i)) 0 (List.replicate by2blk 0xff)) 0 nbitblock
  Prog.when (nblock ≠ nbitblock * bit2blk) do
    let diff := nblock % bit2blk / 8
    Prog.modify fun s => s.setBytes (.block (2 + (nbitblock - 1))) diff (List.replicate (by2blk - diff) 0)
  Prog.modify fun s => { s with type := update s.type 1 .super }
  Prog.modify fun s => s.setWord e .super 0 fsMagic
  Prog.modify fun s => s.setWord e .super 4 (BitVec.ofNat 32 nblock)
  setField e root typeField ftypeDir
  copyName root rootName

/-- The body of the loop of `flush_bitmap`. -/
def flushBit (i : Nat) : BuilderM Unit :=
  Prog.modify fun s => s.setWord e (.block (2 + i / bit2blk)) (4 * (i % bit2blk / 32))
    (s.word e (.block (2 + i / bit2blk)) (4 * (i % bit2blk / 32)) &&& ~~~bitOf i)

/-- `flush_bitmap()`. -/
def flushBitmap : BuilderM Unit := do
  let s ← Prog.get
  Prog.loop (flushBit e) 0 s.nextbno

/-- `memcpy(disk[1].data, &super, sizeof(super))`, before `finish_fs` turns the blocks round. -/
def copySuper : BuilderM Unit :=
  Prog.modify fun s => { s with
    mem := update s.mem (.block 1) fun x => if x < 264 then s.mem .super x else s.mem (.block 1) x }

/-- `main`, up to the loop of `finish_fs`: its arguments are these files and directories. -/
def fsformat (args : List HostFile) : BuilderM Unit := do
  initDisk e
  writeEntries e args root
  flushBitmap e
  copySuper

end Builder

end Mos
