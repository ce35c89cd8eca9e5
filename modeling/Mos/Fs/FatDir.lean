import Mos.Fs.FatMem
import Mos.Fs.Walks
import Mos.Fs.Supply

/-!
# Directories of the FAT32 server

A directory is a file whose clusters are full of entries of 64 bytes. `DIR_Name` has 11 bytes; the functions
of `fs/fatfs.c` treat it as a string, which goes on into the fields behind it if there is no zero in it.
-/

namespace Mos

open Lib Prog Function

/-! ## Entries -/

/-- `MAXFATNAMELEN`. -/
def maxfatnamelen : Nat := 11
/-- `ATTR_DIRECTORY`. -/
def attrDirectory : Byte := 0x10
/-- `FATDIRBY2FILE`. -/
def fatdirby2file : Nat := 64

/-- `&((struct Fat32_Dir *)blk)[j]`. -/
def fatEntry (blk j : Nat) : Nat := blk + fatdirby2file * j

/-- The number of entries in a cluster. -/
def Fat32Bpb.entries (bpb : Fat32Bpb) : Nat := bpb.bytsPerCluster / fatdirby2file

/-- `addr2cluster(addr)`. -/
def Fat32Bpb.addr2cluster (bpb : Fat32Bpb) (addr : Nat) : Nat :=
  (addr + 2 ^ 32 - 0x10400000) % 2 ^ 32 / bpb.bytsPerCluster + 2

/-- A store to `dir`. -/
def FatFs.setDir (s : FatFs) (f dir : Nat) : FatFs :=
  (s.setHalf (f + 34) (dir / 65536)).setHalf (f + 32) dir

/-- A byte is loaded. -/
def loadFatByte (va : Nat) : FatM Byte := do
  touchPage va
  let s ← Prog.get
  return s.byte va

/-- A byte is stored. -/
def storeFatByte (va : Nat) (b : Byte) : FatM Unit := do
  touchPage va
  Prog.modify fun s => s.setByte va b

/-- `strcmp(name, va) == 0`. -/
def fatStrEq (va : Nat) : List Byte → FatM Bool
  | [] => do
    let b ← loadFatByte va
    return b = 0
  | c :: cs => do
    let b ← loadFatByte va
    if b = c then fatStrEq (va + 1) cs else return false

/-- `strcpy(va, name)`. -/
def fatStrcpy (va : Nat) : List Byte → FatM Unit
  | [] => storeFatByte va 0
  | c :: cs => do
    storeFatByte va c
    fatStrcpy (va + 1) cs

/-! ## Looking a name up -/

/-- The inner loop of `fatdir_lookup` and of `fatdir_alloc_file`: the first of the `n` entries from entry `j`
on that passes a test. -/
def findEntry (blk : Nat) (test : Nat → FatM Bool) (j : Nat) : Nat → FatM (Option Nat)
  | 0 => return none
  | n + 1 => do
    if ← test (fatEntry blk j) then return some (fatEntry blk j) else findEntry blk test (j + 1) n

/-- The loop of `fatdir_lookup` over the `n` clusters from `i` on. -/
def fatLookupFrom (dir : Nat) (name : List Byte) (i : Nat) : Nat → FatM Nat
  | 0 => Prog.fail .notFound
  | n + 1 => do
    let s ← Prog.get
    let blk ← fatfileGetCluster dir i
    match ← findEntry blk (fun f => fatStrEq f name) 0 s.bpb.entries with
    | some f => do
      Prog.modify fun s => s.setDir f dir
      let _ ← Prog.attempt (dirtyCluster (s.bpb.addr2cluster blk))
      return f
    | none => fatLookupFrom dir name (i + 1) n

/-- `fatdir_lookup(dir, name, file)`. -/
def fatdirLookup (dir : Nat) (name : List Byte) : FatM Nat := do
  let s ← Prog.get
  fatLookupFrom dir name 0 (s.fileSize dir / s.bpb.bytsPerCluster)

/-! ## A free entry -/

/-- The loop of `fatdir_alloc_file` over the `n` clusters from `i` on. -/
def fatAllocFileFrom (dir i : Nat) : Nat → FatM (Option Nat)
  | 0 => return none
  | n + 1 => do
    let s ← Prog.get
    let blk ← fatfileGetCluster dir i
    match ← findEntry blk (fun f => do return (← loadFatByte f) = 0) 0 s.bpb.entries with
    | some f => return some f
    | none => fatAllocFileFrom dir (i + 1) n

/-- By how much `fatdir_alloc_file` makes `DIR_FileSize` larger. -/
def Fat32Bpb.dirGrowth (bpb : Fat32Bpb) : Nat :=
  if bpb.bytsPerCluster ≥ 4096 then bpb.bytsPerSec else 4096

/-- `fatdir_alloc_file(dir, file)`. -/
def fatdirAllocFile (dir : Nat) : FatM Nat := do
  let s ← Prog.get
  let nclus := s.fileSize dir / s.bpb.bytsPerCluster
  match ← fatAllocFileFrom dir 0 nclus with
  | some f => return f
  | none => do
    Prog.modify fun t => t.setFileSize dir ((t.fileSize dir + s.bpb.dirGrowth) % 2 ^ 32)
    let blk ← fatfileGetCluster dir nclus
    return fatEntry blk 0

/-! ## Paths -/

/-- `dir->DIR_Attr == ATTR_DIRECTORY`. -/
def fatIsDir (dir : Nat) : FatM Bool := do
  let attr ← loadFatByte (dir + 11)
  return attr = attrDirectory

/-- `fatwalk_path(path, pdir, pfile, lastelem)`, where `root` is `fat32fs.root`. -/
def fatwalkPath (root : Nat) (path : List Byte) : FatM Walk :=
  let path := skipSlash (path.drop 6)
  scan fatIsDir fatdirLookup .spin path.length none root path

/-- `fatfile_open(path, file)`. -/
def fatfileOpen (root : Nat) (path : List Byte) : FatM Nat := do
  match ← fatwalkPath root path with
  | .found _ file => return file
  | .missing _ _ => Prog.fail .notFound

/-- `fatfile_create(path, file)`. The last name of the path is copied to a local array of `MAXFATNAMELEN`
bytes. When `fatdir_alloc_file` fails, `-E_NOT_FOUND` of the walk is returned. -/
def fatfileCreate (root : Nat) (path : List Byte) : FatM Nat := do
  match ← fatwalkPath root path with
  | .found _ _ => Prog.fail .fileExists
  | .missing dir name => do
    Prog.assert (name.length < maxfatnamelen) .wild
    match ← Prog.attempt (fatdirAllocFile dir) with
    | .error _ => Prog.fail .notFound
    | .ok f => do
      fatStrcpy f name
      return f

/-- `fatwalk_path` goes through the names of the path, too. -/
theorem fatwalkPath_eq_descend {rootName : List Byte} (h : rootName.length = 6) (root : Nat)
    (rest : List Byte) :
    fatwalkPath root (rootName ++ rest) =
      descend fatIsDir fatdirLookup none root (pieces slash rest) := by
  have hdrop : (rootName ++ rest).drop 6 = rest := by rw [← h, List.drop_left]
  unfold fatwalkPath
  rw [hdrop, scan_eq_descend _ _ _ _ _ _ _ (le_refl _) (skipSlash_skipSlash rest)]
  congr 1
  exact pieces_dropWhile rest

/-! ## Both servers -/

/-- **Paths follow their names.** In a consistent tree with complete directories, `walk_path` finds what the
names of the path stand for, from left to right; it changes nothing but `f_dir` fields, and comes back if there
is memory. `fatwalk_path` goes through the same names in the same way, with its own lookup. -/
theorem walks_follow_names {s : Fs} (hs : s.Consistent) (hc : s.Complete s.dirBlocks)
    {rootName : List Byte} (h : rootName.length = 6) (rest : List Byte) :
    (walkPath (rootName ++ rest) s).Sat
        (fun w t => s.resolve (pieces slash rest) = .ok w ∧ s.Alters (Fs.ups s.dirBlocks) t)
        (fun e t => s.resolve (pieces slash rest) = .error e ∧ s.Alters (Fs.ups s.dirBlocks) t)
        (fun q => q = .noMemory ∧ ¬s.Supplied) ∧
      ∀ root, fatwalkPath root (rootName ++ rest) =
        descend fatIsDir fatdirLookup none root (pieces slash rest) := by
  refine ⟨?_, fun root => fatwalkPath_eq_descend h root rest⟩
  exact (walkPath_feeds _).sat ((walkPath_resolve hs.own hc h rest).mono (fun _ _ h => ⟨h.2.1, h.1⟩)
    (fun _ _ h => ⟨h.2, h.1⟩) (fun _ h => h))

theorem smallFs_complete : smallFs.Complete smallFs.dirBlocks := by
  intro d hd hdir n hn
  rcases smallFs_own.isFile (Fs.mem_files_dirBlocks.mp hd) with rfl | ⟨b, rfl, j, hj, rfl⟩
  · rw [show smallFs.nblocksOf sRoot = 1 from rfl] at hn
    obtain rfl : n = 0 := by omega
    decide
  · unfold file2blk at hj
    interval_cases j <;> exact absurd hdir (by decide)

theorem walks_follow_names_small :
    (walkPath (pathA.take 6 ++ pathA.drop 6) smallFs).Sat
        (fun w t => smallFs.resolve (pieces slash (pathA.drop 6)) = .ok w ∧
          smallFs.Alters (Fs.ups smallFs.dirBlocks) t)
        (fun e t => smallFs.resolve (pieces slash (pathA.drop 6)) = .error e ∧
          smallFs.Alters (Fs.ups smallFs.dirBlocks) t)
        (fun q => q = .noMemory ∧ ¬smallFs.Supplied) ∧
      ∀ root, fatwalkPath root (pathA.take 6 ++ pathA.drop 6) =
        descend fatIsDir fatdirLookup none root (pieces slash (pathA.drop 6)) :=
  walks_follow_names smallFs_own.consistent smallFs_complete (by decide) _

end Mos
