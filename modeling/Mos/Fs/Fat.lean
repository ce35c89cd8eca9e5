import Mos.Fs.Ide

/-!
# The FAT32 file server

`fs/fatfs.c` keeps the file allocation table of its disk in memory from `DISKMAP` on, and a cache of the
clusters from `DISKMAP + PDMAP` on: cluster `c` has its place there whether it is loaded or not. A file
is an entry of 64 bytes in a cluster of its directory; the entry holds the number of the file's first
cluster, and the table holds for each cluster the number of the next one.

The table is an array of words here, the cache a set of pages of bytes. A page that is not mapped is
mapped by the kernel when it is touched, full of zeros. An access to the table beyond `PDMAP` meets
other memory of the server; the model stops there.
-/

namespace Mos

open Lib Function

/-! ## The geometry of a disk -/

/-- The fields of `struct Fat32Bpb` that the server reads. Sectors have a power of two of bytes, from 512
to 4096, and clusters a power of two of sectors that fits into a byte. -/
structure Fat32Bpb where
  bytsPerSec : Nat
  secPerClus : Nat
  rsvdSecCnt : Nat
  numFATs : Nat
  totSec32 : Nat
  fatSz32 : Nat
  sector : ∃ i ≤ 3, bytsPerSec = 512 * 2 ^ i
  cluster : ∃ j ≤ 7, secPerClus = 2 ^ j
  width : rsvdSecCnt < 2 ^ 16 ∧ numFATs < 2 ^ 8 ∧ totSec32 < 2 ^ 32 ∧ fatSz32 < 2 ^ 32

namespace Fat32Bpb

/-- `fat32fs.bytsPerCluster`. -/
def bytsPerCluster (bpb : Fat32Bpb) : Nat := bpb.bytsPerSec * bpb.secPerClus

/-- `fat32fs.dataStartSector`. -/
def dataStartSector (bpb : Fat32Bpb) : Nat := (bpb.rsvdSecCnt + bpb.numFATs * bpb.fatSz32) % 2 ^ 32

/-- `BPB_TotSec32 / secPerClus`: the cluster numbers below it are valid. -/
def nclus (bpb : Fat32Bpb) : Nat := bpb.totSec32 / bpb.secPerClus

/-- The cluster numbers that `read_cluster` accepts. -/
def Valid (bpb : Fat32Bpb) (c : Nat) : Prop := 2 ≤ c ∧ c < bpb.nclus

instance (bpb : Fat32Bpb) (c : Nat) : Decidable (bpb.Valid c) := inferInstanceAs (Decidable (_ ∧ _))

/-- `cluster2Sec(clusNo)`. -/
def cluster2Sec (bpb : Fat32Bpb) (clusNo : Nat) : Nat :=
  ((clusNo + 2 ^ 32 - 2) * bpb.secPerClus + bpb.dataStartSector) % 2 ^ 32

/-- `cluster2addr(clusno)`; the clusters begin at `DISKMAP + PDMAP`. -/
def cluster2addr (bpb : Fat32Bpb) (clusno : Nat) : Nat :=
  ((clusno + 2 ^ 32 - 2) * bpb.bytsPerCluster + 0x10400000) % 2 ^ 32

end Fat32Bpb

/-! ## The state -/

/-- `FAT32_USED`. -/
def fat32Used : Word := 0xffffffff
/-- `FAT32_FREE`. -/
def fat32Free : Word := 0

/-- The words between `DISKMAP` and `DISKMAP + PDMAP`. -/
def fatWords : Nat := 1048576

/-- A page of the cluster cache: its contents, and `PTE_DIRTY`. -/
structure FatPage where
  bytes : Nat → Byte
  dirty : Bool

/-- The state of the FAT32 server. -/
structure FatFs where
  bpb : Fat32Bpb
  /-- The table in memory. -/
  fats : Nat → Word
  /-- The mapped pages, by their page numbers. -/
  cache : Nat → Option FatPage
  disk : Nat → Byte
  /-- Whether the kernel will have a page when it is asked the next time, the time after, … -/
  avail : Nat → Bool
  /-- Not part of the server's memory: the sectors of 512 bytes that it has written so far. -/
  written : List Nat

/-- Why the server stops. -/
inductive FatPanic where
  | nonexistent
  | writeUnmapped
  | noMemory
  /-- An access outside the table or outside a local array. -/
  | wild
  | divisionByZero
  /-- A loop has used up its fuel. -/
  | spin
deriving DecidableEq

/-- Functions of the FAT32 server. -/
abbrev FatM := Prog FatFs Err FatPanic

namespace FatFs

/-- The byte at an address; a page that is not mapped counts as zeros. -/
def byte (s : FatFs) (va : Nat) : Byte :=
  match s.cache (va / 4096) with
  | some p => p.bytes (va % 4096)
  | none => 0

/-- `fatva_is_mapped(va)`. -/
def fatvaIsMapped (s : FatFs) (va : Nat) : Bool := (s.cache (va / 4096)).isSome

/-- `fatva_is_dirty(va)`. -/
def fatvaIsDirty (s : FatFs) (va : Nat) : Bool := (s.cache (va / 4096)).any FatPage.dirty

/-- Maps a page of zeros. -/
def mapZero (s : FatFs) (va : Nat) : FatFs :=
  { s with cache := update s.cache (va / 4096) (some ⟨fun _ => 0, false⟩) }

/-- `syscall_mem_unmap(0, va)`. -/
def unmap (s : FatFs) (va : Nat) : FatFs := { s with cache := update s.cache (va / 4096) none }

/-- Changes the page of `va`, if it is mapped. -/
def editPage (s : FatFs) (va : Nat) (g : FatPage → FatPage) : FatFs :=
  { s with cache := update s.cache (va / 4096) ((s.cache (va / 4096)).map g) }

/-- `syscall_mem_map(0, va, 0, va, PTE_D | PTE_DIRTY)`. -/
def mark (s : FatFs) (va : Nat) : FatFs := s.editPage va fun p => { p with dirty := true }

/-- New contents for the 512 bytes at `va`. -/
def setSector (s : FatFs) (va : Nat) (b : Nat → Byte) : FatFs :=
  s.editPage va fun p => { p with bytes := writeSector p.bytes (va % 4096) b }

/-- A store of one byte. -/
def setByte (s : FatFs) (va : Nat) (b : Byte) : FatFs :=
  s.editPage va fun p => { p with bytes := update p.bytes (va % 4096) b }

/-- The server before it has loaded anything, over an empty disk. -/
def blank (bpb : Fat32Bpb) : FatFs where
  bpb := bpb
  fats := fun _ => 0
  cache := fun _ => none
  disk := fun _ => 0
  avail := fun _ => true
  written := []

/-- A byte of the table, which is stored with the low byte first. -/
def fatByte (s : FatFs) (a : Nat) : Byte := (s.fats (a / 4)).extractLsb' (8 * (a % 4)) 8

end FatFs

/-! ## Memory and disk -/

/-- The kernel is asked for a page; it may have none. -/
def askFatPage : FatM Bool := fun s =>
  .ret (s.avail 0) { s with avail := fun n => s.avail (n + 1) }

/-- `syscall_mem_alloc(0, va, PTE_D)`. -/
def fatMemAlloc (va : Nat) : FatM Unit := do
  if ← askFatPage then Prog.modify fun s => s.mapZero va else Prog.fail .noMem

/-- The page of `va` is touched: if it is not mapped, the kernel maps one (`passive_alloc`). -/
def touchPage (va : Nat) : FatM Unit := do
  let s ← Prog.get
  if s.fatvaIsMapped va then pure ()
  else if ← askFatPage then Prog.modify fun s => s.mapZero va
  else Prog.halt .noMemory

/-- `begin` in `ide_read` and `ide_write`. -/
def ideBegin (secno : Nat) : Nat := secno * by2sect % 2 ^ 32

/-- The number of rounds of the loop of `ide_read` and `ide_write`, which ends at
`begin + nsecs * BY2SECT`. -/
def ideRounds (secno nsecs : Nat) : Nat :=
  ((ideBegin secno + nsecs * by2sect) % 2 ^ 32 - ideBegin secno) / by2sect

/-- `ide_read(1, secno, dst, nsecs)`. -/
def fatIdeRead (secno dst nsecs : Nat) : FatM Unit :=
  Prog.loop (fun i => do
    touchPage (dst + by2sect * i)
    Prog.modify fun s =>
      s.setSector (dst + by2sect * i) (readSector s.disk (ideBegin secno + by2sect * i)))
    0 (ideRounds secno nsecs)

/-- `ide_write(1, secno, src, nsecs)`, where `src` holds the bytes `b`. -/
def fatIdeWrite (secno : Nat) (b : Nat → Byte) (nsecs : Nat) : FatM Unit :=
  Prog.loop (fun i => Prog.modify fun s => { s with
      disk := writeSector s.disk (ideBegin secno + by2sect * i) (readSector b (by2sect * i))
      written := s.written ++ [(ideBegin secno + by2sect * i) / by2sect] })
    0 (ideRounds secno nsecs)

/-! ## The cluster cache -/

namespace FatFs

/-- `cluster_is_mapped(clusno)`; the address that it returns is `cluster2addr(clusno)`. -/
def clusterIsMapped (s : FatFs) (clusno : Nat) : Bool :=
  let va := s.bpb.cluster2addr clusno
  if s.bpb.bytsPerCluster ≤ 4096 then s.fatvaIsMapped va
  else (List.range (s.bpb.bytsPerCluster / 4096)).all fun i => s.fatvaIsMapped (va + 4096 * i)

end FatFs

/-- One page of `dirty_cluster`. -/
def dirtyPage (va : Nat) : FatM Unit := do
  let s ← Prog.get
  if ¬s.fatvaIsMapped va then Prog.fail .notFound
  else if s.fatvaIsDirty va then pure ()
  else Prog.put (s.mark va)

/-- `dirty_cluster(clusno)`. -/
def dirtyCluster (clusno : Nat) : FatM Unit := do
  let s ← Prog.get
  let va := s.bpb.cluster2addr clusno
  if s.bpb.bytsPerCluster ≤ 4096 then dirtyPage va
  else Prog.loop (fun i => dirtyPage (va + 4096 * i)) 0 (s.bpb.bytsPerCluster / 4096)

/-- The loop of `map_cluster` over the pages of a large cluster at `va`, from page `i` on. When there is
no memory for page `i`, it unmaps `i` pages, from page `i` downwards. -/
def mapPages (va : Nat) : Nat → Nat → FatM Unit
  | _, 0 => pure ()
  | i, n + 1 => do
    let s ← Prog.get
    let addr := va + 4096 * i
    if s.fatvaIsMapped addr then mapPages va (i + 1) n
    else
      match ← Prog.attempt (fatMemAlloc addr) with
      | .ok _ => mapPages va (i + 1) n
      | .error e => do
        Prog.loop (fun j => Prog.modify fun s => s.unmap (addr - 4096 * j)) 0 i
        Prog.fail e

/-- `map_cluster(clusno)`. The number of sectors that it reads is a number of bytes. -/
def mapCluster (clusno : Nat) : FatM Unit := do
  let s ← Prog.get
  let addr := s.bpb.cluster2addr clusno
  if s.bpb.bytsPerCluster > 4096 then
    mapPages addr 0 (s.bpb.bytsPerCluster / 4096)
    fatIdeRead (s.bpb.cluster2Sec clusno) addr s.bpb.bytsPerCluster
  else if s.fatvaIsMapped addr then pure ()
  else
    match ← Prog.attempt (fatMemAlloc addr) with
    | .ok _ => fatIdeRead (s.bpb.cluster2Sec clusno) addr s.bpb.bytsPerCluster
    | .error e => do
      Prog.modify fun s => s.unmap addr
      Prog.fail e

/-- `read_cluster(clusno, blk, isnew)`: the address and `*isnew`. It does not look at what
`syscall_mem_alloc` returns. -/
def readCluster (clusno : Nat) : FatM (Nat × Bool) := do
  let s ← Prog.get
  Prog.assert (s.bpb.Valid clusno) .nonexistent
  let addr := s.bpb.cluster2addr clusno
  if s.clusterIsMapped clusno then return (addr, false)
  else
    let _ ← Prog.attempt (fatMemAlloc addr)
    fatIdeRead (s.bpb.cluster2Sec clusno) addr s.bpb.secPerClus
    return (addr, true)

/-! ## The table -/

/-- `fats[clusno]`. -/
def readFat (clusno : Nat) : FatM Word := do
  let s ← Prog.get
  if clusno < fatWords then return s.fats clusno else Prog.halt .wild

/-- `fats[clusno] = w`. -/
def writeFat (clusno : Nat) (w : Word) : FatM Unit :=
  if clusno < fatWords then Prog.modify fun s => { s with fats := update s.fats clusno w }
  else Prog.halt .wild

/-- `cluster_is_free(clusno)`. -/
def clusterIsFree (clusno : Nat) : FatM Bool := do
  let w ← readFat clusno
  return w = fat32Free

/-- `free_cluster(clusno)`. -/
def freeCluster (clusno : Nat) : FatM Unit := writeFat clusno fat32Free

/-- What `alloc_cluster_num` does with the free entry `clusno`. Where a page holds several clusters, all
the entries of a page from `clusno` on are taken. -/
def claim (bpb : Fat32Bpb) (clusno : Nat) : FatM Unit :=
  if bpb.bytsPerCluster ≥ 4096 then writeFat clusno fat32Used
  else Prog.loop (fun i =>
    if i < 4096 / bpb.bytsPerCluster - 1 then writeFat (clusno + i) (BitVec.ofNat 32 (clusno + i + 1))
    else writeFat (clusno + i) fat32Used) 0 (4096 / bpb.bytsPerCluster)

/-- The loop of `alloc_cluster_num` over `n` entries from `clusno` on. -/
def allocClusterFrom (clusno : Nat) : Nat → FatM Nat
  | 0 => Prog.fail .noDisk
  | n + 1 => do
    let w ← readFat clusno
    if w = fat32Free then
      let s ← Prog.get
      claim s.bpb clusno
      return clusno
    else allocClusterFrom (clusno + 1) n

/-- `alloc_cluster_num()`. -/
def allocClusterNum : FatM Nat := do
  let s ← Prog.get
  allocClusterFrom 2 (s.bpb.totSec32 - 2)

/-- `alloc_cluster()`. -/
def allocCluster : FatM Nat := do
  let clusno ← allocClusterNum
  match ← Prog.attempt (mapCluster clusno) with
  | .ok _ => return clusno
  | .error e => do
    freeCluster clusno
    Prog.fail e

/-- `alloc_cluster()` where the result is stored without a look at its sign. -/
def allocClusterWord : FatM Word := do
  match ← Prog.attempt allocCluster with
  | .ok clusno => return BitVec.ofNat 32 clusno
  | .error e => return e.code

/-! ## Directory entries

A pointer to a `struct Fat32_Dir` is the address of an entry in a mapped page of the cache. -/

namespace FatFs

/-- The `uint16_t` at an address. -/
def half (s : FatFs) (va : Nat) : Nat := (s.byte va).toNat + 256 * (s.byte (va + 1)).toNat

/-- A store to a `uint16_t`. -/
def setHalf (s : FatFs) (va n : Nat) : FatFs :=
  (s.setByte va (BitVec.ofNat 8 n)).setByte (va + 1) (BitVec.ofNat 8 (n / 256))

/-- `(DIR_FstClusHI << 16) | DIR_FstClusLO` of the entry at `f`. -/
def fstClus (s : FatFs) (f : Nat) : Nat := s.half (f + 20) * 65536 + s.half (f + 26)

/-- `DIR_FstClusHI` and `DIR_FstClusLO` are set to the halves of a word. -/
def setFstClus (s : FatFs) (f n : Nat) : FatFs := (s.setHalf (f + 20) (n / 65536)).setHalf (f + 26) n

/-- `DIR_FileSize`. -/
def fileSize (s : FatFs) (f : Nat) : Nat := s.half (f + 30) * 65536 + s.half (f + 28)

/-- A store to `DIR_FileSize`. -/
def setFileSize (s : FatFs) (f n : Nat) : FatFs := (s.setHalf (f + 30) (n / 65536)).setHalf (f + 28) n

end FatFs

/-! ## The chain of a file -/

/-- The rounds of `fatfile_cluster_walk` from round `i` on. -/
def clusterWalk (f fileclusno : Nat) (alloc : Bool) : Nat → Nat → Nat → FatM Nat
  | _, 0, curClus => pure curClus
  | i, n + 1, curClus => do
    Prog.when (i + 1 < fileclusno) do
      let w ← readFat curClus
      Prog.when (w = fat32Used) do
        if alloc = false then Prog.fail .notFound
        else
          let s ← Prog.get
          let curno ← allocClusterWord
          if s.fstClus f = 0 then Prog.modify fun s => s.setFstClus f curno.toNat
          else writeFat curClus curno
    let w ← readFat curClus
    clusterWalk f fileclusno alloc (i + 1) n w.toNat

/-- `fatfile_cluster_walk(f, fileclusno, pclusno, alloc)`: the cluster number behind `*pclusno`. The
pointer is to a local variable; its callers read it before they call anything else. -/
def fatfileClusterWalk (f fileclusno : Nat) (alloc : Bool) : FatM Nat := do
  let s ← Prog.get
  clusterWalk f fileclusno alloc 0 fileclusno (s.fstClus f)

/-- `fatfile_map_cluster(f, fileclusno, clusno, alloc)`: the value of `*clusno`. -/
def fatfileMapCluster (f fileclusno : Nat) (alloc : Bool) : FatM Nat := do
  let p ← fatfileClusterWalk f fileclusno alloc
  if p = 0 then
    if alloc = false then Prog.fail .notFound
    else
      let r ← allocCluster
      let s ← Prog.get
      Prog.when (s.fstClus f = 0) (Prog.modify fun s => s.setFstClus f r)
      return r
  else return p

/-! ## Blocks and clusters of a file -/

/-- `fatread_block(clusno, inbno, blk, isnew)`: `*blk` and `*isnew`. -/
def fatreadBlock (clusno inbno : Nat) : FatM (Nat × Bool) := do
  let s ← Prog.get
  Prog.assert (s.bpb.Valid clusno) .nonexistent
  let mapped := s.clusterIsMapped clusno
  Prog.when (mapped = false) do
    let _ ← Prog.attempt (mapCluster clusno)
    pure ()
  let blk := s.bpb.cluster2addr clusno + 4096 * inbno
  let _ ← Prog.attempt (dirtyCluster clusno)
  return (blk, !mapped)

/-- `fileclusno` and `inbno` in `fatfile_get_block`. -/
def fatBlockPos (bpb : Fat32Bpb) (filebno : Nat) : FatM (Nat × Nat) :=
  if bpb.bytsPerCluster < 4096 then
    return (filebno * (4096 / bpb.bytsPerCluster) % 2 ^ 32, 0)
  else if bpb.bytsPerCluster / 4096 = 0 then Prog.halt .divisionByZero
  else
    let fileclusno := filebno / (bpb.bytsPerCluster / 4096)
    if bpb.bytsPerSec / 4096 = 0 then Prog.halt .divisionByZero
    else return (fileclusno, filebno % (bpb.bytsPerSec / 4096))

/-- `fatfile_get_block(f, filebno, blk)`: `*blk`. -/
def fatfileGetBlock (f filebno : Nat) : FatM Nat := do
  let s ← Prog.get
  let (fileclusno, inbno) ← fatBlockPos s.bpb filebno
  let clusno ← fatfileMapCluster f fileclusno true
  let (blk, _) ← fatreadBlock clusno inbno
  return blk

/-- `fatfile_get_cluster(f, fileclusno, blk)`: `*blk`. -/
def fatfileGetCluster (f fileclusno : Nat) : FatM Nat := do
  let clusno ← fatfileMapCluster f fileclusno true
  let (blk, _) ← readCluster clusno
  return blk

/-! ## Cutting a file -/

/-- `for (i = 0; i < n; ++i) clusno = fats[clusno];` -/
def follow : Nat → Nat → FatM Nat
  | 0, clusno => pure clusno
  | n + 1, clusno => do
    let w ← readFat clusno
    follow n w.toNat

/-- `n` rounds of `t = fats[clusno]; fats[clusno] = FAT32_FREE; clusno = t;` -/
def freeRun : Nat → Nat → FatM Unit
  | 0, _ => pure ()
  | n + 1, clusno => do
    let t ← readFat clusno
    writeFat clusno fat32Free
    freeRun n t.toNat

/-- `old_nclus` and `new_nclus` of `fatfile_truncate`, for a size. -/
def truncClus (bpb : Fat32Bpb) (size : Nat) : Nat :=
  size / bpb.bytsPerCluster + 2 + if size % bpb.bytsPerCluster ≠ 0 then 1 else 0

/-- `fatfile_truncate(f, newsize)`. -/
def fatfileTruncate (f newsize : Nat) : FatM Unit := do
  let s ← Prog.get
  let oldNclus := truncClus s.bpb (s.fileSize f)
  let newNclus := if newsize = 0 then 0 else truncClus s.bpb newsize
  Prog.when (newNclus ≤ oldNclus) do
    let clusno ← follow newNclus (s.fstClus f)
    let t ← readFat clusno
    writeFat clusno fat32Used
    freeRun (oldNclus + 1 - newNclus) t.toNat
  Prog.modify fun s => s.setFileSize f newsize

/-! ## Writing the table back -/

/-- `sec` in `fat_flush`. -/
def flushSec (clusno : Nat) : Nat := clusno * 4 % 2 ^ 32 / 4096

/-- The loop of `fat_flush` at `clusno`, with the numbers in `flushedClus` so far. The local array has 128
elements. -/
def fatFlushFrom : Nat → List Nat → Nat → FatM Unit
  | 0, _, _ => Prog.halt .spin
  | fuel + 1, flushedClus, clusno => do
    let s ← Prog.get
    let sec := flushSec clusno
    Prog.when (sec ∉ flushedClus) do
      fatIdeWrite (s.bpb.rsvdSecCnt + sec) (fun j => s.fatByte (sec * s.bpb.bytsPerSec + j)) 1
      Prog.assert (flushedClus.length < 128) .wild
    let w ← readFat clusno
    if w.toNat > s.bpb.nclus then pure ()
    else fatFlushFrom fuel (if sec ∈ flushedClus then flushedClus else flushedClus ++ [sec]) w.toNat

/-- `fat_flush(f)`. -/
def fatFlush (fuel f : Nat) : FatM Unit := do
  let s ← Prog.get
  if s.fstClus f = 0 then pure () else fatFlushFrom fuel [] (s.fstClus f)

end Mos
