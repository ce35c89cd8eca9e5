import Mos.Kern.Tlbex

/-!
# `kern/env.c` and `kern/sched.c`: environments and the scheduler

Allocation and release of environments, the ELF loader that `env_create` uses
(`lib/elfloader.c`), `env_run` and `schedule`. Functions that switch to another env return to the
model with that env in `curenv`.
-/

namespace Mos

open Lib Prog

/-! ## `env_sched_list` -/

/-- A `struct Env *` as a machine word; `sizeof(struct Env)` is 220. -/
def envAddr (k : Kernel) : Option EnvPtr → Word
  | none => 0
  | some e => k.envsVa + BitVec.ofNat 32 (220 * e.val)

/-- `TAILQ_REMOVE(&env_sched_list, e, env_sched_link)`. -/
def schedRemove (e : EnvPtr) : KernM Unit := do
  let k ← get
  match k.envSchedList.remove e with
  | some q => put { k with envSchedList := q }
  | none =>
    let q := k.envSchedList.unlink e
    put { k with envSchedList := q }
    storeNull (envAddr k (q.next e))

/-- `TAILQ_INSERT_TAIL(&env_sched_list, e, env_sched_link)`. -/
def schedInsertTail (e : EnvPtr) : KernM Unit := do
  let k ← get
  match k.envSchedList.insertTail e with
  | some q => put { k with envSchedList := q }
  | none =>
    put { k with envSchedList := k.envSchedList.linkTail e }
    storeNull (envAddr k (some e))
    modify fun k => { k with envSchedList := { k.envSchedList with last := .next e } }

/-- `TAILQ_INSERT_HEAD(&env_sched_list, e, env_sched_link)`. -/
def schedInsertHead (e : EnvPtr) : KernM Unit :=
  modify fun k => { k with envSchedList := k.envSchedList.insertHead e }

/-! ## ASIDs and env ids -/

/-- `NASID`. -/
def nasid : Nat := 64

/-- The word of `asid_bitmap` that holds ASID `i`: `i >> 5`. -/
def asidIndex (i : Nat) : Fin 2 := ⟨i / 32 % 2, Nat.mod_lt _ (by decide)⟩

/-- The mask of ASID `i` in its word: `1 << (i & 31)`. -/
def asidMask (i : Nat) : Word := 1 <<< (i % 32)

/-- `asid_alloc(&asid)`: the first ASID whose bit is clear. -/
def asidAlloc : KernM Word := do
  let k ← get
  match (List.range nasid).find? fun i => k.asidBitmap (asidIndex i) &&& asidMask i == 0 with
  | none => fail .noFreeEnv
  | some i =>
    let w := k.asidBitmap (asidIndex i) ||| asidMask i
    put { k with asidBitmap := Function.update k.asidBitmap (asidIndex i) w }
    pure (BitVec.ofNat 32 i)

/-- `asid_free(i)`. -/
def asidFree (i : Word) : KernM Unit := modify fun k =>
  let w := k.asidBitmap (asidIndex i.toNat) &&& ~~~(asidMask i.toNat)
  { k with asidBitmap := Function.update k.asidBitmap (asidIndex i.toNat) w }

/-- `mkenvid(e)`. -/
def mkenvid (e : EnvPtr) : KernM Word := do
  let k ← get
  put { k with mkenvidCount := k.mkenvidCount + 1 }
  pure ((k.mkenvidCount + 1) <<< 11 ||| BitVec.ofNat 32 e.val)

/-- `envid2env(envid, &e, checkperm)`. -/
def envid2env (envid : Word) (checkperm : Bool) : KernM EnvPtr := do
  let k ← get
  if envid = 0 then
    match k.curenv with
    | none => halt .noCurenv
    | some c => pure c
  else
    let e := envx envid
    if (k.envs e).envStatus = .free ∨ (k.envs e).envId ≠ envid then fail .badEnv
    else if checkperm then
      match k.curenv with
      | none => halt .noCurenv
      | some c =>
        if e = c ∨ (k.envs e).envParentId = (k.envs c).envId then pure e else fail .badEnv
    else pure e

/-! ## Address spaces -/

/-- `map_segment(pgdir, asid, pa, va, size, perm)`, with `pa` and `size` in pages. The result of
`page_insert` is ignored. -/
def mapSegment (pgdir : Nat) (asid : Word) (pa : Nat) (va : Word) (size : Nat) (perm : Word) :
    KernM Unit :=
  loop (fun i => do
    let pp ← pa2page (page2pa (pa + i))
    let _ ← attempt (pageInsert pgdir asid pp (va + BitVec.ofNat 32 (4096 * i)) perm)) 0 size

/-- The page directory that `env_setup_vm` builds in the frame `p`: the template's entries in
`[UTOP, UVPT)` and the frame itself at `UVPT`. -/
def setupPgdir (p : Nat) (old base : Nat → Word) : Nat → Word := fun i =>
  if i = pdx uvpt then page2pa p ||| pteV
  else if pdx utop ≤ i ∧ i < pdx uvpt then base i
  else old i

/-- `env_setup_vm(e)`. -/
def envSetupVm (e : EnvPtr) : KernM Unit := do
  let p ← pageAlloc
  incref p
  modify fun k => { (k.setEnv e fun v => { v with envPgdir := p }).setFrame p
    (setupPgdir p (k.mem p) (k.mem k.basePgdir)) with pgdirs := p :: k.pgdirs }

/-- `STATUS_IM4 | STATUS_KUp | STATUS_IEp`. -/
def statusUser : Word := 0x1000 ||| 0x8 ||| 0x4

/-- `env_alloc(&e, parent_id)`. -/
def envAlloc (parentId : Word) : KernM EnvPtr := do
  let k ← get
  match k.envFreeList with
  | [] => fail .noFreeEnv
  | e :: _ =>
    envSetupVm e
    modify fun k => k.setEnv e fun v => { v with envUserTlbModEntry := 0, envRuns := 0 }
    let id ← mkenvid e
    modify fun k => k.setEnv e fun v => { v with envId := id }
    let asid ← asidAlloc
    modify fun k => k.setEnv e fun v => { v with
      envAsid := asid
      envParentId := parentId
      envTf := { (v.envTf.setReg 29 (ustacktop - 4 - 4)) with cp0Status := statusUser } }
    -- LIST_REMOVE(e, env_link)
    modify fun k => { k with envFreeList := k.envFreeList.erase e }
    pure e

/-! ## `lib/elfloader.c` and `load_icode` -/

/-- `Elf32_Phdr`, the fields that the loader reads. -/
structure ElfPhdr where
  pType : Word
  pOffset : Word
  pVaddr : Word
  pFilesz : Word
  pMemsz : Word
  pFlags : Word

/-- An ELF image that `elf_from` accepts: the entry point, the program headers and the bytes. -/
structure ElfImage where
  eEntry : Word
  phdrs : List ElfPhdr
  bytes : Nat → BitVec 8

/-- `PT_LOAD`. -/
def ptLoad : Word := 1

/-- `PF_W`. -/
def pfW : Word := 2

/-- Byte `j` of a little-endian word. -/
def byteOf (w : Word) (j : Nat) : BitVec 8 := (w >>> (8 * j)).setWidth 8

/-- The little-endian word of four bytes. -/
def wordOf (b : Nat → BitVec 8) : Word :=
  (b 0).setWidth 32 ||| (b 1).setWidth 32 <<< 8 ||| (b 2).setWidth 32 <<< 16
    ||| (b 3).setWidth 32 <<< 24

/-- `memcpy` of `len` bytes to byte `offset` of a frame. -/
def copyBytes (ws : Nat → Word) (offset len : Nat) (src : Nat → BitVec 8) : Nat → Word := fun i =>
  wordOf fun j =>
    if offset ≤ 4 * i + j ∧ 4 * i + j < offset + len then src (4 * i + j - offset)
    else byteOf (ws i) j

/-- The callback of `elf_load_seg`: address, offset, permission, source bytes if any, length. -/
abbrev ElfMapper := Word → Word → Word → Option (Nat → BitVec 8) → Word → KernM Unit

/-- `MIN(a, b)`. -/
def minWord (a b : Word) : Word := if a ≤ b then a else b

/-- Step 1 of `elf_load_seg`: the pages with file contents. The fuel is the size; every round covers
at least one byte of it. -/
def elfLoadFile (ph : ElfPhdr) (bin : Nat → BitVec 8) (mapPage : ElfMapper) (perm : Word) :
    Nat → Word → KernM Word
  | 0, i => pure i
  | fuel + 1, i =>
    if i < ph.pFilesz then do
      mapPage (ph.pVaddr + i) 0 perm (some fun j => bin (i.toNat + j))
        (minWord (ph.pFilesz - i) by2pg)
      elfLoadFile ph bin mapPage perm fuel (i + by2pg)
    else pure i

/-- Step 2 of `elf_load_seg`: the pages beyond the file contents. -/
def elfLoadZero (ph : ElfPhdr) (mapPage : ElfMapper) (perm : Word) : Nat → Word → KernM Unit
  | 0, _ => pure ()
  | fuel + 1, i =>
    if i < ph.pMemsz then do
      mapPage (ph.pVaddr + i) 0 perm none (minWord (ph.pFilesz - i) by2pg)
      elfLoadZero ph mapPage perm fuel (i + by2pg)
    else pure ()

/-- `elf_load_seg(ph, bin, map_page, data)`. -/
def elfLoadSeg (ph : ElfPhdr) (bin : Nat → BitVec 8) (mapPage : ElfMapper) : KernM Unit := do
  let perm := if has ph.pFlags pfW then pteV ||| pteD else pteV
  let offset := ph.pVaddr - (ph.pVaddr &&& ~~~(by2pg - 1))
  let start := minWord ph.pFilesz (by2pg - offset)
  if offset ≠ 0 then
    mapPage ph.pVaddr offset perm (some bin) start
    let i ← elfLoadFile ph bin mapPage perm ph.pFilesz.toNat start
    elfLoadZero ph mapPage perm ph.pMemsz.toNat i
  else
    let i ← elfLoadFile ph bin mapPage perm ph.pFilesz.toNat 0
    elfLoadZero ph mapPage perm ph.pMemsz.toNat i

/-- `load_icode_mapper`, for the env `e`. -/
def loadIcodeMapper (e : EnvPtr) : ElfMapper := fun va offset perm src len => do
  let p ← pageAlloc
  match src with
  | none => pure ()
  | some b => modify fun k => k.setFrame p (copyBytes (k.mem p) offset.toNat len.toNat b)
  let k ← get
  pageInsert (k.envs e).envPgdir (k.envs e).envAsid p va perm

/-- The loop of `load_icode` over the program headers. -/
def loadPhdrs (e : EnvPtr) (img : ElfImage) : List ElfPhdr → KernM Unit
  | [] => pure ()
  | ph :: rest => do
    if ph.pType = ptLoad then
      panicOn (elfLoadSeg ph (fun j => img.bytes (ph.pOffset.toNat + j)) (loadIcodeMapper e))
    else pure ()
    loadPhdrs e img rest

/-- `load_icode(e, binary, size)`; `none` is a binary that `elf_from` rejects. -/
def loadIcode (e : EnvPtr) (binary : Option ElfImage) : KernM Unit := do
  match binary with
  | none => halt .badElf
  | some img =>
    loadPhdrs e img img.phdrs
    modify fun k => k.setEnv e fun v =>
      { v with envTf := { v.envTf with cp0Epc := img.eEntry } }

/-- `env_create(binary, size, priority)`. When `env_alloc` fails, `e` is used uninitialised. -/
def envCreate (binary : Option ElfImage) (priority : Word) : KernM EnvPtr := do
  match ← attempt (envAlloc 0) with
  | .error _ => halt .uninitialised
  | .ok e =>
    modify fun k => k.setEnv e fun v => { v with envPri := priority, envStatus := .runnable }
    loadIcode e binary
    schedInsertHead e
    pure e

/-! ## Release -/

/-- The body of the inner loop of `env_free`: unmaps the page at `(pdeno, pteno)`. -/
def envFreePte (pgdir : Nat) (asid : Word) (pt pdeno pteno : Nat) : KernM Unit := do
  let pte ← readWord pt pteno
  if has pte pteV then
    pageRemove pgdir asid (BitVec.ofNat 32 pdeno <<< 22 ||| BitVec.ofNat 32 pteno <<< 12)
  else pure ()

/-- The body of the outer loop of `env_free`: releases the page table `pdeno`. -/
def envFreePde (pgdir : Nat) (asid : Word) (pdeno : Nat) : KernM Unit := do
  let pde ← readWord pgdir pdeno
  if has pde pteV then
    let pt ← kaddr (ppn (pteAddr pde))
    loop (envFreePte pgdir asid pt pdeno) 0 1024
    writeWord pgdir pdeno 0
    let pp ← pa2page (pteAddr pde)
    pageDecref pp
    tlbInvalidate asid (uvpt + BitVec.ofNat 32 pdeno <<< 12)
  else pure ()

/-- `env_free(e)`. -/
def envFree (e : EnvPtr) : KernM Unit := do
  let k ← get
  let pgdir := (k.envs e).envPgdir
  let asid := (k.envs e).envAsid
  loop (envFreePde pgdir asid) 0 (pdx utop)
  let pp ← pa2page (page2pa pgdir)
  pageDecref pp
  asidFree asid
  tlbInvalidate asid (uvpt + BitVec.ofNat 32 (pdx uvpt) <<< 12)
  modify fun k => k.setEnv e fun v => { v with envStatus := .free }
  modify fun k => { k with envFreeList := e :: k.envFreeList }
  schedRemove e

/-! ## Running -/

/-- `env_run(e)`. -/
def envRun (e : EnvPtr) : KernM Unit := do
  let k ← get
  assert ((k.envs e).envStatus = .runnable) .envRunAssert
  match k.curenv with
  | none => pure ()
  | some c => put (k.setEnv c fun v => { v with envTf := k.kstackTf })
  modify fun k => { k.setEnv e fun v => { v with envRuns := v.envRuns + 1 } with
    curenv := some e, curPgdir := (k.envs e).envPgdir }

/-- Picks the first env of `env_sched_list` and runs it. An empty list is a null pointer, which
`schedule` dereferences. -/
def schedulePick : KernM Unit := do
  let k ← get
  match k.envSchedList.first with
  | none => halt .scheduleNull
  | some e =>
    put { k with schedCount := (k.envs e).envPri.toInt }
    envRun e

/-- `schedule(yield)`. -/
def schedule (yield : Bool) : KernM Unit := do
  modify fun k => { k with schedCount := k.schedCount - 1 }
  let k ← get
  match k.curenv with
  | none => schedulePick
  | some e =>
    if (k.envs e).envStatus ≠ .runnable then schedulePick
    else if yield ∨ k.schedCount ≤ 0 then
      schedRemove e
      schedInsertTail e
      schedulePick
    else envRun e

/-- `env_destroy(e)`. -/
def envDestroy (e : EnvPtr) : KernM Bool := do
  envFree e
  let k ← get
  if k.curenv = some e then
    put { k with curenv := none }
    schedule true
    pure true
  else pure false

end Mos
