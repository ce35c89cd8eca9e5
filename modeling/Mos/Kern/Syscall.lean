import Mathlib.Logic.Relation
import Mos.Kern.Env

/-!
# `kern/syscall_all.c`, the boot sequence and the kernel as a transition system

The system calls that manage memory, environments and messages. A call either hands a value back to
the caller or leaves the caller's context for good (`SysRet.switched`), as `schedule` does.

`Op` lists what can happen to a booted kernel: a system call of the current env, a timer interrupt,
a TLB refill, the creation of an env. A run is a sequence of operations that come back, with a
value or with an error; it ends at a panic.
-/

namespace Mos

open Lib Prog

/-! ## System calls -/

/-- What a system call does with its caller. -/
inductive SysRet where
  | value (r : Word)
  | switched

/-- `curenv`, where the kernel dereferences it. -/
def curenvPtr : KernM EnvPtr := do
  let k ← get
  match k.curenv with
  | none => halt .noCurenv
  | some c => pure c

/-- `is_illegal_va(va)`. -/
def isIllegalVa (va : Word) : Bool := va < utemp || utop ≤ va

/-- `sys_yield()`. -/
def sysYield : KernM SysRet := do
  schedule true
  pure .switched

/-- `sys_env_destroy(envid)`. -/
def sysEnvDestroy (envid : Word) : KernM SysRet := do
  let e ← envid2env envid true
  if ← envDestroy e then pure .switched else pure (.value 0)

/-- `sys_set_tlb_mod_entry(envid, func)`. -/
def sysSetTlbModEntry (envid func : Word) : KernM SysRet := do
  let e ← envid2env envid true
  modify fun k => k.setEnv e fun v => { v with envUserTlbModEntry := func }
  pure (.value 0)

/-- `sys_mem_alloc(envid, va, perm)`. -/
def sysMemAlloc (envid va perm : Word) : KernM SysRet := do
  if isIllegalVa va then fail .inval
  else
    let e ← envid2env envid true
    let pp ← pageAlloc
    let k ← get
    pageInsert (k.envs e).envPgdir (k.envs e).envAsid pp va perm
    pure (.value 0)

/-- `sys_mem_map(srcid, srcva, dstid, dstva, perm)`. -/
def sysMemMap (srcid srcva dstid dstva perm : Word) : KernM SysRet := do
  if isIllegalVa srcva || isIllegalVa dstva then fail .inval
  else
    let src ← envid2env srcid true
    let dst ← envid2env dstid true
    let k ← get
    match ← pageLookup (k.envs src).envPgdir srcva with
    | none => fail .inval
    | some (pp, _, _) =>
      pageInsert (k.envs dst).envPgdir (k.envs dst).envAsid pp dstva perm
      pure (.value 0)

/-- `sys_mem_unmap(envid, va)`. -/
def sysMemUnmap (envid va : Word) : KernM SysRet := do
  if isIllegalVa va then fail .inval
  else
    let e ← envid2env envid true
    let k ← get
    pageRemove (k.envs e).envPgdir (k.envs e).envAsid va
    pure (.value 0)

/-- `sys_exofork()`. -/
def sysExofork : KernM SysRet := do
  let c ← curenvPtr
  let k ← get
  let e ← envAlloc (k.envs c).envId
  modify fun k => k.setEnv e fun v => { v with
    envTf := k.kstackTf.setReg 2 0
    envStatus := .notRunnable
    envPri := (k.envs c).envPri }
  let k ← get
  pure (.value (k.envs e).envId)

/-- The `status` argument of `sys_set_env_status`. -/
def statusArg (status : Word) : Option Status :=
  if status = 1 then some .runnable else if status = 2 then some .notRunnable else none

/-- `sys_set_env_status(envid, status)`. -/
def sysSetEnvStatus (envid status : Word) : KernM SysRet := do
  match statusArg status with
  | none => fail .inval
  | some st =>
    let e ← envid2env envid true
    let k ← get
    if (k.envs e).envStatus = .runnable ∧ st = .notRunnable then schedRemove e
    else if (k.envs e).envStatus = .notRunnable ∧ st = .runnable then schedInsertTail e
    else pure ()
    modify fun k => k.setEnv e fun v => { v with envStatus := st }
    pure (.value 0)

/-- `is_illegal_va_range(va, len)`. -/
def isIllegalVaRange (va len : Word) : Bool :=
  len != 0 && (va + len < va || va < utemp || utop < va + len)

/-- `struct Trapframe`, as it lies in memory. -/
def trapframeOf (ws : List Word) : Trapframe :=
  { regs := fun r => ws.getD r 0, cp0Status := ws.getD 32 0, hi := ws.getD 33 0, lo := ws.getD 34 0,
    cp0Badvaddr := ws.getD 35 0, cp0Cause := ws.getD 36 0, cp0Epc := ws.getD 37 0 }

/-- `sys_set_trapframe(envid, tf)`, where `sizeof *tf` is 152. -/
def sysSetTrapframe (envid tf : Word) : KernM SysRet := do
  if isIllegalVaRange tf 152 then fail .inval
  else
    let e ← envid2env envid true
    let c ← curenvPtr
    let k ← get
    let ws ← loadUserWords (k.envs c).envAsid tf 38
    if e = c then
      modify fun k => { k with kstackTf := trapframeOf ws }
      pure (.value ((trapframeOf ws).regs 2))
    else
      modify fun k => k.setEnv e fun v => { v with envTf := trapframeOf ws }
      pure (.value 0)

/-- `sys_ipc_recv(dstva)`. -/
def sysIpcRecv (dstva : Word) : KernM SysRet := do
  if dstva ≠ 0 ∧ isIllegalVa dstva then fail .inval
  else
    let c ← curenvPtr
    modify fun k => k.setEnv c fun v => { v with
      envIpcRecving := 1
      envIpcDstva := dstva
      envStatus := .notRunnable }
    schedRemove c
    modify fun k => { k with kstackTf := k.kstackTf.setReg 2 0 }
    schedule true
    pure .switched

/-- Step 6 of `sys_ipc_try_send`: the page transfer. The result of `page_insert` is ignored. -/
def ipcMapPage (c e : EnvPtr) (srcva perm : Word) : KernM SysRet := do
  let k ← get
  match ← pageLookup (k.envs c).envPgdir srcva with
  | none => fail .inval
  | some (p, _, _) =>
    let _ ← attempt (pageInsert (k.envs e).envPgdir (k.envs e).envAsid p (k.envs e).envIpcDstva perm)
    pure (.value 0)

/-- `sys_ipc_try_send(envid, value, srcva, perm)`. -/
def sysIpcTrySend (envid value srcva perm : Word) : KernM SysRet := do
  if srcva ≠ 0 ∧ isIllegalVa srcva then fail .inval
  else
    let e ← envid2env envid false
    let k ← get
    if (k.envs e).envIpcRecving = 0 then fail .ipcNotRecv
    else
      let c ← curenvPtr
      modify fun k => k.setEnv e fun v => { v with
        envIpcValue := value
        envIpcFrom := (k.envs c).envId
        envIpcPerm := pteV ||| perm
        envIpcRecving := 0
        envStatus := .runnable }
      schedInsertTail e
      if srcva ≠ 0 then ipcMapPage c e srcva perm else pure (.value 0)

/-! ## Boot -/

/-- What the boot sequence finds: the number of frames, how many of them the kernel image and
`pages` take up, where `pages` and `envs` lie, and the contents of the memory. `memsize` is a
`u_int`, so `npage` is below 2^20; the linker puts `envs` into the kernel image and `alloc` puts
`pages` right after it. -/
structure Boot where
  npage : Nat
  freemem : Nat
  pagesPa : Nat
  envsPa : Nat
  mem : Nat → Nat → Word
  npage_lt : npage < 2 ^ 20
  pages_fit : pagesPa + (npage * 12 + 4095) / 4096 ≤ freemem
  envs_fit : envsPa + (nenv * 220 + 4095) / 4096 ≤ freemem

/-- The state after `page_init`. The other globals are in the zeroed data section. -/
def pageInit (b : Boot) : Kernel :=
  { npage := b.npage
    envsVa := ulim + page2pa b.envsPa
    mem := b.mem
    ppRef := fun i => if i < b.freemem then 1 else 0
    pageFreeList := pageInitLoop b.freemem b.npage
    envs := fun _ => .zero
    envFreeList := []
    envSchedList := { first := none, last := .null, next := fun _ => none, prev := fun _ => .null }
    curenv := none
    curPgdir := 0
    basePgdir := 0
    asidBitmap := fun _ => 0
    mkenvidCount := 0
    schedCount := 0
    kstackTf := .zero
    tlb := []
    pgdirs := [] }

/-- `env_init()`. -/
def envInit (b : Boot) : KernM Unit := do
  -- TAILQ_INIT sets the head only; the links are still zero
  modify fun k => { k with
    envFreeList := List.finRange nenv
    envSchedList := { k.envSchedList with first := none, last := .head }
    envs := fun e => { k.envs e with envStatus := .free } }
  let p ← panicOn pageAlloc
  incref p
  modify fun k => { k with basePgdir := p }
  mapSegment p 0 b.pagesPa upages ((b.npage * 12 + 4095) / 4096) pteG
  mapSegment p 0 b.envsPa uenvs ((nenv * 220 + 4095) / 4096) pteG

/-- The kernel after `mips_vm_init`, `page_init` and `env_init`. -/
def boot (b : Boot) : Outcome Kernel Err Panic Unit := envInit b (pageInit b)

/-! ## Runs -/

/-- A store of the current env in user mode, to one of its pages that are mapped with `PTE_D`. All
other stores go through a TLB refill or to the env's own handler first. -/
def storeUser (va w : Word) : KernM Unit := do
  let c ← curenvPtr
  let k ← get
  if va < utop then
    match ← pageLookup (k.envs c).envPgdir va with
    | none => pure ()
    | some (pp, pt, i) =>
      let pte ← readWord pt i
      if has pte pteD then writeWord pp (wordIndex va) w else pure ()
  else pure ()

/-- What can happen to the kernel. -/
inductive Op where
  | envCreate (binary : Option ElfImage) (priority : Word)
  | timer
  | yield
  | tlbRefill (va asid : Word)
  | memAlloc (envid va perm : Word)
  | memMap (srcid srcva dstid dstva perm : Word)
  | memUnmap (envid va : Word)
  | exofork
  | setEnvStatus (envid status : Word)
  | setTlbModEntry (envid func : Word)
  | envDestroy (envid : Word)
  | ipcRecv (dstva : Word)
  | ipcTrySend (envid value srcva perm : Word)
  | setTrapframe (envid tf : Word)
  /-- The current env runs in user mode and traps with these registers. -/
  | trap (tf : Trapframe)
  /-- The current env stores a word in user mode. -/
  | store (va w : Word)

/-- One operation. -/
def exec : Op → KernM Unit
  | .envCreate b p => do let _ ← envCreate b p
  | .timer => schedule false
  | .yield => do let _ ← sysYield
  | .tlbRefill va asid => tlbRefill va asid
  | .memAlloc e va p => do let _ ← sysMemAlloc e va p
  | .memMap s sv d dv p => do let _ ← sysMemMap s sv d dv p
  | .memUnmap e va => do let _ ← sysMemUnmap e va
  | .exofork => do let _ ← sysExofork
  | .setEnvStatus e st => do let _ ← sysSetEnvStatus e st
  | .setTlbModEntry e f => do let _ ← sysSetTlbModEntry e f
  | .envDestroy e => do let _ ← sysEnvDestroy e
  | .ipcRecv va => do let _ ← sysIpcRecv va
  | .ipcTrySend e v s p => do let _ ← sysIpcTrySend e v s p
  | .setTrapframe e tf => do let _ ← sysSetTrapframe e tf
  | .trap tf => modify fun k => { k with kstackTf := tf }
  | .store va w => storeUser va w

/-- One step of a run: an operation that comes back. -/
def Step (op : Op) (k k' : Kernel) : Prop := (exec op k).state? = some k'

/-- Performs operations one after the other. -/
def runOps : List Op → Kernel → Option Kernel
  | [], k => some k
  | op :: ops, k => (exec op k).state?.bind (runOps ops)

theorem step_of_ret {α : Type} {m : KernM α} {a : α} {k k' : Kernel} (h : m k = .ret a k') :
    ((m >>= fun _ => pure ()) k).state? = some k' := by
  rw [bind_ret h]
  rfl

theorem runOps_cons {op : Op} {ops : List Op} {k k' : Kernel} (h : runOps (op :: ops) k = some k') :
    ∃ k₁, Step op k k₁ ∧ runOps ops k₁ = some k' :=
  Option.bind_eq_some_iff.mp h

/-! ## A small machine -/

/-- 200 frames, the first 60 of which the kernel takes up. -/
def smallBoot : Boot :=
  { npage := 200, freemem := 60, pagesPa := 57, envsPa := 1, mem := fun _ _ => 0
    npage_lt := by decide, pages_fit := by decide, envs_fit := by decide }

/-- A program without segments. -/
def emptyImage : ElfImage := { eEntry := utext, phdrs := [], bytes := fun _ => 0 }

end Mos
