import Mos.Kern.Syscall

/-!
# `do_syscall`: how a request of an env is served

The rest of `kern/syscall_all.c`: the system calls for the console and the devices, the table of all
calls, and `do_syscall`, which fetches two of the five arguments from the user's stack before it
looks at anything else. The kernel reads and writes user addresses as they are: a page that is not
there is mapped on demand, and where that is refused the kernel panics.
-/

namespace Mos

open Lib Prog

/-! ## Memory as the kernel sees it -/

/-- `KSEG0`. -/
def kseg0 : Word := 0x80000000
/-- `KSEG1`. -/
def kseg1 : Word := 0xa0000000
/-- The end of `KSEG1`: from here on addresses are translated again. -/
def kseg2 : Word := 0xc0000000

/-- The test for a device address in `sys_write_dev` and `sys_read_dev`. -/
def isDevRange (pa len : Word) : Bool :=
  decide (0x10000000 ≤ pa ∧ pa + len ≤ 0x10000020) ||
    decide (0x13000000 ≤ pa ∧ pa + len ≤ 0x13004200) ||
    decide (0x15000000 ≤ pa ∧ pa + len ≤ 0x15000200)

/-- The physical addresses of the console, the disk and the clock. -/
def isDevice (pa : Word) : Bool :=
  decide (0x10000000 ≤ pa ∧ pa < 0x10000020) ||
    decide (0x13000000 ≤ pa ∧ pa < 0x13004200) ||
    decide (0x15000000 ≤ pa ∧ pa < 0x15000200)

/-- What the kernel finds outside its memory: the character that `scancharc` delivers in the end, the
bytes of the devices, and what `sys_putchar`, which returns nothing, leaves in `$v0`. -/
structure Io where
  scancharc : Word
  device : Word → Byte
  junk : Word

/-- The physical address behind an address of `KSEG0` or `KSEG1`. -/
def physical (va : Word) : Word := va &&& 0x1fffffff

/-- Replaces byte `j` of a word. -/
def setByte (w : Word) (j : Nat) (b : Byte) : Word := wordOf fun i => if i = j then b else byteOf w i

/-- The position of a byte in its word. -/
def byteIndex (va : Word) : Nat := (va &&& 3).toNat

/-- A TLB miss at a user address, with the refill that follows it. -/
def touchUser (va asid : Word) : KernM Word := do
  let pte ← doTlbRefill va asid
  modify fun k => { k with tlb := { hi := pteAddr va ||| asid <<< 6, lo := pte } :: k.tlb }
  pure pte

/-- A load of one byte. Where there is neither a device nor memory the bus reports an error, which
has no handler. -/
def loadByte (io : Io) (asid va : Word) : KernM Byte := do
  if kseg0 ≤ va ∧ va < kseg2 then
    let k ← get
    if isDevice (physical va) then pure (io.device (physical va))
    else if ppn (physical va) < k.npage then
      pure (byteOf (k.mem (ppn (physical va)) (wordIndex va)) (byteIndex va))
    else halt .reserved
  else
    let pte ← touchUser va asid
    let w ← readWord (ppn pte) (wordIndex va)
    pure (byteOf w (byteIndex va))

/-- A store of one byte. A store to a page without `PTE_D` is a TLB Mod exception in the kernel. -/
def storeByte (asid va : Word) (b : Byte) : KernM Unit := do
  if kseg0 ≤ va ∧ va < kseg2 then
    let k ← get
    if isDevice (physical va) then pure ()
    else if ppn (physical va) < k.npage then
      writeWord (ppn (physical va)) (wordIndex va)
        (setByte (k.mem (ppn (physical va)) (wordIndex va)) (byteIndex va) b)
    else halt .reserved
  else
    let pte ← touchUser va asid
    if has pte pteD then
      let w ← readWord (ppn pte) (wordIndex va)
      writeWord (ppn pte) (wordIndex va) (setByte w (byteIndex va) b)
    else halt .tlbModInKernel

/-- A load of one word. -/
def loadWord (io : Io) (asid va : Word) : KernM Word := do
  if kseg0 ≤ va ∧ va < kseg2 then
    if va &&& 3 ≠ 0 then halt .reserved
    else
      let k ← get
      if isDevice (physical va) then
        pure (wordOf fun j => io.device (physical va + BitVec.ofNat 32 j))
      else if ppn (physical va) < k.npage then
        pure (k.mem (ppn (physical va)) (wordIndex va))
      else halt .reserved
  else loadUser va asid

/-- `memcpy(dst, src, n)`, byte by byte. The end of the destination is computed with the addresses,
so a destination that wraps around is empty. -/
def memcpy (io : Io) (asid dst src n : Word) : KernM Unit :=
  if dst + n < dst then pure ()
  else loop (fun i => do
    let b ← loadByte io asid (src + BitVec.ofNat 32 i)
    storeByte asid (dst + BitVec.ofNat 32 i) b) 0 n.toNat

/-! ## System calls -/

/-- `sys_putchar(c)`. -/
def sysPutchar (io : Io) : KernM SysRet := pure (.value io.junk)

/-- `sys_print_cons(s, num)`. -/
def sysPrintCons (io : Io) (s num : Word) : KernM SysRet := do
  if utop < s + num ∨ utop ≤ s ∨ s + num < s then fail .inval
  else
    let c ← curenvPtr
    let k ← get
    loop (fun i => do
      let _ ← loadByte io (k.envs c).envAsid (s + BitVec.ofNat 32 i)) 0 num.toNat
    pure (.value 0)

/-- `sys_getenvid()`. -/
def sysGetenvid : KernM SysRet := do
  let c ← curenvPtr
  let k ← get
  pure (.value (k.envs c).envId)

/-- `sys_cgetc()`, once there is a character. -/
def sysCgetc (io : Io) : KernM SysRet := pure (.value io.scancharc)

/-- `sys_write_dev(va, pa, len)`. -/
def sysWriteDev (io : Io) (va pa len : Word) : KernM SysRet := do
  if isIllegalVaRange va len then fail .inval
  else if !isDevRange pa len then fail .inval
  else
    let c ← curenvPtr
    let k ← get
    memcpy io (k.envs c).envAsid (pa + kseg1) va len
    pure (.value 0)

/-- `sys_read_dev(va, pa, len)`. -/
def sysReadDev (io : Io) (va pa len : Word) : KernM SysRet := do
  if isIllegalVaRange va len then fail .inval
  else if !isDevRange pa len then fail .inval
  else
    let c ← curenvPtr
    let k ← get
    memcpy io (k.envs c).envAsid va (pa + kseg1) len
    pure (.value 0)

/-! ## Dispatch -/

/-- The system call numbers. -/
inductive Sysno where
  | putchar
  | printCons
  | getenvid
  | yield
  | envDestroy
  | setTlbModEntry
  | memAlloc
  | memMap
  | memUnmap
  | exofork
  | setEnvStatus
  | setTrapframe
  | panic
  | ipcTrySend
  | ipcRecv
  | cgetc
  | writeDev
  | readDev
deriving DecidableEq

/-- The numbers in their order; there are `MAX_SYSNO` of them. -/
def sysnos : List Sysno :=
  [.putchar, .printCons, .getenvid, .yield, .envDestroy, .setTlbModEntry, .memAlloc, .memMap,
    .memUnmap, .exofork, .setEnvStatus, .setTrapframe, .panic, .ipcTrySend, .ipcRecv, .cgetc,
    .writeDev, .readDev]

/-- The call with a number; the test `sysno < 0 || sysno >= MAX_SYSNO`. -/
def sysnoOf (w : Word) : Option Sysno := sysnos[w.toNat]?

/-- `syscall_table`. -/
def syscallTable (io : Io) (a₁ a₂ a₃ a₄ a₅ : Word) : Sysno → KernM SysRet
  | .putchar => sysPutchar io
  | .printCons => sysPrintCons io a₁ a₂
  | .getenvid => sysGetenvid
  | .yield => sysYield
  | .envDestroy => sysEnvDestroy a₁
  | .setTlbModEntry => sysSetTlbModEntry a₁ a₂
  | .memAlloc => sysMemAlloc a₁ a₂ a₃
  | .memMap => sysMemMap a₁ a₂ a₃ a₄ a₅
  | .memUnmap => sysMemUnmap a₁ a₂
  | .exofork => sysExofork
  | .setEnvStatus => sysSetEnvStatus a₁ a₂
  | .setTrapframe => sysSetTrapframe a₁ a₂
  | .panic => halt .userPanic
  | .ipcTrySend => sysIpcTrySend a₁ a₂ a₃ a₄
  | .ipcRecv => sysIpcRecv a₁
  | .cgetc => sysCgetc io
  | .writeDev => sysWriteDev io a₁ a₂ a₃
  | .readDev => sysReadDev io a₁ a₂ a₃

/-- The value of an error code, negated as functions return it. -/
def Err.code : Err → Word
  | .unspecified => -1
  | .badEnv => -2
  | .inval => -3
  | .noMem => -4
  | .noSys => -5
  | .noFreeEnv => -6
  | .ipcNotRecv => -7
  | .noDisk => -8
  | .maxOpen => -9
  | .notFound => -10
  | .badPath => -11
  | .fileExists => -12
  | .notExec => -13

/-- `tf->regs[2] = r`. -/
def setResult (r : Word) : KernM Unit := modify fun k => { k with kstackTf := k.kstackTf.setReg 2 r }

/-- `do_syscall(tf)`, on the trap frame below `KSTACKTOP`. -/
def doSyscall (io : Io) : KernM SysRet := do
  let k ← get
  let tf := k.kstackTf
  match sysnoOf (tf.regs 4) with
  | none =>
    setResult Err.noSys.code
    pure (.value Err.noSys.code)
  | some sysno =>
    let c ← curenvPtr
    modify fun k => { k with kstackTf := { k.kstackTf with cp0Epc := k.kstackTf.cp0Epc + 4 } }
    let arg₄ ← loadWord io (k.envs c).envAsid (tf.regs 29 + 16)
    let arg₅ ← loadWord io (k.envs c).envAsid (tf.regs 29 + 20)
    match ← attempt (syscallTable io (tf.regs 5) (tf.regs 6) (tf.regs 7) arg₄ arg₅ sysno) with
    | .ok .switched => pure .switched
    | .ok (.value r) =>
      setResult r
      pure (.value r)
    | .error e =>
      setResult e.code
      pure (.value e.code)

end Mos
