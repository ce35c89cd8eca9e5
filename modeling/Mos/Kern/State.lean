import Mathlib.Algebra.Group.Nat.Defs
import Mathlib.Data.Fintype.Basic
import Mos.Lib.Prog
import Mos.Lib.TailQueue

/-!
# The kernel's data

`include/mmu.h`, `include/error.h`, `include/trap.h`, `include/env.h` and the global variables of
`kern/pmap.c`, `kern/env.c` and `kern/sched.c`.

Physical memory is a family of frames of 1024 words; a kernel pointer to a frame is the frame's
number, and a `Pte *` is a frame number with a word index. `struct Page *` is the frame number too.
`page_free_list` and `env_free_list` are lists; `env_sched_list` keeps its links (`Lib.TailQ`),
because the kernel also removes envs from it that are not on it.
-/

namespace Mos

open Lib

/-- `u_int`, `u_long`, `Pde`, `Pte` and user pointers: 32 bits. -/
abbrev Word := BitVec 32

/-- `u_char`: 8 bits. -/
abbrev Byte := BitVec 8

/-! ## `include/mmu.h` -/

/-- `BY2PG`. -/
def by2pg : Word := 4096
/-- `PDMAP`: bytes mapped by a page directory entry. -/
def pdmap : Word := 4 * 1024 * 1024
/-- `ULIM`. -/
def ulim : Word := 0x80000000
/-- `UVPT`. -/
def uvpt : Word := ulim - pdmap
/-- `UPAGES`. -/
def upages : Word := uvpt - pdmap
/-- `UENVS`. -/
def uenvs : Word := upages - pdmap
/-- `UTOP`. -/
def utop : Word := uenvs
/-- `USTACKTOP`. -/
def ustacktop : Word := utop - 2 * by2pg
/-- `UTEXT`. -/
def utext : Word := pdmap
/-- `UCOW`. -/
def ucow : Word := utext - by2pg
/-- `UTEMP`. -/
def utemp : Word := ucow - by2pg

/-- `PTE_G`. -/
def pteG : Word := 0x0100
/-- `PTE_V`. -/
def pteV : Word := 0x0200
/-- `PTE_D`. -/
def pteD : Word := 0x0400
/-- `PTE_COW`. -/
def pteCow : Word := 0x0001
/-- `PTE_LIBRARY`. -/
def pteLibrary : Word := 0x0004

/-- `PDX(va)`. -/
def pdx (va : Word) : Nat := (va >>> 22 &&& 0x3ff).toNat

/-- `PTX(va)`. -/
def ptx (va : Word) : Nat := (va >>> 12 &&& 0x3ff).toNat

/-- `PPN(va)`, also `VPN(va)`. -/
def ppn (va : Word) : Nat := (va >>> 12).toNat

/-- `PTE_ADDR(pte)`. -/
def pteAddr (pte : Word) : Word := pte &&& ~~~0xfff

/-- `pte & PTE_V` and the like, as C tests it. -/
def has (pte flag : Word) : Bool := pte &&& flag != 0

/-- `page2pa(pp)`. -/
def page2pa (pp : Nat) : Word := BitVec.ofNat 32 pp <<< 12

/-! ## `include/error.h` -/

/-- The error codes; a function that "returns `-E_X`" fails with `Err.x`. -/
inductive Err where
  | unspecified
  | badEnv
  | inval
  | noMem
  | noSys
  | noFreeEnv
  | ipcNotRecv
  | noDisk
  | maxOpen
  | notFound
  | badPath
  | fileExists
  | notExec
deriving DecidableEq

/-- Why the kernel stops: the calls of `panic`, the failed assertions, and the accesses that the
exception handlers answer with a panic. -/
inductive Panic where
  | kaddr
  | pa2page
  | pageFreeAssert
  | pageDecrefAssert
  | addressTooLow
  | invalidMemory
  | envsZone
  | pagesZone
  | kernelAddress
  | panicOn
  | tlbModInKernel
  | badElf
  | uninitialised
  | envRunAssert
  | scheduleNull
  | noCurenv
  | refillLoop
  /-- `SYS_panic`: the user asks for it. -/
  | userPanic
  /-- `do_reserved`: an exception without a handler, such as an unaligned access. -/
  | reserved
deriving DecidableEq

/-! ## Environments -/

-- The numbers of registers and of envs are literals; one instance serves all of them.
instance neZeroRegs : @NeZero Nat Zero.ofOfNat0 32 := ⟨by decide⟩

/-- `struct Trapframe`. -/
structure Trapframe where
  regs : Fin 32 → Word
  cp0Status : Word
  hi : Word
  lo : Word
  cp0Badvaddr : Word
  cp0Cause : Word
  cp0Epc : Word

/-- A zeroed trap frame. -/
def Trapframe.zero : Trapframe :=
  { regs := fun _ => 0, cp0Status := 0, hi := 0, lo := 0, cp0Badvaddr := 0, cp0Cause := 0,
    cp0Epc := 0 }

/-- Writes one general register. -/
def Trapframe.setReg (tf : Trapframe) (r : Fin 32) (w : Word) : Trapframe :=
  { tf with regs := Function.update tf.regs r w }

/-- `ENV_FREE`, `ENV_RUNNABLE`, `ENV_NOT_RUNNABLE`. -/
inductive Status where
  | free
  | runnable
  | notRunnable
deriving DecidableEq

/-- `NENV`. -/
abbrev nenv : Nat := 1024

/-- An index into `envs`: a `struct Env *`. -/
abbrev EnvPtr := Fin nenv

instance neZeroNenv : @NeZero Nat Zero.ofOfNat0 nenv := ⟨by decide⟩

/-- `struct Env`, without the list links, which the lists hold. `envPgdir` is a frame number. -/
structure Env where
  envTf : Trapframe
  envId : Word
  envAsid : Word
  envParentId : Word
  envStatus : Status
  envPgdir : Nat
  envPri : Word
  envIpcValue : Word
  envIpcFrom : Word
  envIpcRecving : Word
  envIpcDstva : Word
  envIpcPerm : Word
  envUserTlbModEntry : Word
  envRuns : Word

/-- An entry of `envs` in zeroed memory. -/
def Env.zero : Env :=
  { envTf := .zero, envId := 0, envAsid := 0, envParentId := 0, envStatus := .free, envPgdir := 0,
    envPri := 0, envIpcValue := 0, envIpcFrom := 0, envIpcRecving := 0, envIpcDstva := 0,
    envIpcPerm := 0, envUserTlbModEntry := 0, envRuns := 0 }

/-- `ENVX(envid)`. -/
def envx (envid : Word) : EnvPtr := ⟨(envid &&& 0x3ff).toNat, by
  rw [BitVec.toNat_and]
  exact Nat.lt_of_le_of_lt Nat.and_le_right (by decide)⟩

/-- A TLB entry: EntryHi (page number and ASID) and EntryLo (a page table entry). -/
structure TlbEntry where
  hi : Word
  lo : Word
deriving DecidableEq

/-! ## The kernel state -/

/-- The kernel's global variables, the physical memory and the TLB. -/
structure Kernel where
  /-- `npage`. -/
  npage : Nat
  /-- The kernel address of `envs`. -/
  envsVa : Word
  /-- Physical memory: frame, then word. -/
  mem : Nat → Nat → Word
  /-- `pages[i].pp_ref`, a `u_short`. -/
  ppRef : Nat → BitVec 16
  pageFreeList : List Nat
  envs : EnvPtr → Env
  envFreeList : List EnvPtr
  /-- `env_sched_list`, with the `env_sched_link` of every env. -/
  envSchedList : TailQ EnvPtr
  curenv : Option EnvPtr
  curPgdir : Nat
  basePgdir : Nat
  /-- `asid_bitmap`, two words. -/
  asidBitmap : Fin 2 → Word
  /-- The static counter of `mkenvid`. -/
  mkenvidCount : Word
  /-- The static `count` of `schedule`. -/
  schedCount : Int
  /-- The trap frame below `KSTACKTOP`. -/
  kstackTf : Trapframe
  tlb : List TlbEntry
  /-- History variable, read by no function: the frames that `env_setup_vm` took as page
  directories and that have not been freed since. -/
  pgdirs : List Nat

/-- Kernel functions. -/
abbrev KernM := Prog Kernel Err Panic

namespace Kernel

/-- Writes a word of physical memory. -/
def setWord (k : Kernel) (f i : Nat) (w : Word) : Kernel :=
  { k with mem := Function.update k.mem f (Function.update (k.mem f) i w) }

/-- Replaces the contents of a frame. -/
def setFrame (k : Kernel) (f : Nat) (ws : Nat → Word) : Kernel :=
  { k with mem := Function.update k.mem f ws }

/-- Sets a reference count. -/
def setRef (k : Kernel) (f : Nat) (n : BitVec 16) : Kernel :=
  { k with ppRef := Function.update k.ppRef f n }

/-- Changes one `struct Env`. -/
def setEnv (k : Kernel) (e : EnvPtr) (f : Env → Env) : Kernel :=
  { k with envs := Function.update k.envs e (f (k.envs e)) }

/-- An env that is in use. -/
def Live (k : Kernel) (e : EnvPtr) : Prop := (k.envs e).envStatus ≠ .free

instance (k : Kernel) (e : EnvPtr) : Decidable (k.Live e) :=
  inferInstanceAs (Decidable ((k.envs e).envStatus ≠ .free))

end Kernel

end Mos
