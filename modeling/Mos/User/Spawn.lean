import Mathlib.Data.List.GetD
import Mos.Lib.Endian
import Mos.Kern.Bits

/-!
# The arguments of a new process

`init_stack` of `user/lib/spawn.c` lays out the strings of `argv`, the pointers to them, and `argc` and `argv`
themselves in a page at `UTEMP`, from its end downwards, with the addresses that they will have in the child. Then it
maps the page below the child's `USTACKTOP`.
-/

namespace Mos

open Lib Prog Function

namespace Spawn

/-! ## `user/lib/spawn.c` -/

/-- What `init_stack` works on, and how the kernel will answer. -/
structure Launch where
  /-- The caller's page at `UTEMP`. -/
  temp : Option (Nat → Byte)
  /-- The child's page below `USTACKTOP`. -/
  stack : Option (Nat → Byte)
  /-- `*init_sp`. -/
  initSp : Word
  /-- The error of `syscall_mem_alloc`, if it fails. -/
  allocFails : Option Err
  /-- The error of `syscall_mem_map`, if it fails. -/
  mapFails : Option Err

/-- Why `init_stack` does not come back. -/
inductive LaunchPanic where
  /-- A store that does not go to the page at `UTEMP`, or is not aligned. -/
  | wild
deriving DecidableEq

/-- Functions of the parent. -/
abbrev LaunchM := Prog Launch Err LaunchPanic

/-- `*p = b` for a `char *`. -/
def storeByte (a : Word) (b : Byte) : LaunchM Unit := fun s =>
  match s.temp with
  | none => .halt .wild
  | some p =>
    if (a - utemp).toNat < 4096 then .ret () { s with temp := some (update p (a - utemp).toNat b) }
    else .halt .wild

/-- `*p = w` for a `u_int *`. -/
def storeWord (a w : Word) : LaunchM Unit := fun s =>
  match s.temp with
  | none => .halt .wild
  | some p =>
    if (a - utemp).toNat + 4 ≤ 4096 ∧ (a - utemp).toNat % 4 = 0 then
      .ret () { s with temp := some (setWordAt .little p (a - utemp).toNat w) }
    else .halt .wild

/-- `syscall_mem_alloc(0, UTEMP, PTE_D)`. -/
def memAlloc : LaunchM Unit := fun s =>
  match s.allocFails with
  | some r => .err r s
  | none => .ret () { s with temp := some fun _ => 0 }

/-- `syscall_mem_map(0, UTEMP, child, USTACKTOP - BY2PG, PTE_D)`. -/
def memMap : LaunchM Unit := fun s =>
  match s.mapFails with
  | some r => .err r s
  | none => .ret () { s with stack := s.temp }

/-- `syscall_mem_unmap(0, UTEMP)`. -/
def memUnmap : LaunchM Unit := Prog.modify fun s => { s with temp := none }

variable {argv cs : List (List Byte)} {c : List Byte} {s t : Launch} {page m : Nat → Byte} {o i j n : Nat} {w : Word}

end Spawn

end Mos
