import Mos.Lib.Run
import Mos.Kern.Spaces

/-!
# Copying an address space to a child

The loops of `fork` (`user/lib/fork.c`, with `duppage`) and of `spawn` (`user/lib/spawn.c`) that map the
parent's pages into a new child, in ascending order. The parent can be preempted between two
`syscall_mem_map` calls, so both are machines that make one call at a time. A call can fail: `fork` does
not look at that, `spawn` gives up.
-/

namespace Mos

open Lib

/-- `PTE_V`, `PTE_D`, `PTE_COW` and so on of an entry: `pte & 0xfff`. -/
def ptePerm (pte : Word) : Word := pte &&& 0xfff

/-- `duppage` maps the page copy-on-write: it is writable, and neither shared nor copy-on-write
already. -/
def dupCow (perm : Word) : Bool := !(!has perm pteD || has perm pteLibrary || has perm pteCow)

/-- The permissions of a page that `duppage` maps copy-on-write. -/
def cowPerm (perm : Word) : Word := (perm ||| pteCow) &&& ~~~pteD

theorem ptePerm_lt (w : Word) : ptePerm w < 4096 := by
  show (w &&& 0xfff).toNat < 4096
  rw [BitVec.toNat_and]
  exact Nat.lt_of_le_of_lt Nat.and_le_right (by decide)

theorem cowPerm_lt {perm : Word} (h : perm < 4096) : cowPerm perm < 4096 := by
  show ((perm ||| pteCow) &&& ~~~pteD).toNat < 4096
  rw [BitVec.toNat_and]
  exact Nat.lt_of_le_of_lt Nat.and_le_left (or_lt_4096 h (by decide))

/-- A page that the memory calls accept: `is_illegal_va` is false. -/
def legalPage (n : Nat) : Bool := ppn utemp ≤ n && n < ppn utop

/-- `syscall_mem_map(0, va, dst, va, perm)` by `src`, for the page `n`; `mem` tells whether the kernel
has the memory for a page table. -/
def copyMap (s : Spaces) (src dst : EnvPtr) (n : Nat) (perm : Word) (mem : Bool) : Option Spaces :=
  if mem && legalPage n then s.memMap src n dst n perm else none

/-- Where the copy stands. -/
inductive CopyPc where
  /-- The loop at page `n`. -/
  | page (n : Nat)
  /-- The second call of `duppage`, in the parent. -/
  | remap (n : Nat) (perm : Word)
  /-- `spawn` has failed. -/
  | failed

/-- The two loops. -/
inductive Inherit where
  | fork
  | spawn
deriving DecidableEq

/-- How many pages a loop looks at. `VPN(USTACKTOP)` for `fork`; the page tables up to
`PDX(USTACKTOP)` for `spawn`. -/
def Inherit.pages : Inherit → Nat
  | fork => ppn ustacktop
  | spawn => (pdx ustacktop + 1) * 1024

/-- One call of the loop of `fork`, or one page that needs none. -/
def forkStep (parent child : EnvPtr) (mem : Bool) : CopyPc × Spaces → Option (CopyPc × Spaces)
  | (.page n, s) =>
    if n < Inherit.fork.pages then
      match s.pte parent n with
      | none => some (.page (n + 1), s)
      | some w =>
        let perm := ptePerm w
        if dupCow perm then
          some (.remap n (cowPerm perm),
            (copyMap s parent child n (cowPerm perm) mem).getD s)
        else
          some (.page (n + 1), (copyMap s parent child n perm mem).getD s)
    else none
  | (.remap n perm, s) => some (.page (n + 1), (copyMap s parent parent n perm mem).getD s)
  | (.failed, _) => none

/-- One call of the loop of `spawn`, or one page that needs none. -/
def spawnStep (parent child : EnvPtr) (mem : Bool) : CopyPc × Spaces → Option (CopyPc × Spaces)
  | (.page n, s) =>
    if n < Inherit.spawn.pages then
      match s.pte parent n with
      | none => some (.page (n + 1), s)
      | some w =>
        if has (ptePerm w) pteLibrary then
          match copyMap s parent child n (ptePerm w) mem with
          | none => some (.failed, s)
          | some t => some (.page (n + 1), t)
        else some (.page (n + 1), s)
    else none
  | (.remap _ _, _) => none
  | (.failed, _) => none

/-- One step of either loop. -/
def Inherit.step (k : Inherit) (parent child : EnvPtr) (c : CopyPc × Spaces) (mem : Bool) :
    Option (CopyPc × Spaces) :=
  match k with
  | fork => forkStep parent child mem c
  | spawn => spawnStep parent child mem c

/-- A loop copies the page of this entry. -/
def Inherit.takes : Inherit → Word → Bool
  | fork, _ => true
  | spawn, w => has (ptePerm w) pteLibrary

/-- `spawn` gives up at a page that the kernel does not map for it, and these come first. -/
def Inherit.stuck (k : Inherit) (s : Spaces) (parent : EnvPtr) : Bool :=
  k == spawn && (List.range (ppn utemp)).any fun n => (s.pte parent n).any k.takes

/-- The pages that a loop copies when every call succeeds. -/
def Inherit.copies (k : Inherit) (s : Spaces) (parent : EnvPtr) (n : Nat) : Bool :=
  decide (n < k.pages) && legalPage n && (s.pte parent n).any k.takes && !k.stuck s parent

end Mos
