import Mos.User.Fd
import Mos.User.Fork

/-!
# Copy-on-write

`cow_entry` (`user/lib/fork.c`), the handler of a store to a page without `PTE_D`, and the envs whose
stores end up there. An env can be preempted between any two system calls of the handler and between
any two words of its `memcpy`, so the handler is a machine that does one of these at a time.

An access to a page that is not mapped first maps a zeroed page there (`passive_alloc`); stores and
loads of the programs are to pages in `[UTEMP, USTACKTOP)` other than `UCOW`, which the handler keeps
for itself.
-/

namespace Mos

open Lib

/-- A store of a user program. -/
structure Store where
  env : EnvPtr
  page : Nat
  word : Nat
  value : Word
deriving DecidableEq

/-- Where an env is: in its program, or in `cow_entry` for a store that has to be repeated. -/
inductive CowPc where
  | running
  | alloc (st : Store) (perm : Word)
  /-- The `memcpy`, at word `i`. -/
  | copy (st : Store) (perm : Word) (i : Nat)
  | map (st : Store) (perm : Word)
  | unmap (st : Store)
  /-- Back in the program, at the store. -/
  | retry (st : Store)
  /-- The env is gone after a `user_panic`. -/
  | dead
deriving DecidableEq

/-- The envs and their address spaces, with the stores that have been made, the last one first. -/
structure CowSys where
  spaces : Spaces
  pc : EnvPtr → CowPc
  log : List Store

/-- The page `UCOW`. -/
def ucowPage : Nat := ppn ucow

/-- The pages that programs load from and store to. -/
def userPage (n : Nat) : Bool := legalPage n && decide (n < ppn ustacktop) && decide (n ≠ ucowPage)

/-- The frame can be handed out by `page_alloc`: no page is mapped to it. -/
def Spaces.unused (s : Spaces) (f : Nat) : Bool := decide (f < 2 ^ 20) && s.refs f == 0

/-- The word that a load finds; `none` if the page is not mapped yet. -/
def Spaces.load (s : Spaces) (e : EnvPtr) (n i : Nat) : Option Word :=
  (s.pte e n).map fun w => s.mem (ppn w) i

/-- A store to the page would not fault. -/
def Spaces.writable (s : Spaces) (e : EnvPtr) (n : Nat) : Bool := (s.pte e n).any (has · pteD)

/-- Removes all pages of an env. -/
def Spaces.drop (s : Spaces) (e : EnvPtr) : Spaces :=
  { s with pte := fun e' n => if e' = e then none else s.pte e' n }

/-- The permissions that `cow_entry` gives to the copy. -/
def cowEntryPerm (pte : Word) : Word := (ptePerm pte &&& ~~~pteCow) ||| pteD

namespace CowSys

/-- Moves one env. -/
def goto (t : CowSys) (e : EnvPtr) (pc : CowPc) : CowSys :=
  { t with pc := Function.update t.pc e pc }

/-- The instruction of a store. Without `PTE_D` it ends in `cow_entry`, which panics if the page is not
copy-on-write. -/
def store (t : CowSys) (st : Store) : Option CowSys :=
  match t.spaces.pte st.env st.page with
  | none => none
  | some w =>
    if has w pteD then
      some { t.goto st.env .running with
        spaces := t.spaces.setWord (ppn w) st.word st.value
        log := st :: t.log }
    else if has w pteCow then some (t.goto st.env (.alloc st (cowEntryPerm w)))
    else some { t.goto st.env .dead with spaces := t.spaces.drop st.env }

/-- The next step of the handler; `f` is the frame that the kernel has for an allocation. -/
def handle (t : CowSys) (e : EnvPtr) (f : Nat) : Option CowSys :=
  match t.pc e with
  | .running | .dead => none
  | .alloc st perm =>
    if t.spaces.unused f then
      some { t.goto e (.copy st perm 0) with spaces := t.spaces.memAlloc e ucowPage perm f }
    else none
  | .copy st perm i =>
    if i < 1024 then
      match t.spaces.pte e st.page, t.spaces.pte e ucowPage with
      | some w, some u => some { t.goto e (.copy st perm (i + 1)) with
          spaces := t.spaces.setWord (ppn u) i (t.spaces.mem (ppn w) i) }
      | _, _ => none
    else some (t.goto e (.map st perm))
  | .map st perm => (t.spaces.memMap e ucowPage e st.page perm).map fun s =>
      { t.goto e (.unmap st) with spaces := s }
  | .unmap st => some { t.goto e (.retry st) with spaces := t.spaces.memUnmap e ucowPage }
  | .retry st => t.store st

end CowSys

/-- What can happen next: the first access to a page, a store, or a step of the handler. -/
inductive CowAct where
  | touch (e : EnvPtr) (n f : Nat)
  | store (st : Store)
  | handle (e : EnvPtr) (f : Nat)

/-- The env that acts. -/
def CowAct.env : CowAct → EnvPtr
  | .touch e _ _ => e
  | .store st => st.env
  | .handle e _ => e

/-- One step, where it is possible. -/
def CowSys.step (t : CowSys) : CowAct → Option CowSys
  | .touch e n f =>
    if t.pc e = .running ∧ userPage n = true ∧ t.spaces.pte e n = none ∧
        t.spaces.unused f = true then
      some { t with spaces := t.spaces.memAlloc e n pteD f }
    else none
  | .store st =>
    if t.pc st.env = .running ∧ userPage st.page = true ∧ st.word < 1024 then t.store st else none
  | .handle e f => t.handle e f

/-- The envs right after `fork`. -/
def CowSys.start (s : Spaces) : CowSys := { spaces := s, pc := fun _ => .running, log := [] }

/-! ## What `fork` promises -/

/-- The frame of a page that `parent` shares with its children. -/
def Spaces.sharedFrame (s : Spaces) (parent : EnvPtr) (n : Nat) : Option Nat :=
  (s.pte parent n).bind fun w => if has w pteLibrary then some (ppn w) else none

/-- The store `st` is one that the page `n` of `e` must show: if the page is shared, any store to the
shared frame, and else only those of `e` itself to this page. -/
def Spaces.sees (s : Spaces) (parent e : EnvPtr) (n : Nat) (st : Store) : Bool :=
  match s.sharedFrame parent n with
  | some f => s.sharedFrame parent st.page == some f
  | none => st.env == e && st.page == n

/-- What `e` must find at a page after the stores in `log`: the last value stored there as far as it
concerns `e`, or else what the page held when `parent` called `fork`. A page that was not mapped then
is full of zeros. -/
def Spaces.expected (s : Spaces) (parent : EnvPtr) : List Store → EnvPtr → Nat → Nat → Word
  | [], _, n, i => (s.load parent n i).getD 0
  | st :: log, e, n, i =>
    if st.word = i ∧ s.sees parent e n st = true then st.value else s.expected parent log e n i

end Mos
