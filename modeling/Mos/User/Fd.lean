import Mos.Lib.Run
import Mos.Kern.Spaces

/-!
# File descriptors

The layout of `user/include/fd.h`, and `close` and `dup` of `user/lib/fd.c` for descriptors of pipes
and of the console, with `pipe` and `pipe_close` of `user/lib/pipe.c`. A descriptor `i` is a page
`INDEX2FD(i)` and a region of `PDMAP` bytes at `INDEX2DATA(i)`, whose first page is the pipe's in the
case of a pipe.

Envs can be preempted between two system calls, so `close` and `dup` are machines that make one
`syscall_mem_map` or `syscall_mem_unmap` at a time. The address spaces that these calls work on are
those of `Mos.Kern.Spaces`.
-/

namespace Mos

open Lib

/-! ## `user/include/fd.h` -/

/-- `MAXFD`. -/
def maxfd : Nat := 32
/-- `FILEBASE`. -/
def filebase : Word := 0x60000000
/-- `FDTABLE`. -/
def fdtable : Word := filebase - pdmap

/-- `INDEX2FD(i)`. -/
def index2fd (i : Nat) : Word := fdtable + BitVec.ofNat 32 i * by2pg
/-- `INDEX2DATA(i)`. -/
def index2data (i : Nat) : Word := filebase + BitVec.ofNat 32 i * pdmap

/-- The page of descriptor `i`. -/
def fdPage (i : Nat) : Nat := ppn (index2fd i)
/-- Page `j` of the data of descriptor `i`. -/
def dataPage (i j : Nat) : Nat := ppn (index2data i + BitVec.ofNat 32 j * by2pg)

/-- `devfile.dev_id`. -/
def devfile : Word := 102
/-- `devcons.dev_id`. -/
def devcons : Word := 99
/-- `devpipe.dev_id`. -/
def devpipe : Word := 112

theorem toNat_fdtable : fdtable.toNat = 0x5fc00000 := by decide

theorem toNat_filebase : filebase.toNat = 0x60000000 := by decide

theorem toNat_pdmap : pdmap.toNat = 4194304 := by decide

theorem fdPage_eq {i : Nat} (hi : i < maxfd) : fdPage i = 0x5fc00 + i := by
  unfold maxfd at hi
  simp only [fdPage, ppn_eq, index2fd, BitVec.toNat_add, BitVec.toNat_mul, BitVec.toNat_ofNat,
    toNat_fdtable, toNat_by2pg]
  omega

theorem toNat_index2data {i : Nat} (hi : i < maxfd) :
    (index2data i).toNat = 0x60000000 + i * 4194304 := by
  unfold maxfd at hi
  rw [index2data, BitVec.toNat_add, BitVec.toNat_mul, BitVec.toNat_ofNat, toNat_filebase,
    toNat_pdmap]
  omega

theorem dataPage_eq {i j : Nat} (hi : i < maxfd) (hj : j < 1024) :
    dataPage i j = 0x60000 + i * 1024 + j := by
  rw [dataPage, ppn_eq, BitVec.toNat_add, BitVec.toNat_mul, BitVec.toNat_ofNat,
    toNat_index2data hi, toNat_by2pg]
  unfold maxfd at hi
  omega

/-! ## `pageref` and `_pipe_is_closed` -/

/-- `pageref(v)` for the page `n` of `e`. -/
def Spaces.pageref (s : Spaces) (e : EnvPtr) (n : Nat) : Nat :=
  match s.pte e n with
  | none => 0
  | some w => s.refs (ppn w)

/-- `_pipe_is_closed(fd, fd2data(fd))` for descriptor `i` of `e`, with its two counts read at the same
time. -/
def Spaces.pipeIsClosed (s : Spaces) (e : EnvPtr) (i : Nat) : Bool :=
  s.pageref e (fdPage i) == s.pageref e (dataPage i 0)

/-! ## `pipe` -/

/-- `fd_alloc`: the first descriptor that is not in use. -/
def Spaces.fdAlloc (s : Spaces) (e : EnvPtr) : Option Nat :=
  (List.range (maxfd - 1)).find? fun i => (s.pte e (fdPage i)).isNone

/-- Writes a word of a frame. -/
def Spaces.setWord (s : Spaces) (f i : Nat) (w : Word) : Spaces :=
  { s with mem := Function.update s.mem f (Function.update (s.mem f) i w) }

/-- `O_RDONLY`. -/
def oRdonly : Word := 0
/-- `O_WRONLY`. -/
def oWronly : Word := 1

/-- `struct Fd`: `fd_dev_id`, `fd_offset` and `fd_omode`, from which `pipe` sets two. -/
def Spaces.setFd (s : Spaces) (f : Nat) (omode : Word) : Spaces :=
  (s.setWord f 0 devpipe).setWord f 2 omode

/-- `pipe(pfd)`: the address spaces it leaves behind, and the two descriptors if it returns 0.
`alloc` gives the frames that the kernel has for its three allocations, and `mem` tells whether it has
the memory for the mapping. -/
def pipe (s : Spaces) (e : EnvPtr) (alloc : Fin 3 → Option Nat) (mem : Bool) :
    Spaces × Option (Nat × Nat) :=
  let perm := pteD ||| pteLibrary
  match s.fdAlloc e, alloc 0 with
  | some fd0, some f0 =>
    let s₁ := s.memAlloc e (fdPage fd0) perm f0
    let err₁ (s : Spaces) := (s.memUnmap e (fdPage fd0), none)
    match s₁.fdAlloc e, alloc 1 with
    | some fd1, some f1 =>
      let s₂ := s₁.memAlloc e (fdPage fd1) perm f1
      let err₂ (s : Spaces) := err₁ (s.memUnmap e (fdPage fd1))
      match alloc 2 with
      | some f2 =>
        let s₃ := s₂.memAlloc e (dataPage fd0 0) perm f2
        match if mem then s₃.memMap e (dataPage fd0 0) e (dataPage fd1 0) perm else none with
        | some s₄ => ((s₄.setFd f0 oRdonly).setFd f1 oWronly, some (fd0, fd1))
        | none => err₂ (s₃.memUnmap e (dataPage fd0 0))
      | none => err₂ s₂
    | _, _ => err₁ s₁
  | _, _ => (s, none)

/-! ## `close` and `dup` -/

/-- Where an env is. `close` may have been called by `dup`, which then goes on with the descriptor
`old`; the descriptor that is closed is the one that `dup` makes. -/
inductive FdPc where
  | idle
  /-- `pipe_close`: the unmap of the descriptor, then the one of its data. -/
  | pipeClose (i : Nat) (old : Option Nat)
  | pipeCloseData (i : Nat) (old : Option Nat)
  | fdClose (i : Nat) (old : Option Nat)
  /-- The loop of `dup` over the pages of the data. -/
  | copy (old new j : Nat)
  | copyFd (old new : Nat)
  /-- The error path of `dup`. -/
  | errFd (new : Nat)
  | errData (new j : Nat)
deriving DecidableEq

/-- What follows `close(i)`. The test `if (vpd[PDX(ova)])` of `dup` only skips a loop that would find
no valid page. -/
def FdPc.closed (i : Nat) : Option Nat → FdPc
  | none => .idle
  | some old => .copy old i 0

/-- The end of the body of a loop over the pages of a region. -/
def nextPage (j : Nat) (again : Nat → FdPc) (done : FdPc) : FdPc :=
  if j + 1 < 1024 then again (j + 1) else done

/-- `fd_lookup(fdnum)`: whether the descriptor is in use. -/
def Spaces.fdLookup (s : Spaces) (e : EnvPtr) (i : Nat) : Bool :=
  i < maxfd && (s.pte e (fdPage i)).isSome

/-- `fd_dev_id`, the first word of the descriptor's page. -/
def Spaces.fdDevId (s : Spaces) (e : EnvPtr) (i : Nat) : Word :=
  match s.pte e (fdPage i) with
  | none => 0
  | some w => s.mem (ppn w) 0

/-- The descriptor is a file's. Closing it takes requests to a file server, which are not modelled
here. -/
def Spaces.isFile (s : Spaces) (e : EnvPtr) (i : Nat) : Bool :=
  s.fdLookup e i && s.fdDevId e i == devfile

/-- The beginning of `close(i)`, up to its first system call, for a descriptor that is no file's. -/
def Spaces.close (s : Spaces) (e : EnvPtr) (i : Nat) (old : Option Nat) : FdPc :=
  if s.fdLookup e i then
    if s.fdDevId e i = devcons then .fdClose i old
    else if s.fdDevId e i = devpipe then .pipeClose i old
    -- `dev_lookup` knows no such device
    else .closed i old
  else .closed i old

/-- The permissions that `dup` gives to a copy. -/
def dupPerm (pte : Word) : Word := pte &&& (pteD ||| pteLibrary)

/-- One `syscall_mem_map` of `dup` within `e`; `mem` tells whether the kernel has the memory for a page
table. -/
def dupMap (s : Spaces) (e : EnvPtr) (n n' : Nat) (mem : Bool) : Option Spaces :=
  if mem then (s.pte e n).bind fun w => s.memMap e n e n' (dupPerm w) else none

/-- One step of an env in `close` or `dup`. -/
def fdStep (s : Spaces) (e : EnvPtr) (mem : Bool) : FdPc → Option (FdPc × Spaces)
  | .idle => none
  | .pipeClose i old => some (.pipeCloseData i old, s.memUnmap e (fdPage i))
  | .pipeCloseData i old => some (.fdClose i old, s.memUnmap e (dataPage i 0))
  | .fdClose i old => some (.closed i old, s.memUnmap e (fdPage i))
  | .copy old new j =>
    let next := nextPage j (.copy old new) (.copyFd old new)
    match s.pte e (dataPage old j) with
    | none => some (next, s)
    | some _ =>
      match dupMap s e (dataPage old j) (dataPage new j) mem with
      | none => some (.errFd new, s)
      | some t => some (next, t)
  | .copyFd old new =>
    match dupMap s e (fdPage old) (fdPage new) mem with
    | none => some (.errFd new, s)
    | some t => some (.idle, t)
  | .errFd new => some (.errData new 0, s.memUnmap e (fdPage new))
  | .errData new j => some (nextPage j (.errData new) .idle, s.memUnmap e (dataPage new j))

/-- The envs and their address spaces. -/
structure FdSys where
  spaces : Spaces
  pc : EnvPtr → FdPc

/-- What can happen next: an env calls `close` or `dup`, or makes its next system call. -/
inductive FdAct where
  | close (e : EnvPtr) (i : Nat)
  | dup (e : EnvPtr) (old new : Nat)
  | step (e : EnvPtr) (mem : Bool)
deriving DecidableEq

/-- One step, where it is possible. -/
def FdSys.step (t : FdSys) : FdAct → Option FdSys
  | .close e i =>
    if t.pc e = .idle ∧ t.spaces.isFile e i = false then
      some { t with pc := Function.update t.pc e (t.spaces.close e i none) }
    else none
  | .dup e old new =>
    if t.pc e = .idle ∧ old ≠ new ∧ new < maxfd ∧ t.spaces.isFile e new = false then
      if t.spaces.fdLookup e old then
        some { t with pc := Function.update t.pc e (t.spaces.close e new (some old)) }
      else some t
    else none
  | .step e mem => (fdStep t.spaces e mem (t.pc e)).map fun (pc, s) =>
      { spaces := s, pc := Function.update t.pc e pc }

end Mos
