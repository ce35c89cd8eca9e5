import Mos.User.Fd
import Mos.User.ShArgs

/-!
# Running a line

`parsecmd` and `runcmd` of `user/sh.c` with the files and the pipes that they set up. A process has a table of
descriptors, and what a descriptor stands for is a file that was opened or an end of a pipe; `dup`, `close`, `open` and
`pipe` are those of `user/lib/fd.c`, `user/lib/file.c` and `user/lib/pipe.c`, as far as the table is concerned.

The model follows one of the processes that `fork` makes of the shell. What the calls answer that depend on more than
the table is the input: whether `open` finds its file, whether there is memory for `dup` and `pipe`, what `fork` and
`spawn` return.
-/

namespace Mos

open Lib Prog Function

/-! ## Descriptors -/

/-- What the page of a descriptor is about. -/
inductive Desc where
  /-- A file that was opened by its path. -/
  | file (path : List Byte) (mode : Word)
  /-- An end of the pipe number `n`. -/
  | pipe (n : Nat) (mode : Word)
  /-- What the shell was started with. -/
  | inherited (n : Nat)
deriving DecidableEq

/-- A table of descriptors: the pages that are mapped. -/
abbrev Fds := Nat → Option Desc

/-- The program that `spawn` is asked to start: its arguments, the memory in which they lie, and the descriptors that it
inherits. -/
structure Program where
  argv : Nat → Option Nat
  mem : Nat → Byte
  fds : Fds

/-- A process that runs a line. -/
structure Job where
  lex : Lexer
  argv : Nat → Option Nat
  rightpipe : Int
  fds : Fds
  /-- The number of pipes that were made so far, by this process or before it was forked. -/
  pipes : Nat
  /-- Whether `fsipc_open` succeeds the next time, the time after, … -/
  opens : Nat → Bool
  /-- Whether there is memory for the next `dup` or `pipe`, … -/
  maps : Nat → Bool
  /-- What `fork` returns the next time, … -/
  forks : Nat → Int
  /-- What `spawn` returns. -/
  spawned : Int
  program : Option Program
  /-- The arguments of `wait`. -/
  waits : List Int

/-- Why a process stops before it has run its part of the line. -/
inductive JobEnd where
  /-- `exit()`. -/
  | exit
  /-- `user_panic`. -/
  | panic
  /-- An index outside `argv`. -/
  | wild
  /-- `pipe` has failed, and its array is used. -/
  | uninitialised
  /-- A loop has used up its fuel. -/
  | spin
deriving DecidableEq

/-- Functions of a process. -/
abbrev JobM := Prog Job Empty JobEnd

namespace Job

/-- `fd_alloc`. -/
def fdAlloc (fds : Fds) : Option Nat := (List.range (maxfd - 1)).find? fun i => (fds i).isNone

/-- Maps or unmaps the page of a descriptor. -/
def setFd (i : Nat) (d : Option Desc) : JobM Unit := modify fun s => { s with fds := update s.fds i d }

/-- Whether the next call has the memory that it needs. -/
def askMap : JobM Bool := fun s => .ret (s.maps 0) { s with maps := fun n => s.maps (n + 1) }

/-- `close(i)`, whose result nobody looks at. -/
def close (i : Nat) : JobM Unit := if i < maxfd then setFd i none else pure ()

/-- `dup(i, j)`, whose result nobody looks at. The descriptor `j` is closed first, whether it is `i` or not. -/
def dup (i j : Nat) : JobM Unit := do
  let s ← get
  if i < maxfd ∧ (s.fds i).isSome then
    close j
    let s ← get
    if ← askMap then setFd j (s.fds i) else setFd j none
  else pure ()

/-- `close_all()`. -/
def closeAll : JobM Unit := loop close 0 maxfd

/-- The string at an address, up to its zero; it may run out of fuel. -/
def stringAt (mem : Nat → Byte) : Nat → Nat → Option (List Byte)
  | 0, _ => none
  | n + 1, a => if mem a = 0 then some [] else (stringAt mem n (a + 1)).map (mem a :: ·)

/-- `open(t, mode)`: the descriptor, if there is one. -/
def openFile (fuel : Nat) (t : Option Nat) (mode : Word) : JobM (Option Nat) := do
  let s ← get
  match t.bind (stringAt s.lex.mem fuel) with
  | none => halt .spin
  | some path =>
    match fdAlloc s.fds with
    | none => pure none
    | some i => do
      put { s with opens := fun n => s.opens (n + 1) }
      if s.opens 0 then
        setFd i (some (.file path mode))
        pure (some i)
      else pure none

/-- `pipe(p)`: `p[0]` and `p[1]`, if it succeeds. -/
def pipe : JobM (Option (Nat × Nat)) := do
  let s ← get
  match fdAlloc s.fds with
  | none => pure none
  | some i =>
    match fdAlloc (update s.fds i (some (.pipe s.pipes oRdonly))) with
    | none => pure none
    | some j =>
      if ← askMap then
        setFd i (some (.pipe s.pipes oRdonly))
        setFd j (some (.pipe s.pipes oWronly))
        modify fun s => { s with pipes := s.pipes + 1 }
        pure (some (i, j))
      else pure none

/-- `fork()`: the process that goes on is the child if this is 0. -/
def fork : JobM Int := fun s => .ret (s.forks 0) { s with forks := fun n => s.forks (n + 1) }

/-- `gettoken(0, &t)`: the result, and `t`. -/
def nextToken (fuel : Nat) : JobM (Byte × Option Nat) := fun s =>
  match gettoken fuel 0 s.lex with
  | some (c, t, l) => .ret (c, t) { s with lex := l }
  | none => .halt .spin

/-- `argv[i] = t`. -/
def storeArg (i : Nat) (t : Option Nat) : JobM Unit := do
  Prog.assert (i < maxArgs) .wild
  modify fun s => { s with argv := update s.argv i t }

/-- The redirection of the descriptor `n` to a file. -/
def redirectTo (fuel n : Nat) (mode : Word) : JobM Unit := do
  let (c, t) ← nextToken fuel
  Prog.assert (c = 0x77) .exit
  match ← openFile fuel t mode with
  | none => halt .panic
  | some fd => do
    dup fd n
    close fd

/-- `parsecmd(argv, rightpipe)`, from `argc` on; the fuel is for the tokens and for the lexer. -/
def parsecmd (lexFuel : Nat) : Nat → Nat → JobM Nat
  | 0, _ => halt .spin
  | fuel + 1, argc => do
    let (c, t) ← nextToken lexFuel
    if c = 0 then pure argc
    else if c = 0x77 then do
      Prog.assert (argc < maxArgs) .exit
      storeArg argc t
      parsecmd lexFuel fuel (argc + 1)
    else if c = 0x3c then do
      redirectTo lexFuel 0 oRdonly
      parsecmd lexFuel fuel argc
    else if c = 0x3e then do
      redirectTo lexFuel 1 oWronly
      parsecmd lexFuel fuel argc
    else if c = 0x7c then do
      match ← pipe with
      | none => halt .uninitialised
      | some (p0, p1) => do
        let child ← fork
        modify fun s => { s with rightpipe := child }
        if child = 0 then do
          dup p0 0
          close p0
          close p1
          parsecmd lexFuel fuel 0
        else do
          dup p1 1
          close p1
          close p0
          pure argc
    else parsecmd lexFuel fuel argc

/-- `spawn(argv[0], argv)`. -/
def spawn : JobM Int := fun s =>
  .ret s.spawned { s with program := some { argv := s.argv, mem := s.lex.mem, fds := s.fds } }

/-- `wait(envid)`. -/
def wait (envid : Int) : JobM Unit := modify fun s => { s with waits := s.waits ++ [envid] }

/-- What `runcmd` does with the arguments, and `exit()`. -/
def finishArgs (argc : Nat) : JobM Unit := do
  storeArg argc none
  let child ← spawn
  closeAll
  if 0 ≤ child then wait child else pure ()
  let s ← get
  if s.rightpipe ≠ 0 then wait s.rightpipe else pure ()
  closeAll

/-- `runcmd(s)`, and `exit()`, which `main` calls if `runcmd` returns. -/
def runcmd (fuel a : Nat) : JobM Unit := do
  let s ← get
  match gettoken fuel a s.lex with
  | none => halt .spin
  | some (_, _, l) => do
    put { s with lex := l, rightpipe := 0 }
    let argc ← parsecmd fuel fuel 0
    if argc = 0 then closeAll else finishArgs argc

end Job

end Mos
