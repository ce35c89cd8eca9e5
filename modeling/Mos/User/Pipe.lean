import Mos.Kern.State

/-!
# Pipes

`pipe_read`, `pipe_write`, `_pipe_is_closed` and `pipe_close` of `user/lib/pipe.c`, run by two envs
on one `struct Pipe`. The envs can be preempted at any point, so each function is a machine with a
program counter that makes one access to shared memory at a time: a load or a store of a position, of
a byte of the buffer, of a page's reference count or of `env_runs`. What a function keeps in local
variables is in its program counter.

C does not fix the order of the two loads of `p->p_rpos == p->p_wpos` and of
`p->p_wpos - p->p_rpos`; an argument of the step chooses it.
-/

namespace Mos

/-- `BY2PIPE`. -/
def by2pipe : Nat := 32

/-- `struct Pipe`; the entries of `pBuf` are those below `by2pipe`. -/
structure Pipe where
  pRpos : Word
  pWpos : Word
  pBuf : Nat → Byte

/-- The memory that the two envs share: the pipe's page, and the reference counts of that page and
of the pages of the two file descriptors. -/
structure PipeMem where
  pipe : Pipe
  readerRef : Nat
  writerRef : Nat
  pipeRef : Nat

/-! ## `_pipe_is_closed` -/

/-- How far `_pipe_is_closed` has got. -/
inductive ClosedPc where
  | runs
  | fdRef (runs : Word)
  | pipeRef (runs : Word) (fdRef : Nat)
  | again (runs : Word) (fdRef pipeRef : Nat)
deriving DecidableEq

/-- One load of `_pipe_is_closed` by an env whose `fd` page has `fdRef` references, and the result
once it returns. -/
def pipeIsClosed (m : PipeMem) (fdRef : Nat) (envRuns : Word) : ClosedPc → ClosedPc ⊕ Bool
  | .runs => .inl (.fdRef envRuns)
  | .fdRef runs => .inl (.pipeRef runs fdRef)
  | .pipeRef runs fd => .inl (.again runs fd m.pipeRef)
  | .again runs fd pipe => if runs ≠ envRuns then .inl .runs else .inr (fd = pipe)

/-! ## `pipe_read` -/

/-- How far `pipe_read(fd, vbuf, n, offset)` has got. `rbuf` is the part of `vbuf` that is filled,
so `i` is its length; `byte` is `rbuf[i]` once it is loaded and before `p_rpos` has moved. -/
inductive ReadPc where
  /-- Between two calls: what the last one was asked for and what it returned. -/
  | ret (n : Nat) (rbuf : List Byte)
  /-- `p->p_rpos == p->p_wpos`, with the loads that are done. -/
  | test (n : Nat) (rbuf : List Byte) (rpos wpos : Option Word)
  | closed (n : Nat) (pc : ClosedPc)
  /-- `p->p_buf[(p->p_rpos) % BY2PIPE]`: the load of the position, then that of the byte. -/
  | index (n : Nat) (rbuf : List Byte)
  | fetch (n : Nat) (rbuf : List Byte) (pos : Word)
  /-- `p->p_rpos += 1`: the load, then the store. -/
  | load (n : Nat) (rbuf : List Byte) (byte : Byte)
  | store (n : Nat) (rbuf : List Byte) (byte : Byte) (pos : Word)
deriving DecidableEq

/-- The head of the loop, `i < n`. -/
def ReadPc.head (n : Nat) (rbuf : List Byte) : ReadPc :=
  if rbuf.length < n then .test n rbuf none none else .ret n rbuf

/-- What follows the comparison of the two positions. -/
def ReadPc.compare (n : Nat) (rbuf : List Byte) (rpos wpos : Word) : ReadPc :=
  if rpos = wpos then
    if 0 < rbuf.length then .ret n rbuf else .closed n .runs
  else .index n rbuf

/-- One step of `pipe_read`. -/
def pipeRead (rposFirst : Bool) (envRuns : Word) (m : PipeMem) : ReadPc → Option (ReadPc × PipeMem)
  | .ret _ _ => none
  | .test n rbuf none none =>
    if rposFirst then some (.test n rbuf (some m.pipe.pRpos) none, m)
    else some (.test n rbuf none (some m.pipe.pWpos), m)
  | .test n rbuf (some rpos) none => some (.compare n rbuf rpos m.pipe.pWpos, m)
  | .test n rbuf none (some wpos) => some (.compare n rbuf m.pipe.pRpos wpos, m)
  | .test n rbuf (some rpos) (some wpos) => some (.compare n rbuf rpos wpos, m)
  | .closed n pc =>
    match pipeIsClosed m m.readerRef envRuns pc with
    | .inl pc => some (.closed n pc, m)
    | .inr true => some (.ret n [], m)
    -- `syscall_yield`, and the loop again
    | .inr false => some (.head n [], m)
  | .index n rbuf => some (.fetch n rbuf m.pipe.pRpos, m)
  | .fetch n rbuf pos => some (.load n rbuf (m.pipe.pBuf (pos.toNat % by2pipe)), m)
  | .load n rbuf byte => some (.store n rbuf byte m.pipe.pRpos, m)
  | .store n rbuf byte pos =>
    some (.head n (rbuf ++ [byte]), { m with pipe := { m.pipe with pRpos := pos + 1 } })

/-! ## `pipe_write` and `pipe_close` -/

/-- How far the writer has got: in `pipe_write(fd, vbuf, n, offset)`, where `n` is the length of
`vbuf`, or in `close`. -/
inductive WritePc where
  /-- Between two calls: what the last one was given and how much of it it has written. -/
  | ret (vbuf : List Byte) (i : Nat)
  /-- `p->p_wpos - p->p_rpos == BY2PIPE`, with the loads that are done. -/
  | test (vbuf : List Byte) (i : Nat) (wpos rpos : Option Word)
  | closed (vbuf : List Byte) (i : Nat) (pc : ClosedPc)
  /-- `p->p_buf[(p->p_wpos) % BY2PIPE] = vbuf[i]`: the load of the position, then the store. -/
  | index (vbuf : List Byte) (i : Nat)
  | put (vbuf : List Byte) (i : Nat) (pos : Word)
  /-- `p->p_wpos += 1`: the load, then the store. -/
  | load (vbuf : List Byte) (i : Nat)
  | store (vbuf : List Byte) (i : Nat) (pos : Word)
  /-- `close`: the two calls of `pipe_close`, and the one of `fd_close`. -/
  | unmapFd
  | unmapPipe
  | fdClose
  | exited

/-- The head of the loop, `i < n`. -/
def WritePc.head (vbuf : List Byte) (i : Nat) : WritePc :=
  if i < vbuf.length then .test vbuf i none none else .ret vbuf i

/-- What follows the test for a full buffer. -/
def WritePc.compare (vbuf : List Byte) (i : Nat) (wpos rpos : Word) : WritePc :=
  if (wpos - rpos).toNat = by2pipe then .closed vbuf i .runs else .index vbuf i

/-- One step of the writer. -/
def pipeWrite (wposFirst : Bool) (envRuns : Word) (m : PipeMem) :
    WritePc → Option (WritePc × PipeMem)
  | .ret _ _ => none
  | .test vbuf i none none =>
    if wposFirst then some (.test vbuf i (some m.pipe.pWpos) none, m)
    else some (.test vbuf i none (some m.pipe.pRpos), m)
  | .test vbuf i (some wpos) none => some (.compare vbuf i wpos m.pipe.pRpos, m)
  | .test vbuf i none (some rpos) => some (.compare vbuf i m.pipe.pWpos rpos, m)
  | .test vbuf i (some wpos) (some rpos) => some (.compare vbuf i wpos rpos, m)
  | .closed vbuf i pc =>
    match pipeIsClosed m m.writerRef envRuns pc with
    | .inl pc => some (.closed vbuf i pc, m)
    | .inr true => some (.ret vbuf i, m)
    -- `syscall_yield`, and the loop again
    | .inr false => some (.head vbuf i, m)
  | .index vbuf i => some (.put vbuf i m.pipe.pWpos, m)
  | .put vbuf i pos =>
    some (.load vbuf i, { m with pipe := { m.pipe with
      pBuf := Function.update m.pipe.pBuf (pos.toNat % by2pipe) (vbuf.getD i 0) } })
  | .load vbuf i => some (.store vbuf i m.pipe.pWpos, m)
  | .store vbuf i pos =>
    some (.head vbuf (i + 1), { m with pipe := { m.pipe with pWpos := pos + 1 } })
  | .unmapFd => some (.unmapPipe, { m with writerRef := m.writerRef - 1 })
  | .unmapPipe => some (.fdClose, { m with pipeRef := m.pipeRef - 1 })
  -- the page of `fd` is unmapped already
  | .fdClose => some (.exited, m)
  | .exited => none

/-! ## The two envs together -/

/-- The two envs. -/
inductive PipeEnd where
  | reader
  | writer
deriving DecidableEq

/-- A reader and a writer of one pipe. -/
structure PipeSys where
  mem : PipeMem
  reader : ReadPc
  writer : WritePc
  running : PipeEnd
  /-- `env_runs` of the two envs. -/
  envRuns : PipeEnd → Word
  /-- History variables: the bytes that the earlier reads returned, and those that the earlier
  writes wrote. -/
  got : List Byte
  wrote : List Byte

/-- What can happen next. -/
inductive PipeAct where
  /-- The kernel switches to the other env. -/
  | switch
  /-- The reader calls `pipe_read`. -/
  | read (n : Nat)
  /-- The writer calls `pipe_write`. -/
  | write (vbuf : List Byte)
  /-- The writer calls `close`. -/
  | close
  /-- The running env makes one step. -/
  | reader (rposFirst : Bool)
  | writer (wposFirst : Bool)
  /-- Other envs map and unmap the pages of the pipe. -/
  | others (readerRef writerRef pipeRef : Nat)
deriving DecidableEq

/-- The env that the kernel switches to. -/
def PipeEnd.other : PipeEnd → PipeEnd
  | .reader => .writer
  | .writer => .reader

/-- One step, where it is possible. -/
def PipeSys.step (s : PipeSys) : PipeAct → Option PipeSys
  | .switch =>
    -- `env_run` counts the runs of the env it starts
    let e := s.running.other
    some { s with running := e, envRuns := Function.update s.envRuns e (s.envRuns e + 1) }
  | .read n =>
    match s.running, s.reader with
    | .reader, .ret _ rbuf => some { s with reader := .head n [], got := s.got ++ rbuf }
    | _, _ => none
  | .write vbuf =>
    match s.running, s.writer with
    | .writer, .ret done i => some { s with writer := .head vbuf 0, wrote := s.wrote ++ done.take i }
    | _, _ => none
  | .close =>
    match s.running, s.writer with
    | .writer, .ret done i => some { s with writer := .unmapFd, wrote := s.wrote ++ done.take i }
    | _, _ => none
  | .reader rposFirst =>
    match s.running with
    | .reader => (pipeRead rposFirst (s.envRuns .reader) s.mem s.reader).map fun (pc, m) =>
        { s with reader := pc, mem := m }
    | .writer => none
  | .writer wposFirst =>
    match s.running with
    | .writer => (pipeWrite wposFirst (s.envRuns .writer) s.mem s.writer).map fun (pc, m) =>
        { s with writer := pc, mem := m }
    | .reader => none
  | .others readerRef writerRef pipeRef =>
    some { s with mem := { s.mem with
      readerRef := readerRef, writerRef := writerRef, pipeRef := pipeRef } }

/-- The part of the caller's buffer that is filled and counted in `p_rpos`. -/
def ReadPc.rbuf : ReadPc → List Byte
  | .ret _ rbuf => rbuf
  | .test _ rbuf _ _ => rbuf
  | .closed _ _ => []
  | .index _ rbuf => rbuf
  | .fetch _ rbuf _ => rbuf
  | .load _ rbuf _ => rbuf
  | .store _ rbuf _ _ => rbuf

/-- The byte that is already in the caller's buffer while `p_rpos` has not moved past it yet. -/
def ReadPc.inHand : ReadPc → List Byte
  | .load _ _ byte => [byte]
  | .store _ _ byte _ => [byte]
  | _ => []

/-- The part of the caller's buffer that is stored and counted in `p_wpos`. -/
def WritePc.sent : WritePc → List Byte
  | .ret vbuf i => vbuf.take i
  | .test vbuf i _ _ => vbuf.take i
  | .closed vbuf i _ => vbuf.take i
  | .index vbuf i => vbuf.take i
  | .put vbuf i _ => vbuf.take i
  | .load vbuf i => vbuf.take i
  | .store vbuf i _ => vbuf.take i
  | _ => []

/-- All bytes that have been delivered to the reader. -/
def PipeSys.delivered (s : PipeSys) : List Byte := s.got ++ s.reader.rbuf

/-- All bytes that the writer has stored. -/
def PipeSys.stored (s : PipeSys) : List Byte := s.wrote ++ s.writer.sent

/-- A pipe with both positions at `pos`, before the first call of either env. -/
def PipeSys.start (pos : Word) (buf : Nat → Byte) (readerRef writerRef pipeRef : Nat)
    (running : PipeEnd) (envRuns : PipeEnd → Word) : PipeSys :=
  { mem := { pipe := { pRpos := pos, pWpos := pos, pBuf := buf }, readerRef := readerRef,
             writerRef := writerRef, pipeRef := pipeRef },
    reader := .ret 0 [], writer := .ret [] 0, running := running, envRuns := envRuns,
    got := [], wrote := [] }

end Mos
