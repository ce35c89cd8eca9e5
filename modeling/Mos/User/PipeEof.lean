import Mos.User.PipeFifo

/-!
# End of file on a pipe

`pipe_read` documents that it returns 0 only when the pipe is closed and nothing has been written
since the last read. It makes two observations for that, one after the other: the positions are
equal, and the reference counts say that there is no writer left. The writer can store bytes and
close its end between the two, and then `pipe_read` reports the end of file on a pipe with bytes in
it (`pipe_eof_early`). This is the only way in which it can go wrong: as long as the writer's last
unmap does not fall between the two observations with bytes stored since the first of them, an end of
file means what it should (`pipe_eof_sound`).

There is no env here but a reader and a writer; the reader may have several descriptors of its end.
-/

namespace Mos

open Lib

/-! ## The condition -/

/-- Steps of the two envs and switches between them. -/
def PipeAct.Alone : PipeAct → Prop
  | .others _ _ _ => False
  | _ => True

instance : DecidablePred PipeAct.Alone
  | .others _ _ _ => .isFalse id
  | .switch | .read _ | .write _ | .close | .reader _ | .writer _ => .isTrue trivial

/-- A pipe that no other env holds. -/
def PipeSys.stepAlone : PipeSys → PipeAct → Option PipeSys :=
  guarded (fun _ a => a.Alone) PipeSys.step

/-- The reader has read nothing yet and holds a value of `p_wpos` that tells it that the pipe is
empty: it is about to compare it, or has done so and is in `_pipe_is_closed`. -/
def ReadPc.SawEmpty (rpos : Word) : ReadPc → Prop
  | .test _ [] _ (some wpos) => wpos = rpos
  | .closed _ _ => True
  | _ => False

instance (rpos : Word) : DecidablePred (ReadPc.SawEmpty rpos)
  | .test _ [] _ (some wpos) => inferInstanceAs (Decidable (wpos = rpos))
  | .closed _ _ => .isTrue trivial
  | .test _ [] _ none | .test _ (_ :: _) _ _ | .ret _ _ | .index _ _ | .fetch _ _ _ | .load _ _ _
  | .store _ _ _ _ => .isFalse id

/-- The next step of the writer unmaps the pipe's page. -/
def WritePc.isUnmapPipe : WritePc → Bool
  | .unmapPipe => true
  | _ => false

/-- The writer does not unmap the pipe's page while the reader takes the pipe for empty although
bytes have been stored. -/
def PipeSys.UnmapOk (s : PipeSys) : PipeAct → Prop
  | .writer _ => s.writer.isUnmapPipe = true → s.reader.SawEmpty s.mem.pipe.pRpos →
      s.mem.pipe.pWpos = s.mem.pipe.pRpos
  | _ => True

instance (s : PipeSys) : DecidablePred s.UnmapOk
  | .writer _ => inferInstanceAs (Decidable (_ = true → _ → _ = _))
  | .switch | .read _ | .write _ | .close | .reader _ | .others _ _ _ => .isTrue trivial

/-- The writer has closed its end. -/
def WritePc.Closed : WritePc → Prop
  | .fdClose => True
  | .exited => True
  | _ => False

instance : DecidablePred WritePc.Closed
  | .fdClose | .exited => .isTrue trivial
  | .ret _ _ | .test _ _ _ _ | .closed _ _ _ | .index _ _ | .put _ _ _ | .load _ _ | .store _ _ _
  | .unmapFd | .unmapPipe => .isFalse id

/-- What a return value 0 of `pipe_read` promises. -/
def PipeSys.EofSound (s : PipeSys) : Prop :=
  ∀ n, s.reader = .ret n [] → 0 < n → s.writer.Closed ∧ s.delivered = s.stored

/-! ## The invariant -/

/-- What the reader has learnt in `_pipe_is_closed` with `readers` references to its own page: equal
counts mean that the writer is gone. -/
def ClosedPc.Ok (readers : Nat) (closed : Prop) : ClosedPc → Prop
  | .pipeRef _ fd => fd = readers
  | .again _ fd pipe => fd = readers ∧ (pipe = readers → closed)
  | _ => True

/-- The invariant. Once the writer is gone, a reader that takes the pipe for empty is right. -/
structure PipeSys.EofInv (pos : Word) (readers : Nat) (s : PipeSys) : Prop where
  fifo : s.Inv pos
  readerRef : s.mem.readerRef = readers
  pipeRef : s.mem.pipeRef = if s.writer.Closed then readers else readers + 1
  saw : s.writer.Closed → s.reader.SawEmpty s.mem.pipe.pRpos → s.delivered = s.stored
  asked : ∀ n pc, s.reader = .closed n pc → pc.Ok readers s.writer.Closed
  eof : s.EofSound

section EofInv

variable {pos : Word} {readers : Nat} {s t : PipeSys}

/-- Equal positions mean an empty pipe. -/
theorem PipeSys.Inv.delivered_eq_stored (h : s.Inv pos)
    (heq : s.mem.pipe.pWpos = s.mem.pipe.pRpos) : s.delivered = s.stored := by
  have hroom := h.room
  simp only [by2pipe] at hroom
  rw [h.wpos, h.rpos, eq_comm, wrapAdd_eq_iff pos h.le (by omega)] at heq
  exact h.order.eq_of_length heq

theorem not_sawEmpty_head (rpos : Word) (n : Nat) (rbuf : List Byte) :
    ¬(ReadPc.head n rbuf).SawEmpty rpos := by
  unfold ReadPc.head
  split
  · cases rbuf <;> simp [ReadPc.SawEmpty]
  · simp [ReadPc.SawEmpty]

theorem head_ne_closed (n : Nat) (rbuf : List Byte) (n' : Nat) (pc : ClosedPc) :
    ReadPc.head n rbuf ≠ .closed n' pc := by
  unfold ReadPc.head
  split <;> simp

/-- A call that has just begun has not reported an end of file. -/
theorem head_ne_eof (n : Nat) (rbuf : List Byte) (n' : Nat) (hn : 0 < n') :
    ReadPc.head n rbuf ≠ .ret n' [] := by
  unfold ReadPc.head
  split
  next => simp
  next hlen =>
    rintro heq
    cases heq
    exact hlen hn

/-! ## The reader -/

/-- A step of the reader: what has to be shown of the point it moves to. -/
theorem PipeSys.EofInv.moveReader (h : s.EofInv pos readers) {pc : ReadPc} {m : PipeMem}
    (hfifo : PipeSys.Inv pos { s with reader := pc, mem := m })
    (hreader : m.readerRef = s.mem.readerRef) (hpipe : m.pipeRef = s.mem.pipeRef)
    (hsaw : s.writer.Closed → pc.SawEmpty m.pipe.pRpos →
      PipeSys.delivered { s with reader := pc, mem := m } = s.stored)
    (hasked : ∀ n c, pc = .closed n c → c.Ok readers s.writer.Closed)
    (heof : ∀ n, pc = .ret n [] → 0 < n → s.writer.Closed ∧
      PipeSys.delivered { s with reader := pc, mem := m } = s.stored) :
    PipeSys.EofInv pos readers { s with reader := pc, mem := m } where
  fifo := hfifo
  readerRef := hreader.trans h.readerRef
  pipeRef := hpipe.trans h.pipeRef
  saw := hsaw
  asked := hasked
  eof := heof

/-- The reader moves to a point where it has learnt nothing about the writer. -/
theorem eofInv_quiet (h : s.EofInv pos readers) {pc : ReadPc} {m : PipeMem}
    (hfifo : PipeSys.Inv pos { s with reader := pc, mem := m })
    (hreader : m.readerRef = s.mem.readerRef) (hpipe : m.pipeRef = s.mem.pipeRef)
    (hsaw : ¬pc.SawEmpty m.pipe.pRpos) (hclosed : ∀ n c, pc ≠ .closed n c)
    (heof : ∀ n, 0 < n → pc ≠ .ret n []) :
    PipeSys.EofInv pos readers { s with reader := pc, mem := m } :=
  h.moveReader hfifo hreader hpipe (fun _ hs => absurd hs hsaw)
    (fun n c hpc => absurd hpc (hclosed n c)) (fun n hpc hn => absurd hpc (heof n hn))

/-- The comparison of the positions: if it finds them equal, it was told so by the values of them
that the reader already had, or by the present ones. -/
theorem eofInv_compare (h : s.EofInv pos readers) {n : Nat} {rbuf : List Byte} {x y : Word}
    (hfifo : PipeSys.Inv pos { s with reader := .compare n rbuf x y })
    (hbuf : rbuf = s.reader.rbuf)
    (heq : s.writer.Closed → rbuf = [] → x = y → s.delivered = s.stored) :
    PipeSys.EofInv pos readers { s with reader := .compare n rbuf x y } := by
  have hdel : PipeSys.delivered { s with reader := .compare n rbuf x y } = s.delivered := by
    simp only [PipeSys.delivered, rbuf_readCompare, hbuf]
  refine h.moveReader hfifo rfl rfl ?_ ?_ ?_
  · intro hclosed hsaw
    rw [hdel]
    unfold ReadPc.compare at hsaw
    split at hsaw
    next hxy =>
      split at hsaw
      next => exact hsaw.elim
      next hnil =>
        exact heq hclosed (List.eq_nil_of_length_eq_zero (Nat.eq_zero_of_not_pos hnil)) hxy
    next => exact hsaw.elim
  · intro n' pc hpc
    unfold ReadPc.compare at hpc
    split at hpc
    · split at hpc <;> cases hpc
      trivial
    · cases hpc
  · intro n' hpc _
    unfold ReadPc.compare at hpc
    split at hpc
    · split at hpc
      next hpos =>
        cases hpc
        exact absurd hpos (Nat.lt_irrefl 0)
      next => cases hpc
    · cases hpc

/-- In `_pipe_is_closed`: the pipe was empty, and still is if the writer is gone. -/
theorem PipeSys.EofInv.delivered_of_asked (h : s.EofInv pos readers) {n : Nat} {c : ClosedPc}
    (hpc : s.reader = .closed n c) (hclosed : s.writer.Closed) : s.delivered = s.stored := by
  refine h.saw hclosed ?_
  rw [hpc]
  trivial

theorem eofInv_ask (h : s.EofInv pos readers) {n : Nat} {c c' : ClosedPc}
    (hpc : s.reader = .closed n c) (hfifo : PipeSys.Inv pos { s with reader := .closed n c' })
    (hok : c'.Ok readers s.writer.Closed) :
    PipeSys.EofInv pos readers { s with reader := .closed n c' } := by
  refine h.moveReader hfifo rfl rfl (fun hclosed _ => ?_) ?_ (by simp)
  · have hdel := h.delivered_of_asked hpc hclosed
    simp only [PipeSys.delivered, hpc] at hdel
    exact hdel
  · rintro _ _ ⟨⟩
    exact hok

theorem eofInv_pipeRead (h : s.EofInv pos readers) {rposFirst : Bool} {runs : Word} {pc : ReadPc}
    {m : PipeMem} (hstep : pipeRead rposFirst runs s.mem s.reader = some (pc, m)) :
    PipeSys.EofInv pos readers { s with reader := pc, mem := m } := by
  have hfifo : PipeSys.Inv pos { s with reader := pc, mem := m } := Fifo.stepRead h.fifo hstep
  cases hpc : s.reader with
  | ret n rbuf =>
    rw [hpc] at hstep
    cases hstep
  | test n rbuf rpos wpos =>
    rw [hpc] at hstep
    have hok := h.fifo.reader
    rw [hpc] at hok
    obtain ⟨hr, -⟩ := hok
    have hsaw := h.saw
    rw [hpc] at hsaw
    have hown : ∀ x ∈ rpos, x = s.mem.pipe.pRpos := by
      intro x hx
      rw [hr x hx, h.fifo.rpos]
    rcases rpos with _ | x <;> rcases wpos with _ | y
    · cases rposFirst <;> cases hstep
      · refine h.moveReader hfifo rfl rfl (fun _ hs => ?_) (by simp) (by simp)
        have hdel : PipeSys.delivered { s with
            reader := .test n rbuf none (some s.mem.pipe.pWpos) } = s.delivered := by
          simp only [PipeSys.delivered, hpc, ReadPc.rbuf]
        rw [hdel]
        cases rbuf with
        | nil => exact h.fifo.delivered_eq_stored hs
        | cons b rbuf => exact hs.elim
      · refine eofInv_quiet h hfifo rfl rfl ?_ (by simp) (by simp)
        cases rbuf <;> exact id
    · cases hstep
      refine eofInv_compare h hfifo (by rw [hpc]; rfl) ?_
      rintro hclosed rfl rfl
      exact hsaw hclosed rfl
    · cases hstep
      refine eofInv_compare h hfifo (by rw [hpc]; rfl) ?_
      intro _ _ hxy
      rw [hown x rfl] at hxy
      exact h.fifo.delivered_eq_stored hxy.symm
    · cases hstep
      refine eofInv_compare h hfifo (by rw [hpc]; rfl) ?_
      rintro hclosed rfl rfl
      exact hsaw hclosed (hown x rfl)
  | closed n c =>
    have hask := h.asked n c hpc
    rw [hpc] at hstep
    cases c with
    | runs =>
      cases hstep
      exact eofInv_ask h hpc hfifo trivial
    | fdRef runs =>
      cases hstep
      exact eofInv_ask h hpc hfifo h.readerRef
    | pipeRef runs fd =>
      cases hstep
      refine eofInv_ask h hpc hfifo ⟨hask, fun heq => ?_⟩
      by_contra hopen
      have hpipe := h.pipeRef
      rw [if_neg hopen] at hpipe
      omega
    | again started fd pipe =>
      obtain ⟨hfd, hpipe⟩ := hask
      simp only [pipeRead, pipeIsClosed] at hstep
      split at hstep
      next hresult =>
        cases hstep
        split at hresult
        · cases hresult
          exact eofInv_ask h hpc hfifo trivial
        · cases hresult
      next hresult =>
        cases hstep
        split at hresult
        · cases hresult
        · have heq : fd = pipe := by simpa using hresult
          have hclosed : s.writer.Closed := hpipe (by rw [← heq, hfd])
          refine h.moveReader hfifo rfl rfl (fun _ hs => hs.elim) (by simp) ?_
          intro _ _ _
          have hdel := h.delivered_of_asked hpc hclosed
          simp only [PipeSys.delivered, hpc] at hdel
          exact ⟨hclosed, hdel⟩
      next =>
        cases hstep
        exact eofInv_quiet h hfifo rfl rfl (not_sawEmpty_head _ _ _) (head_ne_closed _ _)
          (head_ne_eof _ _)
  | index n rbuf =>
    rw [hpc] at hstep
    cases hstep
    exact eofInv_quiet h hfifo rfl rfl id (by simp) (by simp)
  | fetch n rbuf at' =>
    rw [hpc] at hstep
    cases hstep
    exact eofInv_quiet h hfifo rfl rfl id (by simp) (by simp)
  | load n rbuf byte =>
    rw [hpc] at hstep
    cases hstep
    exact eofInv_quiet h hfifo rfl rfl id (by simp) (by simp)
  | store n rbuf byte at' =>
    rw [hpc] at hstep
    cases hstep
    exact eofInv_quiet h hfifo rfl rfl (not_sawEmpty_head _ _ _) (head_ne_closed _ _)
      (head_ne_eof _ _)

/-! ## The writer -/

theorem not_closed_writeHead (vbuf : List Byte) (i : Nat) : ¬(WritePc.head vbuf i).Closed := by
  unfold WritePc.head
  split <;> exact id

theorem not_closed_writeCompare (vbuf : List Byte) (i : Nat) (wpos rpos : Word) :
    ¬(WritePc.compare vbuf i wpos rpos).Closed := by
  unfold WritePc.compare
  split <;> exact id

/-- The writer is gone only after it has unmapped the pipe's page, and no other step of it changes a
count that the reader looks at. -/
theorem pipeWrite_open {wposFirst : Bool} {runs : Word} {m m' : PipeMem} {w pc : WritePc}
    (hstep : pipeWrite wposFirst runs m w = some (pc, m')) (hopen : ¬w.Closed)
    (hunmap : w.isUnmapPipe = false) :
    ¬pc.Closed ∧ m'.readerRef = m.readerRef ∧ m'.pipeRef = m.pipeRef := by
  cases w with
  | test vbuf i wpos rpos =>
    rcases wpos with _ | x <;> rcases rpos with _ | y
    · cases wposFirst <;> cases hstep <;> exact ⟨id, rfl, rfl⟩
    all_goals
      cases hstep
      exact ⟨not_closed_writeCompare _ _ _ _, rfl, rfl⟩
  | closed vbuf i c =>
    simp only [pipeWrite] at hstep
    split at hstep <;> cases hstep
    · exact ⟨id, rfl, rfl⟩
    · exact ⟨id, rfl, rfl⟩
    · exact ⟨not_closed_writeHead _ _, rfl, rfl⟩
  | store vbuf i at' =>
    cases hstep
    exact ⟨not_closed_writeHead _ _, rfl, rfl⟩
  | unmapPipe => cases hunmap
  | fdClose => exact absurd trivial hopen
  | ret vbuf i => cases hstep
  | exited => cases hstep
  | index vbuf i | put vbuf i at' | load vbuf i | unmapFd =>
    cases hstep
    exact ⟨id, rfl, rfl⟩

theorem ClosedPc.Ok.mono {c : ClosedPc} {closed closed' : Prop} (h : c.Ok readers closed)
    (himp : closed → closed') : c.Ok readers closed' := by
  cases c with
  | again runs fd pipe => exact ⟨h.1, fun heq => himp (h.2 heq)⟩
  | pipeRef runs fd => exact h
  | _ => trivial

/-- The writer moves on and does not close its end. -/
theorem eofInv_open (h : s.EofInv pos readers) {pc : WritePc} {m : PipeMem} {wrote : List Byte}
    (hfifo : PipeSys.Inv pos { s with writer := pc, mem := m, wrote := wrote })
    (hopen : ¬s.writer.Closed) (hopen' : ¬pc.Closed)
    (hreader : m.readerRef = s.mem.readerRef) (hpipe : m.pipeRef = s.mem.pipeRef) :
    PipeSys.EofInv pos readers { s with writer := pc, mem := m, wrote := wrote } where
  fifo := hfifo
  readerRef := hreader.trans h.readerRef
  pipeRef := by
    have hold := h.pipeRef
    rw [if_neg hopen] at hold
    rw [if_neg hopen', hpipe, hold]
  saw hclosed := absurd hclosed hopen'
  asked n c hpc := (h.asked n c hpc).mono fun hclosed => absurd hclosed hopen
  eof n hpc hn := absurd (h.eof n hpc hn).1 hopen

/-- The last unmap: where the condition on the run is used. -/
theorem eofInv_unmapPipe (h : s.EofInv pos readers) (hpc : s.writer = .unmapPipe)
    (hfifo : PipeSys.Inv pos { s with
      writer := .fdClose, mem := { s.mem with pipeRef := s.mem.pipeRef - 1 } })
    (hok : s.reader.SawEmpty s.mem.pipe.pRpos → s.mem.pipe.pWpos = s.mem.pipe.pRpos) :
    PipeSys.EofInv pos readers { s with
      writer := .fdClose, mem := { s.mem with pipeRef := s.mem.pipeRef - 1 } } := by
  have hopen : ¬s.writer.Closed := by
    rw [hpc]
    exact id
  have hstored : s.stored = s.wrote := by
    simp only [PipeSys.stored, hpc, WritePc.sent, List.append_nil]
  refine ⟨hfifo, h.readerRef, ?_, ?_, ?_, ?_⟩
  · have hold := h.pipeRef
    rw [if_neg hopen] at hold
    rw [if_pos (show WritePc.fdClose.Closed from trivial)]
    simp only [hold, Nat.add_sub_cancel]
  · intro _ hsaw
    have hall := h.fifo.delivered_eq_stored (hok hsaw)
    rw [hstored] at hall
    exact hall.trans (List.append_nil _).symm
  · exact fun n c hc => (h.asked n c hc).mono fun _ => trivial
  · exact fun n hc hn => absurd (h.eof n hc hn).1 hopen

theorem eofInv_pipeWrite (h : s.EofInv pos readers) {wposFirst : Bool} {runs : Word} {pc : WritePc}
    {m : PipeMem} (hok : s.UnmapOk (.writer wposFirst))
    (hstep : pipeWrite wposFirst runs s.mem s.writer = some (pc, m)) :
    PipeSys.EofInv pos readers { s with writer := pc, mem := m } := by
  have hfifo : PipeSys.Inv pos { s with writer := pc, mem := m } := Fifo.stepWrite h.fifo hstep
  by_cases hclosed : s.writer.Closed
  · cases hpc : s.writer with
    | fdClose =>
      have hpipe := h.pipeRef
      have hsaw := h.saw
      have hasked := h.asked
      have heof := h.eof
      rw [hpc] at hstep hpipe hsaw hasked
      unfold PipeSys.EofSound PipeSys.stored at heof
      unfold PipeSys.stored at hsaw
      rw [hpc] at heof hsaw
      cases hstep
      exact ⟨hfifo, h.readerRef, hpipe, hsaw, hasked, heof⟩
    | exited =>
      rw [hpc] at hstep
      cases hstep
    | _ =>
      rw [hpc] at hclosed
      exact hclosed.elim
  · cases hunmap : s.writer.isUnmapPipe with
    | false =>
      obtain ⟨hopen', hreader, hpipe⟩ := pipeWrite_open hstep hclosed hunmap
      exact eofInv_open h hfifo hclosed hopen' hreader hpipe
    | true =>
      have hpc : s.writer = .unmapPipe := by
        cases hw : s.writer <;> rw [hw] at hunmap <;> first | rfl | cases hunmap
      rw [hpc] at hstep
      cases hstep
      exact eofInv_unmapPipe h hpc hfifo (hok hunmap)

/-! ## Runs -/

theorem eofInv_step {a : PipeAct} (h : s.EofInv pos readers)
    (hstep : guarded PipeSys.UnmapOk PipeSys.stepAlone s a = some t) : t.EofInv pos readers := by
  obtain ⟨hok, hstep⟩ := of_guarded hstep
  obtain ⟨halone, hstep⟩ := of_guarded hstep
  have hfifo := inv_step h.fifo hstep
  cases a with
  | switch =>
    cases hstep
    exact ⟨hfifo, h.readerRef, h.pipeRef, h.saw, h.asked, h.eof⟩
  | read n =>
    simp only [PipeSys.step] at hstep
    split at hstep
    next =>
      cases hstep
      refine ⟨hfifo, h.readerRef, h.pipeRef, ?_, ?_, ?_⟩
      · exact fun _ hsaw => absurd hsaw (not_sawEmpty_head _ _ _)
      · exact fun _ _ hpc => absurd hpc (head_ne_closed _ _ _ _)
      · exact fun _ hpc hn => absurd hpc (head_ne_eof _ _ _ hn)
    next => cases hstep
  | write vbuf =>
    simp only [PipeSys.step] at hstep
    split at hstep
    next hpc =>
      cases hstep
      exact eofInv_open h hfifo (by rw [hpc]; exact id) (not_closed_writeHead _ _) rfl rfl
    next => cases hstep
  | close =>
    simp only [PipeSys.step] at hstep
    split at hstep
    next hpc =>
      cases hstep
      exact eofInv_open h hfifo (by rw [hpc]; exact id) id rfl rfl
    next => cases hstep
  | reader rposFirst =>
    simp only [PipeSys.step] at hstep
    split at hstep
    next =>
      obtain ⟨⟨pc, m⟩, hread, rfl⟩ := Option.map_eq_some_iff.mp hstep
      exact eofInv_pipeRead h hread
    next => cases hstep
  | writer wposFirst =>
    simp only [PipeSys.step] at hstep
    split at hstep
    next =>
      obtain ⟨⟨pc, m⟩, hwrite, rfl⟩ := Option.map_eq_some_iff.mp hstep
      exact eofInv_pipeWrite h hok hwrite
    next => cases hstep
  | others readerRef writerRef pipeRef => exact halone.elim

end EofInv

theorem eofInv_start (pos : Word) (buf : Nat → Byte) (readers : Nat) (running : PipeEnd)
    (envRuns : PipeEnd → Word) :
    (PipeSys.start pos buf readers 1 (readers + 1) running envRuns).EofInv pos readers where
  fifo := inv_start _ _ _ _ _ _ _
  readerRef := rfl
  pipeRef := rfl
  saw hclosed := hclosed.elim
  asked _ _ hpc := by cases hpc
  eof n hpc hn := by
    cases hpc
    exact absurd hn (Nat.lt_irrefl 0)

/-- **An end of file means what it should**, in every run in which the writer does not unmap the
pipe's page while the reader takes the pipe for empty although bytes have been stored. -/
theorem pipe_eof_sound (pos : Word) (buf : Nat → Byte) (readers : Nat) (running : PipeEnd)
    (envRuns : PipeEnd → Word) (acts : List PipeAct) (s : PipeSys)
    (hrun : run (guarded PipeSys.UnmapOk PipeSys.stepAlone)
      (.start pos buf readers 1 (readers + 1) running envRuns) acts = some s) : s.EofSound :=
  (run_invariant (fun _ _ _ => eofInv_step) (eofInv_start _ _ _ _ _) hrun).eof

/-- The writer closes its end before the reader looks at the pipe. -/
theorem pipe_eof_sound_closed : ∃ acts s,
    run (guarded PipeSys.UnmapOk PipeSys.stepAlone)
      (.start 0 (fun _ => 0) 1 1 2 .writer (fun _ => 0)) acts = some s ∧
    s.reader = .ret 1 [] ∧ s.writer.Closed ∧ s.delivered = s.stored := by
  obtain ⟨s, hrun, htest⟩ := exists_of_run (guarded PipeSys.UnmapOk PipeSys.stepAlone)
    (.start 0 (fun _ => 0) 1 1 2 .writer (fun _ => 0))
    ([.close] ++ List.replicate 3 (.writer true) ++ [.switch, .read 1] ++
      List.replicate 6 (.reader true))
    (fun s => decide (s.reader = .ret 1 [])) (by decide)
  have hpc : s.reader = .ret 1 [] := of_decide_eq_true htest
  exact ⟨_, s, hrun, hpc, pipe_eof_sound _ _ _ _ _ _ s hrun 1 hpc (by decide)⟩

/-- **An end of file can come too early.** The reader finds the pipe empty; the writer writes a
byte and closes its end; the reader then finds the pipe closed and returns 0. -/
theorem pipe_eof_early : ¬∀ (pos : Word) (buf : Nat → Byte) (readers : Nat) (running : PipeEnd)
    (envRuns : PipeEnd → Word) (acts : List PipeAct) (s : PipeSys),
    run PipeSys.stepAlone (.start pos buf readers 1 (readers + 1) running envRuns) acts = some s →
      s.EofSound := by
  intro hall
  obtain ⟨s, hrun, htest⟩ := exists_of_run PipeSys.stepAlone
    (.start 0 (fun _ => 0) 1 1 2 .reader (fun _ => 0))
    ([.read 1, .reader true, .reader true, .switch, .write [7]] ++
      List.replicate 6 (.writer true) ++ [.close] ++ List.replicate 3 (.writer true) ++
      [.switch] ++ List.replicate 4 (.reader true))
    (fun s => decide (s.reader = .ret 1 [] ∧ s.delivered = [] ∧ s.stored = [7])) (by decide)
  obtain ⟨hpc, hdel, hstored⟩ := of_decide_eq_true htest
  have heq := (hall 0 (fun _ => 0) 1 .reader (fun _ => 0) _ s hrun 1 hpc (by decide)).2
  rw [hdel, hstored] at heq
  cases heq

end Mos
