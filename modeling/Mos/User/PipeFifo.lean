import Mos.Lib.Ring
import Mos.Lib.Run
import Mos.User.Pipe

/-!
# A pipe is a FIFO channel

The positions of a pipe are counters: `p_rpos` has been advanced once for each byte delivered, and
`p_wpos` once for each byte stored, whatever the two words look like after they have wrapped around.
The invariant says this, that the buffer holds the bytes stored and not yet delivered, and what each
env may rely on at each of its program counters. An env owns its own position; the other's position
it may have loaded long ago, and then it only knows that the other has moved on since.
-/

namespace Mos

open Lib

/-! ## What an env knows where it stands -/

/-- The reader, when `delivered` bytes of `stored` have been delivered. The value of `p_wpos` that it
has loaded may be an old one, but not older than its own position. -/
def ReadPc.Ok (pos : Word) (delivered : Nat) (stored : List Byte) : ReadPc → Prop
  | .ret _ _ => True
  | .test _ _ rpos wpos =>
    (∀ x ∈ rpos, x = wrapAdd pos delivered) ∧
    (∀ y ∈ wpos, ∃ m, y = wrapAdd pos m ∧ delivered ≤ m ∧ m ≤ stored.length)
  | .closed _ _ => True
  | .index _ _ => delivered < stored.length
  | .fetch _ _ at' => delivered < stored.length ∧ at' = wrapAdd pos delivered
  | .load _ _ byte => stored[delivered]? = some byte
  | .store _ _ byte at' => stored[delivered]? = some byte ∧ at' = wrapAdd pos delivered

/-- The writer, when `stored` bytes have been stored and `delivered` of them delivered. The value of
`p_rpos` that it has loaded may be an old one, so there may be more room than it knows. -/
def WritePc.Ok (pos : Word) (delivered stored : Nat) (buf : Nat → Byte) : WritePc → Prop
  | .test vbuf i wpos rpos =>
    i < vbuf.length ∧ (∀ x ∈ wpos, x = wrapAdd pos stored) ∧
    (∀ y ∈ rpos, ∃ m, y = wrapAdd pos m ∧ m ≤ delivered ∧ stored ≤ m + by2pipe)
  | .closed vbuf i _ => i < vbuf.length
  | .index vbuf i => i < vbuf.length ∧ stored < delivered + by2pipe
  | .put vbuf i at' =>
    i < vbuf.length ∧ stored < delivered + by2pipe ∧ at' = wrapAdd pos stored
  | .load vbuf i =>
    i < vbuf.length ∧ stored < delivered + by2pipe ∧
    buf ((pos.toNat + stored) % by2pipe) = vbuf.getD i 0
  | .store vbuf i at' =>
    i < vbuf.length ∧ stored < delivered + by2pipe ∧
    buf ((pos.toNat + stored) % by2pipe) = vbuf.getD i 0 ∧ at' = wrapAdd pos stored
  | _ => True

/-- The invariant of a pipe whose positions started at `pos`, once the bytes `stored` have been
stored and the bytes `delivered` delivered. -/
structure Fifo (pos : Word) (p : Pipe) (delivered stored : List Byte) (r : ReadPc) (w : WritePc) :
    Prop where
  rpos : p.pRpos = wrapAdd pos delivered.length
  wpos : p.pWpos = wrapAdd pos stored.length
  order : delivered <+: stored
  room : stored.length ≤ delivered.length + by2pipe
  ring : RingHolds by2pipe pos.toNat p.pBuf stored delivered.length
  reader : r.Ok pos delivered.length stored
  writer : w.Ok pos delivered.length stored.length p.pBuf

theorem by2pipe_dvd : by2pipe ∣ 2 ^ 32 := by decide

/-! ## The heads of the two loops -/

section Head

variable {pos : Word}

theorem ok_readHead (delivered : Nat) (stored : List Byte) (n : Nat) (rbuf : List Byte) :
    (ReadPc.head n rbuf).Ok pos delivered stored := by
  unfold ReadPc.head
  split
  · constructor <;> simp
  · trivial

@[simp] theorem rbuf_readHead (n : Nat) (rbuf : List Byte) :
    (ReadPc.head n rbuf).rbuf = rbuf := by
  unfold ReadPc.head
  split <;> rfl

theorem ok_writeHead (delivered stored : Nat) (buf : Nat → Byte) (vbuf : List Byte) (i : Nat) :
    (WritePc.head vbuf i).Ok pos delivered stored buf := by
  unfold WritePc.head
  split
  next hi =>
    refine ⟨hi, ?_⟩
    constructor <;> simp
  next => trivial

@[simp] theorem rbuf_readCompare (n : Nat) (rbuf : List Byte) (rpos wpos : Word) :
    (ReadPc.compare n rbuf rpos wpos).rbuf = rbuf := by
  unfold ReadPc.compare
  split
  · split
    next => rfl
    next hnil => exact (List.eq_nil_of_length_eq_zero (Nat.eq_zero_of_not_pos hnil)).symm
  · rfl

@[simp] theorem sent_writeCompare (vbuf : List Byte) (i : Nat) (wpos rpos : Word) :
    (WritePc.compare vbuf i wpos rpos).sent = vbuf.take i := by
  unfold WritePc.compare
  split <;> rfl

@[simp] theorem sent_writeHead (vbuf : List Byte) (i : Nat) :
    (WritePc.head vbuf i).sent = vbuf.take i := by
  unfold WritePc.head
  split <;> rfl

/-- What the writer knows stays true when a byte is delivered: there is only more room. -/
theorem WritePc.Ok.mono {d d' t : Nat} {buf : Nat → Byte} {pc : WritePc} (h : pc.Ok pos d t buf)
    (hle : d ≤ d') : pc.Ok pos d' t buf := by
  cases pc with
  | test vbuf i wpos rpos =>
    obtain ⟨hi, hw, hr⟩ := h
    refine ⟨hi, hw, fun y hy => ?_⟩
    obtain ⟨m, hm, hmd, hmt⟩ := hr y hy
    exact ⟨m, hm, by omega, hmt⟩
  | index vbuf i => exact ⟨h.1, Nat.lt_of_lt_of_le h.2 (by omega)⟩
  | put vbuf i at' => exact ⟨h.1, Nat.lt_of_lt_of_le h.2.1 (by omega), h.2.2⟩
  | load vbuf i => exact ⟨h.1, Nat.lt_of_lt_of_le h.2.1 (by omega), h.2.2⟩
  | store vbuf i at' => exact ⟨h.1, Nat.lt_of_lt_of_le h.2.1 (by omega), h.2.2⟩
  | closed vbuf i pc => exact h
  | _ => trivial

/-- What the reader knows stays true when a byte is stored. -/
theorem ReadPc.Ok.push {d : Nat} {stored : List Byte} {pc : ReadPc} (h : pc.Ok pos d stored)
    (byte : Byte) : pc.Ok pos d (stored ++ [byte]) := by
  have hget : ∀ b, stored[d]? = some b → (stored ++ [byte])[d]? = some b := by
    intro b hb
    obtain ⟨hlt, -⟩ := List.getElem?_eq_some_iff.mp hb
    rw [List.getElem?_append_left hlt, hb]
  cases pc with
  | test n rbuf rpos wpos =>
    obtain ⟨hr, hw⟩ := h
    refine ⟨hr, fun y hy => ?_⟩
    obtain ⟨m, hm, hdm, hmt⟩ := hw y hy
    exact ⟨m, hm, hdm, by simp; omega⟩
  | index n rbuf => exact Nat.lt_of_lt_of_le h (by simp)
  | fetch n rbuf at' => exact ⟨Nat.lt_of_lt_of_le h.1 (by simp), h.2⟩
  | load n rbuf b => exact hget b h
  | store n rbuf b at' => exact ⟨hget b h.1, h.2⟩
  | _ => trivial

end Head

namespace Fifo

variable {pos : Word} {p : Pipe} {delivered stored : List Byte} {r : ReadPc} {w : WritePc}

theorem le (h : Fifo pos p delivered stored r w) : delivered.length ≤ stored.length :=
  h.order.length_le

/-- A step of the reader that only loads. -/
theorem moveReader (h : Fifo pos p delivered stored r w) {pc : ReadPc}
    (hok : pc.Ok pos delivered.length stored) : Fifo pos p delivered stored pc w :=
  { h with reader := hok }

/-- A step of the writer that only loads. -/
theorem moveWriter (h : Fifo pos p delivered stored r w) {pc : WritePc}
    (hok : pc.Ok pos delivered.length stored.length p.pBuf) : Fifo pos p delivered stored r pc :=
  { h with writer := hok }

/-! ## The reader -/

/-- The reader finds a byte only when there is one: its own position is exact, and the writer's was
between the two when it was loaded. -/
theorem ok_readCompare (h : Fifo pos p delivered stored r w) {n m : Nat} (rbuf : List Byte)
    (hlo : delivered.length ≤ m) (hhi : m ≤ stored.length) :
    (ReadPc.compare n rbuf (wrapAdd pos delivered.length) (wrapAdd pos m)).Ok pos
      delivered.length stored := by
  have hroom := h.room
  simp only [by2pipe] at hroom
  unfold ReadPc.compare
  split
  next =>
    split <;> trivial
  next hne =>
    rw [wrapAdd_eq_iff pos hlo (by omega)] at hne
    exact Nat.lt_of_lt_of_le (Nat.lt_of_le_of_ne hlo hne) hhi

/-- The store of `p_rpos` delivers the byte in hand. -/
theorem take (h : Fifo pos p delivered stored r w) {n : Nat} {rbuf : List Byte} {byte : Byte}
    {at' : Word} (hpc : r = .store n rbuf byte at') :
    Fifo pos { p with pRpos := at' + 1 } (delivered ++ [byte]) stored
      (.head n (rbuf ++ [byte])) w := by
  have hok := h.reader
  rw [hpc] at hok
  obtain ⟨hbyte, hat⟩ := hok
  obtain ⟨rest, hrest⟩ := h.order
  have hcons : ∃ rest', rest = byte :: rest' := by
    rw [← hrest, List.getElem?_append_right (Nat.le_refl _), Nat.sub_self] at hbyte
    cases rest with
    | nil => cases hbyte
    | cons b rest' =>
      cases hbyte
      exact ⟨rest', rfl⟩
  obtain ⟨rest', rfl⟩ := hcons
  have hlen : (delivered ++ [byte]).length = delivered.length + 1 := by simp
  constructor
  · rw [hlen, wrapAdd_succ, hat]
  · exact h.wpos
  · exact ⟨rest', by rw [← hrest, List.append_assoc]; rfl⟩
  · rw [hlen]
    exact Nat.le_trans h.room (by omega)
  · rw [hlen]
    exact h.ring.drop (by omega)
  · exact ok_readHead _ _ _ _
  · rw [hlen]
    exact h.writer.mono (by omega)

/-! ## The writer -/

/-- The writer goes on only when there is room: the reader's position can only have moved on since
it was loaded. -/
theorem ok_writeCompare (h : Fifo pos p delivered stored r w) {i m : Nat} {vbuf : List Byte}
    (hi : i < vbuf.length) (hlo : m ≤ delivered.length) (hhi : stored.length ≤ m + by2pipe) :
    (WritePc.compare vbuf i (wrapAdd pos stored.length) (wrapAdd pos m)).Ok pos
      delivered.length stored.length p.pBuf := by
  have hle := h.le
  simp only [by2pipe] at hhi
  unfold WritePc.compare
  rw [toNat_wrapAdd_sub pos (by omega) (by omega)]
  split
  next => exact hi
  next hne =>
    refine ⟨hi, ?_⟩
    simp only [by2pipe] at hne ⊢
    omega

/-- The store of a byte into a free cell. -/
theorem put (h : Fifo pos p delivered stored r w) {vbuf : List Byte} {i : Nat} {at' : Word}
    (hpc : w = .put vbuf i at') :
    Fifo pos { p with pBuf := Function.update p.pBuf (at'.toNat % by2pipe) (vbuf.getD i 0) }
      delivered stored r (.load vbuf i) := by
  have hok := h.writer
  rw [hpc] at hok
  obtain ⟨hi, hroom, rfl⟩ := hok
  rw [toNat_wrapAdd_mod pos by2pipe_dvd]
  refine { h with ring := h.ring.put hroom _, writer := ⟨hi, hroom, ?_⟩ }
  exact Function.update_self ..

/-- The store of `p_wpos` publishes the byte in the cell. -/
theorem publish (h : Fifo pos p delivered stored r w) {vbuf : List Byte} {i : Nat} {at' : Word}
    (hpc : w = .store vbuf i at') :
    Fifo pos { p with pWpos := at' + 1 } delivered (stored ++ [vbuf.getD i 0]) r
      (.head vbuf (i + 1)) := by
  have hok := h.writer
  rw [hpc] at hok
  obtain ⟨-, hroom, hcell, hat⟩ := hok
  have hlen : (stored ++ [vbuf.getD i 0]).length = stored.length + 1 := by simp
  constructor
  · exact h.rpos
  · rw [hlen, wrapAdd_succ, hat]
  · exact h.order.trans (List.prefix_append _ _)
  · rw [hlen]
    exact hroom
  · exact h.ring.push hcell
  · exact h.reader.push _
  · exact ok_writeHead _ _ _ _ _

/-! ## One step of either env -/

theorem stepRead {m m' : PipeMem} {got : List Byte} {pc : ReadPc} {rposFirst : Bool} {runs : Word}
    (h : Fifo pos m.pipe (got ++ r.rbuf) stored r w)
    (hstep : pipeRead rposFirst runs m r = some (pc, m')) :
    Fifo pos m'.pipe (got ++ pc.rbuf) stored pc w := by
  cases r with
  | ret n rbuf => cases hstep
  | test n rbuf rpos wpos =>
    obtain ⟨hr, hw⟩ := h.reader
    have hcompare : ∀ k, (got ++ rbuf).length ≤ k → k ≤ stored.length →
        Fifo pos m.pipe (got ++ (ReadPc.compare n rbuf (wrapAdd pos (got ++ rbuf).length)
          (wrapAdd pos k)).rbuf) stored
          (.compare n rbuf (wrapAdd pos (got ++ rbuf).length) (wrapAdd pos k)) w := by
      intro k hlo hhi
      rw [rbuf_readCompare]
      exact h.moveReader (h.ok_readCompare rbuf hlo hhi)
    rcases rpos with _ | x <;> rcases wpos with _ | y
    · cases rposFirst <;> cases hstep
      · refine h.moveReader ⟨by simp, fun y hy => ?_⟩
        cases hy
        exact ⟨_, h.wpos, h.le, Nat.le_refl _⟩
      · refine h.moveReader ⟨fun x hx => ?_, by simp⟩
        cases hx
        exact h.rpos
    · cases hstep
      obtain ⟨k, rfl, hlo, hhi⟩ := hw y rfl
      rw [h.rpos]
      exact hcompare k hlo hhi
    · cases hstep
      have hx : x = wrapAdd pos (got ++ rbuf).length := hr x rfl
      rw [hx, h.wpos]
      exact hcompare _ h.le (Nat.le_refl _)
    · cases hstep
      have hx : x = wrapAdd pos (got ++ rbuf).length := hr x rfl
      obtain ⟨k, rfl, hlo, hhi⟩ := hw y rfl
      rw [hx]
      exact hcompare k hlo hhi
  | closed n c =>
    simp only [pipeRead] at hstep
    split at hstep
    · cases hstep
      exact h.moveReader trivial
    · cases hstep
      exact h.moveReader trivial
    · cases hstep
      rw [rbuf_readHead]
      exact h.moveReader (ok_readHead _ _ _ _)
  | index n rbuf =>
    cases hstep
    exact h.moveReader ⟨h.reader, h.rpos⟩
  | fetch n rbuf at' =>
    cases hstep
    obtain ⟨hlt, hat⟩ := h.reader
    refine h.moveReader ?_
    rw [hat, toNat_wrapAdd_mod pos by2pipe_dvd]
    exact h.ring _ (Nat.le_refl _) hlt
  | load n rbuf byte =>
    cases hstep
    exact h.moveReader ⟨h.reader, h.rpos⟩
  | store n rbuf byte at' =>
    cases hstep
    rw [rbuf_readHead, ← List.append_assoc]
    exact h.take rfl

theorem stepWrite {m m' : PipeMem} {wrote : List Byte} {pc : WritePc} {wposFirst : Bool}
    {runs : Word} (h : Fifo pos m.pipe delivered (wrote ++ w.sent) r w)
    (hstep : pipeWrite wposFirst runs m w = some (pc, m')) :
    Fifo pos m'.pipe delivered (wrote ++ pc.sent) r pc := by
  cases w with
  | ret vbuf i => cases hstep
  | test vbuf i wpos rpos =>
    obtain ⟨hi, hw, hr⟩ := h.writer
    have hcompare : ∀ k, k ≤ delivered.length → (wrote ++ vbuf.take i).length ≤ k + by2pipe →
        Fifo pos m.pipe delivered (wrote ++ (WritePc.compare vbuf i
          (wrapAdd pos (wrote ++ vbuf.take i).length) (wrapAdd pos k)).sent) r
          (.compare vbuf i (wrapAdd pos (wrote ++ vbuf.take i).length) (wrapAdd pos k)) := by
      intro k hlo hhi
      rw [sent_writeCompare]
      exact h.moveWriter (h.ok_writeCompare hi hlo hhi)
    rcases wpos with _ | x <;> rcases rpos with _ | y
    · cases wposFirst <;> cases hstep
      · refine h.moveWriter ⟨hi, by simp, fun y hy => ?_⟩
        cases hy
        exact ⟨_, h.rpos, Nat.le_refl _, h.room⟩
      · refine h.moveWriter ⟨hi, fun x hx => ?_, by simp⟩
        cases hx
        exact h.wpos
    · cases hstep
      obtain ⟨k, rfl, hlo, hhi⟩ := hr y rfl
      rw [h.wpos]
      exact hcompare k hlo hhi
    · cases hstep
      have hx : x = wrapAdd pos (wrote ++ vbuf.take i).length := hw x rfl
      rw [hx, h.rpos]
      exact hcompare _ (Nat.le_refl _) h.room
    · cases hstep
      have hx : x = wrapAdd pos (wrote ++ vbuf.take i).length := hw x rfl
      obtain ⟨k, rfl, hlo, hhi⟩ := hr y rfl
      rw [hx]
      exact hcompare k hlo hhi
  | closed vbuf i c =>
    simp only [pipeWrite] at hstep
    split at hstep
    · cases hstep
      exact h.moveWriter h.writer
    · cases hstep
      exact h.moveWriter trivial
    · cases hstep
      rw [sent_writeHead]
      exact h.moveWriter (ok_writeHead _ _ _ _ _)
  | index vbuf i =>
    cases hstep
    exact h.moveWriter ⟨h.writer.1, h.writer.2, h.wpos⟩
  | put vbuf i at' =>
    cases hstep
    exact h.put rfl
  | load vbuf i =>
    cases hstep
    exact h.moveWriter ⟨h.writer.1, h.writer.2.1, h.writer.2.2, h.wpos⟩
  | store vbuf i at' =>
    cases hstep
    have hi : i < vbuf.length := h.writer.1
    have hsent : vbuf.take (i + 1) = vbuf.take i ++ [vbuf.getD i 0] := by
      rw [List.take_succ_eq_append_getElem hi]
      simp [hi]
    rw [sent_writeHead, hsent, ← List.append_assoc]
    exact h.publish rfl
  | unmapFd =>
    cases hstep
    exact h.moveWriter trivial
  | unmapPipe =>
    cases hstep
    exact h.moveWriter trivial
  | fdClose =>
    cases hstep
    exact h.moveWriter trivial
  | exited => cases hstep

end Fifo

/-! ## Runs -/

/-- The invariant of the two envs. -/
def PipeSys.Inv (pos : Word) (s : PipeSys) : Prop :=
  Fifo pos s.mem.pipe s.delivered s.stored s.reader s.writer

theorem inv_step {pos : Word} {s t : PipeSys} {a : PipeAct} (h : s.Inv pos)
    (hstep : s.step a = some t) : t.Inv pos := by
  cases a with
  | switch =>
    cases hstep
    exact h
  | read n =>
    simp only [PipeSys.step] at hstep
    split at hstep
    next n' rbuf _ hpc =>
      cases hstep
      unfold PipeSys.Inv PipeSys.delivered at h ⊢
      rw [hpc] at h
      simp only [rbuf_readHead, List.append_nil]
      exact h.moveReader (ok_readHead _ _ _ _)
    next => cases hstep
  | write vbuf =>
    simp only [PipeSys.step] at hstep
    split at hstep
    next vbuf' i _ hpc =>
      cases hstep
      unfold PipeSys.Inv PipeSys.stored at h ⊢
      rw [hpc] at h
      simp only [sent_writeHead, List.take_zero, List.append_nil]
      exact h.moveWriter (ok_writeHead _ _ _ _ _)
    next => cases hstep
  | close =>
    simp only [PipeSys.step] at hstep
    split at hstep
    next vbuf' i _ hpc =>
      cases hstep
      unfold PipeSys.Inv PipeSys.stored at h ⊢
      rw [hpc] at h
      simp only [WritePc.sent, List.append_nil]
      exact h.moveWriter trivial
    next => cases hstep
  | reader rposFirst =>
    simp only [PipeSys.step] at hstep
    split at hstep
    next =>
      obtain ⟨⟨pc, m⟩, hread, rfl⟩ := Option.map_eq_some_iff.mp hstep
      exact Fifo.stepRead h hread
    next => cases hstep
  | writer wposFirst =>
    simp only [PipeSys.step] at hstep
    split at hstep
    next =>
      obtain ⟨⟨pc, m⟩, hwrite, rfl⟩ := Option.map_eq_some_iff.mp hstep
      exact Fifo.stepWrite h hwrite
    next => cases hstep
  | others readerRef writerRef pipeRef =>
    cases hstep
    exact h

theorem inv_start (pos : Word) (buf : Nat → Byte) (readerRef writerRef pipeRef : Nat)
    (running : PipeEnd) (envRuns : PipeEnd → Word) :
    (PipeSys.start pos buf readerRef writerRef pipeRef running envRuns).Inv pos where
  rpos := (wrapAdd_zero pos).symm
  wpos := (wrapAdd_zero pos).symm
  order := List.prefix_refl _
  room := Nat.zero_le _
  ring := ringHolds_of_length_le (Nat.le_refl _)
  reader := trivial
  writer := trivial

theorem inv_of_pipeRun {pos : Word} {buf : Nat → Byte} {readerRef writerRef pipeRef : Nat}
    {running : PipeEnd} {envRuns : PipeEnd → Word} {acts : List PipeAct} {s : PipeSys}
    (hrun : run PipeSys.step (.start pos buf readerRef writerRef pipeRef running envRuns) acts
      = some s) : s.Inv pos :=
  run_invariant (fun _ _ _ => inv_step) (inv_start _ _ _ _ _ _ _) hrun

/-- **A pipe is a FIFO channel.** At every moment of every interleaving, at most `BY2PIPE` bytes are
on their way; they are the last bytes stored, in order; and all other bytes stored have been
delivered, in order. A byte that the reader has loaded and not yet counted in `p_rpos` is the first of
those on their way. -/
theorem pipe_fifo (pos : Word) (buf : Nat → Byte) (readerRef writerRef pipeRef : Nat)
    (running : PipeEnd) (envRuns : PipeEnd → Word) (acts : List PipeAct) (s : PipeSys)
    (hrun : run PipeSys.step (.start pos buf readerRef writerRef pipeRef running envRuns) acts
      = some s) :
    (s.mem.pipe.pWpos - s.mem.pipe.pRpos).toNat ≤ by2pipe ∧
    ∃ pending, s.stored = s.delivered ++ pending ∧
      pending.length = (s.mem.pipe.pWpos - s.mem.pipe.pRpos).toNat ∧
      s.reader.inHand <+: pending := by
  have h := inv_of_pipeRun hrun
  have hroom := h.room
  have hle := h.le
  have hdiff : (s.mem.pipe.pWpos - s.mem.pipe.pRpos).toNat
      = s.stored.length - s.delivered.length := by
    simp only [by2pipe] at hroom
    rw [h.wpos, h.rpos, toNat_wrapAdd_sub pos hle (by omega)]
  obtain ⟨pending, hpending⟩ := h.order
  have hlen : s.stored.length = s.delivered.length + pending.length := by
    rw [← hpending, List.length_append]
  refine ⟨by omega, pending, hpending.symm, by omega, ?_⟩
  have hfirst : ∀ byte, s.stored[s.delivered.length]? = some byte → [byte] <+: pending := by
    intro byte hbyte
    rw [← hpending, List.getElem?_append_right (Nat.le_refl _), Nat.sub_self] at hbyte
    cases pending with
    | nil => cases hbyte
    | cons b rest =>
      cases hbyte
      exact ⟨rest, rfl⟩
  have hreader := h.reader
  cases hpc : s.reader with
  | load n rbuf byte =>
    rw [hpc] at hreader
    exact hfirst byte hreader
  | store n rbuf byte at' =>
    rw [hpc] at hreader
    exact hfirst byte hreader.1
  | _ => exact List.nil_prefix

/-- Two bytes are written to a pipe whose positions wrap around between them, and one is read. -/
theorem pipe_fifo_wrapping : ∃ acts s,
    run PipeSys.step (.start 0xffffffff (fun _ => 0) 1 1 2 .writer (fun _ => 0)) acts = some s ∧
    s.mem.pipe.pWpos = 1 ∧ s.delivered = [7] ∧
    ∃ pending, s.stored = s.delivered ++ pending ∧ pending.length = 1 := by
  obtain ⟨s, hrun, htest⟩ := exists_of_run PipeSys.step
    (.start 0xffffffff (fun _ => 0) 1 1 2 .writer (fun _ => 0))
    (.write [7, 8] :: List.replicate 12 (.writer true) ++
      [.switch, .read 1] ++ List.replicate 6 (.reader true))
    (fun s => s.mem.pipe.pWpos == 1 && s.mem.pipe.pRpos == 0 && s.delivered == [7])
    (by decide)
  simp only [Bool.and_eq_true, beq_iff_eq] at htest
  obtain ⟨⟨hwpos, hrpos⟩, hdel⟩ := htest
  obtain ⟨-, pending, hstored, hlen, -⟩ := pipe_fifo _ _ _ _ _ _ _ _ s hrun
  exact ⟨_, s, hrun, hwpos, hdel, pending, hstored, by rw [hlen, hwpos, hrpos]; rfl⟩

end Mos
