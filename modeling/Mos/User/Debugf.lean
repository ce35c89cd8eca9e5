import Mos.User.PrintFmt

/-!
# Buffered output of the debugger

`debug_output` of `user/lib/debugf.c` collects what `vprintfmt` prints in a buffer on the stack. When the buffer is
full, `debug_flush` hands it to the kernel.
-/

namespace Mos

open Lib Prog Function

/-! ## `user/lib/debugf.c` -/

/-- `BUF_LEN`. -/
def bufLen : Nat := 1024
/-- `sizeof(struct debug_ctx)`. -/
def debugCtxSize : Nat := 1028

/-- `struct debug_ctx`. -/
structure DebugCtx where
  buf : Nat → Byte
  pos : Nat

/-- A program that prints through a context at the address `addr`. -/
structure Debugger where
  addr : Nat
  ctx : DebugCtx
  /-- The strings that `syscall_print_cons` has been called with. -/
  printed : List (List Byte)
  /-- Not part of the program: the values that `ctx->pos` has been given. -/
  positions : List Nat

/-- Why the output stops. -/
inductive DebugPanic where
  /-- An access outside the buffer or the string. -/
  | wild
  /-- `user_panic`. -/
  | panic
  /-- A loop has used up its fuel. -/
  | spin
deriving DecidableEq

/-- Functions that print for debugging. -/
abbrev DebugM := Prog Debugger Empty DebugPanic

/-- `ctx->pos = n`. -/
def setPos (n : Nat) : DebugM Unit := Prog.modify fun d =>
  { d with ctx := { d.ctx with pos := n }, positions := d.positions ++ [n] }

/-- `memcpy(ctx->buf + ctx->pos, s, n)`. -/
def copyIn (s : List Byte) (n : Nat) : DebugM Unit := do
  let d ← Prog.get
  Prog.assert (n ≤ s.length ∧ d.ctx.pos + n ≤ bufLen) .wild
  Prog.put { d with ctx := { d.ctx with
    buf := fun k => if d.ctx.pos ≤ k ∧ k < d.ctx.pos + n then s.getD (k - d.ctx.pos) 0 else d.ctx.buf k } }

/-- The test of `sys_print_cons` for the range from `s` on with `num` bytes. -/
def consFails (s num : Nat) : Prop :=
  (s + num) % 2 ^ 32 > utop.toNat ∨ s ≥ utop.toNat ∨ s > (s + num) % 2 ^ 32

instance (s num : Nat) : Decidable (consFails s num) := inferInstanceAs (Decidable (_ ∨ _))

/-- `debug_flush(ctx)`. -/
def debugFlush : DebugM Unit := do
  let d ← Prog.get
  if d.ctx.pos = 0 then pure ()
  else do
    Prog.assert (¬consFails d.addr d.ctx.pos) .panic
    Prog.put { d with printed := d.printed ++ [(List.range d.ctx.pos).map d.ctx.buf] }
    setPos 0

/-- The loop of `debug_output` and what follows it, with the rest `s` of the string. -/
def outputRun : Nat → List Byte → DebugM Unit
  | 0, _ => Prog.halt .spin
  | fuel + 1, s => do
    let d ← Prog.get
    if (d.ctx.pos + s.length) % 2 ^ 32 > bufLen then do
      let n := (bufLen + 2 ^ 32 - d.ctx.pos) % 2 ^ 32
      copyIn s n
      setPos bufLen
      debugFlush
      outputRun fuel (s.drop n)
    else do
      copyIn s s.length
      setPos ((d.ctx.pos + s.length) % 2 ^ 32)

/-- `debug_output(ctx, s, l)`. -/
def debugOutput (s : List Byte) : DebugM Unit := outputRun (s.length + 2) s

/-- Calls of `debug_output`, and `debug_flush` behind them. -/
def debugCalls : List (List Byte) → DebugM Unit
  | [] => debugFlush
  | s :: ss => do
    debugOutput s
    debugCalls ss

/-- The context is on the stack, and `ctx.pos = 0`. -/
def Debugger.start (addr : Nat) (buf : Nat → Byte) : Debugger := ⟨addr, ⟨buf, 0⟩, [], []⟩

/-- A string in memory that does not overlap the context. -/
structure Source (ctx : Nat) where
  start : Nat
  bytes : List Byte
  inside : start + bytes.length ≤ 2 ^ 32
  apart : start + bytes.length ≤ ctx ∨ ctx + debugCtxSize ≤ start

/-! ## One call -/

variable {d : Debugger} {s : List Byte} {n : Nat}

/-- What is still in the buffer. -/
def Debugger.pending (d : Debugger) : List Byte := (List.range d.ctx.pos).map d.ctx.buf

/-- All that has been given out, to the kernel or to the buffer. -/
def Debugger.total (d : Debugger) : List Byte := d.printed.flatten ++ d.pending

/-- The context is below `UTOP`, and `ctx->pos` is and was at most `BUF_LEN`. -/
structure Debugger.Sound (d : Debugger) : Prop where
  below : d.addr + debugCtxSize ≤ utop.toNat
  pos : d.ctx.pos ≤ bufLen
  positions : ∀ n ∈ d.positions, n ≤ bufLen

/-- `t` is sound, and the bytes `s` have been given out since `d`. -/
structure Emits (d t : Debugger) (s : List Byte) : Prop where
  sound : t.Sound
  total : t.total = d.total ++ s

theorem Emits.trans {t u : Debugger} {s' : List Byte} (h : Emits d t s) (h' : Emits t u s') :
    Emits d u (s ++ s') :=
  ⟨h'.sound, by rw [h'.total, h.total, List.append_assoc]⟩

/-- The state after `n` bytes have been put into the buffer. -/
def Debugger.filled (d : Debugger) (s : List Byte) (n : Nat) : Debugger :=
  { d with
    ctx := ⟨fun k => if d.ctx.pos ≤ k ∧ k < d.ctx.pos + n then s.getD (k - d.ctx.pos) 0 else d.ctx.buf k, d.ctx.pos + n⟩
    positions := d.positions ++ [d.ctx.pos + n] }

theorem fill_ret (hn : n ≤ s.length) (hfits : d.ctx.pos + n ≤ bufLen) {m : Nat} (hm : m = d.ctx.pos + n)
    (f : DebugM Unit) :
    (do
      copyIn s n
      setPos m
      f) d = f (d.filled s n) := by
  subst hm
  have hcopy : copyIn s n d = .ret () { d with ctx := { d.ctx with
      buf := fun k => if d.ctx.pos ≤ k ∧ k < d.ctx.pos + n then s.getD (k - d.ctx.pos) 0 else d.ctx.buf k } } :=
    bind_ret (assert_pos ⟨hn, hfits⟩)
  exact bind_ret hcopy

theorem filled_emits (h : d.Sound) (hn : n ≤ s.length) (hfits : d.ctx.pos + n ≤ bufLen) :
    Emits d (d.filled s n) (s.take n) := by
  refine ⟨⟨h.below, hfits, fun m hm => ?_⟩, ?_⟩
  · rcases List.mem_append.mp hm with hm | hm
    · exact h.positions m hm
    · rw [List.mem_singleton.mp hm]
      exact hfits
  · have hpending : (d.filled s n).pending = d.pending ++ s.take n := by
      show (List.range (d.ctx.pos + n)).map _ = _
      rw [List.range_add, List.map_append, List.map_map]
      congr 1
      · refine List.map_congr_left fun k hk => ?_
        rw [List.mem_range] at hk
        exact if_neg (by omega)
      · refine List.ext_getElem (by simp [hn]) fun k hk hk' => ?_
        rw [List.length_map, List.length_range] at hk
        rw [List.getElem_map, List.getElem_range, List.getElem_take]
        show (if d.ctx.pos ≤ d.ctx.pos + k ∧ d.ctx.pos + k < d.ctx.pos + n then
          s.getD (d.ctx.pos + k - d.ctx.pos) 0 else _) = _
        rw [if_pos ⟨by omega, by omega⟩, Nat.add_sub_cancel_left, List.getD_eq_getElem]
    show d.printed.flatten ++ (d.filled s n).pending = _
    rw [hpending, ← List.append_assoc]
    rfl

/-- The state after the buffer has been given to the kernel. -/
def Debugger.flushed (d : Debugger) : Debugger :=
  { d with
    ctx := { d.ctx with pos := 0 }
    printed := d.printed ++ [d.pending]
    positions := d.positions ++ [0] }

theorem debugFlush_ret (h : d.Sound) (hpos : d.ctx.pos ≠ 0) : debugFlush d = .ret () d.flushed := by
  have hbelow := h.below
  have hle := h.pos
  have hsmall : utop.toNat = 0x7f400000 := by decide
  unfold debugCtxSize at hbelow
  unfold bufLen at hle
  have hok : ¬consFails d.addr d.ctx.pos := by
    unfold consFails
    omega
  rw [debugFlush, get_bind, if_neg hpos, bind_ret (assert_pos hok)]
  rfl

theorem flushed_emits (h : d.Sound) : Emits d d.flushed [] := by
  refine ⟨⟨h.below, Nat.zero_le _, fun m hm => ?_⟩, ?_⟩
  · rcases List.mem_append.mp hm with hm | hm
    · exact h.positions m hm
    · rw [List.mem_singleton.mp hm]
      exact Nat.zero_le _
  · show (d.printed ++ [d.pending]).flatten ++ [] = _
    simp [Debugger.total]

/-! ## The loop and the calls -/

theorem Source.length_le {ctx : Nat} (hctx : ctx + debugCtxSize ≤ utop.toNat) (x : Source ctx) :
    x.bytes.length + debugCtxSize ≤ 2 ^ 32 := by
  have hin := x.inside
  have hsmall : utop.toNat = 0x7f400000 := by decide
  rcases x.apart with h | h <;> omega

/-- The loop of `debug_output` makes progress: only its first round may find a part of the buffer in use. -/
theorem outputRun_emits : ∀ fuel (s : List Byte) (d : Debugger), d.Sound → s.length + debugCtxSize ≤ 2 ^ 32 →
    s.length + (if d.ctx.pos = 0 then 0 else 1) < fuel →
    ∃ t, outputRun fuel s d = .ret () t ∧ t.addr = d.addr ∧ Emits d t s := by
  intro fuel
  induction fuel with
  | zero => exact fun _ _ _ _ h => absurd h (Nat.not_lt_zero _)
  | succ fuel ih =>
    intro s d hd hlen hfuel
    have hpos := hd.pos
    unfold debugCtxSize at hlen
    have hsum : (d.ctx.pos + s.length) % 2 ^ 32 = d.ctx.pos + s.length := by
      unfold bufLen at hpos
      omega
    rw [outputRun, get_bind, hsum]
    by_cases hfull : d.ctx.pos + s.length > bufLen
    · have hn : (bufLen + 2 ^ 32 - d.ctx.pos) % 2 ^ 32 = bufLen - d.ctx.pos := by
        unfold bufLen at hpos ⊢
        omega
      rw [if_pos hfull, hn]
      have hfilled := filled_emits (s := s) hd (show bufLen - d.ctx.pos ≤ s.length by omega) (by omega)
      have hpos' : (d.filled s (bufLen - d.ctx.pos)).ctx.pos ≠ 0 := by
        show d.ctx.pos + (bufLen - d.ctx.pos) ≠ 0
        unfold bufLen at hpos ⊢
        omega
      have hflushed := flushed_emits hfilled.sound
      have hshort : (s.drop (bufLen - d.ctx.pos)).length < fuel := by
        rw [List.length_drop]
        unfold bufLen at hfull hpos ⊢
        split at hfuel <;> omega
      obtain ⟨t, hrun, haddr, ht⟩ := ih (s.drop (bufLen - d.ctx.pos)) _ hflushed.sound
        (by rw [List.length_drop]; unfold debugCtxSize; omega) hshort
      refine ⟨t, ?_, haddr, ?_⟩
      · rw [fill_ret (by omega) (by omega) (show bufLen = d.ctx.pos + (bufLen - d.ctx.pos) by omega),
          bind_ret (debugFlush_ret hfilled.sound hpos')]
        exact hrun
      have h := (hfilled.trans hflushed).trans ht
      rwa [List.append_nil, List.take_append_drop] at h
    · rw [if_neg hfull]
      have h := filled_emits hd (Nat.le_refl s.length) (Nat.le_of_not_lt hfull)
      rw [List.take_length] at h
      refine ⟨d.filled s s.length, ?_, rfl, h⟩
      exact fill_ret (Nat.le_refl _) (Nat.le_of_not_lt hfull) rfl (pure ())

theorem debugCalls_emits (addr : Nat) : ∀ (ss : List (Source addr)) (d : Debugger), d.addr = addr → d.Sound →
    ∃ t, debugCalls (ss.map Source.bytes) d = .ret () t ∧ t.ctx.pos = 0 ∧
      Emits d t (ss.map Source.bytes).flatten := by
  intro ss
  induction ss with
  | nil =>
    intro d _ hd
    by_cases hpos : d.ctx.pos = 0
    · exact ⟨d, (congrFun (if_pos hpos) d : _), hpos, hd, by simp⟩
    · exact ⟨_, debugFlush_ret hd hpos, rfl, flushed_emits hd⟩
  | cons x ss ih =>
    intro d haddr hd
    have hlen := x.length_le (haddr ▸ hd.below)
    obtain ⟨t, hrun, haddr', ht⟩ := outputRun_emits (x.bytes.length + 2) x.bytes d hd hlen (by split <;> omega)
    obtain ⟨u, hcalls, hpos, hu⟩ := ih t (haddr'.trans haddr) ht.sound
    exact ⟨u, (bind_ret hrun).trans hcalls, hpos, ht.trans hu⟩

/-- **Whatever is printed, the loops come to an end, `ctx->pos` is never more than `BUF_LEN`, the copies stay in the
buffer, and the kernel gets the strings that were printed, put together.** -/
theorem debugCalls_complete (addr : Nat) (buf : Nat → Byte) (ss : List (Source addr))
    (hstack : addr + debugCtxSize ≤ utop.toNat) :
    ∃ t, debugCalls (ss.map Source.bytes) (.start addr buf) = .ret () t ∧ (∀ n ∈ t.positions, n ≤ bufLen) ∧
      t.printed.flatten = (ss.map Source.bytes).flatten := by
  obtain ⟨t, hrun, hpos, ht⟩ := debugCalls_emits addr ss (.start addr buf) rfl
    ⟨hstack, Nat.zero_le _, fun n hn => absurd hn List.not_mem_nil⟩
  refine ⟨t, hrun, ht.sound.positions, ?_⟩
  have htotal := ht.total
  unfold Debugger.total Debugger.pending at htotal
  rw [hpos] at htotal
  simpa [Debugger.start] using htotal

/-- A string of three bytes and one that fills the buffer twice. -/
theorem debugCalls_complete_small :
    ∃ t, debugCalls [[1, 2, 3], List.replicate 2048 4] (.start 0x7f3fd000 fun _ => 0) = .ret () t ∧
      (∀ n ∈ t.positions, n ≤ bufLen) ∧ t.printed.flatten = [1, 2, 3] ++ List.replicate 2048 4 := by
  obtain ⟨t, hrun, hpos, hprinted⟩ := debugCalls_complete 0x7f3fd000 (fun _ => 0)
    [⟨0x400000, [1, 2, 3], by decide, .inl (by decide)⟩,
      ⟨0x500000, List.replicate 2048 4, by rw [List.length_replicate]; decide,
        .inl (by rw [List.length_replicate]; decide)⟩] (by decide)
  refine ⟨t, hrun, hpos, hprinted.trans ?_⟩
  show ([1, 2, 3] : List Byte) ++ (List.replicate 2048 4 ++ []) = _
  rw [List.append_nil]

end Mos
