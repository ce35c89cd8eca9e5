import Mathlib.Logic.Function.Basic
import Mathlib.Tactic.Common

/-!
# Programs that return, fail or halt

A sequential C function that reads and writes a state of type `σ` ends in one of three ways:
it returns a value, it returns an error code, or it never returns (a panic, a failed assertion).
`Prog σ ε π α` is the type of such functions, with error codes `ε` and reasons to halt `π`.
An error does not roll the state back: `err` carries the state that the function leaves behind.

`Outcome.Sat` is the rule of pre- and postconditions for them: a condition on the returned value
and state, one on the error and its state, and one on the reason to halt. The lemmas `sat_*` compute
it along the structure of a program, so that a proof about a function follows its text.
-/

namespace Lib

/-- How a program ends. -/
inductive Outcome (σ ε π α : Type) where
  | ret (a : α) (s : σ)
  | err (e : ε) (s : σ)
  | halt (p : π)

/-- A program over the state `σ`. -/
def Prog (σ ε π α : Type) : Type := σ → Outcome σ ε π α

variable {σ ε π α β : Type}

namespace Outcome

/-- The three-way postcondition: on a return, on an error, on a halt. -/
def Sat (o : Outcome σ ε π α) (Q : α → σ → Prop) (E : ε → σ → Prop) (H : π → Prop) : Prop :=
  match o with
  | .ret a s => Q a s
  | .err e s => E e s
  | .halt p => H p

/-- The state a program leaves behind, if it comes back at all. -/
def state? : Outcome σ ε π α → Option σ
  | .ret _ s => some s
  | .err _ s => some s
  | .halt _ => none

/-- The state after a program without a result, if it returns. -/
def ret? : Outcome σ ε π Unit → Option σ
  | .ret _ s => some s
  | _ => none

/-- It is a return that passes the test `p`. -/
def retAnd (o : Outcome σ ε π α) (p : α → σ → Bool) : Bool :=
  match o with
  | .ret a s => p a s
  | _ => false

/-- It is an error that passes the test `p`. -/
def errAnd (o : Outcome σ ε π α) (p : ε → σ → Bool) : Bool :=
  match o with
  | .err e s => p e s
  | _ => false

/-- It is a halt that passes the test `p`. -/
def haltAnd (o : Outcome σ ε π α) (p : π → Bool) : Bool :=
  match o with
  | .halt q => p q
  | _ => false

/-- Two programs end in the same way, in states that `R` relates. -/
def Agree (R : σ → σ → Prop) : Outcome σ ε π α → Outcome σ ε π α → Prop
  | .ret a s, .ret b t => a = b ∧ R s t
  | .err e s, .err f t => e = f ∧ R s t
  | .halt p, .halt q => p = q
  | _, _ => False

theorem ret?_eq_some {o : Outcome σ ε π Unit} {s : σ} : o.ret? = some s ↔ o = .ret () s := by
  cases o <;> simp [ret?]

theorem retAnd_eq_true {o : Outcome σ ε π α} {p : α → σ → Bool} :
    o.retAnd p = true ↔ ∃ a s, o = .ret a s ∧ p a s = true := by
  cases o <;> simp [retAnd]

theorem errAnd_eq_true {o : Outcome σ ε π α} {p : ε → σ → Bool} :
    o.errAnd p = true ↔ ∃ e s, o = .err e s ∧ p e s = true := by
  cases o <;> simp [errAnd]

theorem haltAnd_eq_true {o : Outcome σ ε π α} {p : π → Bool} :
    o.haltAnd p = true ↔ ∃ q, o = .halt q ∧ p q = true := by
  cases o <;> simp [haltAnd]

@[simp] theorem sat_ret {a : α} {s : σ} {Q : α → σ → Prop} {E : ε → σ → Prop} {H : π → Prop} :
    (Outcome.ret a s).Sat Q E H ↔ Q a s := Iff.rfl

@[simp] theorem sat_err {e : ε} {s : σ} {Q : α → σ → Prop} {E : ε → σ → Prop} {H : π → Prop} :
    (Outcome.err e s).Sat Q E H ↔ E e s := Iff.rfl

@[simp] theorem sat_halt {p : π} {Q : α → σ → Prop} {E : ε → σ → Prop} {H : π → Prop} :
    (Outcome.halt p).Sat Q E H ↔ H p := Iff.rfl

@[simp] theorem state?_ret (a : α) (s : σ) :
    (Outcome.ret a s : Outcome σ ε π α).state? = some s := rfl

@[simp] theorem state?_err (e : ε) (s : σ) :
    (Outcome.err e s : Outcome σ ε π α).state? = some s := rfl

@[simp] theorem state?_halt (p : π) : (Outcome.halt p : Outcome σ ε π α).state? = none := rfl

theorem Sat.mono {o : Outcome σ ε π α} {Q Q' : α → σ → Prop} {E E' : ε → σ → Prop}
    {H H' : π → Prop} (h : o.Sat Q E H) (hQ : ∀ a s, Q a s → Q' a s)
    (hE : ∀ e s, E e s → E' e s) (hH : ∀ p, H p → H' p) : o.Sat Q' E' H' := by
  cases o with
  | ret a s => exact hQ a s h
  | err e s => exact hE e s h
  | halt p => exact hH p h

theorem Sat.and {o : Outcome σ ε π α} {Q Q' : α → σ → Prop} {E E' : ε → σ → Prop}
    {H H' : π → Prop} (h : o.Sat Q E H) (h' : o.Sat Q' E' H') :
    o.Sat (fun a s => Q a s ∧ Q' a s) (fun e s => E e s ∧ E' e s) (fun p => H p ∧ H' p) := by
  cases o with
  | ret a s => exact ⟨h, h'⟩
  | err e s => exact ⟨h, h'⟩
  | halt p => exact ⟨h, h'⟩

/-- The strongest postcondition: the outcome itself. -/
theorem sat_self (o : Outcome σ ε π α) :
    o.Sat (fun a s => o = .ret a s) (fun e s => o = .err e s) (fun p => o = .halt p) := by
  cases o <;> rfl

/-- A condition that holds on a return and on an error holds of the state left behind. -/
theorem Sat.of_state? {o : Outcome σ ε π α} {P : σ → Prop} {H : π → Prop} {s : σ}
    (h : o.Sat (fun _ => P) (fun _ => P) H) (hs : o.state? = some s) : P s := by
  cases o with
  | ret a t => cases hs; exact h
  | err e t => cases hs; exact h
  | halt p => cases hs

end Outcome

namespace Prog

/-- Sequencing: an error or a halt ends the whole program. -/
protected def bind (m : Prog σ ε π α) (f : α → Prog σ ε π β) : Prog σ ε π β := fun s =>
  match m s with
  | .ret a s' => f a s'
  | .err e s' => .err e s'
  | .halt p => .halt p

instance : Monad (Prog σ ε π) where
  pure a := fun s => .ret a s
  bind := Prog.bind

/-- The current state. -/
def get : Prog σ ε π σ := fun s => .ret s s

/-- Replaces the state. -/
def put (s : σ) : Prog σ ε π Unit := fun _ => .ret () s

/-- Changes the state by a function. -/
def modify (f : σ → σ) : Prog σ ε π Unit := fun s => .ret () (f s)

/-- Returns an error code. -/
def fail (e : ε) : Prog σ ε π α := fun s => .err e s

/-- Never returns. -/
def halt (p : π) : Prog σ ε π α := fun _ => .halt p

/-- Calls `m` and looks at its error code instead of passing it on. -/
def attempt (m : Prog σ ε π α) : Prog σ ε π (Except ε α) := fun s =>
  match m s with
  | .ret a s' => .ret (.ok a) s'
  | .err e s' => .ret (.error e) s'
  | .halt p => .halt p

/-- Halts unless the condition holds, as an assertion does. -/
def assert (c : Prop) [Decidable c] (p : π) : Prog σ ε π Unit := if c then pure () else halt p

/-- `if (c) m`. -/
def when (c : Prop) [Decidable c] (m : Prog σ ε π Unit) : Prog σ ε π Unit := if c then m else pure ()

/-- `for (i = start; i < start + n; i++) body(i)`. -/
def loop (body : Nat → Prog σ ε π Unit) : Nat → Nat → Prog σ ε π Unit
  | _, 0 => pure ()
  | i, n + 1 => do
    body i
    loop body (i + 1) n

/-- Runs a program over a part of the state. -/
def zoom {τ ρ : Type} (part : σ → τ) (set : τ → σ → σ) (reason : ρ → π) (m : Prog τ ε ρ α) :
    Prog σ ε π α := fun s =>
  match m (part s) with
  | .ret a t => .ret a (set t s)
  | .err e t => .err e (set t s)
  | .halt p => .halt (reason p)

section Rules

variable {Q : α → σ → Prop} {E : ε → σ → Prop} {H : π → Prop} {s : σ}

@[simp] theorem pure_apply (a : α) (s : σ) : (pure a : Prog σ ε π α) s = .ret a s := rfl

@[simp] theorem get_apply (s : σ) : (get : Prog σ ε π σ) s = .ret s s := rfl

@[simp] theorem put_apply (t s : σ) : (put t : Prog σ ε π Unit) s = .ret () t := rfl

@[simp] theorem modify_apply (f : σ → σ) (s : σ) :
    (modify f : Prog σ ε π Unit) s = .ret () (f s) := rfl

@[simp] theorem fail_apply (e : ε) (s : σ) : (fail e : Prog σ ε π α) s = .err e s := rfl

@[simp] theorem halt_apply (p : π) (s : σ) : (halt p : Prog σ ε π α) s = .halt p := rfl

theorem bind_apply (m : Prog σ ε π α) (f : α → Prog σ ε π β) (s : σ) :
    (m >>= f) s = match m s with
      | .ret a s' => f a s'
      | .err e s' => .err e s'
      | .halt p => .halt p := rfl

theorem bind_ret {m : Prog σ ε π α} {f : α → Prog σ ε π β} {s s' : σ} {a : α}
    (h : m s = .ret a s') : (m >>= f) s = f a s' := by rw [bind_apply, h]

theorem bind_err {m : Prog σ ε π α} {f : α → Prog σ ε π β} {s s' : σ} {e : ε}
    (h : m s = .err e s') : (m >>= f) s = .err e s' := by rw [bind_apply, h]

theorem bind_halt {m : Prog σ ε π α} {f : α → Prog σ ε π β} {s : σ} {p : π}
    (h : m s = .halt p) : (m >>= f) s = .halt p := by rw [bind_apply, h]

theorem attempt_ret {m : Prog σ ε π α} {s s' : σ} {a : α} (h : m s = .ret a s') :
    attempt m s = .ret (.ok a) s' := by
  unfold attempt
  rw [h]

theorem attempt_err {m : Prog σ ε π α} {s s' : σ} {e : ε} (h : m s = .err e s') :
    attempt m s = .ret (.error e) s' := by
  unfold attempt
  rw [h]

@[simp] theorem get_bind (f : σ → Prog σ ε π β) (s : σ) : (get >>= f) s = f s s := rfl

@[simp] theorem put_bind (t : σ) (f : Unit → Prog σ ε π β) (s : σ) :
    ((put t : Prog σ ε π Unit) >>= f) s = f () t := rfl

@[simp] theorem modify_bind (g : σ → σ) (f : Unit → Prog σ ε π β) (s : σ) :
    ((modify g : Prog σ ε π Unit) >>= f) s = f () (g s) := rfl

@[simp] theorem pure_bind (a : α) (f : α → Prog σ ε π β) (s : σ) :
    ((pure a : Prog σ ε π α) >>= f) s = f a s := rfl

theorem assert_pos {c : Prop} [Decidable c] {p : π} (h : c) :
    (assert c p : Prog σ ε π Unit) s = .ret () s := by
  unfold assert; rw [if_pos h]; rfl

theorem assert_neg {c : Prop} [Decidable c] {p : π} (h : ¬c) :
    (assert c p : Prog σ ε π Unit) s = .halt p := by
  unfold assert; rw [if_neg h]; rfl

theorem when_pos {c : Prop} [Decidable c] {m : Prog σ ε π Unit} (h : c) : when c m = m := if_pos h

theorem when_neg {c : Prop} [Decidable c] {m : Prog σ ε π Unit} (h : ¬c) : when c m = pure () :=
  if_neg h

theorem sat_bind {m : Prog σ ε π β} {f : β → Prog σ ε π α} :
    ((m >>= f) s).Sat Q E H ↔ (m s).Sat (fun a t => (f a t).Sat Q E H) E H := by
  rw [bind_apply]
  cases m s <;> rfl

/-- The rule for a call: the callee's own postcondition, then the rest of the caller. -/
theorem sat_call {m : Prog σ ε π β} {f : β → Prog σ ε π α} {R : β → σ → Prop}
    {F : ε → σ → Prop} {G : π → Prop} (h : (m s).Sat R F G)
    (hQ : ∀ b t, R b t → (f b t).Sat Q E H) (hE : ∀ e t, F e t → E e t)
    (hH : ∀ p, G p → H p) : ((m >>= f) s).Sat Q E H :=
  sat_bind.mpr (h.mono hQ hE hH)

/-- What the last call of a program returns. -/
theorem sat_last {m : Prog σ ε π β} {f : β → Prog σ ε π α}
    (h : ∀ b t, (f b t).Sat Q (fun _ _ => True) (fun _ => True)) :
    ((m >>= f) s).Sat Q (fun _ _ => True) (fun _ => True) := by
  rw [bind_apply]
  cases m s with
  | ret b t => exact h b t
  | err e t => trivial
  | halt p => trivial

theorem sat_attempt {m : Prog σ ε π α} {Q : Except ε α → σ → Prop} :
    (attempt m s).Sat Q E H ↔ (m s).Sat (fun a => Q (.ok a)) (fun e => Q (.error e)) H := by
  unfold attempt
  cases m s <;> rfl

theorem sat_zoom {τ ρ : Type} {part : σ → τ} {set : τ → σ → σ} {reason : ρ → π} {m : Prog τ ε ρ α} :
    (zoom part set reason m s).Sat Q E H ↔ (m (part s)).Sat (fun a t => Q a (set t s))
      (fun e t => E e (set t s)) (fun p => H (reason p)) := by
  unfold zoom
  cases m (part s) <;> rfl

theorem sat_assert {c : Prop} [Decidable c] {p : π} {Q : Unit → σ → Prop} :
    ((assert c p : Prog σ ε π Unit) s).Sat Q E H ↔ (if c then Q () s else H p) := by
  by_cases hc : c
  · rw [assert_pos hc, if_pos hc]; rfl
  · rw [assert_neg hc, if_neg hc]; rfl

theorem sat_when {c : Prop} [Decidable c] {m : Prog σ ε π Unit} {Q : Unit → σ → Prop}
    (hpos : c → (m s).Sat Q E H) (hneg : ¬c → Q () s) : (when c m s).Sat Q E H := by
  by_cases hc : c
  · rw [when_pos hc]
    exact hpos hc
  · rw [when_neg hc]
    exact hneg hc

/-- The loop rule. The invariant may speak about the index, and a halt or an error of the body
ends the loop. -/
theorem sat_loop {m : Nat → Prog σ ε π Unit} {I : Nat → σ → Prop} {E : ε → σ → Prop}
    {H : π → Prop} :
    ∀ {n i : Nat} {s : σ},
      (∀ j t, i ≤ j → j < i + n → I j t → (m j t).Sat (fun _ => I (j + 1)) E H) →
      I i s → (loop m i n s).Sat (fun _ => I (i + n)) E H := by
  intro n
  induction n with
  | zero => intro i s _ hI; exact hI
  | succ n ih =>
    intro i s hstep hI
    rw [loop, sat_bind]
    refine (hstep i s (Nat.le_refl i) (by omega) hI).mono ?_ (fun _ _ h => h) (fun _ h => h)
    intro _ t ht
    have h := ih (i := i + 1) (s := t) (fun j u h1 h2 hj => hstep j u (by omega) (by omega) hj) ht
    rwa [show i + 1 + n = i + (n + 1) by omega] at h

end Rules

/-! ## Relations that a program keeps -/

/-- `m` only moves along `R`: whether it returns or fails, the state it leaves is `R`-related to the
one it found. -/
def Keeps (R : σ → σ → Prop) (m : Prog σ ε π α) : Prop :=
  ∀ s, (m s).Sat (fun _ => R s) (fun _ => R s) (fun _ => True)

section Keeps

variable {R : σ → σ → Prop}

theorem keeps_pure (hrefl : ∀ s, R s s) (a : α) : Keeps R (pure a : Prog σ ε π α) := hrefl

theorem keeps_fail (hrefl : ∀ s, R s s) (e : ε) : Keeps R (fail e : Prog σ ε π α) := hrefl

theorem keeps_halt (p : π) : Keeps R (halt p : Prog σ ε π α) := fun _ => trivial

theorem keeps_modify {f : σ → σ} (h : ∀ s, R s (f s)) :
    Keeps R (modify f : Prog σ ε π Unit) := h

theorem keeps_assert (hrefl : ∀ s, R s s) (c : Prop) [Decidable c] (p : π) :
    Keeps R (assert c p : Prog σ ε π Unit) := by
  intro s
  rw [sat_assert]
  split
  · exact hrefl s
  · trivial

theorem keeps_get {f : σ → Prog σ ε π α} (h : ∀ s, Keeps R (f s)) : Keeps R (get >>= f) :=
  fun s => h s s

theorem keeps_bind (htrans : ∀ s t u, R s t → R t u → R s u) {m : Prog σ ε π α}
    {f : α → Prog σ ε π β} (hm : Keeps R m) (hf : ∀ a, Keeps R (f a)) : Keeps R (m >>= f) := by
  intro s
  refine sat_call (hm s) ?_ (fun _ _ h => h) (fun _ h => h)
  intro a t hst
  exact (hf a t).mono (fun _ u => htrans s t u hst) (fun _ u => htrans s t u hst)
    (fun _ h => h)

theorem keeps_attempt {m : Prog σ ε π α} (hm : Keeps R m) : Keeps R (attempt m) :=
  fun s => sat_attempt.mpr (hm s)

theorem keeps_loop (hrefl : ∀ s, R s s) (htrans : ∀ s t u, R s t → R t u → R s u)
    {body : Nat → Prog σ ε π Unit} (h : ∀ i, Keeps R (body i)) :
    ∀ n i, Keeps R (loop body i n) := by
  intro n
  induction n with
  | zero => exact fun _ => keeps_pure hrefl ()
  | succ n ih => exact fun i => keeps_bind htrans (h i) fun _ => ih (i + 1)

/-- What a program keeps holds of the state it leaves behind. -/
theorem Keeps.of_state? {m : Prog σ ε π α} {s t : σ} (h : Keeps R m)
    (hs : (m s).state? = some t) : R s t :=
  (h s).of_state? hs

end Keeps

/-! ## Conditions that a program keeps -/

/-- As long as `I` holds, it goes on to hold, and `m` halts for the reasons `H` only. -/
def Within (I : σ → Prop) (H : π → Prop) (m : Prog σ ε π α) : Prop :=
  ∀ s, I s → (m s).Sat (fun _ => I) (fun _ => I) H

section Within

variable {I : σ → Prop} {H : π → Prop}

theorem within_pure (a : α) : Within I H (pure a : Prog σ ε π α) := fun _ h => h

theorem within_fail (e : ε) : Within I H (fail e : Prog σ ε π α) := fun _ h => h

theorem within_halt {p : π} (h : H p) : Within I H (halt p : Prog σ ε π α) := fun _ _ => h

theorem within_modify {f : σ → σ} (h : ∀ s, I s → I (f s)) :
    Within I H (modify f : Prog σ ε π Unit) := h

theorem within_put {t : σ} (h : I t) : Within I H (put t : Prog σ ε π Unit) := fun _ _ => h

theorem within_assert (c : Prop) [Decidable c] {p : π} (h : H p) :
    Within I H (assert c p : Prog σ ε π Unit) := by
  intro s hs
  rw [sat_assert]
  split
  · exact hs
  · exact h

theorem within_get {f : σ → Prog σ ε π α} (h : ∀ s, I s → Within I H (f s)) :
    Within I H (get >>= f) :=
  fun s hs => h s hs s hs

theorem within_bind {m : Prog σ ε π α} {f : α → Prog σ ε π β} (hm : Within I H m)
    (hf : ∀ a, Within I H (f a)) : Within I H (m >>= f) :=
  fun s hs => sat_call (hm s hs) (fun a t ht => hf a t ht) (fun _ _ h => h) (fun _ h => h)

theorem within_attempt {m : Prog σ ε π α} (hm : Within I H m) : Within I H (attempt m) :=
  fun s hs => sat_attempt.mpr (hm s hs)

theorem within_when {c : Prop} [Decidable c] {m : Prog σ ε π Unit} (hm : Within I H m) :
    Within I H (when c m) :=
  fun s hs => sat_when (fun _ => hm s hs) (fun _ => hs)

theorem within_ite {c : Prop} [Decidable c] {m m' : Prog σ ε π α} (hm : Within I H m)
    (hm' : Within I H m') : Within I H (if c then m else m') := by
  split
  · exact hm
  · exact hm'

theorem within_loop {body : Nat → Prog σ ε π Unit} (h : ∀ i, Within I H (body i)) :
    ∀ n i, Within I H (loop body i n) := by
  intro n
  induction n with
  | zero => exact fun _ => within_pure ()
  | succ n ih => exact fun i => within_bind (h i) fun _ => ih (i + 1)

end Within

/-! ## Programs without errors -/

/-- `m` returns no error. -/
def Infallible (m : Prog σ ε π α) : Prop :=
  ∀ s, (m s).Sat (fun _ _ => True) (fun _ _ => False) (fun _ => True)

section Infallible

theorem infallible_pure (a : α) : Infallible (pure a : Prog σ ε π α) := fun _ => trivial

theorem infallible_halt (p : π) : Infallible (halt p : Prog σ ε π α) := fun _ => trivial

theorem infallible_modify (f : σ → σ) : Infallible (modify f : Prog σ ε π Unit) := fun _ => trivial

theorem infallible_get {f : σ → Prog σ ε π α} (h : ∀ s, Infallible (f s)) : Infallible (get >>= f) :=
  fun s => h s s

theorem infallible_bind {m : Prog σ ε π α} {f : α → Prog σ ε π β} (hm : Infallible m)
    (hf : ∀ a, Infallible (f a)) : Infallible (m >>= f) :=
  fun s => sat_call (hm s) (fun a t _ => hf a t) (fun _ _ h => h) (fun _ h => h)

theorem infallible_ite {c : Prop} [Decidable c] {m m' : Prog σ ε π α} (hm : Infallible m)
    (hm' : Infallible m') : Infallible (if c then m else m') := by
  split
  · exact hm
  · exact hm'

theorem infallible_assert (c : Prop) [Decidable c] (p : π) : Infallible (assert c p : Prog σ ε π Unit) :=
  infallible_ite (infallible_pure ()) (infallible_halt p)

theorem infallible_when {c : Prop} [Decidable c] {m : Prog σ ε π Unit} (hm : Infallible m) :
    Infallible (when c m) :=
  infallible_ite hm (infallible_pure ())

/-- An error that is caught is none. -/
theorem infallible_attempt (m : Prog σ ε π α) : Infallible (attempt m) :=
  fun s => sat_attempt.mpr ((Outcome.sat_self (m s)).mono (fun _ _ _ => trivial) (fun _ _ _ => trivial)
    (fun _ _ => trivial))

end Infallible

end Prog

end Lib
