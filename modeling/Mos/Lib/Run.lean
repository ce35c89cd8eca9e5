import Mathlib.Tactic.Common

/-!
# Runs of a step function

`run step s as` takes the steps `as` from the state `s`, as far as each of them is possible.
`guarded ok step` allows a step only in states where `ok` holds: a run of it is a run of `step` all of
whose steps met the condition.
-/

namespace Lib

variable {σ α : Type} {step : σ → α → Option σ}

/-- The state after the steps `as`. -/
def run (step : σ → α → Option σ) : σ → List α → Option σ
  | s, [] => some s
  | s, a :: as => (step s a).bind fun t => run step t as

/-- What every step keeps holds after a run. -/
theorem run_invariant {P : σ → Prop} (hstep : ∀ s a t, P s → step s a = some t → P t) :
    ∀ {as : List α} {s t : σ}, P s → run step s as = some t → P t
  | [], s, t, hs, h => by
    cases h
    exact hs
  | a :: as, s, t, hs, h => by
    obtain ⟨u, hu, h⟩ := Option.bind_eq_some_iff.mp h
    exact run_invariant hstep (hstep s a u hs hu) h

theorem run_append {as : List α} {s t : σ} (h : run step s as = some t) (bs : List α) :
    run step s (as ++ bs) = run step t bs := by
  induction as generalizing s with
  | nil =>
    cases h
    rfl
  | cons a as ih =>
    obtain ⟨u, hu, h⟩ := Option.bind_eq_some_iff.mp h
    rw [List.cons_append, run, hu]
    exact ih h

/-- A run can be evaluated: it goes through, and its last state passes a test. -/
theorem exists_of_run (step : σ → α → Option σ) (s : σ) (as : List α) (test : σ → Bool)
    (h : (run step s as).any test = true) : ∃ t, run step s as = some t ∧ test t = true := by
  cases hrun : run step s as with
  | none => simp [hrun] at h
  | some t => exact ⟨t, rfl, by simpa [hrun] using h⟩

/-- The steps that are taken only where `ok` holds. -/
def guarded (ok : σ → α → Prop) [∀ s a, Decidable (ok s a)] (step : σ → α → Option σ) :
    σ → α → Option σ :=
  fun s a => if ok s a then step s a else none

theorem of_guarded {ok : σ → α → Prop} [∀ s a, Decidable (ok s a)] {s t : σ} {a : α}
    (h : guarded ok step s a = some t) : ok s a ∧ step s a = some t := by
  unfold guarded at h
  split at h
  next hok => exact ⟨hok, h⟩
  next => cases h

/-- A run all of whose steps are allowed in every state. -/
theorem run_guarded {ok : σ → α → Prop} [∀ s a, Decidable (ok s a)] {as : List α}
    (hok : ∀ a ∈ as, ∀ s, ok s a) (s : σ) : run (guarded ok step) s as = run step s as := by
  induction as generalizing s with
  | nil => rfl
  | cons a as ih =>
    have hstep : guarded ok step s a = step s a := if_pos (hok a (by simp) s)
    rw [run, run, hstep]
    cases step s a with
    | none => rfl
    | some t => exact ih (fun b hb => hok b (by simp [hb])) t

end Lib
