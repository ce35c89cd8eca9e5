import Mathlib.Logic.Function.Basic

/-!
# Loops with a test

`whileLoop` runs a body as long as a test holds. The body may have no result, and the loop may run out of fuel; either
way the loop has none.
-/

namespace Lib

variable {σ : Type} {cond : σ → Prop} [DecidablePred cond] {step : σ → Option σ}

/-- `while (cond) step`. -/
def whileLoop (cond : σ → Prop) [DecidablePred cond] (step : σ → Option σ) : Nat → σ → Option σ
  | 0, _ => none
  | fuel + 1, s => if cond s then (step s).bind (whileLoop cond step fuel) else some s

/-- The loop goes along `f` as long as the test holds. -/
theorem whileLoop_eq {f : Nat → σ} {m : Nat} (hcond : ∀ j < m, cond (f j)) (hstep : ∀ j < m, step (f j) = some (f (j + 1)))
    (hend : ¬cond (f m)) {fuel : Nat} (hfuel : m < fuel) : whileLoop cond step fuel (f 0) = some (f m) := by
  have hrun : ∀ k j fuel, j + k = m → k < fuel → whileLoop cond step fuel (f j) = some (f m) := by
    intro k
    induction k with
    | zero =>
      intro j fuel hj hk
      obtain ⟨n, rfl⟩ := Nat.exists_eq_succ_of_ne_zero (Nat.ne_of_gt hk)
      obtain rfl : j = m := hj
      exact if_neg hend
    | succ k ih =>
      intro j fuel hj hk
      obtain ⟨n, rfl⟩ : ∃ n, fuel = n + 1 := ⟨fuel - 1, by omega⟩
      rw [whileLoop, if_pos (hcond j (by omega)), hstep j (by omega)]
      exact ih (j + 1) n (by omega) (by omega)
  exact hrun m 0 fuel (Nat.zero_add m) hfuel

/-- The loop is not entered. -/
theorem whileLoop_skip {s : σ} (h : ¬cond s) (fuel : Nat) : whileLoop cond step (fuel + 1) s = some s := if_neg h

/-- What holds when the loop has ended. -/
theorem whileLoop_some {I : σ → Prop} (hstep : ∀ s t, I s → cond s → step s = some t → I t) :
    ∀ fuel s t, I s → whileLoop cond step fuel s = some t → I t ∧ ¬cond t := by
  intro fuel
  induction fuel with
  | zero =>
    intro s t _ h
    cases h
  | succ fuel ih =>
    intro s t hs h
    rw [whileLoop] at h
    split at h
    · next hc =>
      obtain ⟨u, hu, ht⟩ := Option.bind_eq_some_iff.mp h
      exact ih u t (hstep s u hs hc hu) ht
    · next hc =>
      obtain rfl := Option.some.inj h
      exact ⟨hs, hc⟩

/-- A loop whose test never fails has no result. -/
theorem whileLoop_none {I : σ → Prop} (hcond : ∀ s, I s → cond s) (hstep : ∀ s t, I s → step s = some t → I t) :
    ∀ fuel s, I s → whileLoop cond step fuel s = none := by
  intro fuel
  induction fuel with
  | zero => exact fun _ _ => rfl
  | succ fuel ih =>
    intro s hs
    rw [whileLoop, if_pos (hcond s hs)]
    cases h : step s with
    | none => rfl
    | some t => exact ih t (hstep s t hs h)

end Lib
