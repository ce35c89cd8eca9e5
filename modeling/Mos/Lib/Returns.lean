import Mos.Lib.Prog

/-!
# Programs that return

`Returns m s Q` is a total postcondition: from `s` the program `m` returns, without an error and
without a halt, and `Q` holds of the value and of the state. The rules follow the text of `m`, one
call after the other.
-/

namespace Lib

namespace Prog

variable {σ ε π α β : Type} {s t : σ}

/-- `m` returns a value, and `Q` holds of it and of the state it leaves. -/
def Returns (m : Prog σ ε π α) (s : σ) (Q : α → σ → Prop) : Prop :=
  (m s).Sat Q (fun _ _ => False) (fun _ => False)

namespace Returns

theorem call {m : Prog σ ε π α} {f : α → Prog σ ε π β} {R : α → σ → Prop} {Q : β → σ → Prop}
    (h : Returns m s R) (hf : ∀ a t, R a t → Returns (f a) t Q) : Returns (m >>= f) s Q :=
  sat_call h hf (fun _ _ h => h) (fun _ h => h)

theorem mono {m : Prog σ ε π α} {Q R : α → σ → Prop} (h : Returns m s R)
    (hQ : ∀ a t, R a t → Q a t) : Returns m s Q :=
  Outcome.Sat.mono h hQ (fun _ _ h => h) (fun _ h => h)

theorem of_eq {m : Prog σ ε π α} {Q : α → σ → Prop} {a : α} (h : m s = .ret a t) (hQ : Q a t) :
    Returns m s Q := by
  unfold Returns
  rw [h]
  exact hQ

theorem exists_eq {m : Prog σ ε π α} {Q : α → σ → Prop} (h : Returns m s Q) :
    ∃ a t, m s = .ret a t ∧ Q a t := by
  unfold Returns at h
  cases hm : m s with
  | ret a t =>
    rw [hm] at h
    exact ⟨a, t, rfl, h⟩
  | err e t => rw [hm] at h; exact h.elim
  | halt p => rw [hm] at h; exact h.elim

/-- What is known of all ends and that there is no bad one. -/
theorem of_sat {m : Prog σ ε π α} {Q : α → σ → Prop} {E : ε → σ → Prop} {H : π → Prop}
    (h : (m s).Sat Q E H) (hE : ∀ e t, E e t → False) (hH : ∀ p, H p → False) : Returns m s Q :=
  Outcome.Sat.mono h (fun _ _ h => h) hE hH

theorem attempt {m : Prog σ ε π α} {Q : Except ε α → σ → Prop}
    (h : Returns m s fun a => Q (.ok a)) : Returns (Prog.attempt m) s Q :=
  sat_attempt.mpr (Outcome.Sat.mono h (fun _ _ h => h) (fun _ _ h => h.elim) (fun _ h => h))

/-- The loop rule, with an invariant that speaks about the index. -/
theorem loop {m : Nat → Prog σ ε π Unit} {I : Nat → σ → Prop} {i n : Nat}
    (hstep : ∀ j t, i ≤ j → j < i + n → I j t → Returns (m j) t fun _ => I (j + 1)) (h : I i s) :
    Returns (Prog.loop m i n) s fun _ => I (i + n) :=
  sat_loop hstep h

end Returns

end Prog

end Lib
