import Mathlib.Data.List.Basic
import Mathlib.Logic.Function.Basic
import Mathlib.Tactic.Common

/-!
# Memory behind a page table

A `Mapping` has pages, which show frames, and frames, which hold cells. A place is a page and the number of
a cell. As long as no two pages show the same frame, the places behave like a flat memory: a store changes
one place (`Apart.load_store`), a copy from places to other places brings over what they held
(`Apart.load_copy`), and a page that shows another frame from now on changes no other page.

`overwrite` is what a copy does to a sequence of cells.
-/

namespace Lib

open Function

variable {P F I B α : Type}

/-- Pages, the frames they show, and the cells of the frames. -/
structure Mapping (P F I B : Type) where
  frame : P → Option F
  cell : F → I → B

namespace Mapping

/-- The cell at a place, if a frame is there. -/
def load (m : Mapping P F I B) (a : P × I) : Option B := (m.frame a.1).map fun f => m.cell f a.2

/-- No frame is seen twice. -/
def Apart (m : Mapping P F I B) : Prop :=
  ∀ p q f, m.frame p = some f → m.frame q = some f → p = q

variable {m : Mapping P F I B} {a c : P × I} {b : B}

theorem load_isSome (m : Mapping P F I B) (a : P × I) :
    (m.load a).isSome = (m.frame a.1).isSome := by
  unfold load
  cases m.frame a.1 <;> rfl

/-- Another page table and the same frames: a page that shows the same frame as before holds the same. -/
theorem load_congr {m' : Mapping P F I B} (hcell : m'.cell = m.cell) (hframe : m'.frame a.1 = m.frame a.1) :
    m'.load a = m.load a := by
  unfold load
  rw [hframe, hcell]

section Stores

variable [DecidableEq F] [DecidableEq I]

/-- Stores to a place; where there is no frame nothing happens. -/
def store (m : Mapping P F I B) (a : P × I) (b : B) : Mapping P F I B :=
  match m.frame a.1 with
  | none => m
  | some f => { m with cell := update m.cell f (update (m.cell f) a.2 b) }

/-- Loads from the second place and stores to the first one. -/
def move (m : Mapping P F I B) (c : (P × I) × (P × I)) : Mapping P F I B :=
  match m.load c.2 with
  | none => m
  | some b => m.store c.1 b

/-- One move after the other. -/
def copy (m : Mapping P F I B) (cs : List ((P × I) × (P × I))) : Mapping P F I B := cs.foldl move m

@[simp] theorem frame_store (m : Mapping P F I B) (a : P × I) (b : B) :
    (m.store a b).frame = m.frame := by
  unfold store
  split <;> rfl

@[simp] theorem frame_move (m : Mapping P F I B) (c : (P × I) × (P × I)) :
    (m.move c).frame = m.frame := by
  unfold move
  split
  · rfl
  · exact frame_store _ _ _

@[simp] theorem frame_copy (m : Mapping P F I B) (cs : List ((P × I) × (P × I))) :
    (m.copy cs).frame = m.frame := by
  induction cs generalizing m with
  | nil => rfl
  | cons c cs ih => exact (ih (m.move c)).trans (frame_move m c)

theorem Apart.copy (h : m.Apart) (cs : List ((P × I) × (P × I))) : (m.copy cs).Apart := by
  unfold Apart
  rw [frame_copy]
  exact h

/-- **A store changes one place.** -/
theorem Apart.load_store [DecidableEq P] (h : m.Apart) (ha : (m.frame a.1).isSome = true) (b : B) (c : P × I) :
    (m.store a b).load c = if c = a then some b else m.load c := by
  obtain ⟨f, hf⟩ := Option.isSome_iff_exists.mp ha
  unfold load
  rw [frame_store]
  unfold store
  rw [hf]
  cases hg : m.frame c.1 with
  | none =>
    have hne : c ≠ a := fun hc => by
      rw [hc, hf] at hg
      cases hg
    rw [if_neg hne]
    rfl
  | some g =>
    show some (update m.cell f (update (m.cell f) a.2 b) g c.2) = _
    -- the same frame means the same page; in another frame no cell has changed
    by_cases hgf : g = f
    · subst hgf
      have hp : c.1 = a.1 := h _ _ _ hg hf
      rw [update_self]
      by_cases hi : c.2 = a.2
      · rw [if_pos (Prod.ext hp hi), hi, update_self]
      · rw [update_of_ne hi, if_neg fun hc => hi (congrArg Prod.snd hc)]
        rfl
    · have hne : c ≠ a := fun hc => by
        rw [hc, hf] at hg
        exact hgf (Option.some.inj hg).symm
      rw [update_of_ne hgf, if_neg hne]
      rfl

/-- **A copy** from places that it does not store to: each place has got what its source held. -/
theorem Apart.load_copy [DecidableEq P] (h : m.Apart) {dst src : Nat → P × I} {n : Nat}
    (hdst : ∀ k < n, (m.frame (dst k).1).isSome = true) (hsrc : ∀ k < n, (m.frame (src k).1).isSome = true)
    (hinj : ∀ j < n, ∀ k < n, dst j = dst k → j = k) (hne : ∀ j < n, ∀ k < n, src j ≠ dst k) :
    (∀ k < n, (m.copy ((List.range n).map fun k => (dst k, src k))).load (dst k) = m.load (src k)) ∧
      ∀ c, (∀ k < n, c ≠ dst k) → (m.copy ((List.range n).map fun k => (dst k, src k))).load c = m.load c := by
  induction n with
  | zero => exact ⟨fun k hk => absurd hk (Nat.not_lt_zero k), fun c _ => rfl⟩
  | succ n ih =>
    obtain ⟨hin, hout⟩ := ih (fun k hk => hdst k (by omega)) (fun k hk => hsrc k (by omega))
      (fun j hj k hk => hinj j (by omega) k (by omega)) (fun j hj k hk => hne j (by omega) k (by omega))
    have hstep : m.copy ((List.range (n + 1)).map fun k => (dst k, src k)) =
        (m.copy ((List.range n).map fun k => (dst k, src k))).move (dst n, src n) := by
      unfold Mapping.copy
      rw [List.range_succ, List.map_append, List.foldl_append]
      rfl
    have hframe : (m.copy ((List.range n).map fun k => (dst k, src k))).frame = m.frame := frame_copy _ _
    have hapart := h.copy ((List.range n).map fun k => (dst k, src k))
    rw [hstep]
    generalize m.copy ((List.range n).map fun k => (dst k, src k)) = m' at hin hout hframe hapart ⊢
    -- the source of the last move still holds what it held
    have hload : m'.load (src n) = m.load (src n) := hout _ fun k hk => hne n (by omega) k (by omega)
    obtain ⟨b, hb⟩ : ∃ b, m.load (src n) = some b :=
      Option.isSome_iff_exists.mp ((load_isSome m _).trans (hsrc n (by omega)))
    have hmove : m'.move (dst n, src n) = m'.store (dst n) b := by
      unfold move
      rw [show m'.load (dst n, src n).2 = some b from hload.trans hb]
    -- a copy stores to cells only, so there is a frame for the last store too
    have hlast : (m'.frame (dst n).1).isSome = true := by
      rw [hframe]
      exact hdst n (by omega)
    rw [hmove]
    refine ⟨fun k hk => ?_, fun c hc => ?_⟩
    · rw [hapart.load_store hlast]
      by_cases hkn : k = n
      · rw [hkn, if_pos rfl, hb]
      · rw [if_neg fun hc => hkn (hinj k hk n (by omega) hc), hin k (by omega)]
    · rw [hapart.load_store hlast, if_neg (hc n (by omega)), hout c fun k hk => hc k (by omega)]

end Stores

end Mapping

/-! ## Overwriting -/

/-- The sequence `xs` with `ys` from position `pos` on. -/
def overwrite (xs : List α) (pos : Nat) (ys : List α) : List α :=
  xs.take pos ++ ys ++ xs.drop (pos + ys.length)

/-- The sequence has another length, and is the same as far as both reach. -/
def Refitted (xs : List α) (n : Nat) (ys : List α) : Prop :=
  ys.length = n ∧ ∀ k < n, k < xs.length → ys[k]? = xs[k]?

theorem getElem?_overwrite {xs ys : List α} {pos : Nat} (hfit : pos + ys.length ≤ xs.length) (k : Nat) :
    (overwrite xs pos ys)[k]? = if pos ≤ k ∧ k < pos + ys.length then ys[k - pos]? else xs[k]? := by
  have htake : (xs.take pos).length = pos := by rw [List.length_take]; omega
  unfold overwrite
  by_cases h₁ : k < pos
  · rw [if_neg (by omega), List.append_assoc, List.getElem?_append_left (by omega),
      List.getElem?_take_of_lt h₁]
  · by_cases h₂ : k < pos + ys.length
    · rw [if_pos ⟨by omega, h₂⟩, List.getElem?_append_left (by rw [List.length_append]; omega),
        List.getElem?_append_right (by omega), htake]
    · rw [if_neg (by omega), List.getElem?_append_right (by rw [List.length_append]; omega),
        List.length_append, htake, List.getElem?_drop]
      congr 1
      omega

/-- The cells from a place on, after a copy to some of them. -/
theorem map_range_overwrite {g g' : Nat → α} {ys : List α} {len pos : Nat} (hfit : pos + ys.length ≤ len)
    (hin : ∀ k < ys.length, ys[k]? = some (g' (pos + k)))
    (hout : ∀ k < len, k < pos ∨ pos + ys.length ≤ k → g' k = g k) :
    (List.range len).map g' = overwrite ((List.range len).map g) pos ys := by
  apply List.ext_getElem?
  intro k
  rw [getElem?_overwrite (by simpa using hfit)]
  by_cases hk : pos ≤ k ∧ k < pos + ys.length
  · obtain ⟨d, rfl⟩ : ∃ d, k = pos + d := ⟨k - pos, by omega⟩
    rw [if_pos hk, Nat.add_sub_cancel_left, hin d (by omega), List.getElem?_map,
      List.getElem?_range (by omega)]
    rfl
  · rw [if_neg hk]
    by_cases hlen : k < len
    · rw [List.getElem?_map, List.getElem?_map, List.getElem?_range hlen, Option.map_some, Option.map_some,
        hout k hlen (by omega)]
    · rw [List.getElem?_eq_none (by simpa using hlen), List.getElem?_eq_none (by simpa using hlen)]

end Lib
