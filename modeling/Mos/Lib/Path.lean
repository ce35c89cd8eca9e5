import Mathlib.Logic.Function.Iterate
import Mathlib.Data.List.Basic

/-!
# Linked lists in a table

A table gives for every place the next one. `Path next a xs b` says that following it from `a` passes
through the places `xs`, in this order, and arrives at `b`. A linked list that begins at `a` is a path to
the end marker.
-/

namespace Lib

variable {α : Type}

/-- From `a`, `next` leads through `xs` to `b`. -/
def Path (next : α → α) : α → List α → α → Prop
  | a, [], b => a = b
  | a, x :: xs, b => a = x ∧ Path next (next x) xs b

namespace Path

variable {next next' : α → α} {a b c : α} {xs ys : List α}

@[simp] theorem nil_iff : Path next a [] b ↔ a = b := Iff.rfl

@[simp] theorem cons_iff {x : α} : Path next a (x :: xs) b ↔ a = x ∧ Path next (next x) xs b := Iff.rfl

theorem append_iff : Path next a (xs ++ ys) b ↔ ∃ m, Path next a xs m ∧ Path next m ys b := by
  induction xs generalizing a with
  | nil => simp
  | cons x xs ih =>
    simp only [List.cons_append, cons_iff, ih]
    constructor
    · rintro ⟨rfl, m, h₁, h₂⟩
      exact ⟨m, ⟨rfl, h₁⟩, h₂⟩
    · rintro ⟨m, ⟨rfl, h₁⟩, h₂⟩
      exact ⟨rfl, m, h₁, h₂⟩

theorem append (h : Path next a xs b) (h' : Path next b ys c) : Path next a (xs ++ ys) c :=
  append_iff.mpr ⟨b, h, h'⟩

/-- A path depends on the table at its own places only. -/
theorem congr (h : Path next a xs b) (heq : ∀ x ∈ xs, next' x = next x) : Path next' a xs b := by
  induction xs generalizing a with
  | nil => exact h
  | cons x xs ih =>
    obtain ⟨rfl, h⟩ := h
    refine ⟨rfl, ?_⟩
    rw [heq a List.mem_cons_self]
    exact ih h fun y hy => heq y (List.mem_cons_of_mem a hy)

/-- Two paths from one place: the places of the shorter one come first in the longer one. -/
theorem prefix_of_length_le (h : Path next a xs b) (h' : Path next a ys c)
    (hlen : xs.length ≤ ys.length) : xs <+: ys := by
  induction xs generalizing a ys with
  | nil => exact List.nil_prefix
  | cons x xs ih =>
    cases ys with
    | nil => exact absurd hlen (by simp)
    | cons y ys =>
      obtain ⟨rfl, h⟩ := h
      obtain ⟨rfl, h'⟩ := h'
      exact List.cons_prefix_cons.mpr ⟨rfl, ih h h' (Nat.le_of_succ_le_succ hlen)⟩

/-- A list has one end marker, at its end: the list from `a` on is unique. -/
theorem unique (h : Path next a xs b) (h' : Path next a ys b) (hx : b ∉ xs) (hy : b ∉ ys) :
    xs = ys := by
  induction xs generalizing a ys with
  | nil =>
    cases ys with
    | nil => rfl
    | cons y ys =>
      have hb : b = y := h.symm.trans h'.1
      exact absurd (hb ▸ List.mem_cons_self) hy
  | cons x xs ih =>
    cases ys with
    | nil =>
      have hb : b = x := h'.symm.trans h.1
      exact absurd (hb ▸ List.mem_cons_self) hx
    | cons y ys =>
      obtain ⟨rfl, h⟩ := h
      obtain ⟨rfl, h'⟩ := h'
      rw [ih h h' (fun hm => hx (List.mem_cons_of_mem a hm)) fun hm => hy (List.mem_cons_of_mem a hm)]

/-- A run of neighbours. -/
theorem range' {next : Nat → Nat} : ∀ {n a : Nat}, (∀ j < n, next (a + j) = a + j + 1) →
    Path next a (List.range' a n) (a + n) := by
  intro n
  induction n with
  | zero => intro a _; rfl
  | succ n ih =>
    intro a h
    have hfirst : next a = a + 1 := h 0 (Nat.succ_pos n)
    refine ⟨rfl, ?_⟩
    rw [hfirst, show a + (n + 1) = a + 1 + n by omega]
    refine ih fun j hj => ?_
    rw [show a + 1 + j = a + (j + 1) by omega]
    exact h (j + 1) (by omega)

/-- Where a path arrives is determined by its length. -/
theorem iterate_length (h : Path next a xs b) : next^[xs.length] a = b := by
  induction xs generalizing a with
  | nil => exact h
  | cons x xs ih =>
    obtain ⟨rfl, h⟩ := h
    rw [List.length_cons, Function.iterate_succ_apply]
    exact ih h

end Path

end Lib
