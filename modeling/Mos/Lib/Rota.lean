import Mathlib.Data.List.Rotate
import Mathlib.Tactic.Common

/-!
# Round robin with priorities

A queue is served from its head. The head keeps its turn for as many ticks as its priority says, then it
goes to the end and the next one gets its turn; a yield ends a turn early. `Turn` is the state of such a
scheduler. Ticks alone serve the elements in the order of the `rota`, in which every element stands as
often as its priority, over and over (`Turn.head_ticks`): a tick rotates the rota by one.
-/

namespace Lib

variable {α : Type} (pri : α → Nat)

/-- Every element of the queue as often as its priority says. -/
def rota (xs : List α) : List α := xs.flatMap fun x => List.replicate (pri x) x

theorem rota_cons (x : α) (xs : List α) :
    rota pri (x :: xs) = List.replicate (pri x) x ++ rota pri xs := by
  rw [rota, List.flatMap_cons]
  rfl

theorem rota_snoc (x : α) (xs : List α) :
    rota pri (xs ++ [x]) = rota pri xs ++ List.replicate (pri x) x := by
  rw [rota, List.flatMap_append, List.flatMap_singleton]
  rfl

/-- The queue, whose head is served, and the ticks that are left to the head. -/
structure Turn (α : Type) where
  queue : List α
  left : Nat

namespace Turn

/-- The head of the queue gets its turn. -/
def start (xs : List α) : Turn α :=
  { queue := xs, left := (xs.head?.map pri).getD 0 }

/-- The turn ends. -/
def next (t : Turn α) : Turn α := start pri (t.queue.rotate 1)

/-- A tick: the turn goes on, or ends with its last tick. -/
def tick (t : Turn α) : Turn α := if 1 < t.left then { t with left := t.left - 1 } else t.next pri

/-- A turn that the head of the queue is in the middle of. -/
structure Valid (t : Turn α) : Prop where
  pri_pos : ∀ x ∈ t.queue, 1 ≤ pri x
  left_pos : 1 ≤ t.left
  left_le : t.left ≤ (t.queue.head?.map pri).getD 0

variable {pri} {t : Turn α} {xs : List α}

theorem Valid.ne_nil (h : t.Valid pri) : t.queue ≠ [] := by
  intro hnil
  have h₁ := h.left_pos
  have h₂ := h.left_le
  rw [hnil] at h₂
  simp only [List.head?_nil, Option.map_none, Option.getD_none] at h₂
  omega

theorem valid_start (hne : xs ≠ []) (hpri : ∀ x ∈ xs, 1 ≤ pri x) : (start pri xs).Valid pri := by
  obtain ⟨x, ys, rfl⟩ := List.exists_cons_of_ne_nil hne
  exact ⟨hpri, hpri x List.mem_cons_self, Nat.le_refl _⟩

theorem Valid.next (h : t.Valid pri) : (t.next pri).Valid pri := by
  refine valid_start ?_ fun x hx => h.pri_pos x (List.mem_rotate.mp hx)
  rw [Ne, List.rotate_eq_nil_iff]
  exact h.ne_nil

theorem Valid.tick (h : t.Valid pri) : (t.tick pri).Valid pri := by
  unfold Turn.tick
  split
  next hleft =>
    exact ⟨h.pri_pos, show 1 ≤ t.left - 1 by omega, (Nat.sub_le _ _).trans h.left_le⟩
  next => exact h.next

/-- The rota from the present tick on. -/
def ahead (pri : α → Nat) (t : Turn α) : List α :=
  match t.queue with
  | [] => []
  | x :: xs => List.replicate t.left x ++ rota pri xs ++ List.replicate (pri x - t.left) x

theorem ahead_start (xs : List α) : (start pri xs).ahead pri = rota pri xs := by
  cases xs with
  | nil => rfl
  | cons x xs =>
    show List.replicate (pri x) x ++ rota pri xs ++ List.replicate (pri x - pri x) x = _
    rw [Nat.sub_self, List.replicate_zero, List.append_nil, rota_cons]

/-- **A tick rotates the rota by one.** -/
theorem Valid.ahead_tick (h : t.Valid pri) : (t.tick pri).ahead pri = (t.ahead pri).rotate 1 := by
  obtain ⟨queue, left⟩ := t
  obtain ⟨x, xs, rfl⟩ := List.exists_cons_of_ne_nil h.ne_nil
  obtain ⟨-, hpos, hle⟩ := h
  obtain ⟨n, rfl⟩ : ∃ n, left = n + 1 := ⟨left - 1, by simp only at hpos; omega⟩
  have hle' : n + 1 ≤ pri x := hle
  have hahead : ahead pri ⟨x :: xs, n + 1⟩ =
      x :: (List.replicate n x ++ rota pri xs ++ List.replicate (pri x - (n + 1)) x) := rfl
  rw [hahead, List.rotate_cons_succ, List.rotate_zero]
  unfold Turn.tick
  split
  next hleft =>
    show List.replicate n x ++ rota pri xs ++ List.replicate (pri x - n) x = _
    rw [show pri x - n = pri x - (n + 1) + 1 by omega, List.replicate_succ',
      ← List.append_assoc]
  next hleft =>
    -- the last tick of the turn: the rest of the rota is that of the rotated queue
    obtain rfl : n = 0 := by simp only at hleft; omega
    rw [Turn.next, List.rotate_cons_succ, List.rotate_zero, ahead_start, rota_snoc]
    show _ = [] ++ rota pri xs ++ List.replicate (pri x - 1) x ++ [x]
    rw [List.nil_append, List.append_assoc, ← List.replicate_succ',
      show pri x - 1 + 1 = pri x by omega]

theorem Valid.head_ahead (h : t.Valid pri) : (t.ahead pri).head? = t.queue.head? := by
  obtain ⟨queue, left⟩ := t
  obtain ⟨x, xs, rfl⟩ := List.exists_cons_of_ne_nil h.ne_nil
  obtain ⟨n, rfl⟩ : ∃ n, left = n + 1 := ⟨left - 1, by have := h.left_pos; simp only at this; omega⟩
  rfl

theorem ticks (hne : xs ≠ []) (hpri : ∀ x ∈ xs, 1 ≤ pri x) (m : Nat) :
    ((Turn.tick pri)^[m] (start pri xs)).Valid pri ∧
      ((Turn.tick pri)^[m] (start pri xs)).ahead pri = (rota pri xs).rotate m := by
  induction m with
  | zero => exact ⟨valid_start hne hpri, by rw [List.rotate_zero]; exact ahead_start xs⟩
  | succ m ih =>
    obtain ⟨hvalid, hahead⟩ := ih
    rw [Function.iterate_succ_apply']
    exact ⟨hvalid.tick, by rw [hvalid.ahead_tick, hahead, List.rotate_rotate]⟩

/-- **Ticks serve the elements in the order of the rota**, over and over. -/
theorem head_ticks (hne : xs ≠ []) (hpri : ∀ x ∈ xs, 1 ≤ pri x) (m : Nat) :
    ((Turn.tick pri)^[m] (start pri xs)).queue.head? =
      (rota pri xs)[m % (rota pri xs).length]? := by
  obtain ⟨hvalid, hahead⟩ := ticks hne hpri m
  have hlen : 0 < (rota pri xs).length := by
    obtain ⟨x, ys, rfl⟩ := List.exists_cons_of_ne_nil hne
    have hx := hpri x List.mem_cons_self
    rw [rota_cons, List.length_append, List.length_replicate]
    omega
  rw [← hvalid.head_ahead, hahead, ← List.rotate_mod, List.head?_rotate (Nat.mod_lt _ hlen)]

end Turn

end Lib
