import Mathlib.Algebra.Order.BigOperators.Group.List
import Mathlib.Algebra.Order.Ring.Nat
import Mathlib.Tactic.Common

/-!
# Waiting in a queue

A queue is served from its head, each element for at most its slice of calls. Between two calls elements
leave the queue and join it at the end. `Line` is the state of such a scheduler, and `Line.delay` the
time that an element still has to wait: what is left of the present turn, and the slices of those that
stand before it. Nothing that happens between two calls increases it (`Line.Shift.delay_le`), and every
call decreases it (`Line.Call.delay_lt`), so it bounds the number of calls.
-/

namespace Lib

variable {α : Type} [DecidableEq α]

/-! ## What stands before an element -/

/-- The part of the queue before `e`. -/
def before (e : α) (xs : List α) : List α := xs.takeWhile (· ≠ e)

variable {e a : α} {xs ys : List α}

@[simp] theorem before_cons_self : before e (e :: xs) = [] := by
  simp [before]

theorem before_cons_of_ne (h : a ≠ e) : before e (a :: xs) = a :: before e xs := by
  simp [before, h]

theorem before_sublist_self (e : α) (xs : List α) : (before e xs).Sublist xs :=
  List.takeWhile_sublist _

theorem before_append (h : e ∈ xs) : before e (xs ++ ys) = before e xs := by
  induction xs with
  | nil => cases h
  | cons x xs ih =>
    by_cases hx : x = e
    · simp [hx]
    · have he : e ∈ xs := (List.mem_cons.mp h).resolve_left (Ne.symm hx)
      rw [List.cons_append, before_cons_of_ne hx, before_cons_of_ne hx, ih he]

theorem before_erase (h : a ≠ e) (xs : List α) : before e (xs.erase a) = (before e xs).erase a := by
  induction xs with
  | nil => rfl
  | cons x xs ih =>
    by_cases hx : x = e
    · rw [hx, List.erase_cons_tail (by simpa using Ne.symm h)]
      simp
    · rw [before_cons_of_ne hx]
      by_cases hxa : x = a
      · rw [hxa, List.erase_cons_head, List.erase_cons_head]
      · rw [List.erase_cons_tail (by simpa using hxa), List.erase_cons_tail (by simpa using hxa),
          before_cons_of_ne hx, ih]

/-! ## The scheduler -/

/-- The queue, who has the turn, the calls that are left to the turn, and the slice that each element
gets. -/
structure Line (α : Type) where
  queue : List α
  cur : Option α
  left : Nat
  slice : α → Nat

namespace Line

variable {L L₁ L' : Line α}

/-- Those that get a turn before `e`, apart from the one that has it. -/
def rivals (L : Line α) (e : α) : List α := (before e L.queue).filter fun a => L.cur ≠ some a

/-- **The number of calls until `e` has its turn, at most.** -/
def delay (L : Line α) (e : α) : Nat := L.left + ((L.rivals e).map L.slice).sum

/-- `e` is in the queue and waits for its turn. -/
structure Waits (L : Line α) (e : α) : Prop where
  nodup : L.queue.Nodup
  mem : e ∈ L.queue
  notCur : L.cur ≠ some e
  left_pos : 1 ≤ L.left

/-- What happens between two calls: an element leaves the queue or joins it, the one that has the turn
may go for good. -/
structure Shift (L L' : Line α) : Prop where
  queue : L'.queue = L.queue ∨ (∃ a, L'.queue = L.queue.erase a) ∨ ∃ a, L'.queue = L.queue ++ [a]
  cur : L'.cur = L.cur ∨ L'.cur = none ∧ ∀ c, L.cur = some c → c ∉ L'.queue
  left : L'.left ≤ L.left
  slice : ∀ a ∈ L.queue, L'.slice a = L.slice a

/-- The head of the queue gets the turn. -/
structure Turned (L : Line α) (xs : List α) (L' : Line α) : Prop where
  queue : L'.queue = xs
  cur : L'.cur = xs.head?
  left : ∀ a, xs.head? = some a → L'.left = L.slice a
  slice : L'.slice = L.slice

/-- A call: the turn goes on, or the head of the queue gets it, once the one that had it stands at the
end. -/
inductive Call (L L' : Line α) : Prop where
  | stay (queue : L'.queue = L.queue) (cur : L'.cur = L.cur) (left : L'.left < L.left)
      (slice : L'.slice = L.slice)
  | pick (idle : ∀ c, L.cur = some c → c ∉ L.queue) (turned : L.Turned L.queue L')
  | switch (c : α) (cur : L.cur = some c) (mem : c ∈ L.queue)
      (turned : L.Turned (L.queue.erase c ++ [c]) L')

theorem mem_rivals : a ∈ L.rivals e ↔ a ∈ before e L.queue ∧ L.cur ≠ some a := by
  simp [rivals]

/-! ## Between two calls -/

theorem Shift.before_sublist (h : L.Shift L') (hn : L.queue.Nodup) (he : e ∈ L.queue)
    (he' : e ∈ L'.queue) : (before e L'.queue).Sublist (before e L.queue) := by
  rcases h.queue with hq | ⟨a, hq⟩ | ⟨a, hq⟩
  · rw [hq]
  · have hae : a ≠ e := by
      rintro rfl
      rw [hq, hn.mem_erase_iff] at he'
      exact he'.1 rfl
    rw [hq, before_erase hae]
    exact List.erase_sublist
  · rw [hq, before_append he]

/-- The one that has the turn does not become a rival. -/
theorem Shift.rivals_sublist (h : L.Shift L') (hn : L.queue.Nodup) (he : e ∈ L.queue)
    (he' : e ∈ L'.queue) : (L'.rivals e).Sublist (L.rivals e) := by
  have hsub := h.before_sublist hn he he'
  rcases h.cur with hcur | ⟨hcur, hgone⟩
  · unfold rivals
    rw [hcur]
    exact hsub.filter _
  · have hkeep : L'.rivals e = (before e L'.queue).filter fun a => L.cur ≠ some a := by
      refine List.filter_congr fun a ha => ?_
      have hne : L.cur ≠ some a := fun hc => hgone a hc ((before_sublist_self e _).subset ha)
      simp [hcur, hne]
    rw [hkeep]
    exact hsub.filter _

theorem Shift.delay_le (h : L.Shift L') (hn : L.queue.Nodup) (he : e ∈ L.queue)
    (he' : e ∈ L'.queue) : L'.delay e ≤ L.delay e := by
  have hsub := h.rivals_sublist hn he he'
  have hmem : ∀ a ∈ L'.rivals e, a ∈ L.queue := fun a ha =>
    (before_sublist_self e _).subset (mem_rivals.mp (hsub.subset ha)).1
  have hmap : (L'.rivals e).map L'.slice = (L'.rivals e).map L.slice :=
    List.map_congr_left fun a ha => h.slice a (hmem a ha)
  unfold delay
  rw [hmap]
  exact Nat.add_le_add h.left ((hsub.map L.slice).sum_le_sum (by simp))

/-! ## A call -/

/-- The head of the queue is a rival that has got its turn. -/
theorem Turned.delay_lt (h : L.Turned ys L') (hrivals : before e ys = L.rivals e) (hn : ys.Nodup)
    (hpos : 1 ≤ L.left) (hne : L'.cur ≠ some e) (he : e ∈ ys) : L'.delay e < L.delay e := by
  obtain ⟨a, zs, rfl⟩ := List.exists_cons_of_ne_nil (List.ne_nil_of_mem he)
  have hcur : L'.cur = some a := h.cur
  have hae : a ≠ e := by
    rintro rfl
    exact hne hcur
  rw [before_cons_of_ne hae] at hrivals
  have hrest : L'.rivals e = before e zs := by
    unfold rivals
    rw [h.queue, before_cons_of_ne hae, List.filter_cons_of_neg (by simp [hcur])]
    refine List.filter_eq_self.mpr fun b hb => ?_
    have hab : a ≠ b := by
      rintro rfl
      exact (List.nodup_cons.mp hn).1 ((before_sublist_self e zs).subset hb)
    simpa [hcur] using hab
  have hleft : L'.left = L.slice a := h.left a rfl
  unfold delay
  rw [hrest, ← hrivals, h.slice, hleft, List.map_cons, List.sum_cons]
  omega

/-- **Every call brings `e` nearer to its turn.** -/
theorem Call.delay_lt (h : L.Call L') (hw : L.Waits e) (hne : L'.cur ≠ some e) :
    L'.delay e < L.delay e := by
  cases h with
  | stay queue cur left slice =>
    unfold delay rivals
    rw [queue, cur, slice]
    exact Nat.add_lt_add_right left _
  | pick idle turned =>
    refine turned.delay_lt ?_ hw.nodup hw.left_pos hne hw.mem
    refine (List.filter_eq_self.mpr fun a ha => ?_).symm
    simpa using fun hc => idle a hc ((before_sublist_self e _).subset ha)
  | switch c cur mem turned =>
    have hce : c ≠ e := by
      rintro rfl
      exact hw.notCur cur
    have he : e ∈ L.queue.erase c := hw.nodup.mem_erase_iff.mpr ⟨hce.symm, hw.mem⟩
    refine turned.delay_lt ?_ ?_ hw.left_pos hne (List.mem_append_left _ he)
    · -- those before `e`, without the one that has gone behind it
      rw [before_append he, before_erase hce,
        (hw.nodup.sublist (before_sublist_self e _)).erase_eq_filter]
      refine List.filter_congr fun a _ => ?_
      simp only [cur, bne, ne_eq, Option.some.injEq, eq_comm (a := c), decide_not]
      rfl
    · have hnot : c ∉ L.queue.erase c := fun hc => (hw.nodup.mem_erase_iff.mp hc).1 rfl
      simpa [List.nodup_append] using ⟨hw.nodup.erase c, fun a ha hac => hnot (hac ▸ ha)⟩

theorem Call.mem_queue (h : L.Call L') (hn : L.queue.Nodup) : e ∈ L'.queue ↔ e ∈ L.queue := by
  cases h with
  | stay queue => rw [queue]
  | pick _ turned => rw [turned.queue]
  | switch c _ mem turned =>
    rw [turned.queue, List.mem_append, hn.mem_erase_iff, List.mem_singleton]
    by_cases hec : e = c
    · simp [hec, mem]
    · simp [hec]

/-! ## An event -/

/-- What one event does: a change between two calls, then perhaps a call. -/
def Event (L L' : Line α) : Prop := ∃ L₁, L.Shift L₁ ∧ 1 ≤ L₁.left ∧ L₁.queue.Nodup ∧
  (L' = L₁ ∨ L₁.Call L')

theorem Shift.refl (L : Line α) : L.Shift L :=
  ⟨.inl rfl, .inl rfl, Nat.le_refl _, fun _ _ => rfl⟩

/-- An event does not make `e` wait longer. -/
theorem Event.delay_le (h : L.Event L') (hw : L.Waits e) (hw' : L'.Waits e) :
    L'.delay e ≤ L.delay e := by
  obtain ⟨L₁, hshift, hpos, hn, rfl | hcall⟩ := h
  · exact hshift.delay_le hw.nodup hw.mem hw'.mem
  · have hmem : e ∈ L₁.queue := (hcall.mem_queue hn).mp hw'.mem
    have hcur : L₁.cur ≠ some e := by
      rcases hshift.cur with hc | ⟨hc, -⟩
      · rw [hc]
        exact hw.notCur
      · simp [hc]
    exact (hcall.delay_lt ⟨hn, hmem, hcur, hpos⟩ hw'.notCur).le.trans
      (hshift.delay_le hw.nodup hw.mem hmem)

end Line

end Lib
