import Mathlib.Logic.Function.Basic
import Mathlib.Data.List.Basic
import Mathlib.Tactic.Common

/-!
# Tail queues

A doubly linked tail queue in the style of `queue(3)`. The head holds the first element and the
address of the last link; every element holds its successor and the address of the link that
points to it. A link is a cell that holds an element pointer: the head's own cell or the successor
cell of an element. The state `TailQ` is the head with the links of *every* element, queued or not,
so that the operations can be applied to elements for which they are not meant.

`Represents q xs` says that the links of `q` spell the list `xs`, each element once. The operations
realise the list operations on represented queues (`insertHead_represents`, `insertTail_represents`,
`remove_represents`). Nothing is said of an operation outside its precondition: there it writes
through whatever address the links hold.
-/

namespace Lib

/-- The address of a link: null, the head's first cell, or the successor cell of an element. -/
inductive Link (α : Type) where
  | null
  | head
  | next (a : α)
deriving DecidableEq

/-- The head of a tail queue and the links of all elements. -/
structure TailQ (α : Type) where
  first : Option α
  last : Link α
  next : α → Option α
  prev : α → Link α

namespace TailQ

variable {α : Type}

/-- The queue after `TAILQ_INIT`, with the links of the elements still null. -/
def empty : TailQ α :=
  { first := none, last := .head, next := fun _ => none, prev := fun _ => .null }

/-- Reads a link cell. -/
def load (q : TailQ α) : Link α → Option α
  | .null => none
  | .head => q.first
  | .next a => q.next a

/-- Writes a link cell. A null address cannot be written. -/
def store [DecidableEq α] (q : TailQ α) : Link α → Option α → Option (TailQ α)
  | .null, _ => none
  | .head, v => some { q with first := v }
  | .next a, v => some { q with next := Function.update q.next a v }

/-- `TAILQ_INSERT_HEAD`. -/
def insertHead [DecidableEq α] (q : TailQ α) (x : α) : TailQ α :=
  let q₁ := { q with next := Function.update q.next x q.first }
  let q₂ := match q.first with
    | some y => { q₁ with prev := Function.update q₁.prev y (.next x) }
    | none => { q₁ with last := .next x }
  { q₂ with first := some x, prev := Function.update q₂.prev x .head }

/-- The element's own links, as `TAILQ_INSERT_TAIL` sets them before it writes `*tqh_last`. -/
def linkTail [DecidableEq α] (q : TailQ α) (x : α) : TailQ α :=
  { q with next := Function.update q.next x none, prev := Function.update q.prev x q.last }

/-- `TAILQ_INSERT_TAIL`; `none` if `tqh_last` is null. -/
def insertTail [DecidableEq α] (q : TailQ α) (x : α) : Option (TailQ α) :=
  ((q.linkTail x).store q.last (some x)).map fun q' => { q' with last := .next x }

/-- What `TAILQ_REMOVE` does before it writes `*tqe_prev`: the successor, or the head, takes over
the element's `tqe_prev`. -/
def unlink [DecidableEq α] (q : TailQ α) (x : α) : TailQ α :=
  match q.next x with
  | some y => { q with prev := Function.update q.prev y (q.prev x) }
  | none => { q with last := q.prev x }

/-- `TAILQ_REMOVE`; `none` if `tqe_prev` is null. -/
def remove [DecidableEq α] (q : TailQ α) (x : α) : Option (TailQ α) :=
  (q.unlink x).store ((q.unlink x).prev x) ((q.unlink x).next x)

/-! ## What a queue spells -/

/-- The links from the cell `p` on spell the list and end at the head's `last`. -/
def Chain (q : TailQ α) : Link α → List α → Prop
  | p, [] => q.load p = none ∧ q.last = p
  | p, x :: xs => q.load p = some x ∧ q.prev x = p ∧ Chain q (.next x) xs

/-- `q` is a well-formed tail queue that holds exactly the elements of `xs`, in that order. -/
def Represents (q : TailQ α) (xs : List α) : Prop := xs.Nodup ∧ Chain q .head xs

theorem empty_represents : (empty : TailQ α).Represents [] := ⟨List.nodup_nil, rfl, rfl⟩

theorem Chain.eq_nil {q : TailQ α} {p : Link α} {xs : List α} (h : Chain q p xs)
    (hp : q.load p = none) : xs = [] := by
  cases xs with
  | nil => rfl
  | cons x xs => rw [h.1] at hp; cases hp

theorem Chain.eq_cons {q : TailQ α} {p : Link α} {xs : List α} {x : α} (h : Chain q p xs)
    (hp : q.load p = some x) : ∃ ys, xs = x :: ys ∧ Chain q (.next x) ys := by
  cases xs with
  | nil => rw [h.1] at hp; cases hp
  | cons y ys =>
    rw [h.1] at hp
    cases hp
    exact ⟨ys, rfl, h.2.2⟩

theorem Chain.unique {q : TailQ α} {p : Link α} {xs ys : List α} (h : Chain q p xs)
    (h' : Chain q p ys) : xs = ys := by
  induction xs generalizing p ys with
  | nil => exact (h'.eq_nil h.1).symm
  | cons x xs ih =>
    obtain ⟨zs, rfl, hzs⟩ := h'.eq_cons h.1
    rw [ih h.2.2 hzs]

/-- The links spell one list only. -/
theorem Represents.unique {q : TailQ α} {xs ys : List α} (h : q.Represents xs)
    (h' : q.Represents ys) : xs = ys := h.2.unique h'.2

/-- The first element of a represented list is what the head points to. -/
theorem Represents.first_eq {q : TailQ α} {xs : List α} (h : q.Represents xs) :
    q.first = xs.head? := by
  cases xs with
  | nil => exact h.2.1
  | cons x xs => exact h.2.1

/-- A represented queue has a cell at its end. -/
theorem Represents.last_ne_null {q : TailQ α} {xs : List α} (h : q.Represents xs) :
    q.last ≠ .null := by
  have hlast : ∀ {xs : List α} {p : Link α}, p ≠ .null → Chain q p xs → q.last ≠ .null := by
    intro xs
    induction xs with
    | nil => intro p hp hc; exact hc.2 ▸ hp
    | cons x xs ih => intro p _ hc; exact ih (p := .next x) nofun hc.2.2
  exact hlast (p := .head) nofun h.2

/-- A chain looks only at its own cells, at the `prev` of its elements and at `last`. -/
theorem Chain.congr {q q' : TailQ α} :
    ∀ {xs : List α} {p : Link α}, q'.load p = q.load p → (∀ x ∈ xs, q'.next x = q.next x) →
      (∀ x ∈ xs, q'.prev x = q.prev x) → q'.last = q.last → Chain q p xs → Chain q' p xs := by
  intro xs
  induction xs with
  | nil => intro p hp _ _ hl h; exact ⟨hp.trans h.1, hl.trans h.2⟩
  | cons x xs ih =>
    intro p hp hn hv hl h
    refine ⟨hp.trans h.1, (hv x List.mem_cons_self).trans h.2.1, ?_⟩
    exact ih (hn x List.mem_cons_self) (fun y hy => hn y (List.mem_cons_of_mem x hy))
      (fun y hy => hv y (List.mem_cons_of_mem x hy)) hl h.2.2

/-- The head's `last` is the cell after the final element of a chain. -/
theorem Chain.last_mem {q : TailQ α} :
    ∀ {xs : List α} {p : Link α}, Chain q p xs → xs ≠ [] → ∃ x ∈ xs, q.last = .next x := by
  intro xs
  induction xs with
  | nil => intro p _ h; exact absurd rfl h
  | cons x xs ih =>
    intro p h _
    cases xs with
    | nil => exact ⟨x, List.mem_cons_self, h.2.2.2⟩
    | cons y ys =>
      obtain ⟨z, hz, hl⟩ := ih h.2.2 (List.cons_ne_nil y ys)
      exact ⟨z, List.mem_cons_of_mem x hz, hl⟩

/-- The cells of a chain are never null. -/
theorem Chain.last_ne_null {q : TailQ α} {xs : List α} {p : Link α} (h : Chain q p xs)
    (hp : p ≠ .null) : q.last ≠ .null := by
  cases xs with
  | nil => rw [h.2]; exact hp
  | cons x xs =>
    obtain ⟨y, -, hy⟩ := h.last_mem (List.cons_ne_nil x xs)
    rw [hy]
    exact nofun

/-! ## Insertion at the head -/

/-- **`TAILQ_INSERT_HEAD` puts a new element in front.** -/
theorem insertHead_represents [DecidableEq α] {q : TailQ α} {xs : List α} {x : α}
    (h : q.Represents xs) (hx : x ∉ xs) : (q.insertHead x).Represents (x :: xs) := by
  obtain ⟨hnd, hc⟩ := h
  refine ⟨List.nodup_cons.mpr ⟨hx, hnd⟩, ?_⟩
  cases xs with
  | nil =>
    have hf : q.first = none := hc.1
    simp [Chain, insertHead, load, hf]
  | cons y ys =>
    have hf : q.first = some y := hc.1
    have hxy : x ≠ y := fun he => hx (he ▸ List.mem_cons_self)
    have hys : x ∉ ys := fun hm => hx (List.mem_cons_of_mem y hm)
    have hy : y ∉ ys := (List.nodup_cons.mp hnd).1
    refine ⟨by simp [insertHead, load], by simp [insertHead], ?_, ?_, ?_⟩
    · simp [insertHead, load, hf]
    · simp [insertHead, hf, Function.update_of_ne (Ne.symm hxy)]
    · refine hc.2.2.congr ?_ ?_ ?_ (by simp [insertHead, hf])
      · simp [insertHead, load, hf, Function.update_of_ne (Ne.symm hxy)]
      · intro z hz
        have hzx : z ≠ x := fun he => hys (he ▸ hz)
        simp [insertHead, hf, Function.update_of_ne hzx]
      · intro z hz
        have hzx : z ≠ x := fun he => hys (he ▸ hz)
        have hzy : z ≠ y := fun he => hy (he ▸ hz)
        simp [insertHead, hf, Function.update_of_ne hzx, Function.update_of_ne hzy]

/-! ## Insertion at the tail -/

/-- Writing a cell leaves the other cells, the `prev` links and `last` alone. -/
theorem store_frame [DecidableEq α] {q q' : TailQ α} {p : Link α} {v : Option α}
    (h : q.store p v = some q') :
    q'.load p = v ∧ (∀ r, r ≠ p → q'.load r = q.load r) ∧ q'.prev = q.prev ∧ q'.last = q.last := by
  cases p with
  | null => cases h
  | head =>
    cases h
    refine ⟨rfl, ?_, rfl, rfl⟩
    intro r hr
    cases r with
    | null => rfl
    | head => exact absurd rfl hr
    | next a => rfl
  | next a =>
    cases h
    refine ⟨by simp [load], ?_, rfl, rfl⟩
    intro r hr
    cases r with
    | null => rfl
    | head => rfl
    | next b =>
      have hba : b ≠ a := fun he => hr (he ▸ rfl)
      simp [load, Function.update_of_ne hba]

theorem next_eq_load (q : TailQ α) (x : α) : q.next x = q.load (.next x) := rfl

theorem store_isSome [DecidableEq α] {q : TailQ α} {p : Link α} {v : Option α} (hp : p ≠ .null) :
    ∃ q', q.store p v = some q' := by
  cases p with
  | null => exact absurd rfl hp
  | head => exact ⟨_, rfl⟩
  | next a => exact ⟨_, rfl⟩

/-- The induction behind `insertTail_represents`: the new element is appended to every tail of the
chain. The store goes to `last`, which is the cell after the final element and so none of the cells
passed on the way. -/
theorem Chain.append {q q' : TailQ α} {x : α} (hl : q'.last = .next x) (hxn : q'.next x = none)
    (hxp : q'.prev x = q.last) (hst : q'.load q.last = some x)
    (hn : ∀ r, r ≠ q.last → r ≠ .next x → q'.load r = q.load r)
    (hv : ∀ y, y ≠ x → q'.prev y = q.prev y) :
    ∀ {xs : List α} {p : Link α}, Chain q p xs → xs.Nodup → x ∉ xs → p ≠ .next x →
      (∀ y ∈ xs, p ≠ .next y) → Chain q' p (xs ++ [x]) := by
  intro xs
  induction xs with
  | nil =>
    intro p h _ _ _ _
    rw [h.2] at hst hxp
    exact ⟨hst, hxp, hxn, hl⟩
  | cons y ys ih =>
    intro p h hnd hx hp hpn
    obtain ⟨hy, hys⟩ := List.nodup_cons.mp hnd
    have hyx : y ≠ x := fun he => hx (he ▸ List.mem_cons_self)
    have hpl : p ≠ q.last := by
      obtain ⟨z, hz, hzl⟩ := h.last_mem (List.cons_ne_nil y ys)
      rw [hzl]
      exact hpn z hz
    refine ⟨(hn p hpl hp).trans h.1, (hv y hyx).trans h.2.1, ?_⟩
    refine ih h.2.2 hys (fun hm => hx (List.mem_cons_of_mem y hm)) (fun he => hyx ?_) ?_
    · exact Link.next.inj he
    · intro z hz he
      exact hy (Link.next.inj he ▸ hz)

/-- **`TAILQ_INSERT_TAIL` puts a new element at the end.** -/
theorem insertTail_represents [DecidableEq α] {q : TailQ α} {xs : List α} {x : α}
    (h : q.Represents xs) (hx : x ∉ xs) : ∃ q', q.insertTail x = some q' ∧ q'.Represents (xs ++ [x]) := by
  obtain ⟨hnd, hc⟩ := h
  have hnull : q.last ≠ .null := hc.last_ne_null nofun
  have hlx : q.last ≠ .next x := by
    cases xs with
    | nil => rw [hc.2]; exact nofun
    | cons y ys =>
      obtain ⟨z, hz, hzl⟩ := hc.last_mem (List.cons_ne_nil y ys)
      rw [hzl]
      exact fun he => hx (Link.next.inj he ▸ hz)
  obtain ⟨q₁, hq₁⟩ := store_isSome (q := q.linkTail x) (v := some x) hnull
  obtain ⟨hst, hn, hv, -⟩ := store_frame hq₁
  refine ⟨{ q₁ with last := .next x }, by rw [insertTail, hq₁]; rfl, ?_, ?_⟩
  · refine List.nodup_append.mpr ⟨hnd, by simp, ?_⟩
    intro a ha b hb he
    rw [List.mem_singleton.mp hb] at he
    exact hx (he ▸ ha)
  · have hload : ∀ r, ({ q₁ with last := .next x } : TailQ α).load r = q₁.load r := by
      intro r; cases r <;> rfl
    refine hc.append rfl ?_ ?_ (by rw [hload]; exact hst) ?_ ?_ hnd hx
      nofun nofun
    · show q₁.next x = none
      rw [next_eq_load, hn (.next x) (Ne.symm hlx)]
      simp [linkTail, load]
    · show q₁.prev x = q.last
      rw [hv]; simp [linkTail]
    · intro r hr hrx
      rw [hload, hn r hr]
      cases r with
      | null => rfl
      | head => rfl
      | next a =>
        have hax : a ≠ x := fun he => hrx (he ▸ rfl)
        simp [linkTail, load, Function.update_of_ne hax]
    · intro y hy
      show q₁.prev y = q.prev y
      rw [hv]; simp [linkTail, Function.update_of_ne hy]

/-! ## Removal -/

/-- Inside a chain, the links around an element are those of the list. -/
theorem Chain.split {q : TailQ α} {x : α} {r : List α} :
    ∀ {l : List α} {p : Link α}, Chain q p (l ++ x :: r) → ∃ c, q.load c = some x ∧
      q.prev x = c ∧ Chain q (.next x) r ∧ (c = p ∨ ∃ z ∈ l, c = .next z) := by
  intro l
  induction l with
  | nil => intro p h; exact ⟨p, h.1, h.2.1, h.2.2, Or.inl rfl⟩
  | cons z l ih =>
    intro p h
    obtain ⟨c, h1, h2, h3, h4⟩ := ih h.2.2
    refine ⟨c, h1, h2, h3, Or.inr ?_⟩
    rcases h4 with h4 | ⟨w, hw, h4⟩
    · exact ⟨z, List.mem_cons_self, h4⟩
    · exact ⟨w, List.mem_cons_of_mem z hw, h4⟩

/-- The induction behind `remove_represents`. The cells before the removed element's own cell are
not written; from there on the chain is the old one without the element. -/
theorem Chain.delete {q q' : TailQ α} {x : α} {r : List α}
    (hst : q'.load (q.prev x) = q.next x) (hn : ∀ c, c ≠ q.prev x → q'.load c = q.load c)
    (hv : ∀ y, q.next x ≠ some y → q'.prev y = q.prev y)
    (hs : ∀ y, q.next x = some y → q'.prev y = q.prev x ∧ q'.last = q.last)
    (hl : q.next x = none → q'.last = q.prev x) :
    ∀ {l : List α} {p : Link α}, Chain q p (l ++ x :: r) → (l ++ x :: r).Nodup →
      (∀ y ∈ l ++ x :: r, p ≠ .next y) → Chain q' p (l ++ r) := by
  intro l
  induction l with
  | nil =>
    intro p h hnd hp
    have hpx : q.prev x = p := h.2.1
    rw [hpx] at hst hn
    cases r with
    | nil =>
      have hnx : q.next x = none := h.2.2.1
      exact ⟨hst.trans hnx, (hl hnx).trans hpx⟩
    | cons y ys =>
      have hnx : q.next x = some y := h.2.2.1
      obtain ⟨hx, hnd'⟩ := List.nodup_cons.mp hnd
      have hy : y ∉ ys := (List.nodup_cons.mp hnd').1
      refine ⟨hst.trans hnx, ((hs y hnx).1).trans hpx, ?_⟩
      refine h.2.2.2.2.congr ?_ ?_ ?_ (hs y hnx).2
      · exact hn _ (Ne.symm (hp y (by simp)))
      · intro z hz
        exact hn (.next z) (Ne.symm (hp z (by simp [hz])))
      · intro z hz
        refine hv z fun he => ?_
        rw [hnx] at he
        exact hy (Option.some.inj he ▸ hz)
  | cons z l ih =>
    intro p h hnd hp
    obtain ⟨hz, hnd'⟩ := List.nodup_cons.mp hnd
    obtain ⟨c, -, hc, hr, hcz⟩ := Chain.split h.2.2
    have hpc : p ≠ q.prev x := by
      rw [hc]
      rcases hcz with rfl | ⟨w, hw, rfl⟩
      · exact hp z List.mem_cons_self
      · exact hp w (by simp [hw])
    have hzn : q.next x ≠ some z := by
      intro he
      cases r with
      | nil => have h0 : q.next x = none := hr.1; rw [h0] at he; cases he
      | cons y ys =>
        have h0 : q.next x = some y := hr.1
        rw [h0] at he
        cases he
        exact hz (by simp)
    refine ⟨(hn p hpc).trans h.1, (hv z hzn).trans h.2.1, ih h.2.2 hnd' ?_⟩
    intro y hy he
    exact hz (Link.next.inj he ▸ hy)

/-- **`TAILQ_REMOVE` of a queued element removes exactly that element.** -/
theorem remove_represents [DecidableEq α] {q : TailQ α} {xs : List α} {x : α}
    (h : q.Represents xs) (hx : x ∈ xs) : ∃ q', q.remove x = some q' ∧ q'.Represents (xs.erase x) := by
  obtain ⟨hnd, hc⟩ := h
  obtain ⟨l, r, rfl⟩ := List.append_of_mem hx
  have hxl : x ∉ l := fun hm => (List.nodup_append.mp hnd).2.2 x hm x List.mem_cons_self rfl
  have hxr : x ∉ r := (List.nodup_cons.mp (List.nodup_append.mp hnd).2.1).1
  obtain ⟨c, -, hpc, hr, hcl⟩ := Chain.split hc
  have hself : q.next x ≠ some x := by
    intro he
    cases r with
    | nil => have h0 : q.next x = none := hr.1; rw [h0] at he; cases he
    | cons y ys =>
      have h0 : q.next x = some y := hr.1
      rw [h0] at he
      cases he
      exact hxr List.mem_cons_self
  have hprev : (q.unlink x).prev x = q.prev x := by
    unfold unlink
    split
    · next y hy =>
      have hyx : x ≠ y := fun he => hself (by rw [hy, ← he])
      simp [Function.update_of_ne hyx]
    · rfl
  have hnext : (q.unlink x).next = q.next := by unfold unlink; split <;> rfl
  have hload : ∀ p, (q.unlink x).load p = q.load p := by
    intro p; unfold unlink; split <;> cases p <;> rfl
  have hnull : q.prev x ≠ .null := by
    rw [hpc]
    rcases hcl with rfl | ⟨z, -, rfl⟩ <;> exact nofun
  obtain ⟨q', hq'⟩ := store_isSome (q := q.unlink x) (v := q.next x) hnull
  obtain ⟨h1, h2, h3, h4⟩ := store_frame hq'
  refine ⟨q', by rw [remove, hprev, hnext]; exact hq', ?_, ?_⟩
  · exact hnd.erase x
  · rw [List.erase_append_right _ hxl, List.erase_cons_head]
    refine Chain.delete h1 (fun p hp => (h2 p hp).trans (hload p)) ?_ ?_ ?_ hc hnd
      nofun
    · intro y hy
      rw [h3]
      unfold unlink
      split
      · next w hw =>
        have hyw : y ≠ w := fun he => hy (by rw [hw, he])
        simp [Function.update_of_ne hyw]
      · rfl
    · intro y hy
      rw [h3, h4]
      simp [unlink, hy]
    · intro hn
      rw [h4]
      simp [unlink, hn]

end TailQ

end Lib
