import Mathlib.Data.List.Nodup
import Mathlib.Logic.Function.Basic
import Mos.Kern.PmapSpec

/-!
# The `LIST` macros

`include/queue.h`. A list has a head, which points at the first element; each element points at the next one, and
back at the cell that points at it. This cell is that of the head, or that of the element before. Several lists may
share the memory.
-/

namespace Mos

open Lib Prog Function

/-! ## `include/queue.h` -/

/-- A cell that holds a pointer to an element: `lh_first` of a head, or `le_next` of an element. -/
inductive LinkCell (η α : Type) where
  | first (head : η)
  | next (elm : α)
deriving DecidableEq

/-- The heads and the links of all elements, in a list or not. -/
structure Links (η α : Type) where
  lhFirst : η → Option α
  leNext : α → Option α
  lePrev : α → Option (LinkCell η α)

namespace Links

variable {η α : Type} [DecidableEq η] [DecidableEq α]

/-- Reads a cell. -/
def load (m : Links η α) : LinkCell η α → Option α
  | .first h => m.lhFirst h
  | .next e => m.leNext e

/-- Writes a cell. -/
def store (m : Links η α) (c : LinkCell η α) (v : Option α) : Links η α :=
  match c with
  | .first h => { m with lhFirst := update m.lhFirst h v }
  | .next e => { m with leNext := update m.leNext e v }

/-- `(elm)->field.le_prev = c`. -/
def setPrev (m : Links η α) (elm : α) (c : Option (LinkCell η α)) : Links η α :=
  { m with lePrev := update m.lePrev elm c }

/-- `LIST_INIT(head)`. -/
def listInit (m : Links η α) (head : η) : Links η α := m.store (.first head) none

/-- `LIST_INSERT_HEAD(head, elm, field)`. -/
def listInsertHead (m : Links η α) (head : η) (elm : α) : Links η α :=
  let m := m.store (.next elm) (m.lhFirst head)
  let m := match m.leNext elm with
    | some e => m.setPrev e (some (.next elm))
    | none => m
  let m := m.store (.first head) (some elm)
  m.setPrev elm (some (.first head))

/-- `LIST_INSERT_AFTER(listelm, elm, field)`; `none` if a null pointer is dereferenced. -/
def listInsertAfter (m : Links η α) (listelm elm : α) : Option (Links η α) := do
  let m := m.store (.next elm) (m.leNext listelm)
  let e ← m.leNext listelm
  let m := m.setPrev e (some (.next elm))
  let m := m.store (.next listelm) (some elm)
  some (m.setPrev elm (some (.next listelm)))

/-- `LIST_INSERT_BEFORE(listelm, elm, field)`; `none` if a null pointer is dereferenced. -/
def listInsertBefore (m : Links η α) (listelm elm : α) : Option (Links η α) := do
  let m := m.setPrev elm (m.lePrev listelm)
  let m := m.store (.next elm) (some listelm)
  let c ← m.lePrev listelm
  let m := m.store c (some elm)
  some (m.setPrev listelm (some (.next elm)))

/-- `LIST_REMOVE(elm, field)`; `none` if a null pointer is dereferenced. -/
def listRemove (m : Links η α) (elm : α) : Option (Links η α) := do
  let m := match m.leNext elm with
    | some e => m.setPrev e (m.lePrev elm)
    | none => m
  let c ← m.lePrev elm
  some (m.store c (m.leNext elm))

/-! ## What a head stands for -/

/-- From the cell `c` on the links spell the elements of a list, and lead to the cell `d`. -/
def Spells (m : Links η α) : LinkCell η α → List α → LinkCell η α → Prop
  | c, [], d => c = d
  | c, x :: xs, d => m.load c = some x ∧ m.lePrev x = some c ∧ Spells m (.next x) xs d

/-- The list of the head `h` has the elements of `xs`, each of them once. -/
def Represents (m : Links η α) (h : η) (xs : List α) : Prop :=
  xs.Nodup ∧ ∃ d, m.Spells (.first h) xs d ∧ m.load d = none

/-- The lists of the other heads are as before: their heads, and the links of their elements but for those in `ys`. -/
def LeavesOthers (m : Links η α) (h : η) (ys : List α) (t : Links η α) : Prop :=
  ∀ h' ≠ h, ∀ xs, m.Represents h' xs → t.lhFirst h' = m.lhFirst h' ∧
    ∀ e ∈ xs, e ∉ ys → t.leNext e = m.leNext e ∧ t.lePrev e = m.lePrev e

/-! ## Cells -/

section Cells

variable {m t : Links η α} {c c' d e : LinkCell η α} {h h' : η} {x y z : α} {xs ys l r : List α} {v : Option α}
  {p : Option (LinkCell η α)}

@[simp] theorem load_store_self : (m.store c v).load c = v := by
  cases c <;> exact update_self _ _ _

theorem load_store_ne (hne : c' ≠ c) : (m.store c v).load c' = m.load c' := by
  cases c with
  | first h =>
    cases c' with
    | first h' => exact update_of_ne (fun he => hne (congrArg _ he)) _ _
    | next e => rfl
  | next e =>
    cases c' with
    | first h' => rfl
    | next e' => exact update_of_ne (fun he => hne (congrArg _ he)) _ _

@[simp] theorem lePrev_store : (m.store c v).lePrev = m.lePrev := by
  cases c <;> rfl

omit [DecidableEq η] in
@[simp] theorem load_setPrev : (m.setPrev x p).load c = m.load c := by
  cases c <;> rfl

omit [DecidableEq η] in
@[simp] theorem lePrev_setPrev_self : (m.setPrev x p).lePrev x = p := update_self _ _ _

omit [DecidableEq η] in
theorem lePrev_setPrev_ne (hne : y ≠ x) : (m.setPrev x p).lePrev y = m.lePrev y := update_of_ne hne _ _

omit [DecidableEq η] [DecidableEq α]

theorem leNext_eq_load (m : Links η α) (x : α) : m.leNext x = m.load (.next x) := rfl

theorem lhFirst_eq_load (m : Links η α) (h : η) : m.lhFirst h = m.load (.first h) := rfl

/-! ## Segments of a list -/

theorem spells_cons : m.Spells c (x :: xs) d ↔
    m.load c = some x ∧ m.lePrev x = some c ∧ m.Spells (.next x) xs d := Iff.rfl

theorem spells_append : m.Spells c (xs ++ ys) d ↔ ∃ e, m.Spells c xs e ∧ m.Spells e ys d := by
  induction xs generalizing c with
  | nil =>
    constructor
    · exact fun h => ⟨c, rfl, h⟩
    · rintro ⟨e, rfl, h⟩
      exact h
  | cons x xs ih =>
    rw [List.cons_append, spells_cons, ih]
    constructor
    · rintro ⟨hl, hp, e, h1, h2⟩
      exact ⟨e, ⟨hl, hp, h1⟩, h2⟩
    · rintro ⟨e, ⟨hl, hp, h1⟩, h2⟩
      exact ⟨hl, hp, e, h1, h2⟩

/-- Where a segment leads to: behind its last element, or nowhere. -/
theorem Spells.last (h : m.Spells c xs d) : xs = [] ∧ d = c ∨ ∃ l z, xs = l ++ [z] ∧ d = .next z := by
  cases xs using List.reverseRecOn with
  | nil => exact .inl ⟨rfl, h.symm⟩
  | append_singleton l z =>
    obtain ⟨e, -, -, -, hd⟩ := spells_append.mp h
    exact .inr ⟨l, z, rfl, hd.symm⟩

/-- A segment looks at the back pointers of its elements, and at the cells in front of its end. -/
theorem Spells.congr (hs : m.Spells c xs d) (hnd : (c :: xs.map .next).Nodup)
    (hprev : ∀ x ∈ xs, t.lePrev x = m.lePrev x)
    (hload : ∀ c' ∈ c :: xs.map .next, c' ≠ d → t.load c' = m.load c') : t.Spells c xs d := by
  induction xs generalizing c with
  | nil => exact hs
  | cons x xs ih =>
    obtain ⟨hl, hp, hs⟩ := hs
    obtain ⟨hc, hnd⟩ := List.nodup_cons.mp hnd
    have hcd : c ≠ d := by
      rintro rfl
      rcases hs.last with ⟨rfl, he⟩ | ⟨l, z, rfl, he⟩
      · exact hc (by simp [he])
      · exact hc (by simp [he])
    refine ⟨(hload c List.mem_cons_self hcd).trans hl, (hprev x List.mem_cons_self).trans hp, ?_⟩
    exact ih hs hnd (fun y hy => hprev y (List.mem_cons_of_mem x hy))
      fun c' hc' => hload c' (List.mem_cons_of_mem c hc')

/-- The cells of a list are distinct. -/
theorem nodup_cells (h : η) (hnd : xs.Nodup) : (LinkCell.first h :: xs.map .next).Nodup := by
  refine List.nodup_cons.mpr ⟨by simp, hnd.map fun a b hab => LinkCell.next.inj hab⟩

/-- The cells of the first elements of a list are cells of the list. -/
theorem mem_cells_append (hc : c ∈ LinkCell.first h :: l.map .next) :
    c ∈ LinkCell.first h :: (l ++ r).map .next := by
  rw [List.map_append, ← List.cons_append]
  exact List.mem_append_left _ hc

/-- The cell in front of a place in the list. -/
theorem Represents.split (hm : m.Represents h (l ++ r)) :
    (l ++ r).Nodup ∧ ∃ c d, m.Spells (.first h) l c ∧ m.Spells c r d ∧ m.load d = none := by
  obtain ⟨hnd, d, hs, hd⟩ := hm
  obtain ⟨c, hl, hr⟩ := spells_append.mp hs
  exact ⟨hnd, c, d, hl, hr, hd⟩

/-- That cell belongs to what is in front of the place. -/
theorem Spells.end_mem (hs : m.Spells c xs d) : d ∈ c :: xs.map .next := by
  rcases hs.last with ⟨rfl, rfl⟩ | ⟨l, z, rfl, rfl⟩
  · exact List.mem_cons_self
  · simp

/-- An element comes in between: `c` is the cell in front of the place. -/
theorem Represents.insert (hnd : (l ++ r).Nodup) (hl : m.Spells (.first h) l c) (hr : m.Spells c r d)
    (hd : m.load d = none) (hy : y ∉ l ++ r) (hcy : t.load c = some y) (hyc : t.load (.next y) = m.load c)
    (hload : ∀ c', c' ≠ c → c' ≠ .next y → t.load c' = m.load c') (hpy : t.lePrev y = some c)
    (hpr : ∀ z ∈ r.head?, t.lePrev z = some (.next y))
    (hprev : ∀ e, e ≠ y → e ∉ r.head? → t.lePrev e = m.lePrev e) : t.Represents h (l ++ y :: r) := by
  have hndy : (l ++ y :: r).Nodup := List.nodup_middle.mpr (List.nodup_cons.mpr ⟨hy, hnd⟩)
  obtain ⟨hndl, hndr, hlr⟩ := List.nodup_append.mp hnd
  rw [List.mem_append, not_or] at hy
  have hl' : t.Spells (.first h) l c := by
    refine hl.congr (nodup_cells h hndl) (fun x hx => hprev x ?_ fun hxr => ?_) fun c' hc' hne => hload c' hne ?_
    · rintro rfl
      exact hy.1 hx
    · exact hlr x hx x (List.mem_of_mem_head? hxr) rfl
    · rintro rfl
      exact hy.1 (by simpa using hc')
  cases r with
  | nil =>
    obtain rfl : c = d := hr
    exact ⟨hndy, .next y, spells_append.mpr ⟨c, hl', hcy, hpy, rfl⟩, hyc.trans hd⟩
  | cons z r =>
    obtain ⟨hcz, -, hr⟩ := hr
    -- the cells behind the place
    have hcell : ∀ c' ∈ LinkCell.next z :: r.map .next, t.load c' = m.load c' := by
      intro c' hc'
      obtain ⟨x, hx, rfl⟩ := List.mem_map.mp (show c' ∈ (z :: r).map .next from hc')
      refine hload _ ?_ ?_
      · rintro rfl
        have hmem : x ∈ l := by simpa using hl.end_mem
        exact hlr x hmem x hx rfl
      · intro heq
        exact hy.2 (LinkCell.next.inj heq ▸ hx)
    obtain ⟨hz, hndr'⟩ := List.nodup_cons.mp hndr
    have hr' : t.Spells (.next z) r d := by
      refine hr.congr (hndr.map (f := LinkCell.next) fun a b hab => LinkCell.next.inj hab)
        (fun x hx => hprev x ?_ ?_) fun c' hc' _ => hcell c' hc'
      · rintro rfl
        exact hy.2 (List.mem_cons_of_mem z hx)
      · rintro hxz
        obtain rfl := Option.some.inj hxz
        exact hz hx
    exact ⟨hndy, d, spells_append.mpr ⟨c, hl', hcy, hpy, hyc.trans hcz, hpr z rfl, hr'⟩,
      (hcell d hr.end_mem).trans hd⟩

/-- An element is taken out: `c` is the cell in front of it. -/
theorem Represents.delete (hnd : (l ++ x :: r).Nodup) (hl : m.Spells (.first h) l c)
    (hr : m.Spells c (x :: r) d) (hd : m.load d = none) (hcx : t.load c = m.load (.next x))
    (hload : ∀ c' ≠ c, t.load c' = m.load c') (hpr : ∀ z ∈ r.head?, t.lePrev z = some c)
    (hprev : ∀ e ∉ r.head?, t.lePrev e = m.lePrev e) : t.Represents h (l ++ r) := by
  have hndlr : (l ++ r).Nodup := (List.nodup_cons.mp (List.nodup_middle.mp hnd)).2
  obtain ⟨hndl, hndr, hlr⟩ := List.nodup_append.mp hndlr
  have hl' : t.Spells (.first h) l c := by
    refine hl.congr (nodup_cells h hndl) (fun e he => hprev e fun her => ?_) fun c' _ hne => hload c' hne
    exact hlr e he e (List.mem_of_mem_head? her) rfl
  obtain ⟨-, -, hr⟩ := hr
  cases r with
  | nil =>
    obtain rfl : .next x = d := hr
    exact ⟨hndlr, c, spells_append.mpr ⟨c, hl', rfl⟩, hcx.trans hd⟩
  | cons z r =>
    obtain ⟨hxz, -, hr⟩ := hr
    have hcell : ∀ c' ∈ LinkCell.next z :: r.map .next, t.load c' = m.load c' := by
      intro c' hc'
      obtain ⟨e, he, rfl⟩ := List.mem_map.mp (show c' ∈ (z :: r).map .next from hc')
      refine hload _ ?_
      rintro rfl
      have hmem : e ∈ l := by simpa using hl.end_mem
      exact hlr e hmem e he rfl
    obtain ⟨hz, -⟩ := List.nodup_cons.mp hndr
    have hr' : t.Spells (.next z) r d := by
      refine hr.congr (hndr.map (f := LinkCell.next) fun a b hab => LinkCell.next.inj hab)
        (fun e he => hprev e ?_) fun c' hc' _ => hcell c' hc'
      rintro hez
      obtain rfl := Option.some.inj hez
      exact hz he
    exact ⟨hndlr, d, spells_append.mpr ⟨c, hl', hcx.trans hxz, hpr z rfl, hr'⟩,
      (hcell d hr.end_mem).trans hd⟩

/-- The back pointer of an element leads to the cell in front of it. -/
theorem Represents.prev (hm : m.Represents h (l ++ x :: r)) :
    (l = [] ∧ m.lePrev x = some (.first h)) ∨ ∃ l' z, l = l' ++ [z] ∧ m.lePrev x = some (.next z) := by
  obtain ⟨-, c, d, hl, ⟨-, hp, -⟩, -⟩ := hm.split
  rcases hl.last with ⟨rfl, rfl⟩ | ⟨l', z, rfl, rfl⟩
  · exact .inl ⟨rfl, hp⟩
  · exact .inr ⟨l', z, rfl, hp⟩

/-- The first element of a list is the one its head points at. -/
theorem Represents.lhFirst (hm : m.Represents h xs) : m.lhFirst h = xs.head? := by
  obtain ⟨-, d, hs, hd⟩ := hm
  cases xs with
  | nil =>
    obtain rfl : .first h = d := hs
    exact hd
  | cons x xs => exact hs.1

/-- Two lists share no elements. -/
theorem Represents.disjoint (hx : m.Represents h xs) (hy : m.Represents h' ys) (hne : h' ≠ h) :
    ∀ l x r, xs = l ++ x :: r → x ∉ ys := by
  intro l
  induction l using List.reverseRecOn with
  | nil =>
    rintro x r rfl hmem
    obtain ⟨l₂, r₂, rfl⟩ := List.append_of_mem hmem
    have hp := (hx.prev.resolve_right (by simp)).2
    rcases hy.prev with ⟨-, hp'⟩ | ⟨l', z, -, hp'⟩
    · exact hne (LinkCell.first.inj (Option.some.inj (hp'.symm.trans hp)))
    · cases hp'.symm.trans hp
  | append_singleton l z ih =>
    rintro x r rfl hmem
    obtain ⟨l₂, r₂, rfl⟩ := List.append_of_mem hmem
    obtain ⟨l', z', heq, hp⟩ := hx.prev.resolve_left (by simp)
    obtain ⟨-, hz⟩ := List.append_inj' heq rfl
    obtain rfl := List.singleton_inj.mp hz
    rcases hy.prev with ⟨-, hp'⟩ | ⟨l'', w, rfl, hp'⟩
    · cases hp'.symm.trans hp
    · obtain rfl := LinkCell.next.inj (Option.some.inj (hp'.symm.trans hp))
      exact ih w (x :: r) (by simp) (by simp)

/-- What is written in one list is out of sight of the others. -/
theorem Represents.leavesOthers (hm : m.Represents h xs)
    (hload : ∀ c', c' ∉ LinkCell.first h :: xs.map .next → (∀ y ∈ ys, c' ≠ .next y) → t.load c' = m.load c')
    (hprev : ∀ e ∉ xs, e ∉ ys → t.lePrev e = m.lePrev e) : m.LeavesOthers h ys t := by
  intro h' hne zs hzs
  refine ⟨hload (.first h') (by simp [hne]) (by simp), fun e he hey => ?_⟩
  have hex : e ∉ xs := by
    intro hmem
    obtain ⟨l, r, rfl⟩ := List.append_of_mem hmem
    exact hm.disjoint hzs hne l e r rfl he
  refine ⟨hload (.next e) (by simpa using hex) ?_, hprev e hex hey⟩
  intro y hy heq
  exact hey (LinkCell.next.inj heq ▸ hy)

end Cells

/-! ## The operations -/

variable {m t : Links η α} {c c' d e : LinkCell η α} {h h' : η} {x y z : α} {xs ys l r : List α}

/-- `LIST_INSERT_HEAD`. -/
theorem listInsertHead_spec (m : Links η α) (h : η) (hy : m.lhFirst h ≠ some y) :
    (m.listInsertHead h y).load (.first h) = some y ∧
      (m.listInsertHead h y).load (.next y) = m.load (.first h) ∧
      (∀ c', c' ≠ .first h → c' ≠ .next y → (m.listInsertHead h y).load c' = m.load c') ∧
      (m.listInsertHead h y).lePrev y = some (.first h) ∧
      (∀ z, m.lhFirst h = some z → (m.listInsertHead h y).lePrev z = some (.next y)) ∧
      ∀ e, e ≠ y → m.lhFirst h ≠ some e → (m.listInsertHead h y).lePrev e = m.lePrev e := by
  have hne : LinkCell.next y ≠ LinkCell.first h := by simp
  have hnext : (m.store (.next y) (m.lhFirst h)).leNext y = m.lhFirst h := update_self _ _ _
  unfold listInsertHead
  dsimp only
  rw [hnext]
  cases hf : m.lhFirst h with
  | none =>
    refine ⟨by simp, ?_, ?_, by simp, by simp, ?_⟩
    · rw [load_setPrev, load_store_ne hne, load_store_self]
      exact hf.symm
    · intro c' h1 h2
      rw [load_setPrev, load_store_ne h1, load_store_ne h2]
    · intro e hey _
      rw [lePrev_setPrev_ne hey, lePrev_store, lePrev_store]
  | some z =>
    have hzy : z ≠ y := fun heq => hy (hf.trans (congrArg some heq))
    refine ⟨by simp, ?_, ?_, by simp, ?_, ?_⟩
    · rw [load_setPrev, load_store_ne hne, load_setPrev, load_store_self]
      exact hf.symm
    · intro c' h1 h2
      rw [load_setPrev, load_store_ne h1, load_setPrev, load_store_ne h2]
    · rintro _ ⟨⟩
      rw [lePrev_setPrev_ne hzy, lePrev_store, lePrev_setPrev_self]
    · intro e hey hez
      rw [lePrev_setPrev_ne hey, lePrev_store, lePrev_setPrev_ne fun heq => hez (congrArg some heq.symm),
        lePrev_store]

/-- `LIST_INSERT_BEFORE`. -/
theorem listInsertBefore_spec (hxy : x ≠ y) (hp : m.lePrev x = some c) (hc : c ≠ .next y) :
    ∃ t, m.listInsertBefore x y = some t ∧ t.load c = some y ∧ t.load (.next y) = some x ∧
      (∀ c', c' ≠ c → c' ≠ .next y → t.load c' = m.load c') ∧ t.lePrev y = some c ∧
      t.lePrev x = some (.next y) ∧ ∀ e, e ≠ y → e ≠ x → t.lePrev e = m.lePrev e := by
  have hread : ((m.setPrev y (m.lePrev x)).store (.next y) (some x)).lePrev x = some c := by
    rw [lePrev_store, lePrev_setPrev_ne hxy, hp]
  refine ⟨_, by rw [listInsertBefore, hread]; rfl, ?_, ?_, ?_, ?_, ?_, ?_⟩
  · rw [load_setPrev, load_store_self]
  · rw [load_setPrev, load_store_ne (Ne.symm hc), load_store_self]
  · intro c' h1 h2
    rw [load_setPrev, load_store_ne h1, load_store_ne h2, load_setPrev]
  · rw [lePrev_setPrev_ne (Ne.symm hxy), lePrev_store, lePrev_store, lePrev_setPrev_self, hp]
  · rw [lePrev_setPrev_self]
  · intro e hey hex
    rw [lePrev_setPrev_ne hex, lePrev_store, lePrev_store, lePrev_setPrev_ne hey]

/-- `LIST_INSERT_AFTER` of an element that is not the last one. -/
theorem listInsertAfter_spec (hxy : x ≠ y) (hn : m.leNext x = some z) (hzy : z ≠ y) :
    ∃ t, m.listInsertAfter x y = some t ∧ t.load (.next x) = some y ∧ t.load (.next y) = some z ∧
      (∀ c', c' ≠ .next x → c' ≠ .next y → t.load c' = m.load c') ∧ t.lePrev y = some (.next x) ∧
      t.lePrev z = some (.next y) ∧ ∀ e, e ≠ y → e ≠ z → t.lePrev e = m.lePrev e := by
  have hne : LinkCell.next x ≠ LinkCell.next (η := η) y := fun heq => hxy (LinkCell.next.inj heq)
  have hread : (m.store (.next y) (m.leNext x)).leNext x = some z := by
    rw [leNext_eq_load, load_store_ne hne, ← leNext_eq_load, hn]
  refine ⟨_, by rw [listInsertAfter, hread]; rfl, ?_, ?_, ?_, ?_, ?_, ?_⟩
  · rw [load_setPrev, load_store_self]
  · rw [load_setPrev, load_store_ne (Ne.symm hne), load_setPrev, load_store_self, hn]
  · intro c' h1 h2
    rw [load_setPrev, load_store_ne h1, load_setPrev, load_store_ne h2]
  · rw [lePrev_setPrev_self]
  · rw [lePrev_setPrev_ne hzy, lePrev_store, lePrev_setPrev_self]
  · intro e hey hez
    rw [lePrev_setPrev_ne hey, lePrev_store, lePrev_setPrev_ne hez, lePrev_store]

/-- Behind the last element, `LIST_INSERT_AFTER` dereferences its null pointer. -/
theorem listInsertAfter_last (hxy : x ≠ y) (hn : m.leNext x = none) : m.listInsertAfter x y = none := by
  have hne : LinkCell.next x ≠ LinkCell.next (η := η) y := fun heq => hxy (LinkCell.next.inj heq)
  have hread : (m.store (.next y) (m.leNext x)).leNext x = none := by
    rw [leNext_eq_load, load_store_ne hne, ← leNext_eq_load, hn]
  rw [listInsertAfter, hread]
  rfl

/-- `LIST_REMOVE`. -/
theorem listRemove_spec (hp : m.lePrev x = some c) (hx : m.leNext x ≠ some x) :
    ∃ t, m.listRemove x = some t ∧ t.load c = m.load (.next x) ∧ (∀ c' ≠ c, t.load c' = m.load c') ∧
      (∀ z, m.leNext x = some z → t.lePrev z = some c) ∧
      ∀ e, m.leNext x ≠ some e → t.lePrev e = m.lePrev e := by
  unfold listRemove
  cases hn : m.leNext x with
  | none =>
    dsimp only
    rw [hp]
    refine ⟨_, rfl, ?_, fun c' hc' => load_store_ne hc', by simp, fun e _ => by rw [lePrev_store]⟩
    rw [load_store_self]
    rfl
  | some z =>
    have hxz : x ≠ z := by
      rintro rfl
      exact hx hn
    dsimp only
    rw [lePrev_setPrev_ne hxz, hp]
    refine ⟨_, rfl, ?_, ?_, ?_, ?_⟩
    · rw [load_store_self]
      rfl
    · intro c' hc'
      rw [load_store_ne hc', load_setPrev]
    · rintro _ ⟨⟩
      rw [lePrev_store, lePrev_setPrev_self]
    · intro e he
      rw [lePrev_store, lePrev_setPrev_ne fun heq => he (congrArg some heq.symm)]

/-! ## The operations on lists -/

/-- In the links `t` the list of `h` has the elements of `xs`, and of the links of the other lists at most those of
the elements in `ys` have changed. -/
def Becomes (m : Links η α) (h : η) (xs ys : List α) (t : Links η α) : Prop :=
  t.Represents h xs ∧ m.LeavesOthers h ys t

theorem listInit_represents (m : Links η α) (h : η) : m.Becomes h [] [] (m.listInit h) := by
  refine ⟨⟨List.nodup_nil, .first h, rfl, load_store_self⟩, fun h' hne xs _ => ?_⟩
  exact ⟨update_of_ne hne _ _, fun e _ _ => ⟨rfl, rfl⟩⟩

theorem listInsertHead_represents (hm : m.Represents h xs) (hy : y ∉ xs) :
    m.Becomes h (y :: xs) [y] (m.listInsertHead h y) := by
  have hfirst := hm.lhFirst
  obtain ⟨hnd, d, hs, hd⟩ := hm
  have hne : m.lhFirst h ≠ some y := by
    rw [hfirst]
    exact fun heq => hy (List.mem_of_mem_head? heq)
  obtain ⟨hcy, hyc, hload, hpy, hpr, hprev⟩ := listInsertHead_spec m h hne
  constructor
  · refine Represents.insert (l := []) hnd rfl hs hd hy hcy hyc hload hpy (fun z hz => hpr z ?_) fun e hey her => ?_
    · exact hfirst.trans hz
    · refine hprev e hey fun heq => her ?_
      exact hfirst.symm.trans heq
  · refine Represents.leavesOthers ⟨hnd, d, hs, hd⟩ (fun c' hc' hcy' => hload c' ?_ (hcy' y (by simp)))
      fun e hex hey => hprev e (by simpa using hey) fun heq => hex ?_
    · rintro rfl
      exact hc' List.mem_cons_self
    · rw [hfirst] at heq
      exact List.mem_of_mem_head? heq

theorem listInsertBefore_represents (hm : m.Represents h (l ++ x :: r)) (hy : y ∉ l ++ x :: r) :
    ∃ t, m.listInsertBefore x y = some t ∧ m.Becomes h (l ++ y :: x :: r) [y] t := by
  obtain ⟨hnd, c, d, hl, hr, hd⟩ := hm.split
  have hmem := hl.end_mem
  have hcx := hr.1
  have hp := hr.2.1
  have hxy : x ≠ y := by
    rintro rfl
    exact hy (by simp)
  have hc : c ≠ .next y := by
    rintro rfl
    exact hy (List.mem_append_left _ (by simpa using hmem))
  obtain ⟨t, ht, hcy, hyc, hload, hpy, hpx, hprev⟩ := listInsertBefore_spec hxy hp hc
  refine ⟨t, ht, ?_, ?_⟩
  · refine Represents.insert hnd hl hr hd hy hcy (hyc.trans hcx.symm) hload hpy ?_ fun e hey her => ?_
    · rintro _ ⟨⟩
      exact hpx
    · exact hprev e hey fun heq => her (congrArg some heq.symm)
  · refine hm.leavesOthers (fun c' hc' hcy' => hload c' ?_ (hcy' y (by simp)))
      fun e hex hey => hprev e (by simpa using hey) ?_
    · rintro rfl
      exact hc' (mem_cells_append hmem)
    · rintro rfl
      exact hex (by simp)

theorem listInsertAfter_represents (hm : m.Represents h (l ++ x :: z :: r)) (hy : y ∉ l ++ x :: z :: r) :
    ∃ t, m.listInsertAfter x y = some t ∧ m.Becomes h (l ++ x :: y :: z :: r) [y] t := by
  have hm' : m.Represents h ((l ++ [x]) ++ z :: r) := by simpa using hm
  obtain ⟨hnd, c, d, hl, hr, hd⟩ := hm'.split
  obtain ⟨-, -, -, -, rfl⟩ := spells_append.mp hl
  have hz : m.leNext x = some z := hr.1
  have hxy : x ≠ y := by
    rintro rfl
    exact hy (by simp)
  have hzy : z ≠ y := by
    rintro rfl
    exact hy (by simp)
  obtain ⟨t, ht, hcy, hyc, hload, hpy, hpz, hprev⟩ := listInsertAfter_spec hxy hz hzy
  refine ⟨t, ht, ?_, ?_⟩
  · have hins := Represents.insert (y := y) hnd hl hr hd (by simpa using hy) hcy (hyc.trans hz.symm) hload hpy
      (by rintro _ ⟨⟩; exact hpz) fun e hey her => hprev e hey fun heq => her (congrArg some heq.symm)
    simpa using hins
  · refine hm.leavesOthers (fun c' hc' hcy' => hload c' ?_ (hcy' y (by simp)))
      fun e hex hey => hprev e (by simpa using hey) ?_
    · rintro rfl
      exact hc' (by simp)
    · rintro rfl
      exact hex (by simp)

theorem listRemove_represents (hm : m.Represents h (l ++ x :: r)) :
    ∃ t, m.listRemove x = some t ∧ m.Becomes h (l ++ r) [] t := by
  obtain ⟨hnd, c, d, hl, hr, hd⟩ := hm.split
  have hmem := hl.end_mem
  have hp := hr.2.1
  have hnext : m.leNext x = r.head? := by
    cases r with
    | nil =>
      obtain rfl : .next x = d := hr.2.2
      exact hd
    | cons z r => exact hr.2.2.1
  have hxr : x ∉ r := (List.nodup_cons.mp (List.nodup_append.mp hnd).2.1).1
  have hx : m.leNext x ≠ some x := by
    rw [hnext]
    exact fun heq => hxr (List.mem_of_mem_head? heq)
  obtain ⟨t, ht, hcx, hload, hpr, hprev⟩ := listRemove_spec hp hx
  refine ⟨t, ht, ?_, ?_⟩
  · exact Represents.delete hnd hl hr hd hcx hload (fun z hz => hpr z (hnext.trans hz)) fun e he =>
      hprev e fun heq => he (hnext.symm.trans heq)
  · refine hm.leavesOthers (fun c' hc' _ => hload c' ?_) fun e hex _ => hprev e ?_
    · rintro rfl
      exact hc' (mem_cells_append hmem)
    · rw [hnext]
      intro heq
      exact hex (by simp [List.mem_of_mem_head? heq])

/-- **The `LIST` macros** are the operations on lists, and leave other lists as they are, but for
`LIST_INSERT_AFTER`: this one dereferences a null pointer if and only if its element is the last one. -/
theorem list_macros_iff (hm : m.Represents h xs) (hy : y ∉ xs) :
    m.Becomes h (y :: xs) [y] (m.listInsertHead h y) ∧
      ∀ l x r, xs = l ++ x :: r →
        (∃ t, m.listInsertBefore x y = some t ∧ m.Becomes h (l ++ y :: x :: r) [y] t) ∧
          (∃ t, m.listRemove x = some t ∧ m.Becomes h (l ++ r) [] t) ∧
            ((∃ t, m.listInsertAfter x y = some t ∧ m.Becomes h (l ++ x :: y :: r) [y] t) ↔ r ≠ []) := by
  refine ⟨listInsertHead_represents hm hy, ?_⟩
  rintro l x r rfl
  refine ⟨listInsertBefore_represents hm hy, listRemove_represents hm, ?_⟩
  cases r with
  | nil =>
    refine iff_of_false ?_ fun hne => hne rfl
    rintro ⟨t, ht, -⟩
    obtain ⟨-, c, d, -, ⟨-, -, rfl⟩, hd⟩ := hm.split
    have hxy : x ≠ y := by
      rintro rfl
      exact hy (by simp)
    rw [listInsertAfter_last hxy hd] at ht
    cases ht
  | cons z r => exact iff_of_true (listInsertAfter_represents hm hy) (List.cons_ne_nil z r)

/-- The list with the elements 0 and 1. -/
def pair : Links Unit Nat where
  lhFirst := fun _ => some 0
  leNext := fun e => if e = 0 then some 1 else none
  lePrev := fun e => if e = 0 then some (.first ()) else if e = 1 then some (.next 0) else none

theorem pair_represents : pair.Represents () [0, 1] :=
  ⟨by decide, .next 1, ⟨rfl, rfl, rfl, rfl, rfl⟩, rfl⟩

theorem list_macros_pair : pair.Becomes () [2, 0, 1] [2] (pair.listInsertHead () 2) ∧
    ∃ t, pair.listInsertAfter 0 2 = some t ∧ pair.Becomes () [0, 2, 1] [2] t := by
  obtain ⟨hhead, hrest⟩ := list_macros_iff pair_represents (y := 2) (by decide)
  exact ⟨hhead, ((hrest [] 0 [1] rfl).2.2.mpr (by decide))⟩

/-- Nothing can be inserted after the element 1. -/
theorem listInsertAfter_null : pair.Represents () [0, 1] ∧ 2 ∉ [0, 1] ∧ pair.listInsertAfter 1 2 = none :=
  ⟨pair_represents, by decide, rfl⟩

end Links

/-! ## The list of free pages -/

variable {η : Type} [DecidableEq η] {m : Links η Nat} {h : η} {k : Kernel} {pp : Nat}

/-- `page_alloc` takes the element off that `LIST_FIRST` and `LIST_REMOVE` take off. -/
theorem pageAlloc_list (hm : m.Represents h k.pageFreeList) :
    (pageAlloc k).Sat (fun pp k' => m.lhFirst h = some pp ∧
        ∃ t, m.listRemove pp = some t ∧ t.Represents h k'.pageFreeList)
      (fun _ _ => m.lhFirst h = none) (fun _ => True) := by
  cases hf : k.pageFreeList with
  | nil =>
    rw [hf] at hm
    rw [pageAlloc_nil hf]
    exact hm.lhFirst
  | cons pp rest =>
    rw [hf] at hm
    rw [pageAlloc_cons hf]
    split
    · obtain ⟨t, ht, hbecomes, -⟩ := Links.listRemove_represents (l := []) hm
      exact ⟨hm.lhFirst, t, ht, hbecomes⟩
    · trivial

/-- `page_free` puts the page where `LIST_INSERT_HEAD` puts it. -/
theorem pageFree_list (hm : m.Represents h k.pageFreeList) (hp : pp ∉ k.pageFreeList) :
    (pageFree pp k).Sat (fun _ k' => (m.listInsertHead h pp).Represents h k'.pageFreeList)
      (fun _ _ => False) (fun _ => True) := by
  rw [pageFree, get_bind]
  by_cases hr : k.ppRef pp = 0
  · rw [bind_ret (assert_pos hr)]
    exact (Links.listInsertHead_represents hm hp).1
  · rw [bind_halt (assert_neg hr)]
    trivial

end Mos
