import Mos.User.Cow
import Mos.User.PipeInherit

/-!
# Copy-on-write isolates parent and child

After `fork` the two envs map the same frames. `ForkView` says what `duppage` has done to the entries.
`Pages` is the invariant from there on: a shared page keeps its frame, a private page that can be stored
to has its frame for itself, and every page holds what it should hold (`Spaces.expected`).
`fork_isolated` is the statement over every run of stores and handlers of the two.

Sharing is a matter of pages in `duppage`, and of frames in the hardware. So the theorem asks that
the parent does not map one frame both as a shared and as a private page; `fork_aliased` shows what
happens otherwise.
-/

namespace Mos

open Lib

/-! ## Flags of entries -/

section Flags

variable {w perm flag : Word} {f : Nat}

theorem has_ptePerm (hflag : flag &&& 0xfff = flag) : has (ptePerm w) flag = has w flag := by
  have heq : w &&& 0xfff &&& flag = w &&& flag := by
    rw [BitVec.and_assoc, BitVec.and_comm 0xfff flag, hflag]
  unfold has ptePerm
  rw [heq]

theorem has_pageEntry (hflag : flag < 4096) (hv : has pteV flag = false) :
    has (pageEntry f perm) flag = has perm flag := by
  rw [pageEntry, has_entry hflag, hv, Bool.or_false]

theorem has_cowPerm_d : has (cowPerm perm) pteD = false := has_and_not_self _ _

theorem has_cowPerm_cow : has (cowPerm perm) pteCow = true := by
  rw [cowPerm, has_and_not _ _ _ (by decide), has_or]
  simp [show has pteCow pteCow = true by decide]

theorem dupCow_iff : dupCow perm = true ↔
    has perm pteD = true ∧ has perm pteLibrary = false ∧ has perm pteCow = false := by
  unfold dupCow
  cases has perm pteD <;> cases has perm pteLibrary <;> cases has perm pteCow <;> simp

end Flags

/-! ## What `fork` leaves behind -/

/-- The entry of a copied page in the child. -/
def dupChild (w : Word) : Word :=
  pageEntry (ppn w) (if dupCow (ptePerm w) then cowPerm (ptePerm w) else ptePerm w)

/-- The entry of a copied page in the parent. -/
def dupParent (w : Word) : Word :=
  if dupCow (ptePerm w) then pageEntry (ppn w) (cowPerm (ptePerm w)) else w

/-- The pages of the parent below `np` have been treated, and those below `nc` have been copied to
the child. -/
structure ForkView (s : Spaces) (parent child : EnvPtr) (np nc : Nat) (t : Spaces) : Prop where
  atParent : ∀ m, t.pte parent m
    = if m < np ∧ legalPage m = true then (s.pte parent m).map dupParent else s.pte parent m
  atChild : ∀ m, t.pte child m
    = if m < nc ∧ legalPage m = true then (s.pte parent m).map dupChild else none
  mem : t.mem = s.mem

/-- The same for a state of the loop. -/
def ForkOk (s : Spaces) (parent child : EnvPtr) : CopyPc × Spaces → Prop
  | (.page n, t) => ForkView s parent child n n t
  | (.remap n perm, t) => ForkView s parent child n (n + 1) t ∧
      ∃ w, s.pte parent n = some w ∧ dupCow (ptePerm w) = true ∧ perm = cowPerm (ptePerm w)
  | (.failed, _) => False

section ForkRun

variable {s t : Spaces} {parent child : EnvPtr} {n np nc : Nat} {w : Word}

namespace ForkView

theorem entry (h : ForkView s parent child n nc t) : t.pte parent n = s.pte parent n := by
  rw [h.atParent, if_neg (fun hc => Nat.lt_irrefl n hc.1)]

/-- A page that needs no copy in the child. -/
theorem skipChild (h : ForkView s parent child np n t)
    (hskip : legalPage n = true → s.pte parent n = none) :
    ForkView s parent child np (n + 1) t := by
  refine ⟨h.atParent, fun m => ?_, h.mem⟩
  rw [h.atChild]
  rcases Nat.lt_trichotomy m n with hlt | rfl | hgt
  · simp only [hlt, Nat.lt_succ_of_lt hlt, true_and]
  · rw [if_neg (fun hc => Nat.lt_irrefl m hc.1)]
    split
    next hc => rw [hskip hc.2, Option.map_none]
    next => rfl
  · rw [if_neg (by omega), if_neg (by omega)]

/-- A page that stays as it is in the parent. -/
theorem skipParent (h : ForkView s parent child n nc t)
    (hskip : ∀ w, legalPage n = true → s.pte parent n = some w → dupCow (ptePerm w) = false) :
    ForkView s parent child (n + 1) nc t := by
  refine ⟨fun m => ?_, h.atChild, h.mem⟩
  rw [h.atParent]
  rcases Nat.lt_trichotomy m n with hlt | rfl | hgt
  · simp only [hlt, Nat.lt_succ_of_lt hlt, true_and]
  · rw [if_neg (fun hc => Nat.lt_irrefl m hc.1)]
    split
    next hc =>
      cases hw : s.pte parent m with
      | none => rfl
      | some w => rw [Option.map_some, dupParent, hskip w hc.2 hw, if_neg Bool.false_ne_true]
    next => rfl
  · rw [if_neg (by omega), if_neg (by omega)]

/-- The page is mapped in the child. -/
theorem copyChild (h : ForkView s parent child np n t) (hne : parent ≠ child)
    (hw : s.pte parent n = some w) (hlegal : legalPage n = true) :
    ForkView s parent child np (n + 1) (t.setPte child n (some (dupChild w))) := by
  refine ⟨fun m => ?_, fun m => ?_, h.mem⟩
  · rw [Spaces.pte_setPte, if_neg (fun hc => hne hc.1), h.atParent]
  · rw [Spaces.pte_setPte, h.atChild]
    rcases Nat.lt_trichotomy m n with hlt | rfl | hgt
    · rw [if_neg (by omega)]
      simp only [hlt, Nat.lt_succ_of_lt hlt, true_and]
    · rw [if_pos ⟨rfl, rfl⟩, if_pos ⟨Nat.lt_succ_self m, hlegal⟩, hw, Option.map_some]
    · rw [if_neg (by omega), if_neg (by omega), if_neg (by omega)]

/-- The page is mapped again in the parent. -/
theorem remapParent (h : ForkView s parent child n nc t) (hne : parent ≠ child)
    (hw : s.pte parent n = some w) (hlegal : legalPage n = true) :
    ForkView s parent child (n + 1) nc (t.setPte parent n (some (dupParent w))) := by
  refine ⟨fun m => ?_, fun m => ?_, h.mem⟩
  · rw [Spaces.pte_setPte, h.atParent]
    rcases Nat.lt_trichotomy m n with hlt | rfl | hgt
    · rw [if_neg (by omega)]
      simp only [hlt, Nat.lt_succ_of_lt hlt, true_and]
    · rw [if_pos ⟨rfl, rfl⟩, if_pos ⟨Nat.lt_succ_self m, hlegal⟩, hw, Option.map_some]
    · rw [if_neg (by omega), if_neg (by omega), if_neg (by omega)]
  · rw [Spaces.pte_setPte, if_neg (fun hc => hne hc.1.symm), h.atChild]

end ForkView

/-- One step of the loop, when the kernel has the memory. -/
theorem forkOk_step {c c' : CopyPc × Spaces} (hne : parent ≠ child)
    (hok : ForkOk s parent child c) (hstep : forkStep parent child true c = some c') :
    ForkOk s parent child c' := by
  obtain ⟨pc, t⟩ := c
  cases pc with
  | page n =>
    have h : ForkView s parent child n n t := hok
    simp only [forkStep] at hstep
    split at hstep
    next =>
      split at hstep
      next hnone =>
        cases hstep
        rw [h.entry] at hnone
        refine (h.skipChild fun _ => hnone).skipParent fun w _ hw => ?_
        rw [hnone] at hw
        cases hw
      next w hw =>
        rw [h.entry] at hw
        have hw' : t.pte parent n = some w := h.entry.trans hw
        by_cases hlegal : legalPage n = true
        · split at hstep
          next hcow =>
            cases hstep
            rw [copyMap_of_legal hw' hlegal, Option.getD_some]
            have hentry : pageEntry (ppn w) (cowPerm (ptePerm w)) = dupChild w := by
              rw [dupChild, if_pos hcow]
            rw [hentry]
            exact ⟨h.copyChild hne hw hlegal, w, hw, hcow, rfl⟩
          next hcow =>
            cases hstep
            rw [copyMap_of_legal hw' hlegal, Option.getD_some]
            have hentry : pageEntry (ppn w) (ptePerm w) = dupChild w := by
              rw [dupChild, if_neg hcow]
            rw [hentry]
            refine (h.copyChild hne hw hlegal).skipParent fun v _ hv => ?_
            rw [hw] at hv
            cases hv
            exact Bool.eq_false_iff.mpr hcow
        · have hnone : ∀ dst perm, copyMap t parent dst n perm true = none := by
            intro dst perm
            simp [copyMap, hlegal]
          have hchild := h.skipChild fun hl => absurd hl hlegal
          split at hstep
          next hcow =>
            cases hstep
            rw [hnone, Option.getD_none]
            exact ⟨hchild, w, hw, hcow, rfl⟩
          next hcow =>
            cases hstep
            rw [hnone, Option.getD_none]
            exact hchild.skipParent fun _ hl => absurd hl hlegal
    next => cases hstep
  | remap n perm =>
    obtain ⟨h, w, hw, hcow, rfl⟩ := hok
    cases hstep
    have hw' : t.pte parent n = some w := h.entry.trans hw
    by_cases hlegal : legalPage n = true
    · rw [copyMap_of_legal hw' hlegal, Option.getD_some]
      have hentry : pageEntry (ppn w) (cowPerm (ptePerm w)) = dupParent w := by
        rw [dupParent, if_pos hcow]
      rw [hentry]
      exact h.remapParent hne hw hlegal
    · have hnone : copyMap t parent parent n (cowPerm (ptePerm w)) true = none := by
        simp [copyMap, hlegal]
      rw [hnone, Option.getD_none]
      exact h.skipParent fun _ hl => absurd hl hlegal
  | failed => cases hstep

/-- The calls of `fork` while the kernel has memory. -/
def forkStepOk (parent child : EnvPtr) : CopyPc × Spaces → Bool → Option (CopyPc × Spaces) :=
  guarded (fun _ mem => mem = true) (Inherit.fork.step parent child)

/-- **What `fork` has done** when its loop is through. -/
theorem forkView_of_run {oks : List Bool} (hne : parent ≠ child) (hchild : ∀ n, s.pte child n = none)
    (hrun : run (forkStepOk parent child) (.page 0, s) oks = some (.page n, t)) :
    ForkView s parent child n n t := by
  have hstart : ForkOk s parent child (.page 0, s) := by
    refine ⟨fun m => ?_, fun m => ?_, rfl⟩
    · rw [if_neg (fun hc => Nat.not_lt_zero m hc.1)]
    · rw [if_neg (fun hc => Nat.not_lt_zero m hc.1), hchild]
  have hend : ForkOk s parent child (.page n, t) := by
    refine run_invariant (fun c mem c' hok hstep => ?_) hstart hrun
    obtain ⟨rfl, hstep⟩ := of_guarded hstep
    exact forkOk_step hne hok hstep
  exact hend

end ForkRun

/-! ## The pages of the two envs -/

/-- A page of the parent or of the child. -/
def CowSlot (parent child e : EnvPtr) (n : Nat) : Prop :=
  (e = parent ∨ e = child) ∧ userPage n = true

/-- The page was mapped when `fork` was called, and neither writable nor copy-on-write. -/
def Spaces.readOnly (s : Spaces) (parent : EnvPtr) (n : Nat) : Prop :=
  ∃ w, s.pte parent n = some w ∧ has w pteD = false ∧ has w pteCow = false

/-- The invariant of the pages after `fork`, where `s` is the state that `fork` found. -/
structure Pages (s : Spaces) (parent child : EnvPtr) (alive : EnvPtr → Prop) (log : List Store)
    (t : Spaces) : Prop where
  /-- Nothing gets lost. -/
  mapped : ∀ e n, CowSlot parent child e n → alive e → s.pte parent n ≠ none → t.pte e n ≠ none
  /-- A shared page keeps its frame. -/
  shared : ∀ e n f w, CowSlot parent child e n → s.sharedFrame parent n = some f →
    t.pte e n = some w → ppn w = f ∧ has w pteCow = false
  /-- A private page is not on a shared frame. -/
  owned : ∀ e n w, CowSlot parent child e n → s.sharedFrame parent n = none →
    t.pte e n = some w → ∀ n', userPage n' = true → s.sharedFrame parent n' ≠ some (ppn w)
  /-- A private page that can be stored to has its frame for itself. -/
  excl : ∀ e n w, CowSlot parent child e n → s.sharedFrame parent n = none → t.pte e n = some w →
    has w pteD = true → ∀ e' n', CowSlot parent child e' n' → t.frame e' n' = some (ppn w) →
    e' = e ∧ n' = n
  contents : ∀ e n w, CowSlot parent child e n → t.pte e n = some w → ∀ i < 1024,
    t.mem (ppn w) i = s.expected parent log e n i
  /-- A page that is not mapped is one that has not been stored to. -/
  blank : ∀ e n, CowSlot parent child e n → alive e → t.pte e n = none →
    ∀ i, s.expected parent log e n i = 0
  readOnly : ∀ e n w, CowSlot parent child e n → s.readOnly parent n → t.pte e n = some w →
    has w pteD = false ∧ has w pteCow = false

section Pages

variable {s t t' : Spaces} {parent child e : EnvPtr} {alive : EnvPtr → Prop} {log : List Store}
  {n f : Nat} {w : Word} {st : Store}

theorem Spaces.sharedFrame_eq_some :
    s.sharedFrame parent n = some f ↔
      ∃ w, s.pte parent n = some w ∧ has w pteLibrary = true ∧ ppn w = f := by
  rw [Spaces.sharedFrame, Option.bind_eq_some_iff]
  constructor
  · rintro ⟨w, hw, hif⟩
    split at hif
    next hlib => exact ⟨w, hw, hlib, Option.some.inj hif⟩
    next => cases hif
  · rintro ⟨w, hw, hlib, rfl⟩
    exact ⟨w, hw, if_pos hlib⟩

theorem Spaces.expected_cons_of_sees {i : Nat} (h : s.sees parent e n st = true) :
    s.expected parent (st :: log) e n i
      = if st.word = i then st.value else s.expected parent log e n i := by
  simp only [Spaces.expected, h, and_true]

theorem Spaces.expected_cons_of_not_sees {i : Nat} (h : s.sees parent e n st = false) :
    s.expected parent (st :: log) e n i = s.expected parent log e n i := by
  simp [Spaces.expected, h]

namespace Pages

/-- The fewer envs are alive, the less has to hold. -/
theorem mono (h : Pages s parent child alive log t) {alive' : EnvPtr → Prop}
    (halive : ∀ e, alive' e → alive e) : Pages s parent child alive' log t :=
  ⟨fun e n hs ha => h.mapped e n hs (halive e ha), h.shared, h.owned, h.excl, h.contents,
    fun e n hs ha => h.blank e n hs (halive e ha), h.readOnly⟩

/-- Nothing that the pages show has changed. -/
theorem congr (h : Pages s parent child alive log t)
    (hpte : ∀ e n, CowSlot parent child e n → t'.pte e n = t.pte e n)
    (hmem : ∀ e n w, CowSlot parent child e n → t.pte e n = some w → t'.mem (ppn w) = t.mem (ppn w)) :
    Pages s parent child alive log t' := by
  constructor
  · intro e n hs
    rw [hpte e n hs]
    exact h.mapped e n hs
  · intro e n f w hs
    rw [hpte e n hs]
    exact h.shared e n f w hs
  · intro e n w hs
    rw [hpte e n hs]
    exact h.owned e n w hs
  · intro e n w hs hpriv
    rw [hpte e n hs]
    intro hw hd e' n' hs'
    rw [Spaces.frame, hpte e' n' hs']
    exact h.excl e n w hs hpriv hw hd e' n' hs'
  · intro e n w hs
    rw [hpte e n hs]
    intro hw
    rw [hmem e n w hs hw]
    exact h.contents e n w hs hw
  · intro e n hs
    rw [hpte e n hs]
    exact h.blank e n hs
  · intro e n w hs
    rw [hpte e n hs]
    exact h.readOnly e n w hs

/-- The frame of a shared page is a mapped one. -/
theorem frame_of_shared (h : Pages s parent child alive log t) (hs : CowSlot parent child e n)
    (halive : alive e) (hshared : s.sharedFrame parent n = some f) : t.frame e n = some f := by
  obtain ⟨v, hv, -, -⟩ := Spaces.sharedFrame_eq_some.mp hshared
  obtain ⟨w, hw⟩ := Option.ne_none_iff_exists'.mp (h.mapped e n hs halive (by rw [hv]; nofun))
  exact Spaces.frame_eq_some.mpr ⟨w, hw, (h.shared e n f w hs hshared hw).1⟩

/-- Which pages a store reaches: those that must show it. -/
theorem sees_iff (h : Pages s parent child alive log t) (hs : CowSlot parent child st.env st.page)
    (hw : t.pte st.env st.page = some w) (hd : has w pteD = true) {e' : EnvPtr} {n' : Nat}
    {w' : Word} (hs' : CowSlot parent child e' n') (hw' : t.pte e' n' = some w') :
    s.sees parent e' n' st = true ↔ ppn w' = ppn w := by
  unfold Spaces.sees
  cases hf' : s.sharedFrame parent n' with
  | some f' =>
    have hppn' : ppn w' = f' := (h.shared e' n' f' w' hs' hf' hw').1
    simp only [beq_iff_eq]
    constructor
    · intro hf
      rw [hppn', (h.shared _ _ f' w hs hf hw).1]
    · intro heq
      cases hf : s.sharedFrame parent st.page with
      | some f => rw [← (h.shared _ _ f w hs hf hw).1, ← heq, hppn']
      | none =>
        have hne := h.owned _ _ w hs hf hw n' hs'.2
        rw [hf', ← heq, hppn'] at hne
        exact absurd rfl hne
  | none =>
    simp only [Bool.and_eq_true, beq_iff_eq]
    constructor
    · rintro ⟨rfl, rfl⟩
      rw [hw] at hw'
      cases hw'
      rfl
    · intro heq
      cases hf : s.sharedFrame parent st.page with
      | some f =>
        have hne := h.owned e' n' w' hs' hf' hw' st.page hs.2
        rw [hf, heq, (h.shared _ _ f w hs hf hw).1] at hne
        exact absurd rfl hne
      | none =>
        obtain ⟨he, hn⟩ := h.excl _ _ w hs hf hw hd e' n' hs'
          (Spaces.frame_eq_some.mpr ⟨w', hw', heq⟩)
        exact ⟨he.symm, hn.symm⟩

/-- **A store** to a page with `PTE_D`. -/
theorem store (h : Pages s parent child alive log t) (hs : CowSlot parent child st.env st.page)
    (hw : t.pte st.env st.page = some w) (hd : has w pteD = true) :
    Pages s parent child alive (st :: log) (t.setWord (ppn w) st.word st.value) := by
  refine ⟨h.mapped, h.shared, h.owned, h.excl, ?_, ?_, h.readOnly⟩
  · intro e' n' w' hs' hw' i hi
    have hiff := h.sees_iff hs hw hd hs' hw'
    have hold := h.contents e' n' w' hs' hw' i hi
    by_cases heq : ppn w' = ppn w
    · rw [Spaces.expected_cons_of_sees (hiff.mpr heq), ← hold, heq]
      show Function.update t.mem (ppn w) _ (ppn w) i = _
      rw [Function.update_self]
      by_cases hi' : st.word = i
      · rw [hi', Function.update_self, if_pos rfl]
      · rw [Function.update_of_ne (Ne.symm hi'), if_neg hi']
    · rw [Spaces.expected_cons_of_not_sees (Bool.eq_false_iff.mpr (mt hiff.mp heq)), ← hold]
      show Function.update t.mem (ppn w) _ (ppn w') i = _
      rw [Function.update_of_ne heq]
  · intro e' n' hs' halive hnone i
    rw [Spaces.expected_cons_of_not_sees]
    · exact h.blank e' n' hs' halive hnone i
    · unfold Spaces.sees
      cases hf' : s.sharedFrame parent n' with
      | some f' =>
        have hframe := h.frame_of_shared hs' halive hf'
        rw [Spaces.frame, show t.pte e' n' = none from hnone] at hframe
        cases hframe
      | none =>
        simp only [Bool.and_eq_false_iff, beq_eq_false_iff_ne]
        by_contra hcon
        rw [not_or, not_not, not_not] at hcon
        have hnone' : t.pte e' n' = none := hnone
        rw [← hcon.1, ← hcon.2, hw] at hnone'
        cases hnone'

/-- **A private page gets a frame that no page has yet**, with the contents that it should have. -/
theorem mapFresh (h : Pages s parent child alive log t) (hs : CowSlot parent child e n)
    (halive : alive e) (hpriv : s.sharedFrame parent n = none) (hro : ¬s.readOnly parent n)
    (hfresh : ∀ e' n', CowSlot parent child e' n' → t.frame e' n' ≠ some (ppn w))
    (hpte : ∀ e' n', CowSlot parent child e' n' →
      t'.pte e' n' = if e' = e ∧ n' = n then some w else t.pte e' n')
    (hmem : ∀ f, f ≠ ppn w → t'.mem f = t.mem f)
    (hcontents : ∀ i < 1024, t'.mem (ppn w) i = s.expected parent log e n i) :
    Pages s parent child alive log t' := by
  -- an entry of the new state is the new one or an old one
  have hcases : ∀ {e' n' w'}, CowSlot parent child e' n' → t'.pte e' n' = some w' →
      (e' = e ∧ n' = n ∧ w' = w) ∨ (t.pte e' n' = some w' ∧ ppn w' ≠ ppn w) := by
    intro e' n' w' hs' hw'
    rw [hpte e' n' hs'] at hw'
    split at hw'
    next hhere => exact .inl ⟨hhere.1, hhere.2, (Option.some.inj hw').symm⟩
    next =>
      refine .inr ⟨hw', fun heq => hfresh e' n' hs' ?_⟩
      exact Spaces.frame_eq_some.mpr ⟨w', hw', heq⟩
  constructor
  · intro e' n' hs' halive' hmapped
    rw [hpte e' n' hs']
    split
    · nofun
    · exact h.mapped e' n' hs' halive' hmapped
  · intro e' n' f w' hs' hf hw'
    rcases hcases hs' hw' with ⟨-, rfl, -⟩ | ⟨hold, -⟩
    · rw [hpriv] at hf
      cases hf
    · exact h.shared e' n' f w' hs' hf hold
  · intro e' n' w' hs' hf hw' m hm
    rcases hcases hs' hw' with ⟨-, -, rfl⟩ | ⟨hold, -⟩
    · intro hshared
      exact hfresh e m ⟨hs.1, hm⟩ (h.frame_of_shared ⟨hs.1, hm⟩ halive hshared)
    · exact h.owned e' n' w' hs' hf hold m hm
  · intro e₁ n₁ w₁ hs₁ hf hw₁ hd e₂ n₂ hs₂ hframe
    obtain ⟨w₂, hw₂, hppn⟩ := Spaces.frame_eq_some.mp hframe
    rcases hcases hs₁ hw₁ with ⟨rfl, rfl, rfl⟩ | ⟨hold₁, hne₁⟩
    · rcases hcases hs₂ hw₂ with ⟨rfl, rfl, -⟩ | ⟨-, hne₂⟩
      · exact ⟨rfl, rfl⟩
      · exact absurd hppn hne₂
    · rcases hcases hs₂ hw₂ with ⟨-, -, rfl⟩ | ⟨hold₂, -⟩
      · exact absurd hppn.symm hne₁
      · exact h.excl e₁ n₁ w₁ hs₁ hf hold₁ hd e₂ n₂ hs₂
          (Spaces.frame_eq_some.mpr ⟨w₂, hold₂, hppn⟩)
  · intro e' n' w' hs' hw' i hi
    rcases hcases hs' hw' with ⟨rfl, rfl, rfl⟩ | ⟨hold, hne⟩
    · exact hcontents i hi
    · rw [hmem _ hne]
      exact h.contents e' n' w' hs' hold i hi
  · intro e' n' hs' halive' hnone
    rw [hpte e' n' hs'] at hnone
    split at hnone
    next => cases hnone
    next => exact h.blank e' n' hs' halive' hnone
  · intro e' n' w' hs' hro' hw'
    rcases hcases hs' hw' with ⟨-, rfl, -⟩ | ⟨hold, -⟩
    · exact absurd hro' hro
    · exact h.readOnly e' n' w' hs' hro' hold

/-- An env goes away. -/
theorem drop (h : Pages s parent child alive log t) {alive' : EnvPtr → Prop}
    (halive : ∀ e', alive' e' → alive e' ∧ e' ≠ e) :
    Pages s parent child alive' log (t.drop e) := by
  have hpte : ∀ {e' n' w'}, (t.drop e).pte e' n' = some w' → t.pte e' n' = some w' := by
    intro e' n' w' hw'
    simp only [Spaces.drop] at hw'
    split at hw'
    · cases hw'
    · exact hw'
  constructor
  · intro e' n' hs' halive' hmapped
    show (if e' = e then none else t.pte e' n') ≠ none
    rw [if_neg (halive e' halive').2]
    exact h.mapped e' n' hs' (halive e' halive').1 hmapped
  · exact fun e' n' f w' hs' hf hw' => h.shared e' n' f w' hs' hf (hpte hw')
  · exact fun e' n' w' hs' hf hw' => h.owned e' n' w' hs' hf (hpte hw')
  · intro e₁ n₁ w₁ hs₁ hf hw₁ hd e₂ n₂ hs₂ hframe
    obtain ⟨w₂, hw₂, hppn⟩ := Spaces.frame_eq_some.mp hframe
    exact h.excl e₁ n₁ w₁ hs₁ hf (hpte hw₁) hd e₂ n₂ hs₂
      (Spaces.frame_eq_some.mpr ⟨w₂, hpte hw₂, hppn⟩)
  · exact fun e' n' w' hs' hw' => h.contents e' n' w' hs' (hpte hw')
  · intro e' n' hs' halive' hnone
    have hnone' : (if e' = e then none else t.pte e' n') = none := hnone
    rw [if_neg (halive e' halive').2] at hnone'
    exact h.blank e' n' hs' (halive e' halive').1 hnone'
  · exact fun e' n' w' hs' hro hw' => h.readOnly e' n' w' hs' hro (hpte hw')

end Pages

end Pages

/-! ## The handler -/

/-- The parent or the child. -/
def CowParty (parent child e : EnvPtr) : Prop := e = parent ∨ e = child

/-- A store of `e` that the programs may make. -/
def Store.Ok (st : Store) (e : EnvPtr) : Prop :=
  st.env = e ∧ userPage st.page = true ∧ st.word < 1024

/-- `cow_entry` has been entered for a page that it may copy. -/
structure Handling (s : Spaces) (parent : EnvPtr) (t : Spaces) (e : EnvPtr) (st : Store)
    (perm : Word) : Prop where
  store : st.Ok e
  notShared : s.sharedFrame parent st.page = none
  notReadOnly : ¬s.readOnly parent st.page
  mapped : t.pte e st.page ≠ none
  perm_lt : perm < 4096
  perm_d : has perm pteD = true

/-- The frame at `UCOW` is no page's yet, and its first `i` words have been copied. -/
def CopiedTo (s : Spaces) (parent child : EnvPtr) (t : Spaces) (log : List Store) (e : EnvPtr)
    (n i : Nat) : Prop :=
  ∃ u, t.pte e ucowPage = some u ∧
    (∀ e' n', CowSlot parent child e' n' → t.frame e' n' ≠ some (ppn u)) ∧
    ∀ j < i, j < 1024 → t.mem (ppn u) j = s.expected parent log e n j

/-- What is known of `e` where it stands. -/
def CowPc.Ok (s : Spaces) (parent child : EnvPtr) (t : Spaces) (log : List Store) (e : EnvPtr) :
    CowPc → Prop
  | .running | .dead => t.pte e ucowPage = none
  | .alloc st perm => Handling s parent t e st perm ∧ t.pte e ucowPage = none
  | .copy st perm i => Handling s parent t e st perm ∧ CopiedTo s parent child t log e st.page i
  | .map st perm => Handling s parent t e st perm ∧ CopiedTo s parent child t log e st.page 1024
  | .unmap st => st.Ok e ∧ t.writable e st.page = true
  | .retry st => st.Ok e ∧ t.writable e st.page = true ∧ t.pte e ucowPage = none

/-- The invariant of the two envs. -/
structure Isolated (s : Spaces) (parent child : EnvPtr) (t : CowSys) : Prop where
  pages : Pages s parent child (fun e => t.pc e ≠ .dead) t.log t.spaces
  ucow : ∀ e e' g, CowParty parent child e → CowParty parent child e' →
    t.spaces.frame e ucowPage = some g → t.spaces.frame e' ucowPage = some g → e = e'
  pc : ∀ e, CowParty parent child e → (t.pc e).Ok s parent child t.spaces t.log e

theorem ucowPage_eq : ucowPage = 0x3ff := by decide

theorem userPage_iff {n : Nat} : userPage n = true ↔ 0x3fe ≤ n ∧ n < 0x7f3fe ∧ n ≠ 0x3ff := by
  have htop : ppn ustacktop = 0x7f3fe := by decide
  rw [userPage, Bool.and_eq_true, Bool.and_eq_true, legalPage_iff, decide_eq_true_eq,
    decide_eq_true_eq, htop, ucowPage_eq]
  omega

theorem userPage_ne_ucow {n : Nat} (h : userPage n = true) : n ≠ ucowPage := by
  rw [ucowPage_eq]
  exact (userPage_iff.mp h).2.2

theorem userPage_lt {n : Nat} (h : userPage n = true) : n < npte := by
  have := (userPage_iff.mp h).2.1
  unfold npte
  omega

theorem ucowPage_lt : ucowPage < npte := by decide

theorem cowEntryPerm_lt (w : Word) : cowEntryPerm w < 4096 := by
  refine or_lt_4096 ?_ (by decide)
  show (ptePerm w &&& ~~~pteCow).toNat < 4096
  rw [BitVec.toNat_and]
  exact Nat.lt_of_le_of_lt Nat.and_le_left (ptePerm_lt w)

theorem has_cowEntryPerm (w : Word) : has (cowEntryPerm w) pteD = true := by
  rw [cowEntryPerm, has_or]
  simp [show has pteD pteD = true by decide]

/-- A frame that the kernel hands out is mapped nowhere. -/
theorem Spaces.not_mapped_of_unused {s : Spaces} {f : Nat} (h : s.unused f = true) :
    f < 2 ^ 20 ∧ ∀ e n, n < npte → s.frame e n ≠ some f := by
  rw [Spaces.unused, Bool.and_eq_true, decide_eq_true_eq, beq_iff_eq] at h
  exact ⟨h.1, fun e n hn => refCount_eq_zero.mp h.2 (e, ⟨n, hn⟩)⟩

section Handler

variable {s : Spaces} {parent child e : EnvPtr} {t u : CowSys} {pc : CowPc} {st : Store}

/-- What another env does is none of the handler's business. -/
theorem CowPc.Ok.other {t t' : Spaces} {log log' : List Store} (h : pc.Ok s parent child t log e)
    (hpte : ∀ n, t'.pte e n = t.pte e n)
    (hucow : ∀ u, t.pte e ucowPage = some u →
      (∀ e' n', CowSlot parent child e' n' → t.frame e' n' ≠ some (ppn u)) →
      t'.mem (ppn u) = t.mem (ppn u) ∧
        ∀ e' n', CowSlot parent child e' n' → t'.frame e' n' ≠ some (ppn u))
    (hlog : ∀ n i, s.sharedFrame parent n = none →
      s.expected parent log' e n i = s.expected parent log e n i) :
    pc.Ok s parent child t' log' e := by
  have hhandling : ∀ st perm, Handling s parent t e st perm → Handling s parent t' e st perm :=
    fun st perm hh => ⟨hh.store, hh.notShared, hh.notReadOnly, by rw [hpte]; exact hh.mapped,
      hh.perm_lt, hh.perm_d⟩
  have hcopied : ∀ st perm i, Handling s parent t e st perm →
      CopiedTo s parent child t log e st.page i → CopiedTo s parent child t' log' e st.page i := by
    rintro st perm i hh ⟨u, hu, hfresh, hcopied⟩
    obtain ⟨hmem, hfresh'⟩ := hucow u hu hfresh
    refine ⟨u, (hpte _).trans hu, hfresh', fun j hj hj' => ?_⟩
    rw [hmem, hlog _ _ hh.notShared]
    exact hcopied j hj hj'
  have hwritable : ∀ n, t'.writable e n = t.writable e n := by
    intro n
    rw [Spaces.writable, hpte, Spaces.writable]
  cases pc with
  | running | dead => exact (hpte _).trans h
  | alloc st perm => exact ⟨hhandling st perm h.1, (hpte _).trans h.2⟩
  | copy st perm i => exact ⟨hhandling st perm h.1, hcopied st perm i h.1 h.2⟩
  | map st perm => exact ⟨hhandling st perm h.1, hcopied st perm 1024 h.1 h.2⟩
  | unmap st => exact ⟨h.1, (hwritable _).trans h.2⟩
  | retry st => exact ⟨h.1, (hwritable _).trans h.2.1, (hpte _).trans h.2.2⟩

theorem goto_self (t : CowSys) (e : EnvPtr) (pc : CowPc) : (t.goto e pc).pc e = pc :=
  Function.update_self ..

theorem goto_of_ne {e' : EnvPtr} (h : e' ≠ e) (t : CowSys) (pc : CowPc) :
    (t.goto e pc).pc e' = t.pc e' := Function.update_of_ne h ..

/-- `e` has moved, and may have changed the address spaces. -/
theorem Isolated.move {spaces : Spaces} {log : List Store} (h : Isolated s parent child t)
    (halive : t.pc e ≠ .dead) (hpages : Pages s parent child (fun e' => t.pc e' ≠ .dead) log spaces)
    (hucow : ∀ e₁ g, CowParty parent child e₁ → spaces.frame e₁ ucowPage = some g →
      t.spaces.frame e₁ ucowPage = some g ∨
      e₁ = e ∧ ∀ e₂, CowParty parent child e₂ → t.spaces.frame e₂ ucowPage ≠ some g)
    (hpc : pc.Ok s parent child spaces log e)
    (hother : ∀ e', CowParty parent child e' → e' ≠ e → (t.pc e').Ok s parent child spaces log e') :
    Isolated s parent child { t.goto e pc with spaces := spaces, log := log } := by
  refine ⟨hpages.mono fun e' he' => ?_, fun e₁ e₂ g hp₁ hp₂ h₁ h₂ => ?_, fun e' hp => ?_⟩
  · by_cases heq : e' = e
    · rw [heq]
      exact halive
    · exact goto_of_ne heq t pc ▸ he'
  · rcases hucow e₁ g hp₁ h₁ with hold₁ | ⟨rfl, hnew₁⟩
    · rcases hucow e₂ g hp₂ h₂ with hold₂ | ⟨rfl, hnew₂⟩
      · exact h.ucow e₁ e₂ g hp₁ hp₂ hold₁ hold₂
      · exact absurd hold₁ (hnew₂ e₁ hp₁)
    · rcases hucow e₂ g hp₂ h₂ with hold₂ | ⟨rfl, -⟩
      · exact absurd hold₂ (hnew₁ e₂ hp₂)
      · rfl
  · by_cases heq : e' = e
    · subst heq
      show ((t.goto e' pc).pc e').Ok s parent child spaces log e'
      rw [goto_self]
      exact hpc
    · show ((t.goto e pc).pc e').Ok s parent child spaces log e'
      rw [goto_of_ne heq]
      exact hother e' hp heq

/-- **A store**, be it successful or not. -/
theorem isolated_store (h : Isolated s parent child t) (hp : CowParty parent child e)
    (hst : st.Ok e) (halive : t.pc e ≠ .dead) (hucow : t.spaces.pte e ucowPage = none)
    (hstep : t.store st = some u) : Isolated s parent child u := by
  obtain ⟨rfl, huser, hword⟩ := hst
  have hslot : CowSlot parent child st.env st.page := ⟨hp, huser⟩
  unfold CowSys.store at hstep
  split at hstep
  next => cases hstep
  next w hw =>
    split at hstep
    next hd =>
      cases hstep
      refine h.move halive (h.pages.store hslot hw hd) (fun _ _ _ hg => .inl hg) hucow ?_
      intro e' hp' hne
      refine (h.pc e' hp').other (fun _ => rfl) (fun v hv hfresh => ⟨?_, hfresh⟩) ?_
      · -- the frame of the store belongs to a page, so it is not the one at `UCOW`
        have hframe : ppn v ≠ ppn w := by
          intro heq
          exact hfresh _ _ hslot (Spaces.frame_eq_some.mpr ⟨w, hw, heq.symm⟩)
        exact Function.update_of_ne hframe ..
      · intro n i hpriv
        refine Spaces.expected_cons_of_not_sees ?_
        simp [Spaces.sees, hpriv, Ne.symm hne]
    next hd =>
      split at hstep
      next hcow =>
        cases hstep
        refine h.move halive h.pages (fun _ _ _ hg => .inl hg) ⟨?_, hucow⟩
          (fun e' hp' _ => h.pc e' hp')
        refine ⟨⟨rfl, huser, hword⟩, ?_, ?_, by rw [hw]; nofun, cowEntryPerm_lt w,
          has_cowEntryPerm w⟩
        · cases hf : s.sharedFrame parent st.page with
          | none => rfl
          | some f =>
            rw [(h.pages.shared _ _ f w hslot hf hw).2] at hcow
            cases hcow
        · intro hro
          rw [(h.pages.readOnly _ _ w hslot hro hw).2] at hcow
          cases hcow
      next hcow =>
        cases hstep
        have hpte : ∀ e' n v, (t.spaces.drop st.env).pte e' n = some v →
            t.spaces.pte e' n = some v := by
          intro e' n v hv
          simp only [Spaces.drop] at hv
          split at hv
          · cases hv
          · exact hv
        have hframe : ∀ e' n g, (t.spaces.drop st.env).frame e' n = some g →
            t.spaces.frame e' n = some g := by
          intro e' n g hg
          obtain ⟨v, hv, hppn⟩ := Spaces.frame_eq_some.mp hg
          exact Spaces.frame_eq_some.mpr ⟨v, hpte e' n v hv, hppn⟩
        refine ⟨h.pages.drop fun e' he' => ?_, fun e₁ e₂ g hp₁ hp₂ h₁ h₂ => ?_, fun e' hp' => ?_⟩
        · have hne : e' ≠ st.env := fun heq => he' (heq ▸ goto_self t st.env .dead)
          exact ⟨goto_of_ne hne t .dead ▸ he', hne⟩
        · exact h.ucow e₁ e₂ g hp₁ hp₂ (hframe _ _ _ h₁) (hframe _ _ _ h₂)
        · by_cases heq : e' = st.env
          · subst heq
            show ((t.goto st.env .dead).pc st.env).Ok ..
            rw [goto_self]
            show (if st.env = st.env then none else t.spaces.pte st.env ucowPage) = none
            rw [if_pos rfl]
          · show ((t.goto st.env .dead).pc e').Ok ..
            rw [goto_of_ne heq]
            refine (h.pc e' hp').other (fun n => if_neg heq) (fun v _ hfresh => ⟨rfl, ?_⟩)
              (fun _ _ _ => rfl)
            exact fun e'' n'' hs hg => hfresh e'' n'' hs (hframe _ _ _ hg)

/-- An allocation changes neither the entries of the other envs nor the frames in use. -/
theorem CowPc.Ok.memAlloc {e' : EnvPtr} {n f : Nat} {perm : Word}
    (h : (t.pc e').Ok s parent child t.spaces t.log e') (hne : e' ≠ e)
    (hunused : t.spaces.unused f = true) (hperm : perm < 4096) :
    (t.pc e').Ok s parent child (t.spaces.memAlloc e n perm f) t.log e' := by
  obtain ⟨hf, hfresh⟩ := Spaces.not_mapped_of_unused hunused
  refine h.other (fun m => if_neg fun hc => hne hc.1) (fun v hv hslots => ⟨?_, ?_⟩)
    (fun _ _ _ => rfl)
  · refine Function.update_of_ne (fun heq => ?_) ..
    exact hfresh e' ucowPage ucowPage_lt (Spaces.frame_eq_some.mpr ⟨v, hv, heq⟩)
  · intro e'' n'' hs
    rw [Spaces.frame_memAlloc hf hperm]
    split
    · intro heq
      refine hfresh e' ucowPage ucowPage_lt (Spaces.frame_eq_some.mpr ⟨v, hv, ?_⟩)
      exact (Option.some.inj heq).symm
    · exact hslots e'' n'' hs

/-- **The first access to a page** that is not mapped. -/
theorem isolated_touch {n f : Nat} (h : Isolated s parent child t) (hp : CowParty parent child e)
    (hpc : t.pc e = .running) (huser : userPage n = true) (hnone : t.spaces.pte e n = none)
    (hunused : t.spaces.unused f = true) :
    Isolated s parent child { t with spaces := t.spaces.memAlloc e n pteD f } := by
  have hslot : CowSlot parent child e n := ⟨hp, huser⟩
  have halive : t.pc e ≠ .dead := by rw [hpc]; intro hdead; cases hdead
  obtain ⟨hf, hfresh⟩ := Spaces.not_mapped_of_unused hunused
  have hppn : ppn (pageEntry f pteD) = f := Spaces.ppn_pageEntry hf (by decide)
  have hucowFrame : ∀ e', (t.spaces.memAlloc e n pteD f).pte e' ucowPage
      = t.spaces.pte e' ucowPage :=
    fun e' => if_neg fun hc => userPage_ne_ucow huser hc.2.symm
  refine ⟨h.pages.mapFresh (w := pageEntry f pteD) hslot halive ?_ ?_ ?_ ?_ ?_ ?_, ?_, ?_⟩
  · cases hshared : s.sharedFrame parent n with
    | none => rfl
    | some g =>
      have hframe := h.pages.frame_of_shared hslot halive hshared
      rw [Spaces.frame, hnone] at hframe
      cases hframe
  · rintro ⟨w, hw, -⟩
    exact h.pages.mapped e n hslot halive (by rw [hw]; exact Option.some_ne_none w) hnone
  · intro e' n' hs'
    rw [hppn]
    exact hfresh e' n' (userPage_lt hs'.2)
  · exact fun e' n' _ => rfl
  · intro g hg
    rw [hppn] at hg
    exact Function.update_of_ne hg ..
  · intro i _
    rw [hppn, h.pages.blank e n hslot halive hnone]
    show Function.update t.spaces.mem f _ f i = 0
    rw [Function.update_self]
  · intro e₁ e₂ g hp₁ hp₂ h₁ h₂
    rw [Spaces.frame, hucowFrame] at h₁ h₂
    exact h.ucow e₁ e₂ g hp₁ hp₂ h₁ h₂
  · intro e' hp'
    by_cases heq : e' = e
    · subst heq
      have hok := h.pc e' hp'
      rw [hpc] at hok
      show (t.pc e').Ok ..
      rw [hpc]
      exact (hucowFrame e').trans hok
    · exact (h.pc e' hp').memAlloc heq hunused (by decide)

/-- `cow_entry` allocates a page at `UCOW`. -/
theorem isolated_alloc {f : Nat} {perm : Word} (h : Isolated s parent child t)
    (hp : CowParty parent child e) (hpc : t.pc e = .alloc st perm)
    (hunused : t.spaces.unused f = true) :
    Isolated s parent child
      { t.goto e (.copy st perm 0) with spaces := t.spaces.memAlloc e ucowPage perm f } := by
  have hok := h.pc e hp
  rw [hpc] at hok
  obtain ⟨hhandling, -⟩ := hok
  obtain ⟨hf, hfresh⟩ := Spaces.not_mapped_of_unused hunused
  have hppn := Spaces.ppn_pageEntry hf hhandling.perm_lt
  have hpte : ∀ e' n', userPage n' = true → (t.spaces.memAlloc e ucowPage perm f).pte e' n'
      = t.spaces.pte e' n' :=
    fun e' n' hu => if_neg fun hc => userPage_ne_ucow hu hc.2
  refine h.move (by rw [hpc]; nofun) (h.pages.congr (fun e' n' hs => hpte e' n' hs.2) ?_) ?_ ⟨?_, ?_⟩ ?_
  · intro e' n' w hs hw
    refine Function.update_of_ne (fun heq => ?_) ..
    exact hfresh e' n' (userPage_lt hs.2) (Spaces.frame_eq_some.mpr ⟨w, hw, heq⟩)
  · intro e₁ g _ hg
    rw [Spaces.frame_memAlloc hf hhandling.perm_lt] at hg
    split at hg
    next hhere =>
      cases hg
      exact .inr ⟨hhere.1, fun e₂ _ => hfresh e₂ ucowPage ucowPage_lt⟩
    next => exact .inl hg
  · refine ⟨hhandling.store, hhandling.notShared, hhandling.notReadOnly, ?_, hhandling.perm_lt,
      hhandling.perm_d⟩
    rw [hpte e st.page hhandling.store.2.1]
    exact hhandling.mapped
  · refine ⟨pageEntry f perm, if_pos ⟨rfl, rfl⟩, fun e' n' hs => ?_,
      fun j hj => absurd hj (Nat.not_lt_zero j)⟩
    rw [hppn, Spaces.frame, hpte e' n' hs.2]
    exact hfresh e' n' (userPage_lt hs.2)
  · exact fun e' hp' hne => (h.pc e' hp').memAlloc hne hunused hhandling.perm_lt

/-- One word of the `memcpy`. -/
theorem isolated_copy {perm w v : Word} {i : Nat} (h : Isolated s parent child t)
    (hp : CowParty parent child e) (hpc : t.pc e = .copy st perm i) (hi : i < 1024)
    (hw : t.spaces.pte e st.page = some w) (hv : t.spaces.pte e ucowPage = some v) :
    Isolated s parent child { t.goto e (.copy st perm (i + 1)) with
      spaces := t.spaces.setWord (ppn v) i (t.spaces.mem (ppn w) i) } := by
  have hok := h.pc e hp
  rw [hpc] at hok
  obtain ⟨hhandling, v', hv', hfresh, hcopied⟩ := hok
  obtain rfl : v' = v := Option.some.inj (hv'.symm.trans hv)
  have hslot : CowSlot parent child e st.page := ⟨hp, hhandling.store.2.1⟩
  refine h.move (by rw [hpc]; nofun) (h.pages.congr (fun _ _ _ => rfl) ?_)
    (fun _ _ _ hg => .inl hg)
    ⟨⟨hhandling.store, hhandling.notShared, hhandling.notReadOnly, hhandling.mapped,
      hhandling.perm_lt, hhandling.perm_d⟩, v', hv, hfresh, ?_⟩ ?_
  · intro e' n' w' hs hw'
    refine Function.update_of_ne (fun heq => ?_) ..
    exact hfresh e' n' hs (Spaces.frame_eq_some.mpr ⟨w', hw', heq⟩)
  · intro j hj hj'
    show Function.update t.spaces.mem (ppn v') _ (ppn v') j = _
    rw [Function.update_self]
    rcases Nat.lt_succ_iff_lt_or_eq.mp hj with hlt | rfl
    · rw [Function.update_of_ne (Nat.ne_of_lt hlt)]
      exact hcopied j hlt hj'
    · rw [Function.update_self]
      exact h.pages.contents e st.page w hslot hw j hj'
  · intro e' hp' hne
    refine (h.pc e' hp').other (fun _ => rfl) (fun v₂ hv₂ hfresh₂ => ⟨?_, hfresh₂⟩) (fun _ _ _ => rfl)
    refine Function.update_of_ne (fun heq => hne ?_) ..
    exact h.ucow e' e (ppn v₂) hp' hp (Spaces.frame_eq_some.mpr ⟨v₂, hv₂, rfl⟩)
      (Spaces.frame_eq_some.mpr ⟨v', hv, heq.symm⟩)

/-- **The copy takes the place of the page.** -/
theorem isolated_map {perm : Word} {spaces : Spaces} (h : Isolated s parent child t)
    (hp : CowParty parent child e) (hpc : t.pc e = .map st perm)
    (hmap : t.spaces.memMap e ucowPage e st.page perm = some spaces) :
    Isolated s parent child { t.goto e (.unmap st) with spaces := spaces } := by
  have hok := h.pc e hp
  rw [hpc] at hok
  obtain ⟨hhandling, v, hv, hfresh, hcopied⟩ := hok
  rw [Spaces.memMap, hv] at hmap
  cases hmap
  have halive : t.pc e ≠ .dead := by rw [hpc]; intro hdead; cases hdead
  have huser := hhandling.store.2.1
  have hslot : CowSlot parent child e st.page := ⟨hp, huser⟩
  have hppn := Spaces.ppn_pageEntry (ppn_lt v) hhandling.perm_lt
  have hucowFrame : ∀ e', (t.spaces.setPte e st.page (some (pageEntry (ppn v) perm))).pte e'
      ucowPage = t.spaces.pte e' ucowPage :=
    fun e' => if_neg fun hc => userPage_ne_ucow huser hc.2.symm
  refine h.move halive (h.pages.mapFresh (w := pageEntry (ppn v) perm) hslot halive
    hhandling.notShared hhandling.notReadOnly ?_ (fun _ _ _ => rfl) (fun _ _ => rfl) ?_) ?_
    ⟨hhandling.store, ?_⟩ ?_
  · rw [hppn]
    exact hfresh
  · intro i hi
    rw [hppn]
    exact hcopied i hi hi
  · intro e₁ g _ hg
    rw [Spaces.frame, hucowFrame] at hg
    exact .inl hg
  · rw [Spaces.writable, Spaces.pte_setPte, if_pos ⟨rfl, rfl⟩]
    show has (pageEntry (ppn v) perm) pteD = true
    rw [has_pageEntry (by decide) (by decide)]
    exact hhandling.perm_d
  · intro e' hp' hne
    refine (h.pc e' hp').other (fun n => if_neg fun hc => hne hc.1)
      (fun v₂ hv₂ hfresh₂ => ⟨rfl, fun e'' n'' hs => ?_⟩) (fun _ _ _ => rfl)
    rw [Spaces.frame_setPte, Option.map_some, hppn]
    split
    · intro heq
      refine hne (h.ucow e' e (ppn v) hp' hp ?_ (Spaces.frame_eq_some.mpr ⟨v, hv, rfl⟩))
      exact Spaces.frame_eq_some.mpr ⟨v₂, hv₂, (Option.some.inj heq).symm⟩
    · exact hfresh₂ e'' n'' hs

/-- `cow_entry` unmaps `UCOW`. -/
theorem isolated_unmap (h : Isolated s parent child t) (hp : CowParty parent child e)
    (hpc : t.pc e = .unmap st) :
    Isolated s parent child
      { t.goto e (.retry st) with spaces := t.spaces.memUnmap e ucowPage } := by
  have hok := h.pc e hp
  rw [hpc] at hok
  obtain ⟨hst, hwritable⟩ := hok
  have hpte : ∀ e' n', userPage n' = true → (t.spaces.memUnmap e ucowPage).pte e' n'
      = t.spaces.pte e' n' :=
    fun e' n' hu => if_neg fun hc => userPage_ne_ucow hu hc.2
  refine h.move (by rw [hpc]; nofun)
    (h.pages.congr (fun e' n' hs => hpte e' n' hs.2) (fun _ _ _ _ _ => rfl)) ?_
    ⟨hst, ?_, if_pos ⟨rfl, rfl⟩⟩ ?_
  · intro e₁ g _ hg
    rw [Spaces.memUnmap, Spaces.frame_setPte] at hg
    split at hg
    · cases hg
    · exact .inl hg
  · rw [Spaces.writable, hpte e st.page hst.2.1]
    exact hwritable
  · intro e' hp' hne
    refine (h.pc e' hp').other (fun n => if_neg fun hc => hne hc.1)
      (fun v₂ _ hfresh₂ => ⟨rfl, fun e'' n'' hs => ?_⟩) (fun _ _ _ => rfl)
    rw [Spaces.frame, hpte e'' n'' hs.2]
    exact hfresh₂ e'' n'' hs

/-- **One step of either env.** -/
theorem isolated_step {a : CowAct} (h : Isolated s parent child t)
    (hp : CowParty parent child a.env) (hstep : t.step a = some u) : Isolated s parent child u := by
  cases a with
  | touch e n f =>
    simp only [CowSys.step] at hstep
    split at hstep
    next hc =>
      cases hstep
      exact isolated_touch h hp hc.1 hc.2.1 hc.2.2.1 hc.2.2.2
    next => cases hstep
  | store st =>
    simp only [CowSys.step] at hstep
    split at hstep
    next hc =>
      replace hp : CowParty parent child st.env := hp
      have hok := h.pc st.env hp
      rw [hc.1] at hok
      exact isolated_store h hp ⟨rfl, hc.2.1, hc.2.2⟩ (by rw [hc.1]; nofun) hok hstep
    next => cases hstep
  | handle e f =>
    replace hp : CowParty parent child e := hp
    simp only [CowSys.step, CowSys.handle] at hstep
    split at hstep
    next => cases hstep
    next => cases hstep
    next st perm hpc =>
      split at hstep
      next hunused =>
        cases hstep
        exact isolated_alloc h hp hpc hunused
      next => cases hstep
    next st perm i hpc =>
      split at hstep
      next hi =>
        split at hstep
        next w v hw hv =>
          cases hstep
          exact isolated_copy h hp hpc hi hw hv
        next => cases hstep
      next hi =>
        cases hstep
        have hok := h.pc e hp
        rw [hpc] at hok
        obtain ⟨hhandling, v, hv, hfresh, hcopied⟩ := hok
        exact h.move (by rw [hpc]; nofun) h.pages (fun _ _ _ hg => .inl hg)
          ⟨hhandling, v, hv, hfresh, fun j _ hj => hcopied j (by omega) hj⟩
          (fun e' hp' _ => h.pc e' hp')
    next st perm hpc =>
      obtain ⟨spaces, hmap, rfl⟩ := Option.map_eq_some_iff.mp hstep
      exact isolated_map h hp hpc hmap
    next st hpc =>
      cases hstep
      exact isolated_unmap h hp hpc
    next st hpc =>
      have hok := h.pc e hp
      rw [hpc] at hok
      exact isolated_store h hp hok.1 (by rw [hpc]; nofun) hok.2.2 hstep

end Handler

/-! ## The two envs after `fork` -/

section Start

variable {s t : Spaces} {parent child e : EnvPtr} {n : Nat} {w w' : Word}

/-- What `duppage` keeps of an entry: a writable private page becomes copy-on-write. -/
structure DupOf (w w' : Word) : Prop where
  ppn : ppn w' = ppn w
  d : has w' pteD = (has w pteD && !dupCow (ptePerm w))
  cow : has w' pteCow = (has w pteCow || dupCow (ptePerm w))

theorem dupOf_cow (hcow : dupCow (ptePerm w) = true) :
    DupOf w (pageEntry (ppn w) (cowPerm (ptePerm w))) := by
  refine ⟨Spaces.ppn_pageEntry (ppn_lt w) (cowPerm_lt (ptePerm_lt w)), ?_, ?_⟩
  · rw [has_pageEntry (by decide) (by decide), has_cowPerm_d, hcow, Bool.not_true,
      Bool.and_false]
  · rw [has_pageEntry (by decide) (by decide), has_cowPerm_cow, hcow, Bool.or_true]

theorem dupOf_dupParent (w : Word) : DupOf w (dupParent w) := by
  unfold dupParent
  split
  next hcow => exact dupOf_cow hcow
  next hcow => constructor <;> simp [hcow]

theorem dupOf_dupChild (w : Word) : DupOf w (dupChild w) := by
  unfold dupChild
  split
  next hcow => exact dupOf_cow hcow
  next hcow =>
    refine ⟨Spaces.ppn_pageEntry (ppn_lt w) (ptePerm_lt w), ?_, ?_⟩
    · rw [has_pageEntry (by decide) (by decide), has_ptePerm (by decide)]
      simp [hcow]
    · rw [has_pageEntry (by decide) (by decide), has_ptePerm (by decide)]
      simp [hcow]

theorem dupCow_ptePerm_iff : dupCow (ptePerm w) = true ↔
    has w pteD = true ∧ has w pteLibrary = false ∧ has w pteCow = false := by
  rw [dupCow_iff, has_ptePerm (by decide), has_ptePerm (by decide), has_ptePerm (by decide)]

/-- The entries of both envs after `fork`. -/
theorem ForkView.pte (h : ForkView s parent child Inherit.fork.pages Inherit.fork.pages t)
    (hp : CowParty parent child e) (hlegal : legalPage n = true) (hn : n < Inherit.fork.pages) :
    (s.pte parent n = none → t.pte e n = none) ∧
      ∀ w, s.pte parent n = some w → ∃ w', t.pte e n = some w' ∧ DupOf w w' := by
  rcases hp with rfl | rfl
  · rw [h.atParent, if_pos ⟨hn, hlegal⟩]
    refine ⟨fun hnone => by rw [hnone]; rfl, fun w hw => ⟨_, by rw [hw]; rfl, dupOf_dupParent w⟩⟩
  · rw [h.atChild, if_pos ⟨hn, hlegal⟩]
    refine ⟨fun hnone => by rw [hnone]; rfl, fun w hw => ⟨_, by rw [hw]; rfl, dupOf_dupChild w⟩⟩

/-- What is asked of the parent's address space: `PTE_COW` comes neither with `PTE_D` nor with
`PTE_LIBRARY`, and nothing is mapped at `UCOW`. -/
structure CowReady (s : Spaces) (parent : EnvPtr) : Prop where
  cow : ∀ n w, s.pte parent n = some w → has w pteCow = true →
    has w pteD = false ∧ has w pteLibrary = false
  ucow : s.pte parent ucowPage = none

/-- No frame is mapped both as a shared and as a private page. -/
def NoAlias (s : Spaces) (parent : EnvPtr) : Prop :=
  ∀ n n' w w', userPage n = true → userPage n' = true → s.pte parent n = some w →
    s.pte parent n' = some w' → ppn w = ppn w' → has w pteLibrary = has w' pteLibrary

theorem pages_start (hready : CowReady s parent) (halias : NoAlias s parent)
    (h : ForkView s parent child Inherit.fork.pages Inherit.fork.pages t) :
    Pages s parent child (fun _ => True) [] t := by
  -- every entry is the copy of one of the parent's
  have hcopy : ∀ {e n w'}, CowSlot parent child e n → t.pte e n = some w' →
      ∃ w, s.pte parent n = some w ∧ DupOf w w' := by
    intro e n w' hs hw'
    have hpage := userPage_iff.mp hs.2
    obtain ⟨hnone, hsome⟩ := h.pte hs.1 (legalPage_iff.mpr ⟨hpage.1, by omega⟩) hpage.2.1
    cases hw : s.pte parent n with
    | none =>
      rw [hnone hw] at hw'
      cases hw'
    | some w =>
      obtain ⟨w₁, hw₁, hdup⟩ := hsome w hw
      rw [hw'] at hw₁
      cases hw₁
      exact ⟨w, rfl, hdup⟩
  have hback : ∀ {e n}, CowSlot parent child e n → t.pte e n = none → s.pte parent n = none := by
    intro e n hs hnone
    have hpage := userPage_iff.mp hs.2
    cases hw : s.pte parent n with
    | none => rfl
    | some w =>
      obtain ⟨w₁, hw₁, -⟩ := (h.pte hs.1 (legalPage_iff.mpr ⟨hpage.1, by omega⟩) hpage.2.1).2 w hw
      rw [hnone] at hw₁
      cases hw₁
  have hprivate : ∀ {n w}, s.pte parent n = some w → s.sharedFrame parent n = none →
      has w pteLibrary = false := by
    intro n w hw hpriv
    by_contra hlib
    rw [Bool.not_eq_false] at hlib
    rw [Spaces.sharedFrame, hw, Option.bind_some, if_pos hlib] at hpriv
    cases hpriv
  constructor
  · intro e n hs _ hmapped hnone
    exact hmapped (hback hs hnone)
  · intro e n f w' hs hshared hw'
    obtain ⟨w, hw, hdup⟩ := hcopy hs hw'
    obtain ⟨w₀, hw₀, hlib, rfl⟩ := Spaces.sharedFrame_eq_some.mp hshared
    rw [hw] at hw₀
    cases hw₀
    refine ⟨hdup.ppn, ?_⟩
    have hcow : has w pteCow = false := by
      by_contra hcow
      rw [(hready.cow n w hw (Bool.not_eq_false _ ▸ hcow)).2] at hlib
      cases hlib
    have hdupCow : dupCow (ptePerm w) = false := by
      rw [Bool.eq_false_iff]
      intro hd
      rw [(dupCow_ptePerm_iff.mp hd).2.1] at hlib
      cases hlib
    rw [hdup.cow, hcow, hdupCow, Bool.or_false]
  · intro e n w' hs hpriv hw' n' hn' hshared
    obtain ⟨w, hw, hdup⟩ := hcopy hs hw'
    obtain ⟨w₀, hw₀, hlib, hppn⟩ := Spaces.sharedFrame_eq_some.mp hshared
    have heq := halias n n' w w₀ hs.2 hn' hw hw₀ (by rw [hppn, hdup.ppn])
    rw [hprivate hw hpriv, hlib] at heq
    cases heq
  · intro e n w' hs hpriv hw' hd
    obtain ⟨w, hw, hdup⟩ := hcopy hs hw'
    rw [hdup.d, Bool.and_eq_true, Bool.not_eq_true'] at hd
    have hcow : has w pteCow = true := by
      by_contra hcow
      rw [Bool.not_eq_true] at hcow
      exact Bool.eq_false_iff.mp hd.2 (dupCow_ptePerm_iff.mpr ⟨hd.1, hprivate hw hpriv, hcow⟩)
    rw [(hready.cow n w hw hcow).1] at hd
    cases hd.1
  · intro e n w' hs hw' i _
    obtain ⟨w, hw, hdup⟩ := hcopy hs hw'
    rw [h.mem, hdup.ppn, Spaces.expected, Spaces.load, hw]
    rfl
  · intro e n hs _ hnone i
    rw [Spaces.expected, Spaces.load, hback hs hnone]
    rfl
  · intro e n w' hs hro hw'
    obtain ⟨w, hw, hdup⟩ := hcopy hs hw'
    obtain ⟨w₀, hw₀, hd, hcow⟩ := hro
    rw [hw] at hw₀
    cases hw₀
    have hdupCow : dupCow (ptePerm w) = false := by
      rw [Bool.eq_false_iff]
      intro hdc
      rw [(dupCow_ptePerm_iff.mp hdc).1] at hd
      cases hd
    rw [hdup.d, hdup.cow, hd, hcow, hdupCow]
    exact ⟨rfl, rfl⟩

theorem isolated_start (hready : CowReady s parent) (halias : NoAlias s parent)
    (h : ForkView s parent child Inherit.fork.pages Inherit.fork.pages t) :
    Isolated s parent child (.start t) := by
  have hucow : ∀ e, CowParty parent child e → t.pte e ucowPage = none :=
    fun e hp => (h.pte hp (by decide) (by decide)).1 hready.ucow
  refine ⟨(pages_start hready halias h).mono fun _ _ => trivial, fun e e' g hp _ hg => ?_, hucow⟩
  rw [Spaces.frame] at hg
  simp only [CowSys.start, hucow e hp] at hg
  cases hg

end Start

/-- The steps of the parent and the child. -/
def cowStep (parent child : EnvPtr) : CowSys → CowAct → Option CowSys :=
  guarded (fun _ a => a.env = parent ∨ a.env = child) CowSys.step

theorem isolated_of_run {s t : Spaces} {parent child : EnvPtr} (hne : parent ≠ child)
    (hchild : ∀ n, s.pte child n = none) (hready : CowReady s parent) (halias : NoAlias s parent)
    {oks : List Bool}
    (hfork : run (forkStepOk parent child) (.page 0, s) oks = some (.page Inherit.fork.pages, t))
    {acts : List CowAct} {u : CowSys} (hrun : run (cowStep parent child) (.start t) acts = some u) :
    Isolated s parent child u := by
  refine run_invariant (fun t a t' h hstep => ?_)
    (isolated_start hready halias (forkView_of_run hne hchild hfork)) hrun
  obtain ⟨hp, hstep⟩ := of_guarded hstep
  exact isolated_step h hp hstep

/-- **Copy-on-write isolates memory.** Let the loop of `fork` run through, in a parent that maps no
frame both as a shared and as a private page, and let parent and child go on in any order. Then either
of them, as long as it is there, finds on every page what it should: on a private page the contents
at the time of `fork` updated by its own stores, on a shared page the contents updated by the stores of
both. Pages do not get lost, a page that was neither writable nor copy-on-write does not become
writable, and a store that went through `cow_entry` succeeds. -/
theorem fork_isolated (s t : Spaces) (parent child : EnvPtr) (hne : parent ≠ child)
    (hchild : ∀ n, s.pte child n = none) (hready : CowReady s parent) (halias : NoAlias s parent)
    (oks : List Bool)
    (hfork : run (forkStepOk parent child) (.page 0, s) oks = some (.page Inherit.fork.pages, t))
    (acts : List CowAct) (u : CowSys) (hrun : run (cowStep parent child) (.start t) acts = some u)
    (e : EnvPtr) (he : e = parent ∨ e = child) (n : Nat) (hn : userPage n = true) :
    (∀ i < 1024, ∀ v, u.spaces.load e n i = some v → v = s.expected parent u.log e n i) ∧
    (u.pc e ≠ .dead → s.pte parent n ≠ none → u.spaces.pte e n ≠ none) ∧
    (s.readOnly parent n → u.spaces.writable e n = false) ∧
    (∀ st, u.pc e = .retry st → u.spaces.writable e st.page = true) := by
  have h := isolated_of_run hne hchild hready halias hfork hrun
  have hslot : CowSlot parent child e n := ⟨he, hn⟩
  refine ⟨fun i hi v hv => ?_, h.pages.mapped e n hslot, fun hro => ?_, fun st hpc => ?_⟩
  · obtain ⟨w, hw, rfl⟩ := Option.map_eq_some_iff.mp hv
    exact h.pages.contents e n w hslot hw i hi
  · cases hw : u.spaces.pte e n with
    | none => simp [Spaces.writable, hw]
    | some w => simp [Spaces.writable, hw, (h.pages.readOnly e n w hslot hro hw).1]
  · have hok := h.pc e he
    rw [hpc] at hok
    exact hok.2.1

/-! ## Small parents -/

/-- The loop of `fork` does run through. -/
theorem exists_fork_run (s : Spaces) {parent child : EnvPtr} (hne : parent ≠ child) :
    ∃ oks t, run (forkStepOk parent child) (.page 0, s) oks
      = some (.page Inherit.fork.pages, t) := by
  have hstuck : Inherit.fork.stuck s parent = false := rfl
  obtain ⟨oks, t, -, hoks, hrun, -, -⟩ :=
    exists_run_page (k := .fork) hne hstuck Inherit.fork.pages (Nat.le_refl _)
  refine ⟨oks, t, ?_⟩
  rw [forkStepOk, run_guarded fun ok hok _ => hoks ok hok]
  exact hrun

/-- Env 0 has a shared page at `UTEXT` and a private one after it. -/
def smallParent : Spaces :=
  (Spaces.empty.setPte 0 0x400 (some (pageEntry 1 (pteD ||| pteLibrary)))).setPte 0 0x401
    (some (pageEntry 2 pteD))

/-- Env 0 has the same frame as a shared page and as a read-only private page. -/
def aliasedParent : Spaces :=
  (Spaces.empty.setPte 0 0x400 (some (pageEntry 1 (pteD ||| pteLibrary)))).setPte 0 0x401
    (some (pageEntry 1 0))

theorem pte_twoPages {w₁ w₂ w : Word} {e : EnvPtr} {n : Nat}
    (h : ((Spaces.empty.setPte 0 0x400 (some w₁)).setPte 0 0x401 (some w₂)).pte e n = some w) :
    e = 0 ∧ (n = 0x400 ∧ w = w₁ ∨ n = 0x401 ∧ w = w₂) := by
  rw [Spaces.pte_setPte, Spaces.pte_setPte] at h
  split at h
  next hhere => exact ⟨hhere.1, .inr ⟨hhere.2, (Option.some.inj h).symm⟩⟩
  next =>
    split at h
    next hhere => exact ⟨hhere.1, .inl ⟨hhere.2, (Option.some.inj h).symm⟩⟩
    next => cases h

theorem cowReady_twoPages {w₁ w₂ : Word} (h₁ : has w₁ pteCow = false)
    (h₂ : has w₂ pteCow = false) :
    CowReady ((Spaces.empty.setPte 0 0x400 (some w₁)).setPte 0 0x401 (some w₂)) 0 := by
  refine ⟨fun n w hw hcow => ?_, by rw [ucowPage_eq]; rfl⟩
  rcases (pte_twoPages hw).2 with ⟨-, rfl⟩ | ⟨-, rfl⟩
  · rw [h₁] at hcow
    cases hcow
  · rw [h₂] at hcow
    cases hcow

theorem noChild_twoPages {w₁ w₂ : Word} {e : EnvPtr} (he : e ≠ 0) (n : Nat) :
    ((Spaces.empty.setPte 0 0x400 (some w₁)).setPte 0 0x401 (some w₂)).pte e n = none := by
  rw [Spaces.pte_setPte, Spaces.pte_setPte, if_neg (fun hc => he hc.1),
    if_neg (fun hc => he hc.1)]
  rfl

/-- The child stores to the shared page. -/
theorem run_child_store {t : Spaces} {w : Word} (hw : t.pte 1 0x400 = some w)
    (hd : has w pteD = true) :
    run (cowStep 0 1) (.start t) [.store ⟨1, 0x400, 0, 7⟩] = some
      { (CowSys.start t).goto 1 .running with
        spaces := t.setWord (ppn w) 0 7
        log := [⟨1, 0x400, 0, 7⟩] } := by
  have hstore : (CowSys.start t).store ⟨1, 0x400, 0, 7⟩ = some
      { (CowSys.start t).goto 1 .running with
        spaces := t.setWord (ppn w) 0 7
        log := [⟨1, 0x400, 0, 7⟩] } := by
    simp only [CowSys.store, CowSys.start, hw, hd, if_true]
  have hstep : cowStep 0 1 (.start t) (.store ⟨1, 0x400, 0, 7⟩)
      = (CowSys.start t).store ⟨1, 0x400, 0, 7⟩ := by
    rw [cowStep, guarded, if_pos (.inr rfl), CowSys.step, if_pos ⟨rfl, by decide, by decide⟩]
  rw [run, hstep, hstore]
  rfl

theorem fork_isolated_small : ∃ oks t u,
    run (forkStepOk 0 1) (.page 0, smallParent) oks = some (.page Inherit.fork.pages, t) ∧
    run (cowStep 0 1) (.start t) [.store ⟨1, 0x400, 0, 7⟩] = some u ∧
    ∀ i < 1024, ∀ v, u.spaces.load 0 0x401 i = some v →
      v = smallParent.expected 0 u.log 0 0x401 i := by
  have hchild : ∀ n, smallParent.pte 1 n = none := noChild_twoPages (by decide)
  have hready : CowReady smallParent 0 := cowReady_twoPages (by decide) (by decide)
  have halias : NoAlias smallParent 0 := by
    intro n n' w w' _ _ hw hw' hppn
    rcases (pte_twoPages hw).2 with ⟨-, rfl⟩ | ⟨-, rfl⟩ <;>
      rcases (pte_twoPages hw').2 with ⟨-, rfl⟩ | ⟨-, rfl⟩
    · rfl
    · exact absurd hppn (by decide)
    · exact absurd hppn (by decide)
    · rfl
  obtain ⟨oks, t, hfork⟩ := exists_fork_run smallParent (show (0 : EnvPtr) ≠ 1 by decide)
  have hshared : t.pte 1 0x400 = some (dupChild (pageEntry 1 (pteD ||| pteLibrary))) := by
    rw [(forkView_of_run (by decide) hchild hfork).atChild, if_pos (by decide)]
    rfl
  have hrun := run_child_store hshared (by decide)
  exact ⟨oks, t, _, hfork, hrun, (fork_isolated smallParent t 0 1 (by decide) hchild hready halias
    oks hfork _ _ hrun 0 (.inl rfl) 0x401 (by decide)).1⟩

/-- **Sharing a frame in two ways.** The child stores to the shared page, and the private page of the
parent changes. -/
theorem fork_aliased : CowReady aliasedParent 0 ∧ (∀ e ≠ 0, ∀ n, aliasedParent.pte e n = none) ∧
    aliasedParent.sharedFrame 0 0x401 = none ∧ ∃ oks t u,
    run (forkStepOk 0 1) (.page 0, aliasedParent) oks = some (.page Inherit.fork.pages, t) ∧
    run (cowStep 0 1) (.start t) [.store ⟨1, 0x400, 0, 7⟩] = some u ∧
    u.spaces.load 0 0x401 0 = some 7 ∧ aliasedParent.expected 0 u.log 0 0x401 0 = 0 := by
  have hchild : ∀ n, aliasedParent.pte 1 n = none := noChild_twoPages (by decide)
  refine ⟨cowReady_twoPages (by decide) (by decide), fun e he => noChild_twoPages he, by decide, ?_⟩
  obtain ⟨oks, t, hfork⟩ := exists_fork_run aliasedParent (show (0 : EnvPtr) ≠ 1 by decide)
  have hview := forkView_of_run (by decide) hchild hfork
  have hshared : t.pte 1 0x400 = some (dupChild (pageEntry 1 (pteD ||| pteLibrary))) := by
    rw [hview.atChild, if_pos (by decide)]
    rfl
  have hprivate : t.pte 0 0x401 = some (dupParent (pageEntry 1 0)) := by
    rw [hview.atParent, if_pos (by decide)]
    rfl
  have hexpected : aliasedParent.expected 0 [⟨1, 0x400, 0, 7⟩] 0 0x401 0 = 0 := by decide
  refine ⟨oks, t, _, hfork, run_child_store hshared (by decide), ?_, hexpected⟩
  have hframe : ppn (dupParent (pageEntry 1 0))
      = ppn (dupChild (pageEntry 1 (pteD ||| pteLibrary))) := by decide
  rw [Spaces.load]
  simp only [Spaces.setWord, hprivate, Option.map_some, hframe, Function.update_self]

end Mos
