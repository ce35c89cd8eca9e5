import Mos.User.Fork
import Mos.User.PipeClosed

/-!
# A pipe can look closed while a child inherits it

`fork` and `spawn` copy pages in ascending order, and the descriptor pages lie below the data pages. So
all descriptors of a pipe are copied before the first mapping of the pipe's page is, and in between the
pages of its ends are mapped more often than their partners. An observer that compares the count of its
own end with that of the pipe's page can find them equal although the other end is there
(`exists_looks_closed`). `pipe_inherit_sound_iff` says exactly when this cannot happen.
-/

namespace Mos

open Lib

/-! ## What the loops do to the mappings -/

theorem ppn_utemp : ppn utemp = 0x3fe := by decide

theorem ppn_utop : ppn utop = 0x7f400 := by decide

theorem Inherit.pages_le (k : Inherit) : k.pages ≤ 0x7f400 := by
  cases k <;> decide

theorem Inherit.le_pages (k : Inherit) : 0x60000 ≤ k.pages := by
  cases k <;> decide

theorem legalPage_iff {n : Nat} : legalPage n = true ↔ 0x3fe ≤ n ∧ n < 0x7f400 := by
  rw [legalPage, Bool.and_eq_true, decide_eq_true_eq, decide_eq_true_eq, ppn_utemp, ppn_utop]

theorem Inherit.copies_iff {k : Inherit} {s : Spaces} {parent : EnvPtr} {n : Nat} :
    k.copies s parent n = true ↔ n < k.pages ∧ legalPage n = true ∧
      (s.pte parent n).any k.takes = true ∧ k.stuck s parent = false := by
  simp [Inherit.copies, and_assoc]

/-- What has happened to the mappings when the loop has reached page `n`: the pages `done` of the
parent have been copied, and the entries it still has to look at are as they were. -/
structure Copying (k : Inherit) (s : Spaces) (parent child : EnvPtr) (done : Finset Nat) (n : Nat)
    (t : Spaces) : Prop where
  copies : ∀ m ∈ done, k.copies s parent m = true
  frame : ∀ e m, t.frame e m = if e = child ∧ m ∈ done then s.frame parent m else s.frame e m
  rest : ∀ m, n ≤ m → t.pte parent m = s.pte parent m
  legal : k = .spawn → ∀ m < n, (s.pte parent m).any k.takes = true → legalPage m = true

namespace Copying

variable {k : Inherit} {s t : Spaces} {parent child e : EnvPtr} {done : Finset Nat} {n m f : Nat}
  {w perm : Word}

theorem start (k : Inherit) (s : Spaces) (parent child : EnvPtr) :
    Copying k s parent child ∅ 0 s := by
  constructor
  · simp
  · simp
  · exact fun _ _ => rfl
  · exact fun _ m hm => absurd hm (Nat.not_lt_zero m)

/-- The loop goes on to the next page. -/
theorem next (h : Copying k s parent child done n t)
    (hlegal : k = .spawn → (s.pte parent n).any k.takes = true → legalPage n = true) :
    Copying k s parent child done (n + 1) t := by
  refine ⟨h.copies, h.frame, fun m hm => h.rest m (by omega), fun hk m hm htakes => ?_⟩
  rcases Nat.lt_succ_iff_lt_or_eq.mp hm with hlt | rfl
  · exact h.legal hk m hlt htakes
  · exact hlegal hk htakes

/-- Where the loop copies a page it has not given up before. -/
theorem copies_here (h : Copying k s parent child done n t) (hn : n < k.pages)
    (hlegal : legalPage n = true) (htakes : (s.pte parent n).any k.takes = true) :
    k.copies s parent n = true := by
  refine Inherit.copies_iff.mpr ⟨hn, hlegal, htakes, ?_⟩
  by_contra hstuck
  rw [Bool.not_eq_false, Inherit.stuck, Bool.and_eq_true, beq_iff_eq, List.any_eq_true] at hstuck
  obtain ⟨hk, m, hm, hmt⟩ := hstuck
  rw [List.mem_range, ppn_utemp] at hm
  have hge := (legalPage_iff.mp hlegal).1
  have := (legalPage_iff.mp (h.legal hk m (by omega) hmt)).1
  omega

/-- A page is copied to the child. -/
theorem copy (h : Copying k s parent child done n t) (hne : parent ≠ child)
    (hw : t.pte parent n = some w) (hperm : perm < 4096) (hcopies : k.copies s parent n = true) :
    Copying k s parent child (insert n done) n
      (t.setPte child n (some (pageEntry (ppn w) perm))) := by
  refine ⟨fun m hm => ?_, fun e m => ?_, fun m hm => ?_, h.legal⟩
  · rcases Finset.mem_insert.mp hm with rfl | hm
    · exact hcopies
    · exact h.copies m hm
  · rw [Spaces.frame_setPte]
    split
    next hhere =>
      obtain ⟨rfl, rfl⟩ := hhere
      rw [Option.map_some, Spaces.ppn_pageEntry (ppn_lt w) hperm, if_pos (by simp), Spaces.frame,
        ← h.rest m (Nat.le_refl _), hw, Option.map_some]
    next hnot =>
      rw [h.frame]
      have hiff : (e = child ∧ m ∈ insert n done) ↔ (e = child ∧ m ∈ done) := by
        rw [Finset.mem_insert]
        constructor
        · rintro ⟨he, rfl | hm⟩
          · exact absurd ⟨he, rfl⟩ hnot
          · exact ⟨he, hm⟩
        · exact fun hm => ⟨hm.1, .inr hm.2⟩
      simp only [hiff]
  · rw [Spaces.pte_setPte, if_neg (fun hc => hne hc.1)]
    exact h.rest m hm

/-- The parent's own entry is rewritten; it keeps its frame. -/
theorem remap (h : Copying k s parent child done n t) (hne : parent ≠ child) (hk : k = .fork)
    (hw : t.pte parent n = some w) (hperm : perm < 4096) :
    Copying k s parent child done (n + 1) (t.setPte parent n (some (pageEntry (ppn w) perm))) := by
  refine ⟨h.copies, fun e m => ?_, fun m hm => ?_, fun hspawn => by rw [hk] at hspawn; cases hspawn⟩
  · rw [Spaces.frame_setPte]
    split
    next hhere =>
      obtain ⟨rfl, rfl⟩ := hhere
      rw [Option.map_some, Spaces.ppn_pageEntry (ppn_lt w) hperm, if_neg (fun hc => hne hc.1),
        Spaces.frame, ← h.rest m (Nat.le_refl _), hw, Option.map_some]
    next => exact h.frame e m
  · rw [Spaces.pte_setPte, if_neg (by omega)]
    exact h.rest m (by omega)

/-- A frame is mapped where it was, and at the pages of the child that it was copied to. -/
theorem frame_eq_some_iff (h : Copying k s parent child done n t)
    (hchild : ∀ m, s.frame child m ≠ some f) :
    t.frame e m = some f ↔ s.frame e m = some f ∨
      (e = child ∧ m ∈ done ∧ s.frame parent m = some f) := by
  rw [h.frame]
  split
  next hdone =>
    obtain ⟨rfl, hm⟩ := hdone
    constructor
    · exact fun hp => .inr ⟨rfl, hm, hp⟩
    · rintro (hc | ⟨-, -, hp⟩)
      · exact absurd hc (hchild m)
      · exact hp
  next hnot =>
    constructor
    · exact .inl
    · rintro (hs | ⟨he, hm, -⟩)
      · exact hs
      · exact absurd ⟨he, hm⟩ hnot

/-- The count of a frame goes up by the pages of it that have been copied. -/
theorem refs_eq (h : Copying k s parent child done n t) (hchild : ∀ m, s.frame child m ≠ some f) :
    t.refs f = s.refs f
      + countBelow npte (fun m => m ∈ done ∧ s.frame parent m = some f) npte := by
  refine le_antisymm ?_ ?_
  · refine refCount_le_add _ (fun m : Fin npte => (child, m)) fun p hp => ?_
    rcases (h.frame_eq_some_iff hchild).mp hp with hs | ⟨he, hm, hf⟩
    · exact .inl hs
    · exact .inr ⟨p.2, ⟨p.2.isLt, hm, hf⟩, Prod.ext he.symm rfl⟩
  · refine add_le_refCount _ (fun m : Fin npte => (child, m)) ?_ ?_ ?_
    · exact fun m m' heq => (Prod.mk.inj heq).2
    · exact fun p hp => (h.frame_eq_some_iff hchild).mpr (.inl hp)
    · rintro m ⟨-, hm, hf⟩
      exact ⟨(h.frame_eq_some_iff hchild).mpr (.inr ⟨rfl, hm, hf⟩), hchild m⟩

end Copying

/-! ## The steps of the loops -/

section Steps

variable {k : Inherit} {s t : Spaces} {parent child : EnvPtr} {done : Finset Nat} {n : Nat}
  {w perm : Word} {mem : Bool}

/-- A call maps the page, or fails and changes nothing. -/
theorem copyMap_eq_some {src dst : EnvPtr} {u : Spaces} (hw : t.pte src n = some w)
    (h : copyMap t src dst n perm mem = some u) :
    legalPage n = true ∧ u = t.setPte dst n (some (pageEntry (ppn w) perm)) := by
  unfold copyMap at h
  split at h
  next hmem =>
    rw [Spaces.memMap, hw] at h
    cases h
    exact ⟨(Bool.and_eq_true_iff.mp hmem).2, rfl⟩
  next => cases h

theorem copyMap_of_legal {src dst : EnvPtr} (hw : t.pte src n = some w)
    (hlegal : legalPage n = true) :
    copyMap t src dst n perm true = some (t.setPte dst n (some (pageEntry (ppn w) perm))) := by
  rw [copyMap, hlegal, Bool.and_self, if_pos rfl, Spaces.memMap, hw, Option.map_some]

/-- The same for a state of the loop. -/
def CopyOk (k : Inherit) (s : Spaces) (parent child : EnvPtr) : CopyPc × Spaces → Prop
  | (.page n, t) => ∃ done, Copying k s parent child done n t
  | (.remap n perm, t) => perm < 4096 ∧ k = .fork ∧ ∃ done, Copying k s parent child done n t
  | (.failed, t) => ∃ done n, Copying k s parent child done n t

/-- What is left after a call of `fork` that may have failed. -/
theorem Copying.copyMap_getD (h : Copying k s parent child done n t) (hne : parent ≠ child)
    (hn : n < k.pages) (hw : t.pte parent n = some w) (htakes : k.takes w = true)
    (hperm : perm < 4096) (mem : Bool) :
    ∃ done', Copying k s parent child done' n ((copyMap t parent child n perm mem).getD t) := by
  cases hmap : copyMap t parent child n perm mem with
  | none => exact ⟨done, h⟩
  | some u =>
    obtain ⟨hlegal, rfl⟩ := copyMap_eq_some hw hmap
    have hany : (s.pte parent n).any k.takes = true := by
      rw [← h.rest n (Nat.le_refl n), hw]
      exact htakes
    exact ⟨_, h.copy hne hw hperm (h.copies_here hn hlegal hany)⟩

/-- One step of `fork`. -/
theorem copyOk_forkStep {c c' : CopyPc × Spaces} (hne : parent ≠ child)
    (hok : CopyOk .fork s parent child c) (hstep : forkStep parent child mem c = some c') :
    CopyOk .fork s parent child c' := by
  have hfork : Inherit.fork ≠ .spawn := by decide
  obtain ⟨pc, t⟩ := c
  cases pc with
  | page n =>
    obtain ⟨done, h⟩ := hok
    simp only [forkStep] at hstep
    split at hstep
    next hn =>
      split at hstep
      next =>
        cases hstep
        exact ⟨done, h.next fun hk => absurd hk hfork⟩
      next w hw =>
        split at hstep
        next =>
          cases hstep
          exact ⟨cowPerm_lt (ptePerm_lt w), rfl,
            h.copyMap_getD hne hn hw rfl (cowPerm_lt (ptePerm_lt w)) mem⟩
        next =>
          cases hstep
          obtain ⟨done', h'⟩ := h.copyMap_getD hne hn hw rfl (ptePerm_lt w) mem
          exact ⟨done', h'.next fun hk => absurd hk hfork⟩
    next => cases hstep
  | remap n perm =>
    obtain ⟨hperm, hk, done, h⟩ := hok
    cases hstep
    refine ⟨done, ?_⟩
    cases hmap : copyMap t parent parent n perm mem with
    | none => exact h.next fun hk => absurd hk hfork
    | some u =>
      cases hw : t.pte parent n with
      | none => simp [copyMap, Spaces.memMap, hw] at hmap
      | some w =>
        obtain ⟨-, rfl⟩ := copyMap_eq_some hw hmap
        exact h.remap hne hk hw hperm
  | failed => cases hstep

/-- One step of `spawn`. -/
theorem copyOk_spawnStep {c c' : CopyPc × Spaces} (hne : parent ≠ child)
    (hok : CopyOk .spawn s parent child c) (hstep : spawnStep parent child mem c = some c') :
    CopyOk .spawn s parent child c' := by
  obtain ⟨pc, t⟩ := c
  cases pc with
  | page n =>
    obtain ⟨done, h⟩ := hok
    have hrest := h.rest n (Nat.le_refl n)
    simp only [spawnStep] at hstep
    split at hstep
    next hn =>
      split at hstep
      next hnone =>
        cases hstep
        refine ⟨done, h.next fun _ htakes => ?_⟩
        rw [← hrest, hnone] at htakes
        cases htakes
      next w hw =>
        have hany : (s.pte parent n).any Inherit.spawn.takes = has (ptePerm w) pteLibrary := by
          rw [← hrest, hw]
          rfl
        split at hstep
        next hlib =>
          split at hstep
          next =>
            cases hstep
            exact ⟨done, n, h⟩
          next u hmap =>
            cases hstep
            obtain ⟨hlegal, rfl⟩ := copyMap_eq_some hw hmap
            have hcopies := h.copies_here hn hlegal (hany.trans hlib)
            exact ⟨_, (h.copy hne hw (ptePerm_lt w) hcopies).next fun _ _ => hlegal⟩
        next hlib =>
          cases hstep
          exact ⟨done, h.next fun _ htakes => absurd (hany.symm.trans htakes) hlib⟩
    next => cases hstep
  | remap n perm => cases hstep
  | failed => cases hstep

/-- In every state that the loop passes through, some of the pages have been copied. -/
theorem copyOk_run {oks : List Bool} {c : CopyPc × Spaces} (hne : parent ≠ child)
    (hrun : run (k.step parent child) (.page 0, s) oks = some c) : CopyOk k s parent child c := by
  refine run_invariant (fun c mem c' hok hstep => ?_)
    (show CopyOk k s parent child (.page 0, s) from ⟨∅, Copying.start k s parent child⟩) hrun
  cases k with
  | fork => exact copyOk_forkStep hne hok hstep
  | spawn => exact copyOk_spawnStep hne hok hstep

theorem exists_copying_of_run {oks : List Bool} {pc : CopyPc} (hne : parent ≠ child)
    (hrun : run (k.step parent child) (.page 0, s) oks = some (pc, t)) :
    ∃ done n, Copying k s parent child done n t := by
  have hok := copyOk_run hne hrun
  cases pc with
  | page n => exact ⟨hok.choose, n, hok.choose_spec⟩
  | remap n perm =>
    obtain ⟨-, -, done, h⟩ := hok
    exact ⟨done, n, h⟩
  | failed => exact hok

/-! ## The loops when every call succeeds -/

/-- All pages below `n` that the loop copies have been copied. -/
def CopiedBelow (k : Inherit) (s : Spaces) (parent : EnvPtr) (n : Nat) (done : Finset Nat) : Prop :=
  ∀ m, m ∈ done ↔ m < n ∧ k.copies s parent m = true

theorem CopiedBelow.insert (h : CopiedBelow k s parent n done)
    (hcopies : k.copies s parent n = true) :
    CopiedBelow k s parent (n + 1) (insert n done) := by
  intro m
  rw [Finset.mem_insert, h m]
  constructor
  · rintro (rfl | ⟨hlt, hm⟩)
    · exact ⟨Nat.lt_succ_self m, hcopies⟩
    · exact ⟨Nat.lt_succ_of_lt hlt, hm⟩
  · rintro ⟨hlt, hm⟩
    rcases Nat.lt_succ_iff_lt_or_eq.mp hlt with hlt | rfl
    · exact .inr ⟨hlt, hm⟩
    · exact .inl rfl

theorem CopiedBelow.skip (h : CopiedBelow k s parent n done)
    (hcopies : k.copies s parent n ≠ true) : CopiedBelow k s parent (n + 1) done := by
  intro m
  rw [h m]
  constructor
  · exact fun ⟨hlt, hm⟩ => ⟨Nat.lt_succ_of_lt hlt, hm⟩
  · rintro ⟨hlt, hm⟩
    rcases Nat.lt_succ_iff_lt_or_eq.mp hlt with hlt | rfl
    · exact ⟨hlt, hm⟩
    · exact absurd hm hcopies

/-- The loop gets past page `n`. -/
def PassesPage (k : Inherit) (s : Spaces) (parent child : EnvPtr) (n : Nat) (t : Spaces) : Prop :=
  ∃ oks u done, (∀ ok ∈ oks, ok = true) ∧
    run (k.step parent child) (.page n, t) oks = some (.page (n + 1), u) ∧
    Copying k s parent child done (n + 1) u ∧ CopiedBelow k s parent (n + 1) done

theorem passes_fork (hne : parent ≠ child) (hn : n < Inherit.fork.pages)
    (h : Copying .fork s parent child done n t) (hdone : CopiedBelow .fork s parent n done) :
    PassesPage .fork s parent child n t := by
  have hfork : Inherit.fork ≠ .spawn := by decide
  have hrest := h.rest n (Nat.le_refl n)
  cases hw : t.pte parent n with
  | none =>
    refine ⟨[true], t, done, by simp, ?_, h.next fun hk => absurd hk hfork, hdone.skip fun hc => ?_⟩
    · simp [run, Inherit.step, forkStep, hn, hw]
    · obtain ⟨-, -, htakes, -⟩ := Inherit.copies_iff.mp hc
      rw [← hrest, hw] at htakes
      cases htakes
  | some w =>
    by_cases hlegal : legalPage n = true
    · have hcopies := h.copies_here hn hlegal (by rw [← hrest, hw]; rfl)
      by_cases hcow : dupCow (ptePerm w) = true
      · have hperm := cowPerm_lt (ptePerm_lt w)
        have hcopy := h.copy hne hw hperm hcopies
        have hw' : (t.setPte child n (some (pageEntry (ppn w) (cowPerm (ptePerm w))))).pte parent n
            = some w := by
          rw [Spaces.pte_setPte, if_neg (fun hc => hne hc.1), hw]
        refine ⟨[true, true], _, _, by simp, ?_, hcopy.remap hne rfl hw' hperm, hdone.insert hcopies⟩
        simp [run, Inherit.step, forkStep, hn, hw, hcow, copyMap_of_legal hw hlegal,
          copyMap_of_legal hw' hlegal]
      · refine ⟨[true], _, _, by simp, ?_,
          (h.copy hne hw (ptePerm_lt w) hcopies).next fun hk => absurd hk hfork,
          hdone.insert hcopies⟩
        simp [run, Inherit.step, forkStep, hn, hw, hcow, copyMap_of_legal hw hlegal]
    · -- the calls fail, and `fork` goes on
      have hskip := hdone.skip fun hc => hlegal (Inherit.copies_iff.mp hc).2.1
      have hnext := h.next fun hk => absurd hk hfork
      have hnone : ∀ dst perm, copyMap t parent dst n perm true = none := by
        intro dst perm
        simp [copyMap, hlegal]
      by_cases hcow : dupCow (ptePerm w) = true
      · refine ⟨[true, true], t, done, by simp, ?_, hnext, hskip⟩
        simp [run, Inherit.step, forkStep, hn, hw, hcow, hnone]
      · refine ⟨[true], t, done, by simp, ?_, hnext, hskip⟩
        simp [run, Inherit.step, forkStep, hn, hw, hcow, hnone]

theorem passes_spawn (hne : parent ≠ child) (hn : n < Inherit.spawn.pages)
    (hstuck : Inherit.spawn.stuck s parent = false) (h : Copying .spawn s parent child done n t)
    (hdone : CopiedBelow .spawn s parent n done) : PassesPage .spawn s parent child n t := by
  have hrest := h.rest n (Nat.le_refl n)
  have hlegal : (s.pte parent n).any Inherit.spawn.takes = true → legalPage n = true := by
    intro htakes
    rw [legalPage_iff]
    refine ⟨?_, Nat.lt_of_lt_of_le hn (Inherit.pages_le _)⟩
    by_contra hlt
    refine Bool.eq_false_iff.mp hstuck ?_
    rw [Inherit.stuck, beq_self_eq_true, Bool.true_and, List.any_eq_true]
    exact ⟨n, List.mem_range.mpr (by rw [ppn_utemp]; omega), htakes⟩
  cases hw : t.pte parent n with
  | none =>
    have hnot : (s.pte parent n).any Inherit.spawn.takes ≠ true := by
      rw [← hrest, hw]
      exact Bool.false_ne_true
    refine ⟨[true], t, done, by simp, ?_, h.next fun _ htakes => absurd htakes hnot,
      hdone.skip fun hc => hnot (Inherit.copies_iff.mp hc).2.2.1⟩
    simp [run, Inherit.step, spawnStep, hn, hw]
  | some w =>
    have hany : (s.pte parent n).any Inherit.spawn.takes = has (ptePerm w) pteLibrary := by
      rw [← hrest, hw]
      rfl
    by_cases hlib : has (ptePerm w) pteLibrary = true
    · have hlegal := hlegal (hany.trans hlib)
      have hcopies := h.copies_here hn hlegal (hany.trans hlib)
      refine ⟨[true], _, _, by simp, ?_, (h.copy hne hw (ptePerm_lt w) hcopies).next fun _ _ => hlegal,
        hdone.insert hcopies⟩
      simp [run, Inherit.step, spawnStep, hn, hw, hlib, copyMap_of_legal hw hlegal]
    · have hnot : (s.pte parent n).any Inherit.spawn.takes ≠ true := by
        rw [hany]
        exact hlib
      refine ⟨[true], t, done, by simp, ?_, h.next fun _ htakes => absurd htakes hnot,
        hdone.skip fun hc => hnot (Inherit.copies_iff.mp hc).2.2.1⟩
      simp [run, Inherit.step, spawnStep, hn, hw, hlib]

/-- **The loop gets to every page**, with all that it copies below it copied. -/
theorem exists_run_page (hne : parent ≠ child) (hstuck : k.stuck s parent = false) :
    ∀ n ≤ k.pages, ∃ oks t done, (∀ ok ∈ oks, ok = true) ∧
      run (k.step parent child) (.page 0, s) oks = some (.page n, t) ∧
      Copying k s parent child done n t ∧ CopiedBelow k s parent n done := by
  intro n
  induction n with
  | zero =>
    intro _
    exact ⟨[], s, ∅, by simp, rfl, Copying.start k s parent child, fun m => by simp⟩
  | succ n ih =>
    intro hn
    obtain ⟨oks, t, done, hoks, hrun, h, hdone⟩ := ih (by omega)
    have hpass : PassesPage k s parent child n t := by
      cases k with
      | fork => exact passes_fork hne hn h hdone
      | spawn => exact passes_spawn hne hn hstuck h hdone
    obtain ⟨oks', u, done', hoks', hrun', h', hdone'⟩ := hpass
    refine ⟨oks ++ oks', u, done', fun ok hok => ?_, (run_append hrun oks').trans hrun', h', hdone'⟩
    rcases List.mem_append.mp hok with hok | hok
    · exact hoks ok hok
    · exact hoks' ok hok

end Steps

/-! ## What an observer sees -/

/-- How many mappings of the frame `f` the child gets from the pages below `n`, when every call
succeeds. -/
def Inherit.inheritedBelow (k : Inherit) (s : Spaces) (parent : EnvPtr) (f n : Nat) : Nat :=
  countBelow npte (fun m => k.copies s parent m = true ∧ s.frame parent m = some f) n

/-- How many mappings of the frame `f` the child gets when every call succeeds. -/
def Inherit.inherited (k : Inherit) (s : Spaces) (parent : EnvPtr) (f : Nat) : Nat :=
  k.inheritedBelow s parent f npte

/-- The page of the pipe is mapped as the data of descriptors only. -/
def PipeFrames.DataOnly (q : PipeFrames) (s : Spaces) (e : EnvPtr) : Prop :=
  ∀ n, s.frame e n = some q.pipe → ∃ i < maxfd, n = dataPage i 0

/-- An env that has none of the pipe's frames. -/
def PipeFrames.Unrelated (q : PipeFrames) (s : Spaces) (e : EnvPtr) : Prop :=
  ∀ n f, q.IsEnd f ∨ f = q.pipe → s.frame e n ≠ some f

/-! ## `dup` and `close` keep the pipe's page among the data -/

section DataOnly

variable {q : PipeFrames} {s t : Spaces} {e : EnvPtr} {n : Nat} {o : Option Word} {mem : Bool}

theorem dataOnly_setPte (h : ∀ e, q.DataOnly s e)
    (ho : o.map ppn = some q.pipe → ∃ i < maxfd, n = dataPage i 0) :
    ∀ e', q.DataOnly (s.setPte e n o) e' := by
  intro e' n' hn'
  rw [Spaces.frame_setPte] at hn'
  split at hn'
  next hhere =>
    rw [hhere.2]
    exact ho hn'
  next => exact h e' n' hn'

theorem dataOnly_fdStep {pc pc' : FdPc} (h : ∀ e, q.DataOnly s e) (hok : pc.Ok q s e)
    (hstep : fdStep s e mem pc = some (pc', t)) : ∀ e, q.DataOnly t e := by
  have hunmap : ∀ n, ∀ e', q.DataOnly (s.memUnmap e n) e' :=
    fun n => dataOnly_setPte h fun hp => by cases hp
  cases pc with
  | idle => cases hstep
  | copy old new j =>
    obtain ⟨⟨hold, hnew, -, hj⟩, -⟩ := hok
    simp only [fdStep] at hstep
    split at hstep
    next =>
      cases hstep
      exact h
    next =>
      split at hstep
      next =>
        cases hstep
        exact h
      next hmap =>
        cases hstep
        obtain ⟨w, hw, rfl⟩ := eq_of_dupMap hmap
        refine dataOnly_setPte h fun hp => ?_
        rw [map_pageEntry] at hp
        obtain ⟨i, hi, heq⟩ := h e _ (Spaces.frame_eq_some.mpr ⟨w, hw, Option.some.inj hp⟩)
        obtain ⟨-, rfl⟩ := dataPage_inj hold hi hj (by decide) heq
        exact ⟨new, hnew, rfl⟩
  | copyFd old new =>
    obtain ⟨⟨hold, hnew, -⟩, -⟩ := hok
    simp only [fdStep] at hstep
    split at hstep
    next =>
      cases hstep
      exact h
    next hmap =>
      cases hstep
      obtain ⟨w, hw, rfl⟩ := eq_of_dupMap hmap
      refine dataOnly_setPte h fun hp => ?_
      rw [map_pageEntry] at hp
      obtain ⟨i, hi, heq⟩ := h e _ (Spaces.frame_eq_some.mpr ⟨w, hw, Option.some.inj hp⟩)
      exact absurd heq (fdPage_ne_dataPage hold hi (by decide))
  | pipeClose i old | pipeCloseData i old | fdClose i old | errFd new | errData new j =>
    cases hstep
    exact hunmap _

/-- Whatever `dup` and `close` have done, the envs are ready for `fork` and `spawn`. -/
theorem paired_dataOnly_of_run {acts : List FdAct} {u : FdSys} (hpaired : q.Paired s)
    (hdev : q.DevOk s) (hdata : ∀ e, q.DataOnly s e)
    (hrun : run FdSys.step { spaces := s, pc := fun _ => .idle } acts = some u) :
    q.Paired u.spaces ∧ ∀ e, q.DataOnly u.spaces e := by
  have h : u.Inv q ∧ ∀ e, q.DataOnly u.spaces e := by
    refine run_invariant (P := fun u => u.Inv q ∧ ∀ e, q.DataOnly u.spaces e) ?_
      ⟨⟨hpaired, hdev, fun _ => trivial⟩, hdata⟩ hrun
    rintro u a u' ⟨hinv, hdata⟩ hstep
    refine ⟨fd_inv_step hinv hstep, ?_⟩
    cases a with
    | close e i =>
      simp only [FdSys.step] at hstep
      split at hstep <;> cases hstep
      exact hdata
    | dup e old new =>
      simp only [FdSys.step] at hstep
      split at hstep
      · split at hstep <;> cases hstep <;> exact hdata
      · cases hstep
    | step e mem =>
      obtain ⟨⟨pc, t⟩, hfd, rfl⟩ := Option.map_eq_some_iff.mp hstep
      exact dataOnly_fdStep hdata (hinv.pc e) hfd
  exact ⟨h.1.paired, h.2⟩

end DataOnly

section Observer

variable {k : Inherit} {q : PipeFrames} {s t : Spaces} {parent child o e' : EnvPtr}
  {i f f' n' : Nat}

/-- The descriptors come before the data. -/
theorem PipeFrames.Paired.end_lt (h : q.Paired s) {e : EnvPtr} {n : Nat} (hf : q.IsEnd f)
    (hn : s.frame e n = some f) : n < 0x60000 := by
  obtain ⟨i, hi, rfl, -⟩ := h e n ⟨f, hf, hn⟩
  rw [fdPage_eq hi]
  unfold maxfd at hi
  omega

theorem PipeFrames.DataOnly.le (h : q.DataOnly s parent) {n : Nat}
    (hn : s.frame parent n = some q.pipe) : 0x60000 ≤ n := by
  obtain ⟨i, hi, rfl⟩ := h n hn
  rw [dataPage_eq hi (by decide)]
  omega

/-- The data of the observer's descriptor is the pipe. -/
theorem PipeFrames.Paired.data (h : q.Paired s) {e : EnvPtr} (hi : i < maxfd) (hf : q.IsEnd f)
    (hfd : s.frame e (fdPage i) = some f) : s.frame e (dataPage i 0) = some q.pipe := by
  obtain ⟨i', hi', heq, hdata⟩ := h e (fdPage i) ⟨f, hf, hfd⟩
  rw [fdPage_inj hi hi' heq]
  exact hdata

/-- While the other end is mapped, an end is mapped less often than the pipe. -/
theorem PipeFrames.Paired.refs_lt (h : q.Paired s) (hf : q.IsEnd f) (hf' : q.IsEnd f')
    (hff : f ≠ f') (hother : s.frame e' n' = some f') : s.refs f < s.refs q.pipe := by
  have hle := h.refs_le
  have hpos : s.refs f' ≠ 0 := fun hzero => h.not_mapped hf' hzero e' n' hother
  rcases hf with rfl | rfl <;> rcases hf' with rfl | rfl
  · exact absurd rfl hff
  · omega
  · omega
  · exact absurd rfl hff

/-- The observer keeps its descriptor and its data, and compares their counts. -/
theorem Copying.closed_iff {done : Finset Nat} {n : Nat} (h : Copying k s parent child done n t)
    (hpaired : q.Paired s) (hchild : q.Unrelated s child) (hi : i < maxfd)
    (hfd : s.frame o (fdPage i) = some f) (hf : q.IsEnd f) :
    t.pipeIsClosed o i = true ↔ t.refs f = t.refs q.pipe := by
  refine Spaces.pipeIsClosed_iff ?_ ?_
  · exact (h.frame_eq_some_iff (hchild · f (.inl hf))).mpr (.inl hfd)
  · exact (h.frame_eq_some_iff (hchild · q.pipe (.inr rfl))).mpr
      (.inl (hpaired.data hi hf hfd))

/-- **The pipe looks closed.** The counts of the ends grow before that of the pipe does, one at a
time, so there is a moment when they are equal. -/
theorem exists_looks_closed (hne : parent ≠ child) (hpaired : q.Paired s)
    (hdata : q.DataOnly s parent) (hchild : q.Unrelated s child) (hi : i < maxfd)
    (hfd : s.frame o (fdPage i) = some f) (hf : q.IsEnd f) (hf' : q.IsEnd f') (hff : f ≠ f')
    (hother : s.frame e' n' = some f') (hle : s.refs q.pipe ≤ s.refs f + k.inherited s parent f) :
    ∃ oks pc t, run (k.step parent child) (.page 0, s) oks = some (pc, t) ∧
      t.pipeIsClosed o i = true ∧ t.frame e' n' = some f' := by
  have hlt := hpaired.refs_lt hf hf' hff hother
  have hstuck : k.stuck s parent = false := by
    by_contra hstuck
    have hzero : k.inherited s parent f = 0 := by
      unfold Inherit.inherited Inherit.inheritedBelow
      exact countBelow_eq_zero fun m _ hm => hstuck (Inherit.copies_iff.mp hm.1).2.2.2
    omega
  -- the number of copies of `f` grows by at most one with each page
  have hstep : ∀ n, s.refs f + k.inheritedBelow s parent f (n + 1)
      ≤ s.refs f + k.inheritedBelow s parent f n + 1 := by
    intro n
    rw [Nat.add_assoc]
    exact Nat.add_le_add_left countBelow_succ_le _
  have hzero : s.refs f + k.inheritedBelow s parent f 0 ≤ s.refs q.pipe := by
    rw [Inherit.inheritedBelow, countBelow_eq_zero fun m hm => absurd hm (Nat.not_lt_zero m),
      Nat.add_zero]
    exact Nat.le_of_lt hlt
  have hall : s.refs q.pipe ≤ s.refs f + k.inheritedBelow s parent f 0x60000 := by
    refine le_trans hle (Nat.add_le_add_left ?_ _)
    unfold Inherit.inherited Inherit.inheritedBelow
    exact countBelow_le fun m _ _ hm => ⟨hpaired.end_lt hf hm.2, hm⟩
  obtain ⟨m, hm, heq⟩ := exists_eq_of_succ_le
    (a := fun n => s.refs f + k.inheritedBelow s parent f n) hstep hzero hall
  obtain ⟨oks, t, done, -, hrun, h, hdone⟩ :=
    exists_run_page (k := k) hne hstuck m (le_trans hm k.le_pages)
  have hclosed := h.closed_iff hpaired hchild hi hfd hf
  have hend : t.refs f = s.refs q.pipe := by
    rw [h.refs_eq (hchild · f (.inl hf)), ← heq]
    refine congrArg (s.refs f + ·) (le_antisymm ?_ ?_)
    · exact countBelow_le fun x _ _ hx => ⟨((hdone x).mp hx.1).1, ((hdone x).mp hx.1).2, hx.2⟩
    · exact countBelow_le fun x hN hx hp => ⟨hN, (hdone x).mpr ⟨hx, hp.1⟩, hp.2⟩
  have hpipe : t.refs q.pipe = s.refs q.pipe := by
    rw [h.refs_eq (hchild · q.pipe (.inr rfl)), countBelow_eq_zero, Nat.add_zero]
    rintro x - ⟨hx, hxp⟩
    have := ((hdone x).mp hx).1
    have := hdata.le hxp
    omega
  refine ⟨oks, _, t, hrun, hclosed.mpr (hend.trans hpipe.symm), ?_⟩
  exact (h.frame_eq_some_iff (hchild · f' (.inl hf'))).mpr (.inl hother)

/-- **When inheriting a pipe does not make it look closed.** For every env `o` with a descriptor of one
end: at every point of the copy, what `o` gets from `_pipe_is_closed` is right if and only if the other
end was not mapped to begin with, or the pipe is mapped more often than the end of `o` will be when all
its descriptors have been copied. -/
theorem pipe_inherit_sound_iff (k : Inherit) (q : PipeFrames) (s : Spaces) (parent child o : EnvPtr)
    (i f f' : Nat) (hne : parent ≠ child) (hpaired : q.Paired s) (hdata : q.DataOnly s parent)
    (hchild : q.Unrelated s child) (hi : i < maxfd) (hfd : s.frame o (fdPage i) = some f)
    (hf : q.IsEnd f) (hf' : q.IsEnd f') (hff : f ≠ f') :
    (∀ oks pc t, run (k.step parent child) (.page 0, s) oks = some (pc, t) →
      t.pipeIsClosed o i = true → ∀ e n, t.frame e n ≠ some f') ↔
    (∀ e n, s.frame e n ≠ some f') ∨ s.refs f + k.inherited s parent f < s.refs q.pipe := by
  constructor
  · intro hsound
    by_contra hcond
    rw [not_or, not_forall] at hcond
    obtain ⟨⟨e', hother⟩, hge⟩ := hcond
    rw [not_forall] at hother
    obtain ⟨n', hother⟩ := hother
    obtain ⟨oks, pc, t, hrun, hclosed, hmapped⟩ := exists_looks_closed hne hpaired hdata hchild hi
      hfd hf hf' hff (not_not.mp hother) (Nat.le_of_not_lt hge)
    exact hsound oks pc t hrun hclosed e' n' hmapped
  · intro hcond oks pc t hrun hclosed e n hn
    obtain ⟨done, m, h⟩ := exists_copying_of_run hne hrun
    rcases hcond with hnone | hlt
    · rcases (h.frame_eq_some_iff (hchild · f' (.inl hf'))).mp hn with hs | ⟨-, -, hs⟩
      · exact hnone _ _ hs
      · exact hnone _ _ hs
    · rw [h.closed_iff hpaired hchild hi hfd hf, h.refs_eq (hchild · f (.inl hf)),
        h.refs_eq (hchild · q.pipe (.inr rfl))] at hclosed
      have hcount : countBelow npte (fun m => m ∈ done ∧ s.frame parent m = some f) npte
          ≤ k.inherited s parent f := by
        unfold Inherit.inherited Inherit.inheritedBelow
        exact countBelow_le fun x _ hx hp => ⟨hx, h.copies x hp.1, hp.2⟩
      omega

end Observer

/-! ## Small states -/

/-- Gives `e` the descriptor `i` of the end `f`. -/
def PipeFrames.give (q : PipeFrames) (s : Spaces) (e : EnvPtr) (i f : Nat) : Spaces :=
  (s.setPte e (dataPage i 0) (some (pageEntry q.pipe (pteD ||| pteLibrary)))).setPte e (fdPage i)
    (some (pageEntry f (pteD ||| pteLibrary)))

namespace PipeFrames

variable {q : PipeFrames} {s : Spaces} {e e' : EnvPtr} {i f g n : Nat}

theorem frame_give (hpipe : q.pipe < 2 ^ 20) (hf : f < 2 ^ 20) :
    (q.give s e i f).frame e' n = if e' = e ∧ n = fdPage i then some f
      else if e' = e ∧ n = dataPage i 0 then some q.pipe else s.frame e' n := by
  have hperm : pteD ||| pteLibrary < 4096 := by decide
  rw [give, Spaces.frame_setPte, Spaces.frame_setPte, Option.map_some, Option.map_some,
    Spaces.ppn_pageEntry hf hperm, Spaces.ppn_pageEntry hpipe hperm]

theorem Paired.give (h : q.Paired s) (hpipe : q.pipe < 2 ^ 20) (hf : f < 2 ^ 20)
    (hi : i < maxfd) : q.Paired (q.give s e i f) := by
  have hdata : (q.give s e i f).frame e (dataPage i 0) = some q.pipe := by
    rw [frame_give hpipe hf, if_neg (fun hc => fdPage_ne_dataPage hi hi (by decide) hc.2.symm),
      if_pos ⟨rfl, rfl⟩]
  rintro e' n ⟨g, hg, hn⟩
  rw [frame_give hpipe hf] at hn
  split at hn
  next hhere =>
    obtain ⟨rfl, rfl⟩ := hhere
    exact ⟨i, hi, rfl, hdata⟩
  next hfd =>
    split at hn
    next =>
      cases hn
      rcases hg with hg | hg
      · exact absurd hg q.pipe_ne_reader
      · exact absurd hg q.pipe_ne_writer
    next =>
      obtain ⟨j, hj, rfl, hpair⟩ := h e' n ⟨g, hg, hn⟩
      refine ⟨j, hj, rfl, ?_⟩
      rw [frame_give hpipe hf, if_neg (fun hc => fdPage_ne_dataPage hi hj (by decide) hc.2.symm)]
      split
      next => rfl
      next => exact hpair

theorem DataOnly.give (h : q.DataOnly s e') (hpipe : q.pipe < 2 ^ 20) (hf : f < 2 ^ 20)
    (hi : i < maxfd) (hne : f ≠ q.pipe) : q.DataOnly (q.give s e i f) e' := by
  intro n hn
  rw [frame_give hpipe hf] at hn
  split at hn
  next => exact absurd (Option.some.inj hn) hne
  next =>
    split at hn
    next hhere => exact ⟨i, hi, hhere.2⟩
    next => exact h n hn

theorem Unrelated.give (h : q.Unrelated s e') (hpipe : q.pipe < 2 ^ 20) (hf : f < 2 ^ 20)
    (hne : e' ≠ e) : q.Unrelated (q.give s e i f) e' := by
  intro n g hg
  rw [frame_give hpipe hf, if_neg (fun hc => hne hc.1), if_neg (fun hc => hne hc.1)]
  exact h n g hg

theorem refs_give (hpipe : q.pipe < 2 ^ 20) (hf : f < 2 ^ 20) (hi : i < maxfd)
    (hfree : s.frame e (fdPage i) = none) (hfree' : s.frame e (dataPage i 0) = none) (g : Nat) :
    (q.give s e i f).refs g
      = s.refs g + (if q.pipe = g then 1 else 0) + (if f = g then 1 else 0) := by
  have hperm : pteD ||| pteLibrary < 4096 := by decide
  have hne : ¬(e = e ∧ fdPage i = dataPage i 0) :=
    fun hc => fdPage_ne_dataPage hi hi (by decide) hc.2
  have hdata := Spaces.refs_setPte (s := s) (e := e)
    (o := some (pageEntry q.pipe (pteD ||| pteLibrary))) (dataPage_lt hi) g
  have hfd := Spaces.refs_setPte
    (s := s.setPte e (dataPage i 0) (some (pageEntry q.pipe (pteD ||| pteLibrary)))) (e := e)
    (o := some (pageEntry f (pteD ||| pteLibrary))) (fdPage_lt hi) g
  have hnone : (none : Option Nat) ≠ some g := nofun
  rw [hfree', if_neg hnone, Option.map_some, Spaces.ppn_pageEntry hpipe hperm,
    Nat.add_zero] at hdata
  rw [Spaces.frame_setPte, if_neg hne, hfree, if_neg hnone, Option.map_some,
    Spaces.ppn_pageEntry hf hperm, Nat.add_zero] at hfd
  simp only [Option.some.injEq] at hdata hfd
  rw [PipeFrames.give, hfd, hdata]

end PipeFrames

theorem Spaces.refs_empty (f : Nat) : Spaces.empty.refs f = 0 := by
  refine (Spaces.refs_eq_zero fun e n hn => ?_).mpr fun e n hn => ?_
  · cases hn
  · cases hn

/-- Env 0 has both ends of a pipe, env 1 has inherited the read end. -/
def sharedReader : Spaces :=
  smallPipe.give (smallPipe.give (smallPipe.give .empty 0 0 smallPipe.reader) 0 1 smallPipe.writer)
    1 0 smallPipe.reader

/-- Env 0 has the read end and env 1 the write end. -/
def oneEach : Spaces :=
  smallPipe.give (smallPipe.give .empty 0 0 smallPipe.reader) 1 1 smallPipe.writer

theorem smallPipe_lt : smallPipe.reader < 2 ^ 20 ∧ smallPipe.writer < 2 ^ 20 ∧
    smallPipe.pipe < 2 ^ 20 := by
  decide

theorem PipeFrames.frame_empty (q : PipeFrames) :
    q.Paired .empty ∧ ∀ e, q.DataOnly .empty e ∧ q.Unrelated .empty e := by
  refine ⟨fun e n ⟨f, _, hf⟩ => ?_, fun e => ⟨fun n hn => ?_, fun n f _ hn => ?_⟩⟩
  · cases hf
  · cases hn
  · cases hn

theorem paired_sharedReader : smallPipe.Paired sharedReader ∧ smallPipe.DataOnly sharedReader 0 ∧
    smallPipe.Unrelated sharedReader 2 := by
  obtain ⟨hr, hw, hp⟩ := smallPipe_lt
  obtain ⟨hpaired, hempty⟩ := smallPipe.frame_empty
  refine ⟨?_, ?_, ?_⟩
  · exact ((hpaired.give hp hr (by decide)).give hp hw (by decide)).give hp hr (by decide)
  · exact (((hempty 0).1.give hp hr (by decide) (by decide)).give hp hw (by decide)
      (by decide)).give hp hr (by decide) (by decide)
  · exact (((hempty 2).2.give hp hr (by decide)).give hp hw (by decide)).give hp hr (by decide)

theorem paired_oneEach : smallPipe.Paired oneEach ∧ smallPipe.DataOnly oneEach 0 ∧
    smallPipe.Unrelated oneEach 2 := by
  obtain ⟨hr, hw, hp⟩ := smallPipe_lt
  obtain ⟨hpaired, hempty⟩ := smallPipe.frame_empty
  refine ⟨?_, ?_, ?_⟩
  · exact (hpaired.give hp hr (by decide)).give hp hw (by decide)
  · exact ((hempty 0).1.give hp hr (by decide) (by decide)).give hp hw (by decide) (by decide)
  · exact ((hempty 2).2.give hp hr (by decide)).give hp hw (by decide)

theorem refs_sharedReader : sharedReader.refs smallPipe.pipe = 3 ∧
    sharedReader.refs smallPipe.reader = 2 := by
  obtain ⟨hr, hw, hp⟩ := smallPipe_lt
  have hrefs : ∀ g, sharedReader.refs g = _ := fun g => by
    rw [sharedReader, PipeFrames.refs_give hp hr (by decide) (by decide) (by decide),
      PipeFrames.refs_give hp hw (by decide) (by decide) (by decide),
      PipeFrames.refs_give hp hr (by decide) (by decide) (by decide), Spaces.refs_empty]
  constructor
  · rw [hrefs]
    decide
  · rw [hrefs]
    decide

theorem refs_oneEach : oneEach.refs smallPipe.pipe = 2 ∧ oneEach.refs smallPipe.writer = 1 := by
  obtain ⟨hr, hw, hp⟩ := smallPipe_lt
  have hrefs : ∀ g, oneEach.refs g = _ := fun g => by
    rw [oneEach, PipeFrames.refs_give hp hw (by decide) (by decide) (by decide),
      PipeFrames.refs_give hp hr (by decide) (by decide) (by decide), Spaces.refs_empty]
  constructor
  · rw [hrefs]
    decide
  · rw [hrefs]
    decide

/-- While env 0 forks, the pipe of which it has both ends looks closed to the reader in env 1. -/
theorem pipe_inherit_looks_closed : smallPipe.Paired sharedReader ∧
    sharedReader.frame 1 (fdPage 0) = some smallPipe.reader ∧ ∃ oks pc t,
    run (Inherit.fork.step 0 2) (.page 0, sharedReader) oks = some (pc, t) ∧
    t.pipeIsClosed 1 0 = true ∧ t.frame 0 (fdPage 1) = some smallPipe.writer := by
  obtain ⟨hpaired, hdata, hchild⟩ := paired_sharedReader
  refine ⟨hpaired, by decide, exists_looks_closed (f := smallPipe.reader) (by decide) hpaired hdata
    hchild (by decide) (by decide) (.inl rfl) (.inr rfl) (by decide) (by decide) ?_⟩
  have hinherited : 0 < Inherit.fork.inherited sharedReader 0 smallPipe.reader := by
    unfold Inherit.inherited Inherit.inheritedBelow
    exact countBelow_pos (fdPage_lt (i := 0) (by decide)) (fdPage_lt (by decide)) (by decide)
  obtain ⟨hpipe, hreader⟩ := refs_sharedReader
  omega

/-- The reader of a pipe forks; the writer in another env sees the pipe as it is. -/
theorem pipe_inherit_sound_one_each :
    oneEach.frame 0 (fdPage 0) = some smallPipe.reader ∧
    ∀ oks pc t, run (Inherit.fork.step 0 2) (.page 0, oneEach) oks = some (pc, t) →
      t.pipeIsClosed 1 1 = true → ∀ e n, t.frame e n ≠ some smallPipe.reader := by
  obtain ⟨hpaired, hdata, hchild⟩ := paired_oneEach
  refine ⟨by decide, (pipe_inherit_sound_iff .fork smallPipe oneEach 0 2 1 1 smallPipe.writer
    smallPipe.reader (by decide) hpaired hdata hchild (by decide) (by decide) (.inr rfl) (.inl rfl)
    (by decide)).mpr (.inr ?_)⟩
  obtain ⟨hr, hw, hp⟩ := smallPipe_lt
  have hinherited : Inherit.fork.inherited oneEach 0 smallPipe.writer = 0 := by
    unfold Inherit.inherited Inherit.inheritedBelow
    refine countBelow_eq_zero fun m _ hm => ?_
    have hne : (0 : EnvPtr) ≠ 1 := by decide
    have hframe := hm.2
    rw [oneEach, PipeFrames.frame_give hp hw, if_neg (fun hc => hne hc.1),
      if_neg (fun hc => hne hc.1), PipeFrames.frame_give hp hr] at hframe
    split_ifs at hframe
    · exact absurd hframe (by decide)
    · exact absurd hframe (by decide)
    · cases hframe
  obtain ⟨hpipe, hwriter⟩ := refs_oneEach
  omega

end Mos
