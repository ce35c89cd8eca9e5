import Mos.User.Fd

/-!
# `dup` and `close` never make a pipe look closed

`_pipe_is_closed` compares two reference counts: if the page of its own end of a pipe is mapped as
often as the pipe's page, there is nobody at the other end. This is right as long as every descriptor
of either end comes with a mapping of the pipe's page, in the same env and at the descriptor's own
data address: then the pipe's page is mapped at least as often as the two descriptor pages together.

`PipeFrames.Paired` says this. `close` unmaps the descriptor before the data, and `dup` maps the data before
the descriptor, so it holds between any two of their system calls.
-/

namespace Mos

open Lib

/-- The three frames of a pipe: the pages of its two descriptors, and the page of the pipe itself. -/
structure PipeFrames where
  reader : Nat
  writer : Nat
  pipe : Nat
  reader_ne_writer : reader ≠ writer
  pipe_ne_reader : pipe ≠ reader
  pipe_ne_writer : pipe ≠ writer

namespace PipeFrames

variable (q : PipeFrames) (s : Spaces)

/-- One of the two descriptor pages. -/
def IsEnd (f : Nat) : Prop := f = q.reader ∨ f = q.writer

/-- Page `n` of `e` is mapped to an end of the pipe. -/
def Holds (e : EnvPtr) (n : Nat) : Prop := ∃ f, q.IsEnd f ∧ s.frame e n = some f

/-- Every mapping of an end is a descriptor whose data is the pipe. -/
def Paired : Prop :=
  ∀ e n, q.Holds s e n → ∃ i < maxfd, n = fdPage i ∧ s.frame e (dataPage i 0) = some q.pipe

/-- The descriptor pages say that they belong to a pipe. -/
def DevOk : Prop := s.mem q.reader 0 = devpipe ∧ s.mem q.writer 0 = devpipe

end PipeFrames

/-! ## Pages of different descriptors -/

theorem fdPage_inj {i i' : Nat} (hi : i < maxfd) (hi' : i' < maxfd) (h : fdPage i = fdPage i') :
    i = i' := by
  rw [fdPage_eq hi, fdPage_eq hi'] at h
  omega

theorem dataPage_inj {i i' j j' : Nat} (hi : i < maxfd) (hi' : i' < maxfd) (hj : j < 1024)
    (hj' : j' < 1024) (h : dataPage i j = dataPage i' j') : i = i' ∧ j = j' := by
  rw [dataPage_eq hi hj, dataPage_eq hi' hj'] at h
  omega

theorem fdPage_ne_dataPage {i i' j : Nat} (hi : i < maxfd) (hi' : i' < maxfd) (hj : j < 1024) :
    fdPage i ≠ dataPage i' j := by
  rw [fdPage_eq hi, dataPage_eq hi' hj]
  unfold maxfd at hi
  omega

theorem fdPage_lt {i : Nat} (hi : i < maxfd) : fdPage i < npte := by
  rw [fdPage_eq hi]
  unfold maxfd at hi
  unfold npte
  omega

theorem dataPage_lt {i : Nat} (hi : i < maxfd) : dataPage i 0 < npte := by
  rw [dataPage_eq hi (by decide)]
  unfold maxfd at hi
  unfold npte
  omega

/-- `_pipe_is_closed` compares the counts of the two frames. -/
theorem Spaces.pipeIsClosed_iff {s : Spaces} {e : EnvPtr} {i f g : Nat}
    (hfd : s.frame e (fdPage i) = some f) (hdata : s.frame e (dataPage i 0) = some g) :
    s.pipeIsClosed e i = true ↔ s.refs f = s.refs g := by
  have hpageref : ∀ n g, s.frame e n = some g → s.pageref e n = s.refs g := by
    intro n g hg
    obtain ⟨w, hw, rfl⟩ := Spaces.frame_eq_some.mp hg
    rw [Spaces.pageref, hw]
  rw [Spaces.pipeIsClosed, beq_iff_eq, hpageref _ _ hfd, hpageref _ _ hdata]

namespace PipeFrames

variable {q : PipeFrames} {s t : Spaces} {e : EnvPtr} {n : Nat} {o : Option Word}

/-! ## Counting -/

/-- The page of the pipe that goes with a descriptor page. -/
def partner (p : EnvPtr × Fin npte) : EnvPtr × Fin npte :=
  if h : p.2.val - 0x5fc00 < maxfd then (p.1, ⟨dataPage (p.2.val - 0x5fc00) 0, dataPage_lt h⟩) else p

theorem partner_eq {p : EnvPtr × Fin npte} {i : Nat} (hi : i < maxfd) (hp : p.2.val = fdPage i) :
    partner p = (p.1, ⟨dataPage i 0, dataPage_lt hi⟩) := by
  have hsub : p.2.val - 0x5fc00 = i := by
    rw [hp, fdPage_eq hi]
    omega
  unfold partner
  rw [dif_pos (by rw [hsub]; exact hi)]
  simp only [hsub]

/-- **The pipe's page is mapped at least as often as its two ends together.** -/
theorem Paired.refs_le (h : q.Paired s) : s.refs q.reader + s.refs q.writer ≤ s.refs q.pipe := by
  have hpair : ∀ p : EnvPtr × Fin npte,
      s.frame p.1 p.2 = some q.reader ∨ s.frame p.1 p.2 = some q.writer →
      ∃ i, ∃ hi : i < maxfd, p.2.val = fdPage i ∧ s.frame p.1 (dataPage i 0) = some q.pipe ∧
        partner p = (p.1, ⟨dataPage i 0, dataPage_lt hi⟩) := by
    intro p hp
    have hholds : q.Holds s p.1 p.2 := by
      rcases hp with hp | hp
      · exact ⟨_, .inl rfl, hp⟩
      · exact ⟨_, .inr rfl, hp⟩
    obtain ⟨i, hi, hn, hpipe⟩ := h _ _ hholds
    exact ⟨i, hi, hn, hpipe, partner_eq hi hn⟩
  refine refCount_add_le q.reader_ne_writer partner ?_ ?_
  · intro p hp
    obtain ⟨i, hi, -, hpipe, hpartner⟩ := hpair p hp
    rw [hpartner]
    exact hpipe
  · intro p p' hp hp' heq
    obtain ⟨i, hi, hn, -, hpartner⟩ := hpair p hp
    obtain ⟨i', hi', hn', -, hpartner'⟩ := hpair p' hp'
    rw [hpartner, hpartner'] at heq
    obtain ⟨he, hdata⟩ := Prod.mk.inj heq
    have hpage : dataPage i 0 = dataPage i' 0 := Fin.mk.inj hdata
    obtain ⟨rfl, -⟩ := dataPage_inj hi hi' (by decide) (by decide) hpage
    exact Prod.ext he (Fin.ext (hn.trans hn'.symm))

/-- A count of 0 means that the end is mapped nowhere. -/
theorem Paired.not_mapped (h : q.Paired s) {f : Nat} (hf : q.IsEnd f) (hzero : s.refs f = 0) :
    ∀ e n, s.frame e n ≠ some f := by
  refine (Spaces.refs_eq_zero fun e n hn => ?_).mp hzero
  obtain ⟨i, hi, rfl, -⟩ := h e n ⟨f, hf, hn⟩
  exact fdPage_lt hi

/-- Where every descriptor is paired with a mapping of the pipe, equal counts mean that the other end
is gone. -/
theorem Paired.closed_sound (h : q.Paired s) {i : Nat} {f f' : Nat} (hf : q.IsEnd f)
    (hf' : q.IsEnd f') (hne : f ≠ f') (hfd : s.frame e (fdPage i) = some f)
    (hdata : s.frame e (dataPage i 0) = some q.pipe) (hclosed : s.pipeIsClosed e i = true) :
    ∀ e' n', s.frame e' n' ≠ some f' := by
  have heq : s.refs f = s.refs q.pipe := (Spaces.pipeIsClosed_iff hfd hdata).mp hclosed
  have hle := h.refs_le
  refine h.not_mapped hf' ?_
  rcases hf with rfl | rfl <;> rcases hf' with rfl | rfl
  · exact absurd rfl hne
  · omega
  · omega
  · exact absurd rfl hne

/-! ## One entry changes -/

/-- What an entry must not do: put an end anywhere but at a descriptor with its data in place, or take
the data away from a descriptor of the pipe. -/
theorem Paired.setPte (h : q.Paired s)
    (hend : ∀ f, q.IsEnd f → o.map ppn = some f →
      ∃ i < maxfd, n = fdPage i ∧ s.frame e (dataPage i 0) = some q.pipe)
    (hdata : ∀ i < maxfd, n = dataPage i 0 → ¬q.Holds s e (fdPage i)) :
    q.Paired (s.setPte e n o) := by
  rintro e' n' ⟨f, hf, hn'⟩
  rw [Spaces.frame_setPte] at hn'
  split at hn'
  next hhere =>
    obtain ⟨rfl, rfl⟩ := hhere
    obtain ⟨i, hi, rfl, hpipe⟩ := hend f hf hn'
    refine ⟨i, hi, rfl, ?_⟩
    rw [Spaces.frame_setPte, if_neg, hpipe]
    rintro ⟨-, heq⟩
    exact fdPage_ne_dataPage hi hi (by decide) heq.symm
  next =>
    obtain ⟨i, hi, rfl, hpipe⟩ := h e' n' ⟨f, hf, hn'⟩
    refine ⟨i, hi, rfl, ?_⟩
    rw [Spaces.frame_setPte, if_neg, hpipe]
    rintro ⟨rfl, heq⟩
    exact hdata i hi heq.symm ⟨f, hf, hn'⟩

theorem Paired.unmapFd (h : q.Paired s) {i : Nat} (hi : i < maxfd) :
    q.Paired (s.memUnmap e (fdPage i)) := by
  refine h.setPte (fun _ _ hf => by cases hf) fun i' hi' heq => ?_
  exact absurd heq (fdPage_ne_dataPage hi hi' (by decide))

theorem Paired.unmapData (h : q.Paired s) {i j : Nat} (hi : i < maxfd) (hj : j < 1024)
    (hfree : ¬q.Holds s e (fdPage i)) : q.Paired (s.memUnmap e (dataPage i j)) := by
  refine h.setPte (fun _ _ hf => by cases hf) fun i' hi' heq => ?_
  obtain ⟨rfl, -⟩ := dataPage_inj hi hi' hj (by decide) heq
  exact hfree

theorem holds_setPte_of_ne {n' : Nat} (hne : n' ≠ n) :
    q.Holds (s.setPte e n o) e n' ↔ q.Holds s e n' := by
  unfold Holds
  rw [Spaces.frame_setPte, if_neg (fun h => hne h.2)]

theorem not_holds_memUnmap : ¬q.Holds (s.memUnmap e n) e n := by
  rintro ⟨f, -, hf⟩
  rw [Spaces.memUnmap, Spaces.frame_setPte, if_pos ⟨rfl, rfl⟩] at hf
  cases hf

end PipeFrames

/-! ## Where an env stands -/

section Step

variable {q : PipeFrames} {s t : Spaces} {e : EnvPtr} {n n' : Nat} {mem : Bool}

theorem dupPerm_lt (w : Word) : dupPerm w < 4096 := by
  show (w &&& (pteD ||| pteLibrary)).toNat < 4096
  rw [BitVec.toNat_and]
  exact Nat.lt_of_le_of_lt Nat.and_le_right (by decide)

/-- What a mapping made by `dup` does. -/
theorem eq_of_dupMap (h : dupMap s e n n' mem = some t) :
    ∃ w, s.pte e n = some w ∧ t = s.setPte e n' (some (pageEntry (ppn w) (dupPerm w))) := by
  unfold dupMap at h
  split at h
  · obtain ⟨w, hw, hmap⟩ := Option.bind_eq_some_iff.mp h
    rw [Spaces.memMap, hw] at hmap
    cases hmap
    exact ⟨w, hw, rfl⟩
  · cases h

theorem map_pageEntry (w : Word) :
    (some (pageEntry (ppn w) (dupPerm w))).map ppn = some (ppn w) := by
  rw [Option.map_some, Spaces.ppn_pageEntry (ppn_lt w) (dupPerm_lt w)]

/-- What is known of `e` where it stands: a descriptor that is being closed or made is not mapped to
an end of the pipe while its data is changed, and a descriptor is mapped only after its data. -/
def FdPc.Ok (q : PipeFrames) (s : Spaces) (e : EnvPtr) : FdPc → Prop
  | .idle => True
  | .pipeClose i old | .fdClose i old => i < maxfd ∧ ∀ o ∈ old, o < maxfd ∧ o ≠ i
  | .pipeCloseData i old =>
    (i < maxfd ∧ ∀ o ∈ old, o < maxfd ∧ o ≠ i) ∧ ¬q.Holds s e (fdPage i)
  | .copy old new j =>
    (old < maxfd ∧ new < maxfd ∧ old ≠ new ∧ j < 1024) ∧ ¬q.Holds s e (fdPage new) ∧
    (0 < j → q.Holds s e (fdPage old) → s.frame e (dataPage new 0) = some q.pipe)
  | .copyFd old new =>
    (old < maxfd ∧ new < maxfd ∧ old ≠ new) ∧ ¬q.Holds s e (fdPage new) ∧
    (q.Holds s e (fdPage old) → s.frame e (dataPage new 0) = some q.pipe)
  | .errFd new => new < maxfd
  | .errData new j => (new < maxfd ∧ j < 1024) ∧ ¬q.Holds s e (fdPage new)

/-- An env is not concerned by what another env does. -/
theorem FdPc.Ok.congr {pc : FdPc} (h : pc.Ok q s e) (hframe : ∀ n, t.frame e n = s.frame e n) :
    pc.Ok q t e := by
  have hholds : ∀ n, q.Holds t e n ↔ q.Holds s e n := by
    intro n
    unfold PipeFrames.Holds
    rw [hframe]
  cases pc <;> simp only [FdPc.Ok, hholds, hframe] at h ⊢ <;> exact h

/-- After `close(i)` the descriptor is not mapped to an end of the pipe. -/
theorem ok_closed {i : Nat} {old : Option Nat} (hi : i < maxfd)
    (hold : ∀ o ∈ old, o < maxfd ∧ o ≠ i) (hfree : ¬q.Holds s e (fdPage i)) :
    (FdPc.closed i old).Ok q s e := by
  cases old with
  | none => trivial
  | some o =>
    obtain ⟨ho, hne⟩ := hold o rfl
    exact ⟨⟨ho, hi, hne, by decide⟩, hfree, fun h => absurd h (Nat.lt_irrefl 0)⟩

/-- The beginning of `close`. A descriptor that it takes for no device's is none of the pipe's. -/
theorem ok_close {i : Nat} {old : Option Nat} (hdev : q.DevOk s)
    (hold : ∀ o ∈ old, i < maxfd ∧ o < maxfd ∧ o ≠ i) : (s.close e i old).Ok q s e := by
  have hpipe : q.Holds s e (fdPage i) → s.fdDevId e i = devpipe := by
    rintro ⟨f, hf, hfd⟩
    obtain ⟨w, hw, rfl⟩ := Spaces.frame_eq_some.mp hfd
    simp only [Spaces.fdDevId, hw]
    rcases hf with hf | hf
    · rw [hf]
      exact hdev.1
    · rw [hf]
      exact hdev.2
  have hclosed : ¬q.Holds s e (fdPage i) → (FdPc.closed i old).Ok q s e := by
    intro hfree
    cases old with
    | none => trivial
    | some o => exact ok_closed (hold o rfl).1 (fun o' ho' => (hold o' ho').2) hfree
  unfold Spaces.close
  split
  next hlookup =>
    have hi : i < maxfd := by
      simp only [Spaces.fdLookup, Bool.and_eq_true, decide_eq_true_eq] at hlookup
      exact hlookup.1
    split
    · exact ⟨hi, fun o ho => (hold o ho).2⟩
    · split
      · exact ⟨hi, fun o ho => (hold o ho).2⟩
      next hnot => exact hclosed fun hh => hnot (hpipe hh)
  next hlookup =>
    by_cases hi : i < maxfd
    · refine hclosed ?_
      rintro ⟨f, -, hfd⟩
      obtain ⟨w, hw, -⟩ := Spaces.frame_eq_some.mp hfd
      simp [Spaces.fdLookup, hi, hw] at hlookup
    · cases old with
      | none => trivial
      | some o => exact absurd (hold o rfl).1 hi

/-- The pages of other descriptors and of other envs stay as they are. -/
theorem frame_setPte_of_ne {o : Option Word} (hne : n' ≠ n) :
    (s.setPte e n o).frame e n' = s.frame e n' := by
  rw [Spaces.frame_setPte, if_neg (fun h => hne h.2)]

/-- The next page of the loop in `dup`, or its end. -/
theorem ok_nextPage {old new j : Nat} (hold : old < maxfd) (hnew : new < maxfd) (hne : old ≠ new)
    (hfree : ¬q.Holds s e (fdPage new))
    (hpipe : q.Holds s e (fdPage old) → s.frame e (dataPage new 0) = some q.pipe) :
    (nextPage j (.copy old new) (.copyFd old new)).Ok q s e := by
  unfold nextPage
  split
  next hlt => exact ⟨⟨hold, hnew, hne, hlt⟩, hfree, fun _ => hpipe⟩
  next => exact ⟨⟨hold, hnew, hne⟩, hfree, hpipe⟩

/-- **One page of the data is copied.** The first one is the pipe's. -/
theorem paired_copy {old new j : Nat} (h : q.Paired s) (hok : (FdPc.copy old new j).Ok q s e)
    (hmap : dupMap s e (dataPage old j) (dataPage new j) mem = some t) :
    q.Paired t ∧ (nextPage j (.copy old new) (.copyFd old new)).Ok q t e := by
  obtain ⟨⟨hold, hnew, hne, hj⟩, hfree, hpipe⟩ := hok
  obtain ⟨w, hw, rfl⟩ := eq_of_dupMap hmap
  have hfd : ∀ i < maxfd, fdPage i ≠ dataPage new j := fun i hi => fdPage_ne_dataPage hi hnew hj
  constructor
  · refine h.setPte ?_ ?_
    · -- an end of the pipe is not among the data
      intro f hf hmapped
      rw [map_pageEntry, Option.some.injEq] at hmapped
      obtain ⟨i, hi, heq, -⟩ := h e (dataPage old j)
        ⟨f, hf, Spaces.frame_eq_some.mpr ⟨w, hw, hmapped⟩⟩
      exact absurd heq.symm (fdPage_ne_dataPage hi hold hj)
    · intro i hi heq
      obtain ⟨rfl, -⟩ := dataPage_inj hnew hi hj (by decide) heq
      exact hfree
  · refine ok_nextPage hold hnew hne ?_ ?_
    · rwa [PipeFrames.holds_setPte_of_ne (hfd new hnew)]
    · rw [PipeFrames.holds_setPte_of_ne (hfd old hold)]
      intro hend
      rcases Nat.eq_zero_or_pos j with rfl | hpos
      · obtain ⟨i, hi, heq, hsrc⟩ := h e (fdPage old) hend
        obtain rfl := fdPage_inj hold hi heq
        rw [Spaces.frame_setPte, if_pos ⟨rfl, rfl⟩, map_pageEntry]
        rw [Spaces.frame, hw] at hsrc
        exact hsrc
      · rw [frame_setPte_of_ne, hpipe hpos hend]
        intro heq
        have := (dataPage_inj hnew hnew (by decide) hj heq).2
        omega

/-- **The descriptor is copied**, after its data. -/
theorem paired_copyFd {old new : Nat} (h : q.Paired s) (hok : (FdPc.copyFd old new).Ok q s e)
    (hmap : dupMap s e (fdPage old) (fdPage new) mem = some t) : q.Paired t := by
  obtain ⟨⟨hold, hnew, -⟩, -, hpipe⟩ := hok
  obtain ⟨w, hw, rfl⟩ := eq_of_dupMap hmap
  refine h.setPte ?_ ?_
  · intro f hf hmapped
    rw [map_pageEntry, Option.some.injEq] at hmapped
    exact ⟨new, hnew, rfl, hpipe ⟨f, hf, Spaces.frame_eq_some.mpr ⟨w, hw, hmapped⟩⟩⟩
  · exact fun i hi heq => absurd heq (fdPage_ne_dataPage hnew hi (by decide))

/-- The copy of a page that is not mapped does nothing; a descriptor of the pipe has its first page
mapped. -/
theorem ok_copy_skip {old new j : Nat} (h : q.Paired s) (hok : (FdPc.copy old new j).Ok q s e)
    (hnone : s.pte e (dataPage old j) = none) :
    (nextPage j (.copy old new) (.copyFd old new)).Ok q s e := by
  obtain ⟨⟨hold, hnew, hne, hj⟩, hfree, hpipe⟩ := hok
  refine ok_nextPage hold hnew hne hfree fun hend => ?_
  rcases Nat.eq_zero_or_pos j with rfl | hpos
  · obtain ⟨i, hi, heq, hsrc⟩ := h e (fdPage old) hend
    obtain rfl := fdPage_inj hold hi heq
    rw [Spaces.frame, hnone] at hsrc
    cases hsrc
  · exact hpipe hpos hend

/-- A system call of `close` or `dup` keeps the pairing, changes no contents, and concerns no other
env. -/
theorem paired_fdStep {pc pc' : FdPc} (h : q.Paired s) (hok : pc.Ok q s e)
    (hstep : fdStep s e mem pc = some (pc', t)) :
    q.Paired t ∧ pc'.Ok q t e ∧ t.mem = s.mem ∧
      ∀ e' ≠ e, ∀ n, t.frame e' n = s.frame e' n := by
  have hother : ∀ n o, ∀ e' ≠ e, ∀ n', (s.setPte e n o).frame e' n' = s.frame e' n' := by
    intro n o e' he n'
    rw [Spaces.frame_setPte, if_neg (fun h => he h.1)]
  cases pc with
  | idle => cases hstep
  | pipeClose i old =>
    cases hstep
    exact ⟨h.unmapFd hok.1, ⟨hok, PipeFrames.not_holds_memUnmap⟩, rfl, hother _ _⟩
  | pipeCloseData i old =>
    cases hstep
    obtain ⟨hi, hfree⟩ := hok
    exact ⟨h.unmapData hi.1 (by decide) hfree, hi, rfl, hother _ _⟩
  | fdClose i old =>
    cases hstep
    exact ⟨h.unmapFd hok.1, ok_closed hok.1 hok.2 PipeFrames.not_holds_memUnmap, rfl, hother _ _⟩
  | copy old new j =>
    simp only [fdStep] at hstep
    split at hstep
    next hnone =>
      cases hstep
      exact ⟨h, ok_copy_skip h hok hnone, rfl, fun _ _ _ => rfl⟩
    next =>
      split at hstep
      next =>
        cases hstep
        exact ⟨h, hok.1.2.1, rfl, fun _ _ _ => rfl⟩
      next hmap =>
        cases hstep
        obtain ⟨hpaired, hnext⟩ := paired_copy h hok hmap
        obtain ⟨w, -, rfl⟩ := eq_of_dupMap hmap
        exact ⟨hpaired, hnext, rfl, hother _ _⟩
  | copyFd old new =>
    simp only [fdStep] at hstep
    split at hstep
    next =>
      cases hstep
      exact ⟨h, hok.1.2.1, rfl, fun _ _ _ => rfl⟩
    next hmap =>
      cases hstep
      have hpaired := paired_copyFd h hok hmap
      obtain ⟨w, -, rfl⟩ := eq_of_dupMap hmap
      exact ⟨hpaired, trivial, rfl, hother _ _⟩
  | errFd new =>
    cases hstep
    exact ⟨h.unmapFd hok, ⟨⟨hok, by decide⟩, PipeFrames.not_holds_memUnmap⟩, rfl, hother _ _⟩
  | errData new j =>
    cases hstep
    obtain ⟨⟨hnew, hj⟩, hfree⟩ := hok
    refine ⟨h.unmapData hnew hj hfree, ?_, rfl, hother _ _⟩
    unfold nextPage
    split
    next hlt =>
      refine ⟨⟨hnew, hlt⟩, ?_⟩
      rwa [Spaces.memUnmap, PipeFrames.holds_setPte_of_ne (fdPage_ne_dataPage hnew hnew hj)]
    next => trivial

end Step

/-! ## Runs -/

/-- The invariant of the envs that hold descriptors of the pipe. -/
structure FdSys.Inv (q : PipeFrames) (t : FdSys) : Prop where
  paired : q.Paired t.spaces
  dev : q.DevOk t.spaces
  pc : ∀ e, (t.pc e).Ok q t.spaces e

theorem FdSys.Inv.call {q : PipeFrames} {t : FdSys} (h : t.Inv q) {e : EnvPtr} {pc : FdPc}
    (hok : pc.Ok q t.spaces e) : FdSys.Inv q { t with pc := Function.update t.pc e pc } := by
  refine ⟨h.paired, h.dev, fun e' => ?_⟩
  by_cases he : e' = e
  · subst he
    simpa only [Function.update_self] using hok
  · simpa only [Function.update_of_ne he] using h.pc e'

theorem fd_inv_step {q : PipeFrames} {t u : FdSys} {a : FdAct} (h : t.Inv q)
    (hstep : t.step a = some u) : u.Inv q := by
  cases a with
  | close e i =>
    simp only [FdSys.step] at hstep
    split at hstep
    · cases hstep
      exact h.call (ok_close h.dev (by simp))
    · cases hstep
  | dup e old new =>
    simp only [FdSys.step] at hstep
    split at hstep
    next hcall =>
      split at hstep
      next hlookup =>
        cases hstep
        refine h.call (ok_close h.dev ?_)
        rintro o ⟨⟩
        simp only [Spaces.fdLookup, Bool.and_eq_true, decide_eq_true_eq] at hlookup
        exact ⟨hcall.2.2.1, hlookup.1, hcall.2.1⟩
      next =>
        cases hstep
        exact h
    next => cases hstep
  | step e mem =>
    obtain ⟨⟨pc, s⟩, hfd, rfl⟩ := Option.map_eq_some_iff.mp hstep
    obtain ⟨hpaired, hok, hmem, hother⟩ := paired_fdStep h.paired (h.pc e) hfd
    refine ⟨hpaired, ?_, fun e' => ?_⟩
    · unfold PipeFrames.DevOk
      simp only [hmem]
      exact h.dev
    · by_cases he : e' = e
      · subst he
        simp only [Function.update_self]
        exact hok
      · simp only [Function.update_of_ne he]
        exact (h.pc e').congr (hother e' he)

/-- **`dup` and `close` never make a pipe look closed.** Between any two system calls of any number of
envs, the pipe's page is mapped at least as often as its two ends together, and `_pipe_is_closed`
reports an end closed only when nobody has the opposite end. -/
theorem pipe_closed_sound (q : PipeFrames) (s : Spaces) (hpaired : q.Paired s) (hdev : q.DevOk s)
    (acts : List FdAct) (t : FdSys)
    (hrun : run FdSys.step { spaces := s, pc := fun _ => .idle } acts = some t) :
    t.spaces.refs q.reader + t.spaces.refs q.writer ≤ t.spaces.refs q.pipe ∧
    ∀ (e : EnvPtr) (i : Nat) (f f' : Nat), q.IsEnd f → q.IsEnd f' → f ≠ f' →
      t.spaces.frame e (fdPage i) = some f → i < maxfd → t.spaces.pipeIsClosed e i = true →
      ∀ e' n, t.spaces.frame e' n ≠ some f' := by
  have h : t.Inv q := run_invariant (fun _ _ _ => fd_inv_step)
    (show FdSys.Inv q { spaces := s, pc := fun _ => .idle } from ⟨hpaired, hdev, fun _ => trivial⟩)
    hrun
  refine ⟨h.paired.refs_le, fun e i f f' hf hf' hne hfd hi hclosed => ?_⟩
  obtain ⟨i', hi', heq, hdata⟩ := h.paired e (fdPage i) ⟨f, hf, hfd⟩
  obtain rfl := fdPage_inj hi hi' heq
  exact h.paired.closed_sound hf hf' hne hfd hdata hclosed

/-! ## A new pipe -/

theorem lt_of_fdAlloc {s : Spaces} {e : EnvPtr} {i : Nat} (h : s.fdAlloc e = some i) :
    i < maxfd := by
  have hmem := List.mem_of_find?_eq_some h
  rw [List.mem_range] at hmem
  exact Nat.lt_of_lt_of_le hmem (Nat.sub_le _ _)

/-- What `pipe` has done when it returns 0. -/
theorem eq_of_pipe {s t : Spaces} {e : EnvPtr} {alloc : Fin 3 → Option Nat} {mem : Bool}
    {fd0 fd1 : Nat} (h : pipe s e alloc mem = (t, some (fd0, fd1))) :
    ∃ f0 f1 f2 w, alloc 0 = some f0 ∧ alloc 1 = some f1 ∧ alloc 2 = some f2 ∧
      fd0 < maxfd ∧ fd1 < maxfd ∧ ppn w = ppn (pageEntry f2 (pteD ||| pteLibrary)) ∧
      t = (((((s.memAlloc e (fdPage fd0) (pteD ||| pteLibrary) f0).memAlloc e (fdPage fd1)
        (pteD ||| pteLibrary) f1).memAlloc e (dataPage fd0 0) (pteD ||| pteLibrary) f2).setPte e
        (dataPage fd1 0) (some (pageEntry (ppn w) (pteD ||| pteLibrary)))).setFd f0 oRdonly).setFd
        f1 oWronly := by
  unfold pipe at h
  simp only at h
  split at h
  next fd0' f0 hfd0 hf0 =>
    split at h
    next fd1' f1 hfd1 hf1 =>
      split at h
      next f2 hf2 =>
        split at h
        next s₄ hmap =>
          cases h
          split at hmap
          · obtain ⟨w, hw, rfl⟩ := Option.map_eq_some_iff.mp hmap
            refine ⟨f0, f1, f2, w, hf0, hf1, hf2, lt_of_fdAlloc hfd0, lt_of_fdAlloc hfd1, ?_, rfl⟩
            simp only [Spaces.memAlloc, Spaces.pte_setPte, and_self, if_true,
              Option.some.injEq] at hw
            rw [hw]
          · cases hmap
        next => cases h
      next => cases h
    next => cases h
  next => cases h

/-- **`pipe` makes a paired pipe**, provided that the kernel hands out three different frames that are
not in use. -/
theorem paired_of_pipe {s t : Spaces} {e : EnvPtr} {alloc : Fin 3 → Option Nat} {mem : Bool}
    {fd0 fd1 : Nat} (q : PipeFrames) (h : pipe s e alloc mem = (t, some (fd0, fd1)))
    (halloc : alloc 0 = some q.reader ∧ alloc 1 = some q.writer ∧ alloc 2 = some q.pipe)
    (hlt : q.reader < 2 ^ 20 ∧ q.writer < 2 ^ 20 ∧ q.pipe < 2 ^ 20)
    (hunused : ∀ e n f, q.IsEnd f → s.frame e n ≠ some f) : q.Paired t ∧ q.DevOk t := by
  obtain ⟨f0, f1, f2, w, hf0, hf1, hf2, hi0, hi1, hw, rfl⟩ := eq_of_pipe h
  rw [halloc.1, Option.some.injEq] at hf0
  rw [halloc.2.1, Option.some.injEq] at hf1
  rw [halloc.2.2, Option.some.injEq] at hf2
  subst hf0 hf1 hf2
  have hperm : pteD ||| pteLibrary < 4096 := by decide
  rw [Spaces.ppn_pageEntry hlt.2.2 hperm] at hw
  have hsetFd : ∀ (u : Spaces) f m, (u.setFd f m).frame = u.frame := fun _ _ _ => rfl
  constructor
  · rintro e' n ⟨f, hf, hn⟩
    rw [hsetFd, hsetFd, Spaces.frame_setPte, Option.map_some,
      Spaces.ppn_pageEntry (ppn_lt w) hperm, hw] at hn
    have hdata : ∀ i, i = fd0 ∨ i = fd1 → ∃ i' < maxfd, fdPage i = fdPage i' ∧
        ((((((s.memAlloc e (fdPage fd0) (pteD ||| pteLibrary) q.reader).memAlloc e (fdPage fd1)
          (pteD ||| pteLibrary) q.writer).memAlloc e (dataPage fd0 0) (pteD ||| pteLibrary)
          q.pipe).setPte e (dataPage fd1 0) (some (pageEntry (ppn w)
          (pteD ||| pteLibrary)))).setFd q.reader oRdonly).setFd q.writer oWronly).frame e
          (dataPage i' 0) = some q.pipe := by
      intro i hi
      refine ⟨i, by rcases hi with rfl | rfl <;> assumption, rfl, ?_⟩
      rw [hsetFd, hsetFd, Spaces.frame_setPte, Option.map_some,
        Spaces.ppn_pageEntry (ppn_lt w) hperm, hw, Spaces.frame_memAlloc hlt.2.2 hperm]
      rcases hi with rfl | rfl
      · simp
      · simp
    have hpipe : ¬q.IsEnd q.pipe := by
      rintro (hp | hp)
      · exact q.pipe_ne_reader hp
      · exact q.pipe_ne_writer hp
    rw [Spaces.frame_memAlloc hlt.2.2 hperm, Spaces.frame_memAlloc hlt.2.1 hperm,
      Spaces.frame_memAlloc hlt.1 hperm] at hn
    -- the four pages that `pipe` maps, and all the others
    split at hn
    next =>
      cases hn
      exact absurd hf hpipe
    next =>
      split at hn
      next =>
        cases hn
        exact absurd hf hpipe
      next =>
        split at hn
        next hhere =>
          rw [hhere.1, hhere.2]
          exact hdata fd1 (.inr rfl)
        next =>
          split at hn
          next hhere =>
            rw [hhere.1, hhere.2]
            exact hdata fd0 (.inl rfl)
          next => exact absurd hn (hunused e' n f hf)
  · have hne := q.reader_ne_writer
    constructor
    · simp [Spaces.setFd, Spaces.setWord, Function.update_of_ne hne]
    · simp [Spaces.setFd, Spaces.setWord]

/-- Address spaces with nothing in them. -/
def Spaces.empty : Spaces := { pte := fun _ _ => none, mem := fun _ _ => 0 }

/-- A pipe on the frames 1, 2 and 3. -/
def smallPipe : PipeFrames :=
  { reader := 1, writer := 2, pipe := 3, reader_ne_writer := by decide, pipe_ne_reader := by decide,
    pipe_ne_writer := by decide }

/-- The address spaces after the first env has called `pipe`. -/
def smallSpaces : Spaces := (pipe .empty 0 (fun i => some (i.val + 1)) true).1

theorem paired_smallSpaces : smallPipe.Paired smallSpaces ∧ smallPipe.DevOk smallSpaces := by
  have h : pipe .empty 0 (fun i => some (i.val + 1)) true = (smallSpaces, some (0, 1)) := by
    refine Prod.ext rfl ?_
    decide
  refine paired_of_pipe smallPipe h ⟨rfl, rfl, rfl⟩ ⟨by decide, by decide, by decide⟩ ?_
  intro e n f _ hf
  cases hf

/-- The read end of a new pipe is being closed: the descriptor is unmapped, its data is not yet. -/
theorem pipe_closed_sound_close : ∃ acts t,
    run FdSys.step { spaces := smallSpaces, pc := fun _ => .idle } acts = some t ∧
    (t.pc 0 = .pipeCloseData 0 none ∧ t.spaces.frame 0 (fdPage 1) = some smallPipe.writer) ∧
    t.spaces.refs smallPipe.reader + t.spaces.refs smallPipe.writer
      ≤ t.spaces.refs smallPipe.pipe := by
  obtain ⟨t, hrun, htest⟩ := exists_of_run FdSys.step { spaces := smallSpaces, pc := fun _ => .idle }
    [.close 0 0, .step 0 true]
    (fun t => decide (t.pc 0 = .pipeCloseData 0 none ∧
      t.spaces.frame 0 (fdPage 1) = some smallPipe.writer)) (by decide)
  obtain ⟨hpaired, hdev⟩ := paired_smallSpaces
  exact ⟨_, t, hrun, of_decide_eq_true htest,
    (pipe_closed_sound smallPipe smallSpaces hpaired hdev _ t hrun).1⟩

end Mos
