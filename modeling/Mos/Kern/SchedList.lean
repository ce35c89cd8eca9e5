import Mos.Kern.BootSpec

/-!
# The scheduling queue

`kern/env.c` documents an invariant of `env_sched_list`: an env is on the queue iff it is runnable.
`SchedInv` states it, with the queue a well-formed tail queue.

The kernel does not keep it in general. `env_free` takes an env off the queue that may not be on it,
`sys_ipc_recv` does so with a caller that has made itself not runnable before, and
`sys_ipc_try_send` queues a receiver that may be queued already; `TAILQ_REMOVE` and
`TAILQ_INSERT_TAIL` then overwrite the links of other envs. `Op.QueueOk` says when a step does none
of this, and runs of such steps keep the invariant (`sched_list_iff_runnable`). The run behind
`sched_list_broken` does without: a child that was put to sleep is destroyed while its old
neighbour has taken its place in the links.
-/

namespace Mos

open Lib Prog Function

variable {k k' : Kernel} {e : EnvPtr} {α β : Type}

/-- What the scheduler relies on. -/
structure Kernel.SchedInv (k : Kernel) : Prop where
  queue : ∃ xs, k.envSchedList.Represents xs ∧ ∀ e, e ∈ xs ↔ (k.envs e).envStatus = .runnable
  cur : ∀ c, k.curenv = some c → k.Live c
  free_dead : ∀ e ∈ k.envFreeList, ¬k.Live e
  free_nodup : k.envFreeList.Nodup

/-! ## What does not matter to the scheduler -/

/-- The queue, the statuses, the free list and the current env are the same. -/
structure Kernel.Quiet (k k' : Kernel) : Prop where
  queue : k'.envSchedList = k.envSchedList
  status : ∀ e, (k'.envs e).envStatus = (k.envs e).envStatus
  curenv : k'.curenv = k.curenv
  envFreeList : k'.envFreeList = k.envFreeList

namespace Kernel.Quiet

theorem refl (k : Kernel) : k.Quiet k := ⟨rfl, fun _ => rfl, rfl, rfl⟩

theorem trans (k₁ k₂ k₃ : Kernel) (h : k₁.Quiet k₂) (h' : k₂.Quiet k₃) : k₁.Quiet k₃ :=
  ⟨h'.queue.trans h.queue, fun e => (h'.status e).trans (h.status e), h'.curenv.trans h.curenv,
    h'.envFreeList.trans h.envFreeList⟩

theorem of_frame (h : k.Frame k') : k.Quiet k' :=
  ⟨h.envSchedList, fun e => by rw [h.envs], h.curenv, h.envFreeList⟩

theorem live (h : k.Quiet k') : k'.Live e ↔ k.Live e := by
  unfold Kernel.Live
  rw [h.status]

/-- Fields other than the status may change. -/
theorem setEnv (k : Kernel) (e : EnvPtr) {f : Env → Env}
    (hst : (f (k.envs e)).envStatus = (k.envs e).envStatus) : k.Quiet (k.setEnv e f) := by
  refine ⟨rfl, fun e' => ?_, rfl, rfl⟩
  rw [setEnv_envs]
  by_cases he : e' = e
  · rw [he, update_self, hst]
  · rw [update_of_ne he]

end Kernel.Quiet

theorem Kernel.SchedInv.quiet (h : k.SchedInv) (hq : k.Quiet k') : k'.SchedInv := by
  obtain ⟨xs, hrep, hxs⟩ := h.queue
  refine ⟨⟨xs, by rw [hq.queue]; exact hrep, fun e => by rw [hq.status]; exact hxs e⟩, ?_, ?_, ?_⟩
  · intro c hc
    rw [hq.live]
    exact h.cur c (hq.curenv ▸ hc)
  · intro e he
    rw [hq.live]
    exact h.free_dead e (hq.envFreeList ▸ he)
  · rw [hq.envFreeList]
    exact h.free_nodup

/-- A function that does not matter to the scheduler. -/
abbrev Quieted (m : KernM α) : Prop := Keeps Kernel.Quiet m

theorem quieted_of_framed {m : KernM α} (h : Framed m) : Quieted m := fun k =>
  (h k).mono (fun _ _ => Kernel.Quiet.of_frame) (fun _ _ => Kernel.Quiet.of_frame) (fun _ h => h)

theorem quieted_bind {m : KernM α} {f : α → KernM β} (hm : Quieted m) (hf : ∀ a, Quieted (f a)) :
    Quieted (m >>= f) := keeps_bind Kernel.Quiet.trans hm hf

theorem quieted_pure (a : α) : Quieted (pure a : KernM α) := keeps_pure Kernel.Quiet.refl a

theorem quieted_envSetupVm (e : EnvPtr) : Quieted (envSetupVm e) := by
  refine quieted_bind (quieted_of_framed framed_pageAlloc) fun p => ?_
  refine quieted_bind (quieted_of_framed (framed_incref p)) fun _ => keeps_modify fun k => ?_
  obtain ⟨h₁, h₂, h₃, h₄⟩ := Kernel.Quiet.setEnv k e (f := fun v => { v with envPgdir := p }) rfl
  exact ⟨h₁, h₂, h₃, h₄⟩

theorem quieted_asidAlloc : Quieted asidAlloc := fun k =>
  (asidAlloc_spec k).mono (fun _ k' hk' => by obtain ⟨w, rfl⟩ := hk'; exact ⟨rfl, fun _ => rfl, rfl, rfl⟩)
    (fun _ k' hk' => hk' ▸ Kernel.Quiet.refl k) (fun _ _ => trivial)

/-! ## Loading -/

theorem framed_loadIcodeMapper (e : EnvPtr) (va offset perm : Word)
    (src : Option (Nat → BitVec 8)) (len : Word) :
    Framed (loadIcodeMapper e va offset perm src len) := by
  have hinsert : ∀ p, Framed (get >>= fun k : Kernel =>
      pageInsert (k.envs e).envPgdir (k.envs e).envAsid p va perm) := fun p =>
    keeps_get fun k => framed_pageInsert _ _ _ _ _
  refine framed_bind framed_pageAlloc fun p => ?_
  split
  · exact hinsert p
  · exact framed_bind (keeps_modify fun _ => ⟨_, _, _, _, _, rfl⟩) fun _ => hinsert p

section ElfLoad

variable (ph : ElfPhdr) {mapPage : ElfMapper}
  (hmap : ∀ va off perm src len, Framed (mapPage va off perm src len))

include hmap

theorem framed_elfLoadFile (bin : Nat → BitVec 8) (perm : Word) : ∀ (fuel : Nat) (i : Word),
    Framed (elfLoadFile ph bin mapPage perm fuel i)
  | 0, i => framed_pure i
  | fuel + 1, i => by
    unfold elfLoadFile
    split
    · exact framed_bind (hmap _ _ _ _ _) fun _ => framed_elfLoadFile bin perm fuel _
    · exact framed_pure i

theorem framed_elfLoadZero (perm : Word) : ∀ (fuel : Nat) (i : Word),
    Framed (elfLoadZero ph mapPage perm fuel i)
  | 0, _ => framed_pure ()
  | fuel + 1, i => by
    unfold elfLoadZero
    split
    · exact framed_bind (hmap _ _ _ _ _) fun _ => framed_elfLoadZero perm fuel _
    · exact framed_pure ()

theorem framed_elfLoadSeg (bin : Nat → BitVec 8) : Framed (elfLoadSeg ph bin mapPage) := by
  simp only [elfLoadSeg]
  split
  · refine framed_bind (hmap _ _ _ _ _) fun _ => ?_
    exact framed_bind (framed_elfLoadFile ph hmap _ _ _ _) fun i => framed_elfLoadZero ph hmap _ _ i
  · exact framed_bind (framed_elfLoadFile ph hmap _ _ _ _) fun i => framed_elfLoadZero ph hmap _ _ i

end ElfLoad

/-- `load_icode` panics instead of failing. -/
theorem loadPhdrs_frame (e : EnvPtr) (img : ElfImage) : ∀ (phs : List ElfPhdr) (k : Kernel),
    (loadPhdrs e img phs k).Sat (fun _ k' => k.Frame k') (fun _ _ => False) (fun _ => True)
  | [], k => Kernel.Frame.refl k
  | ph :: rest, k => by
    unfold loadPhdrs
    split
    · have hseg := framed_elfLoadSeg ph (framed_loadIcodeMapper e)
        (fun j => img.bytes (ph.pOffset.toNat + j)) k
      refine sat_call (sat_panicOn hseg) ?_ (fun _ _ h => h) (fun _ h => h)
      intro _ k₁ hf₁
      exact (loadPhdrs_frame e img rest k₁).mono (fun _ _ => hf₁.trans _ _ _) (fun _ _ h => h)
        (fun _ h => h)
    · exact loadPhdrs_frame e img rest k

theorem loadIcode_sched (e : EnvPtr) (binary : Option ElfImage) (k : Kernel) :
    (loadIcode e binary k).Sat (fun _ k' => k.Quiet k') (fun _ _ => False) (fun _ => True) := by
  cases binary with
  | none => trivial
  | some img =>
    refine sat_call (loadPhdrs_frame e img img.phdrs k) ?_ (fun _ _ h => h) (fun _ h => h)
    exact fun _ k₁ hf₁ => (Kernel.Quiet.of_frame hf₁).trans _ _ _ (Kernel.Quiet.setEnv k₁ e rfl)

/-! ## The queue -/

theorem schedRemove_queued {xs : List EnvPtr} (h : k.envSchedList.Represents xs) (he : e ∈ xs) :
    ∃ q, schedRemove e k = .ret () { k with envSchedList := q } ∧ q.Represents (xs.erase e) := by
  obtain ⟨q, hq, hrep⟩ := TailQ.remove_represents h he
  refine ⟨q, ?_, hrep⟩
  rw [schedRemove, get_bind, hq]
  rfl

theorem schedInsertTail_queued {xs : List EnvPtr} (h : k.envSchedList.Represents xs)
    (he : e ∉ xs) :
    ∃ q, schedInsertTail e k = .ret () { k with envSchedList := q } ∧ q.Represents (xs ++ [e]) := by
  obtain ⟨q, hq, hrep⟩ := TailQ.insertTail_represents h he
  refine ⟨q, ?_, hrep⟩
  rw [schedInsertTail, get_bind, hq]
  rfl

theorem status_setEnv (k : Kernel) (e e' : EnvPtr) (f : Env → Env) :
    ((k.setEnv e f).envs e').envStatus
      = if e' = e then (f (k.envs e)).envStatus else (k.envs e').envStatus := by
  rw [setEnv_envs]
  by_cases he : e' = e
  · rw [he, update_self, if_pos rfl]
  · rw [update_of_ne he, if_neg he]

/-- One env changes its status, between two that are in use. -/
theorem Kernel.SchedInv.setStatus (h : k.SchedInv) (hl : k.Live e) (st : Status) (hst : st ≠ .free)
    {xs : List EnvPtr} (hrep : k'.envSchedList.Represents xs)
    (hxs : ∀ e', e' ∈ xs ↔ if e' = e then st = .runnable else (k.envs e').envStatus = .runnable)
    (hstatus : ∀ e', (k'.envs e').envStatus = if e' = e then st else (k.envs e').envStatus)
    (hcur : k'.curenv = k.curenv) (hfree : k'.envFreeList = k.envFreeList) : k'.SchedInv := by
  have hlive : ∀ e', k'.Live e' ↔ k.Live e' := by
    intro e'
    unfold Kernel.Live
    rw [hstatus]
    split
    next he => rw [he]; exact iff_of_true hst hl
    next => exact Iff.rfl
  refine ⟨⟨xs, hrep, fun e' => ?_⟩, ?_, ?_, by rw [hfree]; exact h.free_nodup⟩
  · rw [hxs e', hstatus]
    split <;> exact Iff.rfl
  · intro c hc
    rw [hlive]
    exact h.cur c (hcur ▸ hc)
  · intro e' he'
    rw [hlive]
    exact h.free_dead e' (hfree ▸ he')

/-! ## Scheduling -/

theorem envRun_sched (h : k.SchedInv) (e : EnvPtr) :
    (envRun e k).Sat (fun _ k' => k'.SchedInv) (fun _ _ => False) (fun _ => True) := by
  rw [envRun, get_bind, sat_bind, sat_assert]
  split
  next hrun =>
    have hrun' : ∀ k₁ : Kernel, k.Quiet k₁ → Kernel.SchedInv
        { k₁.setEnv e fun v => { v with envRuns := v.envRuns + 1 } with
          curenv := some e, curPgdir := (k₁.envs e).envPgdir } := by
      intro k₁ hq₁
      have h₂ := (h.quiet hq₁).quiet (Kernel.Quiet.setEnv k₁ e
        (f := fun v => { v with envRuns := v.envRuns + 1 }) rfl)
      refine ⟨h₂.queue, ?_, h₂.free_dead, h₂.free_nodup⟩
      intro c hc
      obtain rfl : e = c := Option.some.inj hc
      show ((k₁.setEnv e fun v => { v with envRuns := v.envRuns + 1 }).envs e).envStatus ≠ .free
      rw [status_setEnv, if_pos rfl, hq₁.status, hrun]
      simp
    cases hc : k.curenv with
    | none => exact hrun' k (Kernel.Quiet.refl k)
    | some c => exact hrun' _ (Kernel.Quiet.setEnv k c rfl)
  next => trivial

theorem schedulePick_sched (h : k.SchedInv) :
    (schedulePick k).Sat (fun _ k' => k'.SchedInv) (fun _ _ => False) (fun _ => True) := by
  rw [schedulePick, get_bind]
  cases k.envSchedList.first with
  | none => trivial
  | some e =>
    exact envRun_sched (k := { k with schedCount := (k.envs e).envPri.toInt })
      ⟨h.queue, h.cur, h.free_dead, h.free_nodup⟩ e

/-- A runnable env goes to the end of the queue. -/
theorem requeue_sched (h : k.SchedInv) (hrun : (k.envs e).envStatus = .runnable) :
    ∃ q q', schedRemove e k = .ret () { k with envSchedList := q } ∧
      schedInsertTail e { k with envSchedList := q } = .ret () { k with envSchedList := q' } ∧
      Kernel.SchedInv { k with envSchedList := q' } := by
  obtain ⟨xs, hrep, hxs⟩ := h.queue
  have he : e ∈ xs := (hxs e).mpr hrun
  obtain ⟨q₂, heq₂, hrep₂⟩ := schedRemove_queued hrep he
  obtain ⟨q₃, heq₃, hrep₃⟩ := schedInsertTail_queued (k := { k with envSchedList := q₂ }) hrep₂
    (fun hc => (List.Nodup.mem_erase_iff hrep.1).mp hc |>.1 rfl)
  refine ⟨q₂, q₃, heq₂, heq₃, ⟨xs.erase e ++ [e], hrep₃, fun e' => ?_⟩, h.cur, h.free_dead,
    h.free_nodup⟩
  rw [List.mem_append, List.Nodup.mem_erase_iff hrep.1, List.mem_singleton]
  by_cases hee : e' = e
  · rw [hee]
    exact iff_of_true (.inr rfl) hrun
  · rw [hxs e']
    simp [hee]

theorem schedule_sched (h : k.SchedInv) (yield : Bool) :
    (schedule yield k).Sat (fun _ k' => k'.SchedInv) (fun _ _ => False) (fun _ => True) := by
  rw [schedule, modify_bind, get_bind]
  have h' : Kernel.SchedInv { k with schedCount := k.schedCount - 1 } :=
    ⟨h.queue, h.cur, h.free_dead, h.free_nodup⟩
  generalize { k with schedCount := k.schedCount - 1 } = k₁ at h'
  cases hc : k₁.curenv with
  | none => exact schedulePick_sched h'
  | some e =>
    simp only
    split
    · exact schedulePick_sched h'
    next hrun =>
      rw [not_not] at hrun
      split
      · obtain ⟨q₂, q₃, heq₂, heq₃, h₃⟩ := requeue_sched h' hrun
        rw [bind_ret heq₂, bind_ret heq₃]
        exact schedulePick_sched h₃
      · exact envRun_sched h' e

/-! ## Creation and release -/

/-- `env_alloc` takes an env off the free list. -/
theorem envAlloc_sched (k : Kernel) (parentId : Word) :
    (envAlloc parentId k).Sat
      (fun e k' => e ∈ k.envFreeList ∧ Kernel.Quiet { k with envFreeList := k.envFreeList.erase e } k')
      (fun _ k' => k.Quiet k') (fun _ => True) := by
  rw [envAlloc, get_bind]
  cases hl : k.envFreeList with
  | nil => exact Kernel.Quiet.refl k
  | cons e rest =>
    refine sat_call (quieted_envSetupVm e k) ?_ (fun _ _ h => h) (fun _ h => h)
    intro _ k₁ hq₁
    simp only [modify_bind, mkenvid_bind]
    have hq₂ := hq₁.trans _ _ _ (Kernel.Quiet.setEnv k₁ e
      (f := fun v => { v with envUserTlbModEntry := 0, envRuns := 0 }) rfl)
    generalize (k₁.setEnv e fun v => { v with envUserTlbModEntry := 0, envRuns := 0 }) = k₂ at hq₂
    have hq₃ : k.Quiet { k₂ with mkenvidCount := k₂.mkenvidCount + 1 } :=
      ⟨hq₂.queue, hq₂.status, hq₂.curenv, hq₂.envFreeList⟩
    generalize (k₂.mkenvidCount + 1) <<< 11 ||| BitVec.ofNat 32 e.val = id
    have hq₄ := hq₃.trans _ _ _ (Kernel.Quiet.setEnv _ e (f := fun v => { v with envId := id }) rfl)
    generalize (Kernel.setEnv _ e fun v => { v with envId := id }) = k₄ at hq₄
    refine sat_call (quieted_asidAlloc k₄) ?_ (fun _ _ h => hq₄.trans _ _ _ h) (fun _ h => h)
    intro asid k₅ hq₅
    have hq₆ := (hq₄.trans _ _ _ hq₅).trans _ _ _ (Kernel.Quiet.setEnv k₅ e (f := fun v => { v with
      envAsid := asid
      envParentId := parentId
      envTf := { (v.envTf.setReg 29 (ustacktop - 4 - 4)) with cp0Status := statusUser } }) rfl)
    refine ⟨List.mem_cons_self, hq₆.queue, hq₆.status, hq₆.curenv, ?_⟩
    show List.erase _ e = _
    rw [hq₆.envFreeList, hl]

/-- What `env_alloc` hands out is dead. Once it lives with the queue updated, the invariant holds. -/
theorem Kernel.SchedInv.born (h : k.SchedInv) (he : e ∈ k.envFreeList) (st : Status)
    {xs : List EnvPtr} (hrep : k'.envSchedList.Represents xs)
    (hxs : ∀ e', e' ∈ xs ↔ if e' = e then st = .runnable else (k.envs e').envStatus = .runnable)
    (hstatus : ∀ e', (k'.envs e').envStatus = if e' = e then st else (k.envs e').envStatus)
    (hcur : k'.curenv = k.curenv) (hfree : k'.envFreeList = k.envFreeList.erase e) :
    k'.SchedInv := by
  have hlive : ∀ e', e' ≠ e → (k'.Live e' ↔ k.Live e') := fun e' hee => by
    unfold Kernel.Live
    rw [hstatus, if_neg hee]
  refine ⟨⟨xs, hrep, fun e' => ?_⟩, ?_, ?_, by rw [hfree]; exact h.free_nodup.erase e⟩
  · rw [hxs e', hstatus]
    split <;> exact Iff.rfl
  · intro c hc
    have hlc := h.cur c (hcur ▸ hc)
    rw [hlive c fun hce => h.free_dead e he (hce ▸ hlc)]
    exact hlc
  · intro e' he'
    rw [hfree, List.Nodup.mem_erase_iff h.free_nodup] at he'
    rw [hlive e' he'.1]
    exact h.free_dead e' he'.2

theorem status_of_dead (h : ¬k.Live e) : (k.envs e).envStatus = .free := not_not.mp h

theorem envCreate_sched (h : k.SchedInv) (binary : Option ElfImage) (priority : Word) :
    (envCreate binary priority k).Sat (fun _ k' => k'.SchedInv) (fun _ _ => False)
      (fun _ => True) := by
  rw [envCreate, sat_bind, sat_attempt]
  refine (envAlloc_sched k 0).mono ?_ (fun _ _ _ => trivial) (fun _ h => h)
  rintro e k₁ ⟨he, hq₁⟩
  simp only [modify_bind]
  refine sat_call (loadIcode_sched e binary _) ?_ (fun _ _ h => h) (fun _ h => h)
  intro _ k₂ hq₂
  have hstatus : ∀ e', (k₂.envs e').envStatus = if e' = e then .runnable else (k.envs e').envStatus := by
    intro e'
    rw [hq₂.status, status_setEnv]
    split
    · rfl
    · exact hq₁.status e'
  obtain ⟨xs, hrep, hxs⟩ := h.queue
  have hex : e ∉ xs := by
    rw [hxs, status_of_dead (h.free_dead e he)]
    simp
  have hqueue : k₂.envSchedList = k.envSchedList := hq₂.queue.trans hq₁.queue
  have hrep₂ : (k₂.envSchedList.insertHead e).Represents (e :: xs) := by
    rw [hqueue]
    exact TailQ.insertHead_represents hrep hex
  refine h.born he .runnable hrep₂ ?_ hstatus (hq₂.curenv.trans hq₁.curenv)
    (hq₂.envFreeList.trans hq₁.envFreeList)
  · intro e'
    rw [List.mem_cons, hxs]
    split <;> simp_all

theorem framed_envFreePde (d : Nat) (asid : Word) (i : Nat) : Framed (envFreePde d asid i) := by
  refine framed_bind (framed_readWord _ _) fun pde => ?_
  split
  · refine framed_bind (framed_kaddr _) fun pt => ?_
    refine framed_bind (keeps_loop Kernel.Frame.refl Kernel.Frame.trans (fun j => ?_) 1024 0) fun _ => ?_
    · refine framed_bind (framed_readWord _ _) fun pte => ?_
      split
      · exact framed_pageRemove _ _ _
      · exact framed_pure _
    · refine framed_bind (framed_writeWord _ _ _) fun _ => framed_bind (framed_pa2page _) fun pp => ?_
      exact framed_bind (framed_pageDecref _) fun _ => framed_tlbInvalidate _ _
  · exact framed_pure _

/-- `env_free` of an env that is on the queue. -/
theorem envFree_sched (h : k.SchedInv) (hrun : (k.envs e).envStatus = .runnable) {c : EnvPtr}
    (hc : k.curenv = some c) :
    (envFree e k).Sat
      (fun _ k' => k'.curenv = some c ∧
        Kernel.SchedInv { k' with curenv := if c = e then none else some c })
      (fun _ k' => k'.SchedInv) (fun _ => True) := by
  rw [envFree, get_bind]
  generalize (k.envs e).envPgdir = d
  generalize (k.envs e).envAsid = asid
  have hloop : Framed (loop (envFreePde d asid) 0 (pdx utop)) :=
    keeps_loop Kernel.Frame.refl Kernel.Frame.trans (framed_envFreePde d asid) _ _
  refine sat_call (hloop k) ?_ (fun _ _ hf => h.quiet (.of_frame hf)) (fun _ h => h)
  intro _ k₁ hf₁
  refine sat_call (framed_pa2page _ k₁) ?_
    (fun _ _ hf => h.quiet (.of_frame (hf₁.trans _ _ _ hf))) (fun _ h => h)
  intro pp k₂ hf₂
  have hf₁₂ := hf₁.trans _ _ _ hf₂
  refine sat_call (framed_pageDecref pp k₂) ?_
    (fun _ _ hf => h.quiet (.of_frame (hf₁₂.trans _ _ _ hf))) (fun _ h => h)
  intro _ k₃ hf₃
  have hq₃ : k.Quiet k₃ := .of_frame (hf₁₂.trans _ _ _ hf₃)
  simp only [asidFree, tlbInvalidate, tlbOut, modify_bind]
  generalize hk₄ : ({ Kernel.setEnv _ e fun v => { v with envStatus := .free } with
    envFreeList := e :: _ } : Kernel) = k₄
  have hstatus : ∀ e', (k₄.envs e').envStatus = if e' = e then .free else (k.envs e').envStatus := by
    intro e'
    rw [← hk₄]
    show ((k₃.setEnv e fun v => { v with envStatus := .free }).envs e').envStatus = _
    rw [status_setEnv]
    split
    · rfl
    · exact hq₃.status e'
  have hrest : k₄.envSchedList = k.envSchedList ∧ k₄.curenv = some c ∧
      k₄.envFreeList = e :: k.envFreeList := by
    rw [← hk₄]
    exact ⟨hq₃.queue, hq₃.curenv.trans hc, congrArg (e :: ·) hq₃.envFreeList⟩
  obtain ⟨hqueue₄, hcur₄, hfree₄⟩ := hrest
  clear hk₄
  have hl : k.Live e := by
    unfold Kernel.Live
    rw [hrun]
    simp
  have hlive : ∀ e', k₄.Live e' ↔ e' ≠ e ∧ k.Live e' := by
    intro e'
    unfold Kernel.Live
    rw [hstatus]
    split <;> simp_all
  obtain ⟨xs, hrep, hxs⟩ := h.queue
  obtain ⟨q, heq, hrep'⟩ := schedRemove_queued (k := k₄) (by rw [hqueue₄]; exact hrep) ((hxs e).mpr hrun)
  rw [heq]
  refine ⟨hcur₄, ⟨xs.erase e, hrep', fun e' => ?_⟩, ?_, ?_, ?_⟩
  · show _ ↔ (k₄.envs e').envStatus = .runnable
    rw [List.Nodup.mem_erase_iff hrep.1, hxs, hstatus]
    split <;> simp_all
  · intro c' hc'
    by_cases hce : c = e
    · simp [hce] at hc'
    · simp only [if_neg hce] at hc'
      obtain rfl : c = c' := Option.some.inj hc'
      exact (hlive c).mpr ⟨hce, h.cur c hc⟩
  · intro e' he' hl'
    replace he' : e' ∈ k₄.envFreeList := he'
    rw [hfree₄, List.mem_cons] at he'
    obtain ⟨hne, hl'⟩ := (hlive e').mp hl'
    exact h.free_dead e' (he'.resolve_left hne) hl'
  · show k₄.envFreeList.Nodup
    rw [hfree₄]
    exact List.nodup_cons.mpr ⟨fun hmem => h.free_dead e hmem hl, h.free_nodup⟩

theorem envDestroy_sched (h : k.SchedInv) (hrun : (k.envs e).envStatus = .runnable) {c : EnvPtr}
    (hc : k.curenv = some c) :
    (envDestroy e k).Sat (fun _ k' => k'.SchedInv) (fun _ k' => k'.SchedInv) (fun _ => True) := by
  refine sat_call (envFree_sched h hrun hc) ?_ (fun _ _ h => h) (fun _ h => h)
  rintro _ k₁ ⟨hc₁, hinv₁⟩
  simp only [get_bind]
  by_cases hce : c = e
  · rw [if_pos hce] at hinv₁
    rw [if_pos (by rw [hc₁, hce]), put_bind]
    exact sat_call (schedule_sched hinv₁ true) (fun _ _ h => h) (fun _ _ h => h.elim) (fun _ h => h)
  · rw [if_neg hce] at hinv₁
    rw [if_neg (by rw [hc₁]; simpa using hce)]
    have heq : { k₁ with curenv := some c } = k₁ := by
      rw [← hc₁]
    rw [heq] at hinv₁
    exact hinv₁

/-! ## Runs -/

/-- The steps after which the queue is what it should be. An env is destroyed only while it is on the
queue; only a runnable env waits for a message; a message is sent only to an env that is not
runnable while it waits. -/
def Op.QueueOk (k : Kernel) : Op → Prop
  | .envDestroy envid =>
    ∀ e, envid2env envid true k = .ret e k → (k.envs e).envStatus = .runnable
  | .ipcRecv dstva =>
    dstva = 0 ∨ isIllegalVa dstva = false →
      ∀ c, k.curenv = some c → (k.envs c).envStatus = .runnable
  | .ipcTrySend envid _ srcva _ =>
    srcva = 0 ∨ isIllegalVa srcva = false →
      ∀ e, envid2env envid false k = .ret e k → (k.envs e).envIpcRecving ≠ 0 →
        (k.envs e).envStatus = .notRunnable
  | _ => True

theorem framed_envid2env (envid : Word) (checkperm : Bool) : Framed (envid2env envid checkperm) := by
  intro k
  simp only [envid2env, get_bind]
  split
  · cases k.curenv with
    | none => trivial
    | some c => exact Kernel.Frame.refl k
  · split
    · exact Kernel.Frame.refl k
    · cases checkperm with
      | false => exact Kernel.Frame.refl k
      | true =>
        cases k.curenv with
        | none => trivial
        | some c =>
          simp only [if_true]
          split <;> exact Kernel.Frame.refl k

theorem framed_sysMemAlloc (envid va perm : Word) : Framed (sysMemAlloc envid va perm) := by
  unfold sysMemAlloc
  split
  · exact framed_fail _
  · refine framed_bind (framed_envid2env _ _) fun e => framed_bind framed_pageAlloc fun pp => ?_
    exact keeps_get fun k => framed_bind (framed_pageInsert _ _ _ _ _) fun _ => framed_pure _

theorem framed_sysMemMap (srcid srcva dstid dstva perm : Word) :
    Framed (sysMemMap srcid srcva dstid dstva perm) := by
  unfold sysMemMap
  split
  · exact framed_fail _
  · refine framed_bind (framed_envid2env _ _) fun src => framed_bind (framed_envid2env _ _) fun dst => ?_
    refine keeps_get fun k => framed_bind (framed_pageLookup _ _) fun r => ?_
    split
    · exact framed_fail _
    · exact framed_bind (framed_pageInsert _ _ _ _ _) fun _ => framed_pure _

theorem framed_sysMemUnmap (envid va : Word) : Framed (sysMemUnmap envid va) := by
  unfold sysMemUnmap
  split
  · exact framed_fail _
  · refine framed_bind (framed_envid2env _ _) fun e => ?_
    exact keeps_get fun k => framed_bind (framed_pageRemove _ _ _) fun _ => framed_pure _

theorem framed_curenvPtr : Framed curenvPtr := fun k =>
  (curenvPtr_spec k).mono (fun _ _ hq => hq.1 ▸ Kernel.Frame.refl k) (fun _ _ hq => hq.elim)
    (fun _ h => h)

theorem framed_storeUser (va w : Word) : Framed (storeUser va w) := by
  refine framed_bind framed_curenvPtr fun c => keeps_get fun k => ?_
  split
  · refine framed_bind (framed_pageLookup _ _) fun r => ?_
    split
    · exact framed_pure _
    · refine framed_bind (framed_readWord _ _) fun pte => ?_
      split
      · exact framed_writeWord _ _ _
      · exact framed_pure _
  · exact framed_pure _

theorem quieted_sysSetTrapframe (envid tf : Word) : Quieted (sysSetTrapframe envid tf) := by
  unfold sysSetTrapframe
  split
  · exact quieted_of_framed (framed_fail _)
  · refine quieted_bind (quieted_of_framed (framed_envid2env _ _)) fun e => ?_
    refine quieted_bind (quieted_of_framed framed_curenvPtr) fun c => keeps_get fun k => ?_
    refine quieted_bind (quieted_of_framed (framed_loadUserWords _ _ _)) fun ws => ?_
    split
    · exact quieted_bind (keeps_modify fun _ => ⟨rfl, fun _ => rfl, rfl, rfl⟩) fun _ => quieted_pure _
    · exact quieted_bind (keeps_modify fun k => Kernel.Quiet.setEnv k e rfl) fun _ => quieted_pure _

theorem sysExofork_sched (h : k.SchedInv) :
    (sysExofork k).Sat (fun _ k' => k'.SchedInv) (fun _ k' => k'.SchedInv) (fun _ => True) := by
  refine sat_call (curenvPtr_spec k) ?_ (fun _ _ hq => hq.elim) (fun _ h => h)
  rintro c _ ⟨rfl, hc⟩
  rw [get_bind]
  refine sat_call (envAlloc_sched k _) ?_ (fun _ _ hq => h.quiet hq) (fun _ h => h)
  rintro e k₁ ⟨he, hq₁⟩
  obtain ⟨xs, hrep, hxs⟩ := h.queue
  have hdead := status_of_dead (h.free_dead e he)
  rw [modify_bind, get_bind]
  have hqueue : k₁.envSchedList = k.envSchedList := hq₁.queue
  have hstatus : ∀ e', ((k₁.setEnv e fun v => { v with
      envTf := k₁.kstackTf.setReg 2 0
      envStatus := .notRunnable
      envPri := (k₁.envs c).envPri }).envs e').envStatus
        = if e' = e then .notRunnable else (k.envs e').envStatus := by
    intro e'
    rw [status_setEnv]
    split
    · rfl
    · exact hq₁.status e'
  have hrep₁ : k₁.envSchedList.Represents xs := by rw [hqueue]; exact hrep
  refine h.born he .notRunnable hrep₁ (fun e' => ?_) hstatus hq₁.curenv hq₁.envFreeList
  rw [hxs]
  split
  next hee => rw [hee, hdead]; simp
  next => exact Iff.rfl

theorem sysSetEnvStatus_sched (h : k.SchedInv) (envid status : Word) :
    (sysSetEnvStatus envid status k).Sat (fun _ k' => k'.SchedInv) (fun _ k' => k'.SchedInv)
      (fun _ => True) := by
  unfold sysSetEnvStatus
  cases hst : statusArg status with
  | none => exact h
  | some st =>
    have hst' := statusArg_ne_free hst
    refine sat_call (envid2env_spec h.cur envid true) ?_ (fun _ _ he => he ▸ h) (fun _ h => h)
    rintro e _ ⟨rfl, hl, _⟩
    rw [get_bind]
    obtain ⟨xs, hrep, hxs⟩ := h.queue
    have hstatus := fun (k : Kernel) e' => status_setEnv k e e' fun v => { v with envStatus := st }
    split
    next hcase =>
      -- leaves the queue
      have he : e ∈ xs := (hxs e).mpr hcase.1
      obtain ⟨q, heq, hrep'⟩ := schedRemove_queued hrep he
      rw [bind_ret heq]
      refine h.setStatus hl st hst' hrep' (fun e' => ?_) (fun e' => hstatus k e') rfl rfl
      rw [List.Nodup.mem_erase_iff hrep.1, hxs, hcase.2]
      split <;> simp_all
    next =>
      split
      next hcase =>
        -- enters the queue
        have he : e ∉ xs := by
          rw [hxs, hcase.1]
          simp
        obtain ⟨q, heq, hrep'⟩ := schedInsertTail_queued hrep he
        rw [bind_ret heq]
        refine h.setStatus hl st hst' hrep' (fun e' => ?_) (fun e' => hstatus k e') rfl rfl
        rw [List.mem_append, List.mem_singleton, hxs, hcase.2]
        split <;> simp_all
      next hstay hwake =>
        -- the status does not change
        have hsame : st = .runnable ↔ (k.envs e).envStatus = .runnable := by
          unfold Kernel.Live at hl
          cases hcur : (k.envs e).envStatus <;> cases st <;> simp_all
        refine h.setStatus hl st hst' hrep (fun e' => ?_) (fun e' => hstatus k e') rfl rfl
        rw [hxs]
        split
        next he => rw [he, hsame]
        next => exact Iff.rfl

/-- A runnable env starts to wait and leaves the queue. -/
theorem leave_sched (h : k.SchedInv) {c : EnvPtr} (hc : k.curenv = some c)
    (hrun : (k.envs c).envStatus = .runnable) (dstva : Word) :
    ∃ q, schedRemove c (k.setEnv c fun v => { v with
        envIpcRecving := 1, envIpcDstva := dstva, envStatus := .notRunnable }) =
      .ret () { k.setEnv c fun v => { v with
        envIpcRecving := 1, envIpcDstva := dstva, envStatus := .notRunnable } with
        envSchedList := q } ∧
      Kernel.SchedInv { k.setEnv c fun v => { v with
        envIpcRecving := 1, envIpcDstva := dstva, envStatus := .notRunnable } with
        envSchedList := q, kstackTf := k.kstackTf.setReg 2 0 } := by
  obtain ⟨xs, hrep, hxs⟩ := h.queue
  obtain ⟨q, heq, hrep'⟩ := schedRemove_queued (k := k.setEnv c fun v => { v with
    envIpcRecving := 1, envIpcDstva := dstva, envStatus := .notRunnable }) hrep ((hxs c).mpr hrun)
  have hst := fun e' => status_setEnv k c e' fun v => { v with
    envIpcRecving := 1, envIpcDstva := dstva, envStatus := .notRunnable }
  refine ⟨q, heq, h.setStatus (h.cur c hc) .notRunnable (by simp) hrep' (fun e' => ?_) hst rfl rfl⟩
  rw [List.Nodup.mem_erase_iff hrep.1, hxs]
  split <;> simp_all

theorem legal_of_null {va : Word} (h : ¬(va ≠ 0 ∧ isIllegalVa va = true)) :
    va = 0 ∨ isIllegalVa va = false := by
  by_cases h0 : va = 0
  · exact .inl h0
  · exact .inr (by simpa using fun hc => h ⟨h0, hc⟩)

theorem sysIpcRecv_sched (h : k.SchedInv) {dstva : Word} (hok : (Op.ipcRecv dstva).QueueOk k) :
    (sysIpcRecv dstva k).Sat (fun _ k' => k'.SchedInv) (fun _ k' => k'.SchedInv)
      (fun _ => True) := by
  unfold sysIpcRecv
  split
  · exact h
  next hva =>
    refine sat_call (curenvPtr_spec k) ?_ (fun _ _ hq => hq.elim) (fun _ h => h)
    rintro c _ ⟨rfl, hc⟩
    rw [modify_bind]
    obtain ⟨q, heq, h₂⟩ := leave_sched h hc (hok (legal_of_null hva) c hc) dstva
    rw [bind_ret heq, modify_bind]
    exact sat_call (schedule_sched h₂ true) (fun _ _ h => h) (fun _ _ hq => hq.elim) (fun _ h => h)

theorem framed_ipcMapPage (c e : EnvPtr) (srcva perm : Word) : Framed (ipcMapPage c e srcva perm) := by
  refine keeps_get fun k => framed_bind (framed_pageLookup _ _) fun r => ?_
  split
  · exact framed_fail _
  · exact framed_bind (keeps_attempt (framed_pageInsert _ _ _ _ _)) fun _ => framed_pure _

theorem sysIpcTrySend_sched (h : k.SchedInv) {envid value srcva perm : Word}
    (hok : (Op.ipcTrySend envid value srcva perm).QueueOk k) :
    (sysIpcTrySend envid value srcva perm k).Sat (fun _ k' => k'.SchedInv)
      (fun _ k' => k'.SchedInv) (fun _ => True) := by
  unfold sysIpcTrySend
  split
  · exact h
  next hva =>
    have hlegal := legal_of_null hva
    refine sat_call ((envid2env_spec h.cur envid false).and (Outcome.sat_self _)) ?_
      (fun _ _ he => he.1 ▸ h) (fun _ h => h.1)
    rintro e _ ⟨⟨rfl, hl, _⟩, henv⟩
    rw [get_bind]
    split
    · exact h
    next hrecv =>
      have hnot := hok hlegal e henv hrecv
      refine sat_call (curenvPtr_spec k) ?_ (fun _ _ hq => hq.elim) (fun _ h => h)
      rintro c _ ⟨rfl, hc⟩
      rw [modify_bind]
      obtain ⟨xs, hrep, hxs⟩ := h.queue
      have he : e ∉ xs := by
        rw [hxs, hnot]
        simp
      obtain ⟨q, heq, hrep'⟩ := schedInsertTail_queued (k := k.setEnv e fun v => { v with
        envIpcValue := value
        envIpcFrom := (k.envs c).envId
        envIpcPerm := pteV ||| perm
        envIpcRecving := 0
        envStatus := .runnable }) hrep he
      have h₁ : Kernel.SchedInv { k.setEnv e fun v => { v with
          envIpcValue := value
          envIpcFrom := (k.envs c).envId
          envIpcPerm := pteV ||| perm
          envIpcRecving := 0
          envStatus := .runnable } with envSchedList := q } := by
        have hst := fun e' => status_setEnv k e e' fun v => { v with
          envIpcValue := value
          envIpcFrom := (k.envs c).envId
          envIpcPerm := pteV ||| perm
          envIpcRecving := 0
          envStatus := .runnable }
        refine h.setStatus hl .runnable (by simp) hrep' (fun e' => ?_) hst rfl rfl
        rw [List.mem_append, List.mem_singleton, hxs]
        split <;> simp_all
      rw [bind_ret heq]
      split
      · exact (framed_ipcMapPage c e srcva perm _).mono (fun _ _ hf => h₁.quiet (.of_frame hf))
          (fun _ _ hf => h₁.quiet (.of_frame hf)) (fun _ h => h)
      · exact h₁

/-- **One step keeps the invariant**, if it is none of those that take the queue for granted. -/
theorem exec_sched (h : k.SchedInv) (op : Op) (hok : op.QueueOk k) :
    (exec op k).Sat (fun _ k' => k'.SchedInv) (fun _ k' => k'.SchedInv) (fun _ => True) := by
  have hdrop : ∀ {α : Type} {m : KernM α},
      (m k).Sat (fun _ k' => k'.SchedInv) (fun _ k' => k'.SchedInv) (fun _ => True) →
      ((m >>= fun _ => pure ()) k).Sat (fun _ k' => k'.SchedInv) (fun _ k' => k'.SchedInv)
        (fun _ => True) := by
    intro α m hm
    exact sat_call hm (fun _ _ hq => hq) (fun _ _ hq => hq) (fun _ h => h)
  have hquiet : ∀ {α : Type} {m : KernM α}, Quieted m →
      (m k).Sat (fun _ k' => k'.SchedInv) (fun _ k' => k'.SchedInv) (fun _ => True) :=
    fun hm => (hm k).mono (fun _ _ hq => h.quiet hq) (fun _ _ hq => h.quiet hq) (fun _ h => h)
  have hsched : ∀ yield, (schedule yield k).Sat (fun _ k' => k'.SchedInv)
      (fun _ k' => k'.SchedInv) (fun _ => True) := fun yield =>
    (schedule_sched h yield).mono (fun _ _ hq => hq) (fun _ _ hq => hq.elim) (fun _ h => h)
  cases op with
  | envCreate b p =>
    exact hdrop ((envCreate_sched h b p).mono (fun _ _ hq => hq) (fun _ _ hq => hq.elim)
      (fun _ h => h))
  | timer => exact hsched false
  | yield => exact hdrop (sat_call (hsched true) (fun _ _ hq => hq) (fun _ _ hq => hq) (fun _ h => h))
  | tlbRefill va asid => exact hquiet (quieted_of_framed (framed_tlbRefill va asid))
  | memAlloc e va p => exact hdrop (hquiet (quieted_of_framed (framed_sysMemAlloc e va p)))
  | memMap s sv d dv p => exact hdrop (hquiet (quieted_of_framed (framed_sysMemMap s sv d dv p)))
  | memUnmap e va => exact hdrop (hquiet (quieted_of_framed (framed_sysMemUnmap e va)))
  | exofork => exact hdrop (sysExofork_sched h)
  | setEnvStatus e st => exact hdrop (sysSetEnvStatus_sched h e st)
  | setTlbModEntry e f =>
    refine hdrop (sat_call (envid2env_spec h.cur e true) ?_ (fun _ _ he => he ▸ h) (fun _ h => h))
    rintro e _ ⟨rfl, _, _⟩
    exact h.quiet (Kernel.Quiet.setEnv k e rfl)
  | envDestroy envid =>
    refine hdrop (sat_call ((envid2env_spec h.cur envid true).and (Outcome.sat_self _)) ?_
      (fun _ _ he => he.1 ▸ h) (fun _ h => h.1))
    rintro e _ ⟨⟨rfl, _, hcur⟩, henv⟩
    obtain ⟨c, hc⟩ := Option.ne_none_iff_exists'.mp (hcur rfl)
    refine sat_call (envDestroy_sched h (hok e henv) hc) ?_ (fun _ _ hq => hq) (fun _ h => h)
    intro r k₁ h₁
    cases r <;> exact h₁
  | ipcRecv va => exact hdrop (sysIpcRecv_sched h hok)
  | ipcTrySend e v s p => exact hdrop (sysIpcTrySend_sched h hok)
  | setTrapframe e tf => exact hdrop (hquiet (quieted_sysSetTrapframe e tf))
  | trap tf => exact ⟨h.queue, h.cur, h.free_dead, h.free_nodup⟩
  | store va w => exact hquiet (quieted_of_framed (framed_storeUser va w))

/-- A step that meets the condition. -/
def QueuedStep (k k' : Kernel) : Prop := ∃ op, op.QueueOk k ∧ Step op k k'

theorem schedInv_of_run (h : k.SchedInv) (hrun : Relation.ReflTransGen QueuedStep k k') :
    k'.SchedInv := by
  induction hrun with
  | refl => exact h
  | tail _ hstep ih =>
    obtain ⟨op, hok, hstep⟩ := hstep
    exact (exec_sched ih op hok).of_state? hstep

theorem Kernel.Booted.schedInv (h : k.Booted) : k.SchedInv := by
  refine ⟨⟨[], by rw [h.queue]; exact TailQ.empty_represents, fun e => ?_⟩, ?_, h.inv.free_dead,
    h.inv.free_nodup⟩
  · rw [status_of_dead (h.dead e)]
    simp
  · intro c hc
    rw [h.curenv] at hc
    cases hc

/-- **The queue holds exactly the runnable envs**, each once, in every state of a run whose steps
meet `Op.QueueOk`. -/
theorem sched_list_iff_runnable (b : Boot) {k₀ k : Kernel} (hboot : boot b = .ret () k₀)
    (hrun : Relation.ReflTransGen QueuedStep k₀ k) :
    ∃ xs, k.envSchedList.Represents xs ∧ ∀ e, e ∈ xs ↔ (k.envs e).envStatus = .runnable :=
  (schedInv_of_run (booted_of_boot hboot).schedInv hrun).queue

/-- A run of operations that never touch the queue out of turn. -/
theorem queuedRun_of_runOps : ∀ {ops : List Op} {k k' : Kernel},
    (∀ op ∈ ops, ∀ k, op.QueueOk k) → runOps ops k = some k' →
      Relation.ReflTransGen QueuedStep k k'
  | [], k, k', _, h => by
    cases h
    exact .refl
  | op :: ops, k, k', hok, h => by
    obtain ⟨k₁, hstep, h⟩ := runOps_cons h
    refine .head ⟨op, hok op List.mem_cons_self k, hstep⟩ ?_
    exact queuedRun_of_runOps (fun op' hop' => hok op' (List.mem_cons_of_mem _ hop')) h

/-- Two children, one of them woken up, on the small machine. -/
theorem sched_list_small : ∃ k₀ k, boot smallBoot = .ret () k₀ ∧
    Relation.ReflTransGen QueuedStep k₀ k ∧
    ∃ xs, k.envSchedList.Represents xs ∧ ∀ e, e ∈ xs ↔ (k.envs e).envStatus = .runnable := by
  obtain ⟨k₀, k, hboot, hrun, _⟩ := exists_run smallBoot
    [.envCreate (some emptyImage) 1, .timer, .exofork, .exofork, .setEnvStatus 4097 1]
    (fun _ => true) (by decide +kernel)
  have hsteps := queuedRun_of_runOps (fun op hop k => by
    simp only [List.mem_cons, List.not_mem_nil, or_false] at hop
    rcases hop with rfl | rfl | rfl | rfl | rfl <;> trivial) hrun
  exact ⟨k₀, k, hboot, hsteps, sched_list_iff_runnable smallBoot hboot hsteps⟩

/-- **The invariant fails in general.** The parent wakes its first child (id 4097), puts it to sleep
again and wakes the second (id 6146), which takes the first one's place at the end of the queue. The
links of the first child still point there, so destroying it unlinks the second: runnable, and on
no queue. -/
theorem sched_list_broken : ¬∀ (b : Boot) (ops : List Op) (k₀ k : Kernel),
    boot b = .ret () k₀ → runOps ops k₀ = some k →
      ∃ xs, k.envSchedList.Represents xs ∧ ∀ e, e ∈ xs ↔ (k.envs e).envStatus = .runnable := by
  intro hall
  obtain ⟨k₀, k, hboot, hrun, htest⟩ := exists_run smallBoot
    [.envCreate (some emptyImage) 1, .timer, .exofork, .exofork, .setEnvStatus 4097 1,
      .setEnvStatus 4097 2, .setEnvStatus 6146 1, .envDestroy 4097]
    (fun k => k.envSchedList.first == some 0 && k.envSchedList.next 0 == none &&
      decide ((k.envs 2).envStatus = .runnable)) (by decide +kernel)
  simp only [Bool.and_eq_true, beq_iff_eq, decide_eq_true_eq] at htest
  obtain ⟨⟨hfirst, hnext⟩, hstatus⟩ := htest
  obtain ⟨xs, ⟨_, hchain⟩, hxs⟩ := hall smallBoot _ k₀ k hboot hrun
  have hmem := (hxs 2).mpr hstatus
  obtain ⟨ys, rfl, hrest⟩ := hchain.eq_cons hfirst
  rw [hrest.eq_nil hnext] at hmem
  simp at hmem

end Mos
