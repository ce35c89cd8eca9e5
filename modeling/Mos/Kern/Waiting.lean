import Mos.Lib.Waiting
import Mos.Kern.NoPanic
import Mos.Kern.RoundRobin

/-!
# How long a runnable env waits

`schedule` serves the head of `env_sched_list`, and whatever the running envs do in between (wake each
other, wait for messages, fork, destroy each other), nobody is put before an env that waits: envs join
the list at its end. So the time until an env runs is bounded by what stands before it. `Kernel.line` is
the scheduler as a `Lib.Line`; every operation is one of its events (`exec_event`), and a timer interrupt
or a yield is a call (`exec_call`).

`env_create` inserts at the head. It runs only at boot, before the first interrupt.
-/

namespace Mos

open Lib Prog Function

variable {k k' k₁ k₂ : Kernel} {e : EnvPtr} {xs ys : List EnvPtr} {α β : Type}

/-! ## The scheduler as a queue -/

/-- The calls that an env gets in a row: its priority, which `count` takes as a signed number, and one at
least. -/
def Kernel.slice (k : Kernel) (e : EnvPtr) : Nat := max 1 (k.envs e).envPri.toInt.toNat

/-- The calls until the present turn ends. -/
def Kernel.left (k : Kernel) : Nat := if k.curenv.isSome then max 1 k.schedCount.toNat else 1

/-- The scheduler, with the queue `xs`. -/
def Kernel.line (k : Kernel) (xs : List EnvPtr) : Line EnvPtr :=
  { queue := xs, cur := k.curenv, left := k.left, slice := k.slice }

theorem Kernel.left_pos (k : Kernel) : 1 ≤ k.left := by
  unfold Kernel.left
  split
  · exact Nat.le_max_left _ _
  · exact Nat.le_refl 1

theorem slice_congr (h : (k'.envs e).envPri = (k.envs e).envPri) : k'.slice e = k.slice e := by
  unfold Kernel.slice
  rw [h]

/-- `k'` comes from `k` by an event, and its queue is in order again. -/
def Kernel.Event (k : Kernel) (xs : List EnvPtr) (k' : Kernel) : Prop :=
  ∃ xs', k'.envSchedList.Represents xs' ∧ (k.line xs).Event (k'.line xs')

/-- `k'` comes from `k` by a call. -/
def Kernel.Call (k : Kernel) (xs : List EnvPtr) (k' : Kernel) : Prop :=
  ∃ xs', k'.envSchedList.Represents xs' ∧ (k.line xs).Call (k'.line xs')

/-- Between two calls the queue changes at its end or loses an env. -/
theorem shift_line
    (hqueue : ys = xs ∨ (∃ a, ys = xs.erase a) ∨ ∃ a, ys = xs ++ [a])
    (hcur : k'.curenv = k.curenv ∨ k'.curenv = none ∧ ∀ c, k.curenv = some c → c ∉ ys)
    (hcount : k'.schedCount = k.schedCount)
    (hpri : ∀ e ∈ xs, (k'.envs e).envPri = (k.envs e).envPri) :
    (k.line xs).Shift (k'.line ys) := by
  refine ⟨hqueue, hcur, ?_, fun a ha => slice_congr (hpri a ha)⟩
  show k'.left ≤ k.left
  rcases hcur with hcur | ⟨hcur, -⟩
  · unfold Kernel.left
    rw [hcur, hcount]
  · have hleft : k'.left = 1 := by
      unfold Kernel.left
      rw [hcur]
      rfl
    rw [hleft]
    exact k.left_pos

theorem Kernel.Event.of_shift (h : (k.line xs).Shift (k'.line ys))
    (hrep : k'.envSchedList.Represents ys) : k.Event xs k' :=
  ⟨ys, hrep, k'.line ys, h, k'.left_pos, hrep.1, .inl rfl⟩

theorem Kernel.Event.of_call (hcall : k₁.Call ys k') (hrep : k₁.envSchedList.Represents ys)
    (h : (k.line xs).Shift (k₁.line ys)) : k.Event xs k' := by
  obtain ⟨zs, hrep', hcall⟩ := hcall
  exact ⟨zs, hrep', k₁.line ys, h, k₁.left_pos, hrep.1, .inr hcall⟩

/-! ## Nothing happens -/

namespace Kernel.Idle

theorem trans (k₁ k₂ k₃ : Kernel) (h : k₁.Idle k₂) (h' : k₂.Idle k₃) : k₁.Idle k₃ :=
  ⟨h'.queue.trans h.queue, h'.curenv.trans h.curenv, h'.schedCount.trans h.schedCount,
    fun e => (h'.status e).trans (h.status e), fun e => (h'.pri e).trans (h.pri e)⟩

theorem of_frame (h : k.Frame k') : k.Idle k' := by
  refine ⟨h.envSchedList, h.curenv, ?_, fun e => by rw [h.envs], fun e => by rw [h.envs]⟩
  obtain ⟨_, _, _, _, _, rfl⟩ := h
  rfl

/-- Fields other than the status and the priority may change. -/
theorem setEnv (k : Kernel) (e : EnvPtr) {f : Env → Env}
    (hst : (f (k.envs e)).envStatus = (k.envs e).envStatus)
    (hpri : (f (k.envs e)).envPri = (k.envs e).envPri) : k.Idle (k.setEnv e f) := by
  refine ⟨rfl, rfl, rfl, fun e' => ?_, fun e' => ?_⟩
  all_goals
    rw [setEnv_envs]
    by_cases he : e' = e
    · rw [he, update_self]
      first | exact hst | exact hpri
    · rw [update_of_ne he]

theorem event (h : k.Idle k') (hrep : k.envSchedList.Represents xs) : k.Event xs k' :=
  .of_shift (shift_line (.inl rfl) (.inl h.curenv) h.schedCount fun e _ => h.pri e)
    (by rw [h.queue]; exact hrep)

end Kernel.Idle

/-- A function that the scheduler does not notice. -/
abbrev Idles (m : KernM α) : Prop := Keeps Kernel.Idle m

theorem idles_of_framed {m : KernM α} (h : Framed m) : Idles m := fun k =>
  (h k).mono (fun _ _ => Kernel.Idle.of_frame) (fun _ _ => Kernel.Idle.of_frame) (fun _ h => h)

theorem idles_bind {m : KernM α} {f : α → KernM β} (hm : Idles m) (hf : ∀ a, Idles (f a)) :
    Idles (m >>= f) := keeps_bind Kernel.Idle.trans hm hf

theorem idles_pure (a : α) : Idles (pure a : KernM α) := keeps_pure Kernel.Idle.refl a

/-- A change of one env that the scheduler does not notice. -/
theorem idles_setEnv (e : EnvPtr) {f : Env → Env} (hst : ∀ v, (f v).envStatus = v.envStatus)
    (hpri : ∀ v, (f v).envPri = v.envPri) : Idles (modify fun k => k.setEnv e f : KernM Unit) :=
  keeps_modify fun k => Kernel.Idle.setEnv k e (hst _) (hpri _)

theorem idles_envSetupVm (e : EnvPtr) : Idles (envSetupVm e) := by
  refine idles_bind (idles_of_framed framed_pageAlloc) fun p => ?_
  refine idles_bind (idles_of_framed (framed_incref p)) fun _ => keeps_modify fun k => ?_
  obtain ⟨h₁, h₂, h₃, h₄, h₅⟩ :=
    Kernel.Idle.setEnv k e (f := fun v => { v with envPgdir := p }) rfl rfl
  exact ⟨h₁, h₂, h₃, h₄, h₅⟩

theorem idles_asidAlloc : Idles asidAlloc := fun k =>
  (asidAlloc_spec k).mono
    (fun _ _ hk => by obtain ⟨w, rfl⟩ := hk; exact ⟨rfl, rfl, rfl, fun _ => rfl, fun _ => rfl⟩)
    (fun _ _ hk => hk ▸ Kernel.Idle.refl k) (fun _ _ => trivial)

theorem idles_mkenvid (e : EnvPtr) : Idles (mkenvid e) := fun _ =>
  ⟨rfl, rfl, rfl, fun _ => rfl, fun _ => rfl⟩

/-- `env_alloc` fills in an env that is on no queue. -/
theorem idles_envAlloc (parentId : Word) : Idles (envAlloc parentId) := by
  refine keeps_get fun k => ?_
  split
  · exact keeps_fail Kernel.Idle.refl _
  next e _ _ =>
    refine idles_bind (idles_envSetupVm e) fun _ => ?_
    refine idles_bind (idles_setEnv e (fun _ => rfl) fun _ => rfl) fun _ => ?_
    refine idles_bind (idles_mkenvid e) fun id => ?_
    refine idles_bind (idles_setEnv e (fun _ => rfl) fun _ => rfl) fun _ => ?_
    refine idles_bind idles_asidAlloc fun asid => ?_
    refine idles_bind (idles_setEnv e (fun _ => rfl) fun _ => rfl) fun _ => ?_
    exact idles_bind (keeps_modify fun _ => ⟨rfl, rfl, rfl, fun _ => rfl, fun _ => rfl⟩) fun _ =>
      idles_pure e

theorem idles_sysSetTrapframe (envid tf : Word) : Idles (sysSetTrapframe envid tf) := by
  unfold sysSetTrapframe
  split
  · exact idles_of_framed (framed_fail _)
  · refine idles_bind (idles_of_framed (framed_envid2env _ _)) fun e => ?_
    refine idles_bind (idles_of_framed framed_curenvPtr) fun c => keeps_get fun k => ?_
    refine idles_bind (idles_of_framed (framed_loadUserWords _ _ _)) fun ws => ?_
    split
    · exact idles_bind (keeps_modify fun _ => ⟨rfl, rfl, rfl, fun _ => rfl, fun _ => rfl⟩) fun _ =>
        idles_pure _
    · exact idles_bind (idles_setEnv e (fun _ => rfl) fun _ => rfl) fun _ => idles_pure _

/-! ## Scheduling -/

theorem envRun_line (e : EnvPtr) (k : Kernel) (xs : List EnvPtr) :
    (k.ran e).line xs = { k.line xs with cur := some e, left := max 1 k.schedCount.toNat } := by
  have hslice : (k.ran e).slice = k.slice := funext fun e' => slice_congr
    (ran_field (φ := Env.envPri) (fun _ _ => rfl) (fun _ _ => rfl) k e e')
  have hleft : (k.ran e).left = max 1 k.schedCount.toNat := by
    rw [← ran_schedCount k e]
    rfl
  show Line.mk xs (some e) (k.ran e).left (k.ran e).slice = _
  rw [hslice, hleft]
  rfl

theorem ran_envSchedList (k : Kernel) (e : EnvPtr) :
    (k.ran e).envSchedList = k.envSchedList := by
  show k.saved.envSchedList = _
  unfold Kernel.saved
  cases k.curenv <;> rfl

/-- The head of the queue `ys` gets the turn. -/
theorem schedulePick_turned {L : Line EnvPtr} (hslice : L.slice = k.slice)
    (hrep : k.envSchedList.Represents ys) :
    (schedulePick k).Sat (fun _ k' => k'.envSchedList.Represents ys ∧ L.Turned ys (k'.line ys))
      (fun _ _ => False) (fun _ => True) := by
  rw [schedulePick, get_bind, hrep.first_eq]
  cases ys with
  | nil => trivial
  | cons e zs =>
    simp only [List.head?_cons, put_bind]
    rw [envRun_eq]
    split
    · refine ⟨by rw [ran_envSchedList]; exact hrep, ?_⟩
      rw [envRun_line]
      refine ⟨rfl, rfl, ?_, hslice.symm⟩
      rintro a ⟨⟩
      rw [hslice]
      rfl
    · trivial

/-- **`schedule` is a call.** -/
theorem schedule_call (h : k.SchedInv) (hrep : k.envSchedList.Represents xs) (yield : Bool) :
    (schedule yield k).Sat (fun _ k' => k.Call xs k') (fun _ _ => False) (fun _ => True) := by
  obtain ⟨ys, hys, hmem⟩ := h.queue
  obtain rfl := hys.unique hrep
  have hslice : (k.line ys).slice = k.sliced.slice := rfl
  -- the current env is not in the queue, or there is none
  have hpick : (∀ c, k.curenv = some c → c ∉ ys) →
      (schedulePick k.sliced).Sat (fun _ k' => k.Call ys k') (fun _ _ => False) (fun _ => True) :=
    fun hidle => (schedulePick_turned hslice hrep).mono
      (fun _ _ hk => ⟨ys, hk.1, .pick hidle hk.2⟩) (fun _ _ h => h) (fun _ h => h)
  cases hc : k.curenv with
  | none =>
    rw [schedule_none hc]
    exact hpick fun c hcur => by rw [hc] at hcur; cases hcur
  | some c =>
    by_cases hrun : (k.envs c).envStatus = .runnable
    · have hcq : c ∈ ys := (hmem c).mpr hrun
      rw [schedule_some hc hrun]
      split
      · -- the turn is over
        obtain ⟨q₁, heq₁, hrep₁⟩ := schedRemove_queued (k := k.sliced) hrep hcq
        obtain ⟨q₂, heq₂, hrep₂⟩ := schedInsertTail_queued
          (k := { k.sliced with envSchedList := q₁ }) hrep₁ fun hm =>
            (hrep.1.mem_erase_iff.mp hm).1 rfl
        rw [bind_ret heq₁, bind_ret heq₂]
        exact (schedulePick_turned (L := k.line ys) (k := { k.sliced with envSchedList := q₂ })
          hslice hrep₂).mono (fun _ _ hk => ⟨_, hk.1, .switch c hc hcq hk.2⟩) (fun _ _ h => h) (fun _ h => h)
      next hgo =>
        -- the turn goes on
        simp only [not_or, not_le] at hgo
        rw [envRun_eq, if_pos (show (k.sliced.envs c).envStatus = .runnable from hrun)]
        refine ⟨ys, by rw [ran_envSchedList]; exact hrep, ?_⟩
        rw [envRun_line]
        refine .stay rfl hc.symm ?_ rfl
        show max 1 (k.schedCount - 1).toNat < k.left
        have hleft : k.left = max 1 k.schedCount.toNat := by
          unfold Kernel.left
          rw [hc]
          rfl
        omega
    · have hidle : ∀ c', k.curenv = some c' → c' ∉ ys := by
        intro c' hc' hm
        rw [hc] at hc'
        cases hc'
        exact hrun ((hmem c).mp hm)
      have heq : schedule yield k = schedulePick k.sliced := by
        cases k
        cases hc
        exact congrFun (if_pos hrun) _
      rw [heq]
      exact hpick hidle

/-! ## The other operations -/

/-- An operation is an event: what the proofs of the system calls establish. -/
abbrev Kernel.Evented (k : Kernel) (xs : List EnvPtr) (o : Outcome Kernel Err Panic α) : Prop :=
  o.Sat (fun _ k' => k.Event xs k') (fun _ k' => k.Event xs k') (fun _ => True)

theorem Kernel.Idle.evented {o : Outcome Kernel Err Panic α}
    (h : o.Sat (fun _ k' => k.Idle k') (fun _ k' => k.Idle k') (fun _ => True))
    (hrep : k.envSchedList.Represents xs) : k.Evented xs o :=
  h.mono (fun _ _ hi => hi.event hrep) (fun _ _ hi => hi.event hrep) (fun _ h => h)

theorem sysExofork_event (h : k.SchedInv) (hrep : k.envSchedList.Represents xs) :
    k.Evented xs (sysExofork k) := by
  obtain ⟨ys, hys, hmem⟩ := h.queue
  obtain rfl := hys.unique hrep
  refine sat_call (curenvPtr_spec k) ?_ (fun _ _ hq => hq.elim) (fun _ h => h)
  rintro c _ ⟨rfl, hc⟩
  rw [get_bind]
  refine sat_call ((envAlloc_sched k _).and (idles_envAlloc _ k)) ?_
    (fun _ _ hq => hq.2.event hrep) (fun _ h => h.1)
  rintro e k₁ ⟨⟨he, -⟩, hi⟩
  rw [modify_bind, get_bind]
  -- the child is on no queue, so its new priority is nobody's
  have hdead := status_of_dead (h.free_dead e he)
  have hrep' : Kernel.envSchedList (k₁.setEnv e fun v => { v with
      envTf := k₁.kstackTf.setReg 2 0, envStatus := .notRunnable, envPri := (k₁.envs c).envPri }) |>.Represents ys := by
    rw [← hi.queue] at hrep
    exact hrep
  refine .of_shift (shift_line (.inl rfl) (.inl hi.curenv) hi.schedCount ?_) hrep'
  intro e' he'
  have hne : e' ≠ e := by
    rintro rfl
    rw [hmem, hdead] at he'
    cases he'
  exact (congrArg Env.envPri (update_of_ne hne _ _)).trans (hi.pri e')

theorem pri_setEnv (k : Kernel) (e e' : EnvPtr) {f : Env → Env} (hf : ∀ v, (f v).envPri = v.envPri) :
    ((k.setEnv e f).envs e').envPri = (k.envs e').envPri := by
  rw [setEnv_envs]
  by_cases he : e' = e
  · rw [he, update_self, hf]
  · rw [update_of_ne he]

theorem sysSetEnvStatus_event (h : k.SchedInv) (hrep : k.envSchedList.Represents xs)
    (envid status : Word) : k.Evented xs (sysSetEnvStatus envid status k) := by
  obtain ⟨ys, hys, hmem⟩ := h.queue
  obtain rfl := hys.unique hrep
  unfold sysSetEnvStatus
  cases hst : statusArg status with
  | none => exact (Kernel.Idle.refl k).event hrep
  | some st =>
    refine sat_call (envid2env_spec h.cur envid true) ?_
      (fun _ _ he => he ▸ (Kernel.Idle.refl k).event hrep) (fun _ h => h)
    rintro e _ ⟨rfl, hl, _⟩
    rw [get_bind]
    have hpri := fun (k : Kernel) e' =>
      pri_setEnv k e e' (f := fun v => { v with envStatus := st }) fun _ => rfl
    split
    next hcase =>
      obtain ⟨q, heq, hrep'⟩ := schedRemove_queued hrep ((hmem e).mpr hcase.1)
      rw [bind_ret heq]
      exact .of_shift (shift_line (.inr (.inl ⟨e, rfl⟩)) (.inl rfl) rfl fun e' _ => hpri k e') hrep'
    next =>
      split
      next hcase =>
        have he : e ∉ ys := by
          rw [hmem, hcase.1]
          simp
        obtain ⟨q, heq, hrep'⟩ := schedInsertTail_queued hrep he
        rw [bind_ret heq]
        exact .of_shift (shift_line (.inr (.inr ⟨e, rfl⟩)) (.inl rfl) rfl fun e' _ => hpri k e')
          hrep'
      next =>
        exact .of_shift (shift_line (.inl rfl) (.inl rfl) rfl fun e' _ => hpri k e') hrep

/-- The env that waits for a message leaves the queue, and the next one is called. -/
theorem sysIpcRecv_event (h : k.SchedInv) (hrep : k.envSchedList.Represents xs) {dstva : Word}
    (hok : (Op.ipcRecv dstva).QueueOk k) : k.Evented xs (sysIpcRecv dstva k) := by
  obtain ⟨ys, hys, hmem⟩ := h.queue
  obtain rfl := hys.unique hrep
  unfold sysIpcRecv
  split
  · exact (Kernel.Idle.refl k).event hrep
  next hva =>
    refine sat_call (curenvPtr_spec k) ?_ (fun _ _ hq => hq.elim) (fun _ h => h)
    rintro c _ ⟨rfl, hc⟩
    have hrun := hok (legal_of_null hva) c hc
    rw [modify_bind]
    obtain ⟨q, heq, h₂⟩ := leave_sched h hc hrun dstva
    obtain ⟨q', heq', hrep'⟩ := schedRemove_queued (k := k.setEnv c fun v => { v with
      envIpcRecving := 1, envIpcDstva := dstva, envStatus := .notRunnable }) hrep ((hmem c).mpr hrun)
    obtain rfl : q = q' := by
      rw [heq] at heq'
      cases heq'
      rfl
    rw [bind_ret heq, modify_bind]
    refine sat_call (schedule_call h₂ hrep' true) ?_ (fun _ _ hq => hq.elim) (fun _ h => h)
    intro _ k' hcall
    refine .of_call hcall hrep' (shift_line (.inr (.inl ⟨c, rfl⟩)) (.inl rfl) rfl fun e' _ => ?_)
    exact pri_setEnv k c e' (f := fun v => { v with
      envIpcRecving := 1, envIpcDstva := dstva, envStatus := .notRunnable }) fun _ => rfl

/-- The receiver of a message joins the queue at its end. -/
theorem sysIpcTrySend_event (h : k.SchedInv) (hrep : k.envSchedList.Represents xs)
    {envid value srcva perm : Word} (hok : (Op.ipcTrySend envid value srcva perm).QueueOk k) :
    k.Evented xs (sysIpcTrySend envid value srcva perm k) := by
  obtain ⟨ys, hys, hmem⟩ := h.queue
  obtain rfl := hys.unique hrep
  unfold sysIpcTrySend
  split
  · exact (Kernel.Idle.refl k).event hrep
  next hva =>
    refine sat_call ((envid2env_spec h.cur envid false).and (Outcome.sat_self _)) ?_
      (fun _ _ he => he.1 ▸ (Kernel.Idle.refl k).event hrep) (fun _ h => h.1)
    rintro e _ ⟨⟨rfl, hl, _⟩, henv⟩
    rw [get_bind]
    split
    · exact (Kernel.Idle.refl k).event hrep
    next hrecv =>
      have hnot := hok (legal_of_null hva) e henv hrecv
      refine sat_call (curenvPtr_spec k) ?_ (fun _ _ hq => hq.elim) (fun _ h => h)
      rintro c _ ⟨rfl, hc⟩
      rw [modify_bind]
      generalize hf : (fun v : Env => { v with
        envIpcValue := value
        envIpcFrom := (k.envs c).envId
        envIpcPerm := pteV ||| perm
        envIpcRecving := 0
        envStatus := .runnable }) = f
      have he : e ∉ ys := by
        rw [hmem, hnot]
        simp
      obtain ⟨q, heq, hrep'⟩ := schedInsertTail_queued (k := k.setEnv e f) hrep he
      have hpri : ∀ e', ((k.setEnv e f).envs e').envPri = (k.envs e').envPri := fun e' =>
        pri_setEnv k e e' fun v => by rw [← hf]
      have hshift : (k.line ys).Shift
          (Kernel.line { k.setEnv e f with envSchedList := q } (ys ++ [e])) :=
        shift_line (.inr (.inr ⟨e, rfl⟩)) (.inl rfl) rfl fun e' _ => hpri e'
      rw [bind_ret heq]
      split
      · -- the page transfer does not concern the scheduler
        have hidle := (idles_of_framed (framed_ipcMapPage c e srcva perm))
          { k.setEnv e f with envSchedList := q }
        have hevent : ∀ k', Kernel.Idle { k.setEnv e f with envSchedList := q } k' →
            k.Event ys k' := fun k' hi =>
          .of_shift (shift_line (.inr (.inr ⟨e, rfl⟩)) (.inl hi.curenv) hi.schedCount
            fun e' _ => (hi.pri e').trans (hpri e')) (by rw [hi.queue]; exact hrep')
        exact hidle.mono (fun _ _ => hevent _) (fun _ _ => hevent _) (fun _ h => h)
      · exact .of_shift hshift hrep'

/-- `env_free` takes its env off the queue. -/
theorem envFree_line (hrep : k.envSchedList.Represents xs) (he : e ∈ xs) :
    (envFree e k).Sat
      (fun _ k' => k'.envSchedList.Represents (xs.erase e) ∧ k'.schedCount = k.schedCount ∧
        ∀ e', (k'.envs e').envPri = (k.envs e').envPri)
      (fun _ k' => k.Idle k') (fun _ => True) := by
  rw [envFree, get_bind]
  have hloop : Framed (loop (envFreePde (k.envs e).envPgdir (k.envs e).envAsid) 0 (pdx utop)) :=
    keeps_loop Kernel.Frame.refl Kernel.Frame.trans (framed_envFreePde _ _) _ _
  refine sat_call (idles_of_framed hloop k) ?_ (fun _ _ h => h) (fun _ h => h)
  intro _ k₁ h₁
  refine sat_call (idles_of_framed (framed_pa2page _) k₁) ?_ (fun _ _ => h₁.trans _ _ _)
    (fun _ h => h)
  intro pp k₂ h₂
  have h₁₂ := h₁.trans _ _ _ h₂
  refine sat_call (idles_of_framed (framed_pageDecref pp) k₂) ?_ (fun _ _ => h₁₂.trans _ _ _)
    (fun _ h => h)
  intro _ k₃ h₃
  have h := h₁₂.trans _ _ _ h₃
  simp only [asidFree, tlbInvalidate, tlbOut, modify_bind]
  generalize hk₄ : ({ Kernel.setEnv _ e fun v => { v with envStatus := .free } with
    envFreeList := e :: _ } : Kernel) = k₄
  have hqueue : k₄.envSchedList = k.envSchedList ∧ k₄.schedCount = k.schedCount := by
    rw [← hk₄]
    exact ⟨h.queue, h.schedCount⟩
  have hpri : ∀ e', (k₄.envs e').envPri = (k.envs e').envPri := by
    intro e'
    rw [← hk₄]
    exact (pri_setEnv k₃ e e' (f := fun v => { v with envStatus := .free }) fun _ => rfl).trans
      (h.pri e')
  obtain ⟨q, heq, hrep'⟩ := schedRemove_queued (k := k₄) (by rw [hqueue.1]; exact hrep) he
  rw [heq]
  exact ⟨hrep', hqueue.2, hpri⟩

/-- `env_destroy` of a queued env; if it is the current one, the next one is called. -/
theorem envDestroy_event (h : k.SchedInv) (hrep : k.envSchedList.Represents xs)
    (hrun : (k.envs e).envStatus = .runnable) {c : EnvPtr} (hc : k.curenv = some c) :
    k.Evented xs (envDestroy e k) := by
  obtain ⟨ys, hys, hmem⟩ := h.queue
  obtain rfl := hys.unique hrep
  refine sat_call ((envFree_sched h hrun hc).and (envFree_line hrep ((hmem e).mpr hrun))) ?_
    (fun _ _ hq => hq.2.event hrep) (fun _ h => h.1)
  rintro _ k₁ ⟨⟨hc₁, hinv₁⟩, hrep₁, hcount₁, hpri₁⟩
  simp only [get_bind]
  by_cases hce : c = e
  · rw [if_pos hce] at hinv₁
    rw [if_pos (by rw [hc₁, hce]), put_bind]
    have hgone : ∀ c', k.curenv = some c' → c' ∉ ys.erase e := by
      intro c' hc' hm
      rw [hc, hce] at hc'
      cases hc'
      exact (hys.1.mem_erase_iff.mp hm).1 rfl
    refine sat_call (schedule_call hinv₁ hrep₁ true) ?_ (fun _ _ h => h.elim) (fun _ h => h)
    exact fun _ k' hcall => .of_call hcall hrep₁
      (shift_line (.inr (.inl ⟨e, rfl⟩)) (.inr ⟨rfl, hgone⟩) hcount₁ fun e' _ => hpri₁ e')
  · rw [if_neg (by rw [hc₁]; simpa using hce)]
    exact .of_shift (shift_line (.inr (.inl ⟨e, rfl⟩)) (.inl (hc₁.trans hc.symm)) hcount₁
      fun e' _ => hpri₁ e') hrep₁

/-! ## Runs -/

/-- The operations of a running kernel. -/
def Op.Later : Op → Prop
  | .envCreate _ _ => False
  | _ => True

/-- The calls of the scheduler that a process or the timer asks for. -/
def Op.calls : Op → Nat
  | .timer => 1
  | .yield => 1
  | _ => 0

/-- **Every operation is an event of the queue.** -/
theorem exec_event (h : k.SchedInv) (hrep : k.envSchedList.Represents xs) (op : Op)
    (hok : op.QueueOk k) (hlater : op.Later) : k.Evented xs (exec op k) := by
  have hdrop : ∀ {α : Type} {m : KernM α}, k.Evented xs (m k) →
      k.Evented xs ((m >>= fun _ => pure ()) k) := fun hm =>
    sat_call hm (fun _ _ hq => hq) (fun _ _ hq => hq) (fun _ h => h)
  have hidle : ∀ {α : Type} {m : KernM α}, Idles m → k.Evented xs (m k) := fun hm =>
    Kernel.Idle.evented (hm k) hrep
  have hsched : ∀ yield, k.Evented xs (schedule yield k) := fun yield =>
    (schedule_call h hrep yield).mono
      (fun _ _ hq => .of_call hq hrep (Line.Shift.refl _)) (fun _ _ hq => hq.elim) (fun _ h => h)
  cases op with
  | envCreate b p => exact hlater.elim
  | timer => exact hsched false
  | yield => exact hdrop (sat_call (hsched true) (fun _ _ hq => hq) (fun _ _ hq => hq) (fun _ h => h))
  | tlbRefill va asid => exact hidle (idles_of_framed (framed_tlbRefill va asid))
  | memAlloc e va p => exact hdrop (hidle (idles_of_framed (framed_sysMemAlloc e va p)))
  | memMap s sv d dv p => exact hdrop (hidle (idles_of_framed (framed_sysMemMap s sv d dv p)))
  | memUnmap e va => exact hdrop (hidle (idles_of_framed (framed_sysMemUnmap e va)))
  | exofork => exact hdrop (sysExofork_event h hrep)
  | setEnvStatus e st => exact hdrop (sysSetEnvStatus_event h hrep e st)
  | setTlbModEntry e f =>
    refine hdrop (hidle (idles_bind (idles_of_framed (framed_envid2env e true)) fun e => ?_))
    exact idles_bind (idles_setEnv e (fun _ => rfl) fun _ => rfl) fun _ => idles_pure _
  | envDestroy envid =>
    refine hdrop (sat_call ((envid2env_spec h.cur envid true).and (Outcome.sat_self _)) ?_
      (fun _ _ he => he.1 ▸ (Kernel.Idle.refl k).event hrep) (fun _ h => h.1))
    rintro e _ ⟨⟨rfl, _, hcur⟩, henv⟩
    obtain ⟨c, hc⟩ := Option.ne_none_iff_exists'.mp (hcur rfl)
    refine sat_call (envDestroy_event h hrep (hok e henv) hc) ?_ (fun _ _ hq => hq) (fun _ h => h)
    intro r k₁ h₁
    cases r <;> exact h₁
  | ipcRecv va => exact hdrop (sysIpcRecv_event h hrep hok)
  | ipcTrySend e v s p => exact hdrop (sysIpcTrySend_event h hrep hok)
  | setTrapframe e tf => exact hdrop (hidle (idles_sysSetTrapframe e tf))
  | trap tf =>
    exact Kernel.Idle.event ⟨rfl, rfl, rfl, fun _ => rfl, fun _ => rfl⟩ hrep
  | store va w => exact hidle (idles_of_framed (framed_storeUser va w))

/-- A timer interrupt or a yield is a call. -/
theorem exec_call (h : k.SchedInv) (hrep : k.envSchedList.Represents xs) {op : Op}
    (hop : 0 < op.calls) (hstep : Step op k k') : k.Call xs k' := by
  have hsched : ∀ yield, (schedule yield k).Sat (fun _ k' => k.Call xs k') (fun _ k' => k.Call xs k')
      (fun _ => True) := fun yield =>
    (schedule_call h hrep yield).mono (fun _ _ h => h) (fun _ _ h => h.elim) (fun _ h => h)
  cases op with
  | timer => exact (hsched false).of_state? hstep
  | yield =>
    have hyield : (sysYield k).Sat (fun _ k' => k.Call xs k') (fun _ k' => k.Call xs k')
        (fun _ => True) := sat_call (hsched true) (fun _ _ h => h) (fun _ _ h => h) (fun _ h => h)
    have hexec : (exec .yield k).Sat (fun _ k' => k.Call xs k') (fun _ k' => k.Call xs k')
        (fun _ => True) := sat_call hyield (fun _ _ h => h) (fun _ _ h => h) (fun _ h => h)
    exact hexec.of_state? hstep
  | _ => exact absurd hop (Nat.lt_irrefl 0)

/-- `e` is ready to run, and another env runs. -/
def Kernel.Awaits (k : Kernel) (e : EnvPtr) : Prop :=
  (k.envs e).envStatus = .runnable ∧ k.curenv ≠ some e

/-- A run in which `e` waits all the time, with the number of timer interrupts and yields. -/
inductive Awaiting (e : EnvPtr) (k : Kernel) : Nat → Kernel → Prop
  | start (h : k.Awaits e) : Awaiting e k 0 k
  | step {n : Nat} {k₁ k₂ : Kernel} (h : Awaiting e k n k₁) (op : Op) (hok : op.QueueOk k₁)
      (hlater : op.Later) (hstep : Step op k₁ k₂) (hwait : k₂.Awaits e) :
      Awaiting e k (n + op.calls) k₂

theorem Kernel.SchedInv.waits (h : k.SchedInv) (hrep : k.envSchedList.Represents xs)
    (hw : k.Awaits e) : (k.line xs).Waits e := by
  obtain ⟨ys, hys, hmem⟩ := h.queue
  obtain rfl := hys.unique hrep
  exact ⟨hrep.1, (hmem e).mpr hw.1, hw.2, k.left_pos⟩

/-- One step takes as many calls as it makes off the time that `e` still has to wait. -/
theorem delay_step (h : k.SchedInv) (hrep : k.envSchedList.Represents xs) (hw : k.Awaits e)
    {op : Op} (hok : op.QueueOk k) (hlater : op.Later) (hstep : Step op k k') (hw' : k'.Awaits e) :
    ∃ ys, k'.envSchedList.Represents ys ∧
      (k'.line ys).delay e + op.calls ≤ (k.line xs).delay e := by
  have hinv' : k'.SchedInv := (exec_sched h op hok).of_state? hstep
  have hwaits := h.waits hrep hw
  rcases Nat.eq_zero_or_pos op.calls with hzero | hpos
  · obtain ⟨ys, hrep', hevent⟩ := (exec_event h hrep op hok hlater).of_state? hstep
    have hle := hevent.delay_le hwaits (hinv'.waits hrep' hw')
    exact ⟨ys, hrep', by rw [hzero]; exact hle⟩
  · obtain ⟨ys, hrep', hcall⟩ := exec_call h hrep hpos hstep
    have hlt := hcall.delay_lt hwaits hw'.2
    have hone : op.calls ≤ 1 := by cases op <;> simp [Op.calls]
    exact ⟨ys, hrep', by omega⟩

theorem Awaiting.delay (h : k.SchedInv) (hrep : k.envSchedList.Represents xs) {n : Nat}
    (hrun : Awaiting e k n k') :
    k'.SchedInv ∧ k'.Awaits e ∧
      ∃ ys, k'.envSchedList.Represents ys ∧ (k'.line ys).delay e + n ≤ (k.line xs).delay e := by
  induction hrun with
  | start hw => exact ⟨h, hw, xs, hrep, Nat.le_refl _⟩
  | @step n k₁ k₂ _ op hok hlater hstep hwait ih =>
    obtain ⟨hinv, hw, ys, hrep₁, hle⟩ := ih
    obtain ⟨zs, hrep₂, hstep'⟩ := delay_step hinv hrep₁ hw hok hlater hstep hwait
    exact ⟨(exec_sched hinv op hok).of_state? hstep, hwait, zs, hrep₂, by omega⟩

/-- **Nobody starves.** An env that is ready to run gets its turn after `Line.delay` many timer interrupts
and yields at the latest, whatever system calls the others make in between; and the next timer interrupt
always finds an env to run. -/
theorem awaiting_lt_delay (b : Boot) {k₀ : Kernel} (hboot : boot b = .ret () k₀)
    (hrun : Relation.ReflTransGen QueuedStep k₀ k) (hrep : k.envSchedList.Represents xs) {n : Nat}
    (hwait : Awaiting e k n k') :
    n < (k.line xs).delay e ∧ ∃ k'', schedule false k' = .ret () k'' := by
  have hinv := schedInv_of_run (booted_of_boot hboot).schedInv hrun
  obtain ⟨hinv', hw', ys, -, hle⟩ := hwait.delay hinv hrep
  have hpos : 1 ≤ (k'.line ys).delay e := k'.left_pos.trans (Nat.le_add_right _ _)
  refine ⟨by omega, ?_⟩
  have hcomplete := (schedule_completes hinv' hw'.1 false).and (schedule_sched hinv' false)
  cases hs : schedule false k' with
  | ret a k'' => exact ⟨k'', rfl⟩
  | err er k'' =>
    rw [hs] at hcomplete
    exact hcomplete.elim
  | halt p =>
    rw [hs] at hcomplete
    exact hcomplete.elim

/-- A child that waits while its parent, with priority 3, is interrupted once. -/
theorem awaiting_lt_delay_small : ∃ k₀ k k' xs, boot smallBoot = .ret () k₀ ∧
    Relation.ReflTransGen QueuedStep k₀ k ∧ k.envSchedList.Represents xs ∧ Awaiting 1 k 1 k' ∧
    1 < (k.line xs).delay 1 ∧ ∃ k'', schedule false k' = .ret () k'' := by
  obtain ⟨k₀, k, hboot, hrun, htest⟩ := exists_run smallBoot
    [.envCreate (some emptyImage) 3, .timer, .exofork, .setEnvStatus 4097 1]
    (fun k => decide ((k.envs 1).envStatus = .runnable) && k.curenv == some 0 &&
      (exec .timer k).retAnd fun _ k' =>
        decide ((k'.envs 1).envStatus = .runnable) && k'.curenv == some 0) (by decide +kernel)
  simp only [Bool.and_eq_true, beq_iff_eq, decide_eq_true_eq] at htest
  obtain ⟨⟨hst, hcur⟩, htest⟩ := htest
  obtain ⟨⟨⟩, k', hstep, htest⟩ := Outcome.retAnd_eq_true.mp htest
  simp only [Bool.and_eq_true, beq_iff_eq, decide_eq_true_eq] at htest
  have hsteps := queuedRun_of_runOps (by simp [Op.QueueOk]) hrun
  obtain ⟨xs, hrep, -⟩ := (schedInv_of_run (booted_of_boot hboot).schedInv hsteps).queue
  have hwait : Awaiting 1 k 1 k' := .step (.start ⟨hst, by simp [hcur]⟩) .timer trivial trivial
    (by rw [Step, hstep]; rfl) ⟨htest.1, by simp [htest.2]⟩
  exact ⟨k₀, k, k', xs, hboot, hsteps, hrep, hwait, awaiting_lt_delay smallBoot hboot hsteps hrep hwait⟩

end Mos
