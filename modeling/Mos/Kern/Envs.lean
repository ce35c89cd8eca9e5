import Mos.Kern.EffectRun
import Mos.Kern.SchedList

/-!
# What an operation does to the envs

The counterpart of `Micro` for `struct Env`: which envs an operation changes, and how. Whatever the
memory looks like, an operation leaves the envs alone, or it does one of a few things to them that
`Op.Post` lists: an env is taken from the free list, runs, waits, gets a message, is given a status
or a context, or is released. `exec_post` says so of every operation, once; what holds of the envs in
all runs is derived from it.
-/

namespace Mos

open Lib Prog Function

variable {k k' k₁ k₂ : Kernel} {e : EnvPtr} {α β : Type}

/-! ## Functions that leave the envs alone -/

/-- The envs, the current env, its saved context and the free list are the same. -/
structure Kernel.SameEnvs (k k' : Kernel) : Prop where
  envs : k'.envs = k.envs
  curenv : k'.curenv = k.curenv
  kstackTf : k'.kstackTf = k.kstackTf
  envFreeList : k'.envFreeList = k.envFreeList

namespace Kernel.SameEnvs

theorem refl (k : Kernel) : k.SameEnvs k := ⟨rfl, rfl, rfl, rfl⟩

theorem trans (k₁ k₂ k₃ : Kernel) (h : k₁.SameEnvs k₂) (h' : k₂.SameEnvs k₃) : k₁.SameEnvs k₃ :=
  ⟨h'.envs.trans h.envs, h'.curenv.trans h.curenv, h'.kstackTf.trans h.kstackTf,
    h'.envFreeList.trans h.envFreeList⟩

theorem of_frame (h : k.Frame k') : k.SameEnvs k' := by
  obtain ⟨_, _, _, _, _, rfl⟩ := h
  exact ⟨rfl, rfl, rfl, rfl⟩

/-- The same change of one env. -/
theorem setEnv (h : k.SameEnvs k') (e : EnvPtr) (f : Env → Env) :
    (k.setEnv e f).SameEnvs (k'.setEnv e f) := by
  refine ⟨?_, h.curenv, h.kstackTf, h.envFreeList⟩
  rw [setEnv_envs, setEnv_envs, h.envs]

end Kernel.SameEnvs

/-- A function that leaves the envs alone. -/
abbrev Bystander (m : KernM α) : Prop := Keeps Kernel.SameEnvs m

theorem bystander_of_framed {m : KernM α} (h : Framed m) : Bystander m := fun k =>
  (h k).mono (fun _ _ => .of_frame) (fun _ _ => .of_frame) (fun _ h => h)

theorem storeNull_same (w : Word) (k : Kernel) :
    (storeNull w k).Sat (fun _ k' => k.SameEnvs k') (fun _ _ => False) (fun _ => True) := by
  have hfail : (storeNull w k).Sat (fun _ _ => True) (fun _ _ => False) (fun _ => True) := by
    rw [storeNull, get_bind]
    refine sat_call (pageLookup_state _ _ k) ?_ (fun _ _ h => h) (fun _ h => h)
    intro r k₁ _
    cases r with
    | none => trivial
    | some r =>
      simp only [readWord_bind]
      split <;> trivial
  exact ((bystander_of_framed (framed_storeNull w) k).and hfail).mono (fun _ _ h => h.1)
    (fun _ _ h => h.2) (fun _ h => h.1)

theorem schedRemove_same (e : EnvPtr) (k : Kernel) :
    (schedRemove e k).Sat (fun _ k' => k.SameEnvs k') (fun _ _ => False) (fun _ => True) := by
  simp only [schedRemove, get_bind]
  cases k.envSchedList.remove e with
  | some q => exact ⟨rfl, rfl, rfl, rfl⟩
  | none =>
    have h₁ : k.SameEnvs { k with envSchedList := k.envSchedList.unlink e } := ⟨rfl, rfl, rfl, rfl⟩
    simp only [put_bind]
    exact (storeNull_same _ _).mono (fun _ _ => h₁.trans _ _ _) (fun _ _ h => h) (fun _ h => h)

theorem schedInsertTail_same (e : EnvPtr) (k : Kernel) :
    (schedInsertTail e k).Sat (fun _ k' => k.SameEnvs k') (fun _ _ => False) (fun _ => True) := by
  simp only [schedInsertTail, get_bind]
  cases k.envSchedList.insertTail e with
  | some q => exact ⟨rfl, rfl, rfl, rfl⟩
  | none =>
    have h₁ : k.SameEnvs { k with envSchedList := k.envSchedList.linkTail e } :=
      ⟨rfl, rfl, rfl, rfl⟩
    simp only [put_bind]
    refine sat_call (storeNull_same _ _) ?_ (fun _ _ h => h) (fun _ h => h)
    intro _ k₂ h₂
    exact (h₁.trans _ _ _ h₂).trans _ _ _ ⟨rfl, rfl, rfl, rfl⟩

theorem envid2env_eq (envid : Word) (checkperm : Bool) (k : Kernel) :
    (envid2env envid checkperm k).Sat
      (fun e k' => k = k' ∧ envid2env envid checkperm k = .ret e k) (fun _ k' => k = k')
      (fun _ => True) := by
  have hsame : (envid2env envid checkperm k).Sat (fun _ k' => k = k') (fun _ k' => k = k')
      (fun _ => True) := by
    simp only [envid2env, get_bind]
    split
    · cases k.curenv <;> trivial
    · split
      · rfl
      · cases checkperm with
        | false => rfl
        | true =>
          cases k.curenv with
          | none => trivial
          | some c =>
            simp only [if_true]
            split <;> rfl
  refine (hsame.and (Outcome.sat_self _)).mono ?_ (fun _ _ h => h.1) (fun _ _ => trivial)
  rintro e _ ⟨rfl, heq⟩
  exact ⟨rfl, heq⟩

/-- With `checkperm`, `envid2env` returns the caller or one of its children. -/
theorem related_of_envid2env {envid : Word} {c : EnvPtr} (hc : k.curenv = some c)
    (h : envid2env envid true k = .ret e k) :
    e = c ∨ (k.envs e).envParentId = (k.envs c).envId := by
  simp only [envid2env, get_bind, hc] at h
  split at h
  · injection h with h _
    exact .inl h.symm
  · split at h
    · cases h
    · simp only [if_true] at h
      split at h
      next hrel =>
        injection h with h _
        exact h ▸ hrel
      next => cases h

/-! ## Scheduling -/

/-- `k` after the context of the current env is saved. -/
def Kernel.saved (k : Kernel) : Kernel :=
  match k.curenv with
  | none => k
  | some c => k.setEnv c fun v => { v with envTf := k.kstackTf }

/-- `k` after `env_run(e)`. -/
def Kernel.ran (k : Kernel) (e : EnvPtr) : Kernel :=
  { k.saved.setEnv e fun v => { v with envRuns := v.envRuns + 1 } with
    curenv := some e, curPgdir := (k.saved.envs e).envPgdir }

theorem envRun_eq (e : EnvPtr) (k : Kernel) :
    envRun e k = if (k.envs e).envStatus = .runnable then .ret () (k.ran e)
      else .halt .envRunAssert := by
  rw [envRun, get_bind]
  by_cases h : (k.envs e).envStatus = .runnable
  · rw [bind_ret (assert_pos h), if_pos h]
    unfold Kernel.ran Kernel.saved
    cases k.curenv <;> rfl
  · rw [bind_halt (assert_neg h), if_neg h]

/-- A switch changes no field but the saved context and the number of runs. -/
theorem ran_field {γ : Type} {φ : Env → γ} (htf : ∀ v tf, φ { v with envTf := tf } = φ v)
    (hruns : ∀ v n, φ { v with envRuns := n } = φ v) (k : Kernel) (e e' : EnvPtr) :
    φ ((k.ran e).envs e') = φ (k.envs e') := by
  have hset : ∀ (k : Kernel) (e : EnvPtr) {f : Env → Env}, (∀ v, φ (f v) = φ v) →
      φ ((k.setEnv e f).envs e') = φ (k.envs e') := by
    intro k e f hf
    rw [setEnv_envs]
    by_cases he : e' = e
    · rw [he, update_self, hf]
    · rw [update_of_ne he]
  have hsaved : φ (k.saved.envs e') = φ (k.envs e') := by
    unfold Kernel.saved
    cases k.curenv with
    | none => rfl
    | some c => exact hset k c fun v => htf v _
  exact (hset k.saved e fun v => hruns v _).trans hsaved

/-- Some env that was runnable runs. -/
def Kernel.Switched (k k' : Kernel) : Prop :=
  ∃ e, (k.envs e).envStatus = .runnable ∧ (k.ran e).SameEnvs k'

theorem Kernel.SameEnvs.ran (h : k.SameEnvs k') (e : EnvPtr) : (k.ran e).SameEnvs (k'.ran e) := by
  have hs : k.saved.SameEnvs k'.saved := by
    unfold Kernel.saved
    rw [h.curenv]
    cases k.curenv with
    | none => exact h
    | some c =>
      simp only [h.kstackTf]
      exact h.setEnv c _
  have hs' := hs.setEnv e fun v => { v with envRuns := v.envRuns + 1 }
  exact ⟨hs'.envs, rfl, hs'.kstackTf, hs'.envFreeList⟩

theorem Kernel.Switched.of_same (h : k.SameEnvs k₁) (hs : k₁.Switched k') : k.Switched k' := by
  obtain ⟨e, hrun, hsame⟩ := hs
  exact ⟨e, by rw [← h.envs]; exact hrun, (h.ran e).trans _ _ _ hsame⟩

theorem Kernel.Switched.field {γ : Type} {φ : Env → γ} (h : k.Switched k')
    (htf : ∀ v tf, φ { v with envTf := tf } = φ v)
    (hruns : ∀ v n, φ { v with envRuns := n } = φ v) (e : EnvPtr) :
    φ (k'.envs e) = φ (k.envs e) := by
  obtain ⟨e', _, hsame⟩ := h
  rw [hsame.envs]
  exact ran_field htf hruns k e' e

theorem envRun_switched (e : EnvPtr) (k : Kernel) :
    (envRun e k).Sat (fun _ k' => k.Switched k') (fun _ _ => False) (fun _ => True) := by
  rw [envRun_eq]
  split
  next hrun => exact ⟨e, hrun, .refl _⟩
  next => trivial

theorem schedulePick_switched (k : Kernel) :
    (schedulePick k).Sat (fun _ k' => k.Switched k') (fun _ _ => False) (fun _ => True) := by
  rw [schedulePick, get_bind]
  cases k.envSchedList.first with
  | none => trivial
  | some e =>
    exact (envRun_switched e _).mono (fun _ _ => .of_same ⟨rfl, rfl, rfl, rfl⟩) (fun _ _ h => h)
      (fun _ h => h)

/-- **`schedule`** runs an env that is runnable. -/
theorem schedule_switched (yield : Bool) (k : Kernel) :
    (schedule yield k).Sat (fun _ k' => k.Switched k') (fun _ _ => False) (fun _ => True) := by
  rw [schedule, modify_bind, get_bind]
  have h₀ : k.SameEnvs { k with schedCount := k.schedCount - 1 } := ⟨rfl, rfl, rfl, rfl⟩
  generalize { k with schedCount := k.schedCount - 1 } = k₁ at h₀
  have hpick : ∀ k₂, k.SameEnvs k₂ → (schedulePick k₂).Sat (fun _ k' => k.Switched k')
      (fun _ _ => False) (fun _ => True) := fun k₂ h₂ =>
    (schedulePick_switched k₂).mono (fun _ _ => .of_same h₂) (fun _ _ h => h) (fun _ h => h)
  cases k₁.curenv with
  | none => exact hpick k₁ h₀
  | some e =>
    simp only
    split
    · exact hpick k₁ h₀
    · split
      · refine sat_call (schedRemove_same e k₁) ?_ (fun _ _ h => h) (fun _ h => h)
        intro _ k₂ h₂
        refine sat_call (schedInsertTail_same e k₂) ?_ (fun _ _ h => h) (fun _ h => h)
        intro _ k₃ h₃
        exact hpick k₃ ((h₀.trans _ _ _ h₂).trans _ _ _ h₃)
      · exact (envRun_switched e k₁).mono (fun _ _ => .of_same h₀) (fun _ _ h => h)
          (fun _ h => h)

/-! ## Release -/

/-- `k` after `env_free(e)`. -/
def Kernel.released (k : Kernel) (e : EnvPtr) : Kernel :=
  { k.setEnv e fun v => { v with envStatus := .free } with envFreeList := e :: k.envFreeList }

theorem Kernel.SameEnvs.released (h : k.SameEnvs k') (e : EnvPtr) :
    (k.released e).SameEnvs (k'.released e) := by
  have hs := h.setEnv e fun v => { v with envStatus := .free }
  exact ⟨hs.envs, hs.curenv, hs.kstackTf, congrArg (List.cons e) h.envFreeList⟩

theorem envFree_released (e : EnvPtr) (k : Kernel) :
    (envFree e k).Sat (fun _ k' => (k.released e).SameEnvs k') (fun _ k' => k.SameEnvs k')
      (fun _ => True) := by
  rw [envFree, get_bind]
  have hloop : Framed (loop (envFreePde (k.envs e).envPgdir (k.envs e).envAsid) 0 (pdx utop)) :=
    keeps_loop Kernel.Frame.refl Kernel.Frame.trans (framed_envFreePde _ _) _ _
  refine sat_call (bystander_of_framed hloop k) ?_ (fun _ _ h => h) (fun _ h => h)
  intro _ k₁ h₁
  refine sat_call (bystander_of_framed (framed_pa2page _) k₁) ?_ (fun _ _ => h₁.trans _ _ _)
    (fun _ h => h)
  intro pp k₂ h₂
  refine sat_call (bystander_of_framed (framed_pageDecref pp) k₂) ?_
    (fun _ _ => (h₁.trans _ _ _ h₂).trans _ _ _) (fun _ h => h)
  intro _ k₃ h₃
  simp only [asidFree, tlbInvalidate, tlbOut, modify_bind]
  have h₄ := ((h₁.trans _ _ _ h₂).trans _ _ _ h₃).released e
  refine (schedRemove_same e _).mono ?_ (fun _ _ h => h.elim) (fun _ h => h)
  intro _ k₅ h₅
  exact ⟨h₅.envs.trans h₄.envs, h₅.curenv.trans h₄.curenv, h₅.kstackTf.trans h₄.kstackTf,
    h₅.envFreeList.trans h₄.envFreeList⟩

/-- What `env_destroy(e)` does to the envs: `e` is released, and another env runs if it was the
current one. -/
def Kernel.Destroyed (k : Kernel) (e : EnvPtr) (k' : Kernel) : Prop :=
  k.curenv ≠ some e ∧ (k.released e).SameEnvs k' ∨
    k.curenv = some e ∧ Kernel.Switched { k.released e with curenv := none } k'

theorem envDestroy_destroyed (e : EnvPtr) (k : Kernel) :
    (envDestroy e k).Sat (fun r k' => k.Destroyed e k' ∧ (r = true → k.curenv = some e))
      (fun _ k' => k.SameEnvs k') (fun _ => True) := by
  rw [envDestroy]
  refine sat_call (envFree_released e k) ?_ (fun _ _ h => h) (fun _ h => h)
  intro _ k₁ h₁
  have hc₁ : k₁.curenv = k.curenv := h₁.curenv
  rw [get_bind]
  split
  next hc =>
    rw [put_bind]
    refine sat_call (schedule_switched true _) ?_ (fun _ _ h => h.elim) (fun _ h => h)
    intro _ k₂ h₂
    have hnone : Kernel.SameEnvs { k.released e with curenv := none } { k₁ with curenv := none } :=
      ⟨h₁.envs, rfl, h₁.kstackTf, h₁.envFreeList⟩
    exact ⟨.inr ⟨hc₁.symm.trans hc, .of_same hnone h₂⟩, fun _ => hc₁.symm.trans hc⟩
  next hc => exact ⟨.inl ⟨fun h => hc (hc₁.trans h), h₁⟩, nofun⟩

theorem sysEnvDestroy_destroyed (envid : Word) (k : Kernel) :
    (sysEnvDestroy envid k).Sat
      (fun r k' => ∃ e, envid2env envid true k = .ret e k ∧ k.Destroyed e k' ∧
        (r = .switched → k.curenv = some e))
      (fun _ k' => k.SameEnvs k') (fun _ => True) := by
  refine sat_call (envid2env_eq envid true k) ?_ (fun _ _ h => h ▸ .refl k) (fun _ h => h)
  rintro e _ ⟨rfl, heq⟩
  refine sat_call (envDestroy_destroyed e k) ?_ (fun _ _ h => h) (fun _ h => h)
  rintro r k₁ ⟨h₁, hr⟩
  cases r with
  | true => exact ⟨e, heq, h₁, fun _ => hr rfl⟩
  | false => exact ⟨e, heq, h₁, nofun⟩

/-! ## Creation -/

/-- The fields that IPC uses. -/
def Env.ipc (v : Env) : Word × Word × Word × Word × Word :=
  (v.envIpcValue, v.envIpcFrom, v.envIpcRecving, v.envIpcDstva, v.envIpcPerm)

/-- `e` is taken from the free list; the other envs, and its own fields for IPC, stay. -/
structure Kernel.Born (k : Kernel) (e : EnvPtr) (k' : Kernel) : Prop where
  listed : e ∈ k.envFreeList
  envFreeList : k'.envFreeList = k.envFreeList.erase e
  other : ∀ e', e' ≠ e → k'.envs e' = k.envs e'
  ipc : (k'.envs e).ipc = (k.envs e).ipc
  curenv : k'.curenv = k.curenv
  kstackTf : k'.kstackTf = k.kstackTf

/-- What `env_alloc` has written to `e` so far is neither its status nor a field for IPC. -/
structure Kernel.Drafted (k : Kernel) (e : EnvPtr) (k' : Kernel) : Prop where
  envFreeList : k'.envFreeList = k.envFreeList
  other : ∀ e', e' ≠ e → k'.envs e' = k.envs e'
  status : (k'.envs e).envStatus = (k.envs e).envStatus
  ipc : (k'.envs e).ipc = (k.envs e).ipc
  curenv : k'.curenv = k.curenv
  kstackTf : k'.kstackTf = k.kstackTf

namespace Kernel.Drafted

theorem of_same (h : k.SameEnvs k') : k.Drafted e k' :=
  ⟨h.envFreeList, fun _ _ => by rw [h.envs], by rw [h.envs], by rw [h.envs], h.curenv, h.kstackTf⟩

theorem same (h : k.Drafted e k₁) (hs : k₁.SameEnvs k') : k.Drafted e k' :=
  ⟨hs.envFreeList.trans h.envFreeList, by rw [hs.envs]; exact h.other,
    by rw [hs.envs]; exact h.status, by rw [hs.envs]; exact h.ipc, hs.curenv.trans h.curenv,
    hs.kstackTf.trans h.kstackTf⟩

theorem setEnv (h : k.Drafted e k') {f : Env → Env}
    (hst : (f (k'.envs e)).envStatus = (k'.envs e).envStatus)
    (hipc : (f (k'.envs e)).ipc = (k'.envs e).ipc) : k.Drafted e (k'.setEnv e f) := by
  refine ⟨h.envFreeList, fun e' hne => ?_, ?_, ?_, h.curenv, h.kstackTf⟩
  · rw [setEnv_envs, update_of_ne hne, h.other e' hne]
  · rw [setEnv_envs, update_self, hst, h.status]
  · rw [setEnv_envs, update_self, hipc, h.ipc]

end Kernel.Drafted

/-- A failed `env_alloc` has written at most to an env that stays on the free list. -/
def Kernel.Stillborn (k k' : Kernel) : Prop :=
  k' = k ∨ ∃ e ∈ k.envFreeList, k.Drafted e k'

theorem envSetupVm_drafted (e : EnvPtr) (k : Kernel) :
    (envSetupVm e k).Sat (fun _ k' => k.Drafted e k') (fun _ k' => k.Drafted e k')
      (fun _ => True) := by
  refine sat_call (bystander_of_framed framed_pageAlloc k) ?_ (fun _ _ => .of_same) (fun _ h => h)
  intro p k₁ h₁
  rw [incref_bind]
  have h₂ : k.Drafted e (k₁.setRef p (k₁.ppRef p + 1)) :=
    (Kernel.Drafted.of_same h₁).same ⟨rfl, rfl, rfl, rfl⟩
  have h₃ := h₂.setEnv (f := fun v => { v with envPgdir := p }) rfl rfl
  exact ⟨h₃.envFreeList, h₃.other, h₃.status, h₃.ipc, h₃.curenv, h₃.kstackTf⟩

/-- **`env_alloc`** takes an env from the free list, whose context is one of user mode. -/
theorem envAlloc_born (parentId : Word) (k : Kernel) :
    (envAlloc parentId k).Sat
      (fun e k' => k.Born e k' ∧ (k'.envs e).envStatus = (k.envs e).envStatus ∧
        (k'.envs e).envTf.cp0Status = statusUser)
      (fun _ k' => k.Stillborn k') (fun _ => True) := by
  rw [envAlloc, get_bind]
  cases hl : k.envFreeList with
  | nil => exact .inl rfl
  | cons e rest =>
    have he : e ∈ k.envFreeList := by
      rw [hl]
      exact List.mem_cons_self
    refine sat_call (envSetupVm_drafted e k) ?_ (fun _ _ h => .inr ⟨e, he, h⟩) (fun _ h => h)
    intro _ k₁ h₁
    simp only [modify_bind, mkenvid_bind]
    have h₂ := h₁.setEnv (f := fun v => { v with envUserTlbModEntry := 0, envRuns := 0 }) rfl rfl
    generalize (k₁.setEnv e fun v => { v with envUserTlbModEntry := 0, envRuns := 0 }) = k₂ at h₂
    have h₃ : k.Drafted e { k₂ with mkenvidCount := k₂.mkenvidCount + 1 } :=
      h₂.same ⟨rfl, rfl, rfl, rfl⟩
    generalize (k₂.mkenvidCount + 1) <<< 11 ||| BitVec.ofNat 32 e.val = id
    have h₄ := h₃.setEnv (f := fun v => { v with envId := id }) rfl rfl
    generalize (Kernel.setEnv _ e fun v => { v with envId := id }) = k₄ at h₄
    refine sat_call (asidAlloc_spec k₄) ?_ (fun _ k' hk => .inr ⟨e, he, hk ▸ h₄⟩)
      (fun _ h => h.elim)
    rintro asid _ ⟨w, rfl⟩
    have h₅ : k.Drafted e { k₄ with asidBitmap := w } := h₄.same ⟨rfl, rfl, rfl, rfl⟩
    have h₆ := h₅.setEnv (f := fun v => { v with
      envAsid := asid
      envParentId := parentId
      envTf := { (v.envTf.setReg 29 (ustacktop - 4 - 4)) with cp0Status := statusUser } }) rfl rfl
    refine ⟨⟨he, ?_, h₆.other, h₆.ipc, h₆.curenv, h₆.kstackTf⟩, h₆.status, ?_⟩
    · exact congrArg (·.erase e) h₆.envFreeList
    · show (update k₄.envs e _ e).envTf.cp0Status = _
      rw [update_self]

/-- A born env is given its status, priority and context. -/
theorem Kernel.Born.setEnv (h : k.Born e k') {f : Env → Env}
    (hipc : (f (k'.envs e)).ipc = (k'.envs e).ipc) : k.Born e (k'.setEnv e f) := by
  refine ⟨h.listed, h.envFreeList, fun e' hne => ?_, ?_, h.curenv, h.kstackTf⟩
  · rw [setEnv_envs, update_of_ne hne, h.other e' hne]
  · rw [setEnv_envs, update_self, hipc, h.ipc]

theorem Kernel.Born.same (h : k.Born e k₁) (hs : k₁.SameEnvs k') : k.Born e k' :=
  ⟨h.listed, hs.envFreeList.trans h.envFreeList, by rw [hs.envs]; exact h.other,
    by rw [hs.envs]; exact h.ipc, hs.curenv.trans h.curenv, hs.kstackTf.trans h.kstackTf⟩

/-- **`env_create`**: a runnable env with a context of user mode. -/
theorem envCreate_born (binary : Option ElfImage) (priority : Word) (k : Kernel) :
    (envCreate binary priority k).Sat
      (fun e k' => k.Born e k' ∧ (k'.envs e).envStatus = .runnable ∧
        (k'.envs e).envTf.cp0Status = statusUser)
      (fun _ _ => False) (fun _ => True) := by
  rw [envCreate, sat_bind, sat_attempt]
  refine (envAlloc_born 0 k).mono ?_ (fun _ _ _ => trivial) (fun _ h => h)
  rintro e k₁ ⟨hborn₁, -, htf₁⟩
  simp only [modify_bind]
  have hborn₂ := hborn₁.setEnv (f := fun v => { v with
    envPri := priority, envStatus := .runnable }) rfl
  have henv₂ : (k₁.setEnv e fun v => { v with envPri := priority, envStatus := .runnable }).envs e =
      { k₁.envs e with envPri := priority, envStatus := .runnable } := by
    rw [setEnv_envs, update_self]
  generalize (k₁.setEnv e _) = k₂ at hborn₂ henv₂ ⊢
  have hload : (loadIcode e binary k₂).Sat (fun _ k' => k.Born e k' ∧
      (k'.envs e).envStatus = .runnable ∧ (k'.envs e).envTf.cp0Status = statusUser)
      (fun _ _ => False) (fun _ => True) := by
    cases binary with
    | none => trivial
    | some img =>
      refine sat_call (loadPhdrs_frame e img img.phdrs k₂) ?_ (fun _ _ h => h) (fun _ h => h)
      intro _ k₃ hf₃
      have hborn₃ := hborn₂.same (.of_frame hf₃)
      refine ⟨hborn₃.setEnv (f := fun v => { v with
        envTf := { v.envTf with cp0Epc := img.eEntry } }) rfl, ?_, ?_⟩
      · show (update k₃.envs e _ e).envStatus = _
        rw [update_self, hf₃.envs, henv₂]
      · show (update k₃.envs e _ e).envTf.cp0Status = _
        rw [update_self, hf₃.envs, henv₂]
        exact htf₁
  refine sat_call hload ?_ (fun _ _ h => h) (fun _ h => h)
  rintro _ k₃ ⟨hborn₃, hst₃, htf₃⟩
  exact ⟨hborn₃.same ⟨rfl, rfl, rfl, rfl⟩, hst₃, htf₃⟩

/-- **`sys_exofork`**: a child that does not run yet, with the context of its parent. -/
theorem sysExofork_born (k : Kernel) :
    (sysExofork k).Sat
      (fun _ k' => ∃ e, k.curenv ≠ none ∧ k.Born e k' ∧ (k'.envs e).envStatus = .notRunnable ∧
        (k'.envs e).envTf = k.kstackTf.setReg 2 0)
      (fun _ k' => k.Stillborn k') (fun _ => True) := by
  refine sat_call (curenvPtr_spec k) ?_ (fun _ _ hq => hq.elim) (fun _ h => h)
  rintro c _ ⟨rfl, hc⟩
  rw [get_bind]
  refine sat_call (envAlloc_born _ k) ?_ (fun _ _ h => h) (fun _ h => h)
  rintro e k₁ ⟨hborn₁, -, -⟩
  rw [modify_bind, get_bind]
  refine ⟨e, by rw [hc]; simp, hborn₁.setEnv rfl, ?_, ?_⟩
  · rw [setEnv_envs, update_self]
  · rw [setEnv_envs, update_self, hborn₁.kstackTf]

/-! ## System calls -/

/-- `k` after the current env `c` has started to wait for a message. -/
def Kernel.waits (k : Kernel) (c : EnvPtr) (dstva : Word) : Kernel :=
  { k.setEnv c fun v => { v with
      envIpcRecving := 1, envIpcDstva := dstva, envStatus := .notRunnable } with
    kstackTf := k.kstackTf.setReg 2 0 }

theorem sysIpcRecv_waits (dstva : Word) (k : Kernel) :
    (sysIpcRecv dstva k).Sat
      (fun _ k' => ¬(dstva ≠ 0 ∧ isIllegalVa dstva = true) ∧
        ∃ c, k.curenv = some c ∧ (k.waits c dstva).Switched k')
      (fun _ k' => k' = k) (fun _ => True) := by
  unfold sysIpcRecv
  split
  · exact rfl
  next hva =>
    refine sat_call (curenvPtr_spec k) ?_ (fun _ _ hq => hq.elim) (fun _ h => h)
    rintro c _ ⟨rfl, hc⟩
    rw [modify_bind]
    refine sat_call (schedRemove_same c _) ?_ (fun _ _ h => h.elim) (fun _ h => h)
    intro _ k₂ h₂
    rw [modify_bind]
    refine sat_call (schedule_switched true _) ?_ (fun _ _ h => h.elim) (fun _ h => h)
    intro _ k₃ h₃
    have hs : (k.waits c dstva).SameEnvs { k₂ with kstackTf := k₂.kstackTf.setReg 2 0 } :=
      ⟨h₂.envs, h₂.curenv, congrArg (·.setReg 2 0) h₂.kstackTf, h₂.envFreeList⟩
    exact ⟨hva, c, hc, .of_same hs h₃⟩

theorem bystander_ipcMapPage (c e : EnvPtr) (srcva perm : Word) :
    Bystander (ipcMapPage c e srcva perm) := by
  refine bystander_of_framed (keeps_get fun k => framed_bind (framed_pageLookup _ _) fun r => ?_)
  split
  · exact framed_fail _
  · exact framed_bind (keeps_attempt (framed_pageInsert _ _ _ _ _)) fun _ => framed_pure _

/-- `sys_ipc_try_send` gets past its checks: `e` is waiting. -/
def Kernel.Finds (k : Kernel) (e : EnvPtr) (envid srcva : Word) : Prop :=
  ¬(srcva ≠ 0 ∧ isIllegalVa srcva = true) ∧ envid2env envid false k = .ret e k ∧
    (k.envs e).envIpcRecving ≠ 0

/-- A message of the current env is delivered. -/
def Kernel.Delivered (k : Kernel) (envid value srcva perm : Word) (k' : Kernel) : Prop :=
  ∃ e c, k.Finds e envid srcva ∧ k.curenv = some c ∧
    (k.setEnv e fun v => v.deliver value (k.envs c).envId perm).SameEnvs k'

/-- **`sys_ipc_try_send`** delivers a message or changes nothing. It can also fail after the message
was delivered, when there is no page to send. -/
theorem sysIpcTrySend_delivered (envid value srcva perm : Word) (k : Kernel) :
    (sysIpcTrySend envid value srcva perm k).Sat
      (fun _ k' => k.Delivered envid value srcva perm k')
      (fun _ k' => (k' = k ∧ ∀ e, ¬k.Finds e envid srcva) ∨ k.Delivered envid value srcva perm k')
      (fun _ => True) := by
  unfold sysIpcTrySend
  split
  next hva => exact .inl ⟨rfl, fun e hf => hf.1 hva⟩
  next hva =>
    have hnone : ∀ er k', envid2env envid false k = .err er k' → ∀ e, ¬k.Finds e envid srcva := by
      intro er k' herr e hf
      rw [hf.2.1] at herr
      cases herr
    refine sat_call ((envid2env_eq envid false k).and (Outcome.sat_self _)) ?_
      (fun er k' h => .inl ⟨h.1.symm, hnone er k' h.2⟩) (fun _ h => h.1)
    rintro e _ ⟨⟨rfl, heq⟩, -⟩
    rw [get_bind]
    split
    next hrecv =>
      refine .inl ⟨rfl, fun e' hf => hf.2.2 ?_⟩
      obtain rfl : e = e' := by
        have h := hf.2.1
        rw [heq] at h
        injection h
      exact hrecv
    next hrecv =>
      refine sat_call (curenvPtr_spec k) ?_ (fun _ _ hq => hq.elim) (fun _ h => h)
      rintro c _ ⟨rfl, hc⟩
      rw [modify_bind]
      refine sat_call (schedInsertTail_same e _) ?_ (fun _ _ h => h.elim) (fun _ h => h)
      intro _ k₂ h₂
      have hsent : ∀ k', k₂.SameEnvs k' → k.Delivered envid value srcva perm k' := fun k' h =>
        ⟨e, c, ⟨hva, heq, hrecv⟩, hc, h₂.trans _ _ _ h⟩
      split
      · exact (bystander_ipcMapPage c e srcva perm k₂).mono (fun _ k' h => hsent k' h)
          (fun _ k' h => .inr (hsent k' h)) (fun _ h => h)
      · exact hsent k₂ (.refl k₂)

/-- `sys_set_trapframe(envid, tf)` gives `e` the context that it loads. -/
def Kernel.Framed (k : Kernel) (e : EnvPtr) (tf : Word) (k' : Kernel) : Prop :=
  ∃ c ws k₁, k.curenv = some c ∧ isIllegalVaRange tf 152 = false ∧
    loadUserWords (k.envs c).envAsid tf 38 k = .ret ws k₁ ∧ k.SameEnvs k₁ ∧
    k' = if e = c then { k₁ with kstackTf := trapframeOf ws }
      else k₁.setEnv e fun v => { v with envTf := trapframeOf ws }

theorem sysSetTrapframe_framed (envid tf : Word) (k : Kernel) :
    (sysSetTrapframe envid tf k).Sat
      (fun _ k' => ∃ e, envid2env envid true k = .ret e k ∧ k.Framed e tf k')
      (fun _ k' => k.SameEnvs k') (fun _ => True) := by
  unfold sysSetTrapframe
  split
  · exact .refl k
  next hva =>
    refine sat_call (envid2env_eq envid true k) ?_ (fun _ _ h => h ▸ .refl k) (fun _ h => h)
    rintro e _ ⟨rfl, heq⟩
    refine sat_call (curenvPtr_spec k) ?_ (fun _ _ hq => hq.elim) (fun _ h => h)
    rintro c _ ⟨rfl, hc⟩
    rw [get_bind]
    refine sat_call ((bystander_of_framed (framed_loadUserWords (k.envs c).envAsid tf 38) k).and
      (Outcome.sat_self _)) ?_ (fun _ _ h => h.1) (fun _ h => h.1)
    rintro ws k₁ ⟨h₁, hload⟩
    refine (?_ : Outcome.Sat _ _ _ _)
    split
    next hec => exact ⟨e, heq, c, ws, k₁, hc, by simpa using hva, hload, h₁, by rw [if_pos hec]⟩
    next hec => exact ⟨e, heq, c, ws, k₁, hc, by simpa using hva, hload, h₁, by rw [if_neg hec]⟩

theorem sysSetTlbModEntry_set (envid func : Word) (k : Kernel) :
    (sysSetTlbModEntry envid func k).Sat
      (fun _ k' => ∃ e, envid2env envid true k = .ret e k ∧
        k' = k.setEnv e fun v => { v with envUserTlbModEntry := func })
      (fun _ k' => k' = k) (fun _ => True) := by
  refine sat_call (envid2env_eq envid true k) ?_ (fun _ _ h => h.symm) (fun _ h => h)
  rintro e _ ⟨rfl, heq⟩
  exact ⟨e, heq, rfl⟩

theorem sysSetEnvStatus_set (envid status : Word) (k : Kernel) :
    (sysSetEnvStatus envid status k).Sat
      (fun _ k' => ∃ e st, envid2env envid true k = .ret e k ∧ statusArg status = some st ∧
        (k.setEnv e fun v => { v with envStatus := st }).SameEnvs k')
      (fun _ k' => k' = k) (fun _ => True) := by
  unfold sysSetEnvStatus
  cases hst : statusArg status with
  | none => exact rfl
  | some st =>
    refine sat_call (envid2env_eq envid true k) ?_ (fun _ _ h => h.symm) (fun _ h => h)
    rintro e _ ⟨rfl, heq⟩
    rw [get_bind]
    split
    · exact sat_call (schedRemove_same e k) (fun _ k₁ h₁ => ⟨e, st, heq, rfl, h₁.setEnv e _⟩)
        (fun _ _ h => h.elim) (fun _ h => h)
    · split
      · exact sat_call (schedInsertTail_same e k)
          (fun _ k₁ h₁ => ⟨e, st, heq, rfl, h₁.setEnv e _⟩) (fun _ _ h => h.elim) (fun _ h => h)
      · exact ⟨e, st, heq, rfl, .refl _⟩

/-! ## Operations -/

/-- What an operation does to the envs. -/
def Op.Post (k k' : Kernel) : Op → Prop
  | .envCreate _ _ => ∃ e, k.Born e k' ∧ (k'.envs e).envStatus = .runnable ∧
    (k'.envs e).envTf.cp0Status = statusUser
  | .timer => k.Switched k'
  | .yield => k.Switched k'
  | .exofork => k.Stillborn k' ∨ ∃ e, k.curenv ≠ none ∧ k.Born e k' ∧
    (k'.envs e).envStatus = .notRunnable ∧ (k'.envs e).envTf = k.kstackTf.setReg 2 0
  | .setEnvStatus envid status => k' = k ∨ ∃ e st, envid2env envid true k = .ret e k ∧
    statusArg status = some st ∧ (k.setEnv e fun v => { v with envStatus := st }).SameEnvs k'
  | .setTlbModEntry envid func => k' = k ∨ ∃ e, envid2env envid true k = .ret e k ∧
    k' = k.setEnv e fun v => { v with envUserTlbModEntry := func }
  | .envDestroy envid => k.SameEnvs k' ∨ ∃ e, envid2env envid true k = .ret e k ∧ k.Destroyed e k'
  | .ipcRecv dstva => k' = k ∨ ¬(dstva ≠ 0 ∧ isIllegalVa dstva = true) ∧
    ∃ c, k.curenv = some c ∧ (k.waits c dstva).Switched k'
  | .ipcTrySend envid value srcva perm => (k' = k ∧ ∀ e, ¬k.Finds e envid srcva) ∨
    k.Delivered envid value srcva perm k'
  | .setTrapframe envid tf => k.SameEnvs k' ∨ ∃ e, envid2env envid true k = .ret e k ∧
    k.Framed e tf k'
  | .trap tf => k' = { k with kstackTf := tf }
  | _ => k.SameEnvs k'

theorem exec_sat (op : Op) (k : Kernel) :
    (exec op k).Sat (fun _ k' => op.Post k k') (fun _ k' => op.Post k k') (fun _ => True) := by
  have hdrop : ∀ {α : Type} {m : KernM α} {Q : Kernel → Prop},
      (m k).Sat (fun _ => Q) (fun _ => Q) (fun _ => True) →
      ((m >>= fun _ => pure ()) k).Sat (fun _ => Q) (fun _ => Q) (fun _ => True) :=
    fun hm => sat_call hm (fun _ _ h => h) (fun _ _ h => h) (fun _ h => h)
  have hsched : ∀ yield, (schedule yield k).Sat (fun _ k' => k.Switched k')
      (fun _ k' => k.Switched k') (fun _ => True) := fun yield =>
    (schedule_switched yield k).mono (fun _ _ h => h) (fun _ _ h => h.elim) (fun _ h => h)
  cases op with
  | envCreate binary p =>
    refine sat_call (envCreate_born binary p k) ?_ (fun _ _ h => h.elim) (fun _ h => h)
    exact fun e _ h => ⟨e, h⟩
  | timer => exact hsched false
  | yield =>
    exact hdrop (sat_call (hsched true) (fun _ _ h => h) (fun _ _ h => h) (fun _ h => h))
  | tlbRefill va asid => exact bystander_of_framed (framed_tlbRefill va asid) k
  | memAlloc e va p => exact hdrop (bystander_of_framed (framed_sysMemAlloc e va p) k)
  | memMap s sv d dv p => exact hdrop (bystander_of_framed (framed_sysMemMap s sv d dv p) k)
  | memUnmap e va => exact hdrop (bystander_of_framed (framed_sysMemUnmap e va) k)
  | exofork =>
    exact hdrop ((sysExofork_born k).mono (fun _ _ => Or.inr) (fun _ _ => Or.inl) (fun _ h => h))
  | setEnvStatus e st =>
    exact hdrop ((sysSetEnvStatus_set e st k).mono (fun _ _ => Or.inr) (fun _ _ => Or.inl)
      (fun _ h => h))
  | setTlbModEntry e f =>
    exact hdrop ((sysSetTlbModEntry_set e f k).mono (fun _ _ => Or.inr) (fun _ _ => Or.inl)
      (fun _ h => h))
  | envDestroy envid =>
    refine hdrop ((sysEnvDestroy_destroyed envid k).mono ?_ (fun _ _ => Or.inl) (fun _ h => h))
    rintro r k₁ ⟨e, heq, h₁, -⟩
    exact Or.inr ⟨e, heq, h₁⟩
  | ipcRecv va =>
    exact hdrop ((sysIpcRecv_waits va k).mono (fun _ _ => Or.inr) (fun _ _ => Or.inl)
      (fun _ h => h))
  | ipcTrySend e v s p =>
    exact hdrop ((sysIpcTrySend_delivered e v s p k).mono (fun _ _ => Or.inr) (fun _ _ h => h)
      (fun _ h => h))
  | setTrapframe e tf =>
    exact hdrop ((sysSetTrapframe_framed e tf k).mono (fun _ _ => Or.inr) (fun _ _ => Or.inl)
      (fun _ h => h))
  | trap tf => exact rfl
  | store va w => exact bystander_of_framed (framed_storeUser va w) k

/-- **Every operation does what is listed**, in any state, if it comes back. -/
theorem exec_post {op : Op} (h : Step op k k') : op.Post k k' := (exec_sat op k).of_state? h

end Mos
