import Mos.Kern.Envs

/-!
# Messages are delivered exactly once

An env that calls `sys_ipc_recv` waits until a `sys_ipc_try_send` finds it waiting. Between its call
and the moment it reads `env_ipc_value`, `env_ipc_from` and `env_ipc_perm` any number of other envs
may run and send to it. `ipc_exactly_once` says that in all these runs exactly one message gets
through, and that its fields are what the receiver reads.

A run is recorded with the state before each step (`Trace`), so that the messages delivered in it can
be listed (`message`).
-/

namespace Mos

open Lib Prog Function

variable {k k' : Kernel} {c e : EnvPtr} {op : Op}

/-! ## Runs -/

/-- A run with steps that meet `ok`, recorded with the state before each step. -/
inductive Trace (ok : Kernel → Op → Prop) (k : Kernel) : List (Kernel × Op) → Kernel → Prop
  | nil : Trace ok k [] k
  | snoc {l : List (Kernel × Op)} {k₁ k₂ : Kernel} (h : Trace ok k l k₁) (op : Op)
      (hok : ok k₁ op) (hstep : Step op k₁ k₂) : Trace ok k (l ++ [(k₁, op)]) k₂

/-- No env is destroyed, and no env that waits for a message is given a status. -/
def Op.IpcOk (k : Kernel) : Op → Prop
  | .envDestroy _ => False
  | .setEnvStatus envid _ => ∀ e, envid2env envid true k = .ret e k → (k.envs e).envIpcRecving = 0
  | _ => True

/-- What a message leaves with its receiver: value, sender and permission. -/
structure Mail where
  value : Word
  sender : Word
  perm : Word
deriving DecidableEq

/-- What `ipc_recv` reads. -/
def Env.mail (v : Env) : Mail := ⟨v.envIpcValue, v.envIpcFrom, v.envIpcPerm⟩

/-- The message that a step delivers to `c`: a `sys_ipc_try_send` finds `c` waiting. -/
def message (c : EnvPtr) : Kernel × Op → Option Mail
  | (k, .ipcTrySend envid value srcva perm) =>
    match k.curenv, envid2env envid false k with
    | some s, .ret e _ =>
      if e = c ∧ ¬(srcva ≠ 0 ∧ isIllegalVa srcva = true) ∧ (k.envs e).envIpcRecving ≠ 0 then
        some ⟨value, (k.envs s).envId, pteV ||| perm⟩
      else none
    | _, _ => none
  | _ => none

/-- A step in which `c` starts to wait for a message. -/
def Receives (c : EnvPtr) (x : Kernel × Op) : Prop :=
  ∃ dstva, x.2 = .ipcRecv dstva ∧ ¬(dstva ≠ 0 ∧ isIllegalVa dstva = true) ∧ x.1.curenv = some c

theorem message_sent {envid value srcva perm : Word} {s : EnvPtr} (hf : k.Finds c envid srcva)
    (hs : k.curenv = some s) : message c (k, .ipcTrySend envid value srcva perm) =
      some ⟨value, (k.envs s).envId, pteV ||| perm⟩ := by
  simp only [message, hs, hf.2.1]
  rw [if_pos ⟨trivial, hf.1, hf.2.2⟩]

theorem message_none {envid value srcva perm : Word} (hf : ¬k.Finds c envid srcva) :
    message c (k, .ipcTrySend envid value srcva perm) = none := by
  have heq := envid2env_eq envid false k
  simp only [message]
  split
  next s e k₁ hs he =>
    rw [he] at heq
    obtain ⟨rfl, -⟩ := heq
    rw [if_neg]
    rintro ⟨rfl, hlegal, hrecv⟩
    exact hf ⟨hlegal, he, hrecv⟩
  next => rfl

/-! ## The free list -/

/-- The envs on the free list are free, each is there once, and the current env is not there. -/
structure Kernel.FreeInv (k : Kernel) : Prop where
  dead : ∀ e ∈ k.envFreeList, (k.envs e).envStatus = .free
  nodup : k.envFreeList.Nodup
  cur : ∀ c, k.curenv = some c → c ∉ k.envFreeList

namespace Kernel.FreeInv

theorem same (h : k.FreeInv) (hs : k.SameEnvs k') : k'.FreeInv :=
  ⟨by rw [hs.envFreeList, hs.envs]; exact h.dead, by rw [hs.envFreeList]; exact h.nodup,
    by rw [hs.envFreeList, hs.curenv]; exact h.cur⟩

/-- `envid2env` returns no env of the free list. -/
theorem unlisted (h : k.FreeInv) {envid : Word} {checkperm : Bool}
    (he : envid2env envid checkperm k = .ret e k) : e ∉ k.envFreeList := by
  simp only [envid2env, get_bind] at he
  split at he
  · cases hc : k.curenv with
    | none =>
      rw [hc] at he
      cases he
    | some c =>
      rw [hc] at he
      injection he with he _
      exact he ▸ h.cur c hc
  · split at he
    · cases he
    next hlive =>
      rw [not_or] at hlive
      have hx : envx envid ∉ k.envFreeList := fun hc => hlive.1 (h.dead _ hc)
      cases checkperm with
      | false =>
        injection he with he _
        exact he ▸ hx
      | true =>
        cases hc : k.curenv with
        | none =>
          simp only [hc] at he
          cases he
        | some c =>
          simp only [hc, if_true] at he
          split at he
          · injection he with he _
            exact he ▸ hx
          · cases he

/-- An env that is not on the free list may get any status. -/
theorem setEnv (h : k.FreeInv) (he : e ∉ k.envFreeList) (f : Env → Env) :
    (k.setEnv e f).FreeInv := by
  refine ⟨fun e' he' => ?_, h.nodup, h.cur⟩
  have hne : e' ≠ e := by
    rintro rfl
    exact he he'
  rw [setEnv_envs, update_of_ne hne]
  exact h.dead e' he'

theorem setEnv_status (h : k.FreeInv) (e : EnvPtr) {f : Env → Env}
    (hst : (f (k.envs e)).envStatus = (k.envs e).envStatus) : (k.setEnv e f).FreeInv := by
  refine ⟨fun e' he' => ?_, h.nodup, h.cur⟩
  rw [setEnv_envs]
  by_cases hee : e' = e
  · subst hee
    rw [update_self, hst]
    exact h.dead e' he'
  · rw [update_of_ne hee]
    exact h.dead e' he'

theorem switched (h : k.FreeInv) (hs : k.Switched k') : k'.FreeInv := by
  have hst := hs.field (φ := Env.envStatus) (fun _ _ => rfl) fun _ _ => rfl
  obtain ⟨e, hrun, hsame⟩ := hs
  have hsaved : k.saved.envFreeList = k.envFreeList := by
    unfold Kernel.saved
    cases k.curenv <;> rfl
  have hfree : k'.envFreeList = k.envFreeList := hsame.envFreeList.trans hsaved
  refine ⟨fun e' he' => ?_, by rw [hfree]; exact h.nodup, fun c hc => ?_⟩
  · rw [hst e']
    exact h.dead e' (hfree ▸ he')
  · have hce : e = c := Option.some.inj (hsame.curenv.symm.trans hc)
    rw [hfree, ← hce]
    intro hmem
    rw [h.dead e hmem] at hrun
    cases hrun

theorem born (h : k.FreeInv) (hb : k.Born e k') : k'.FreeInv := by
  refine ⟨fun e' he' => ?_, by rw [hb.envFreeList]; exact h.nodup.erase e, fun c hc => ?_⟩
  · rw [hb.envFreeList, h.nodup.mem_erase_iff] at he'
    rw [hb.other e' he'.1]
    exact h.dead e' he'.2
  · rw [hb.envFreeList]
    exact fun hmem => h.cur c (hb.curenv ▸ hc) (List.mem_of_mem_erase hmem)

theorem step (h : k.FreeInv) (hok : op.IpcOk k) (hstep : Step op k k') : k'.FreeInv := by
  have hpost := exec_post hstep
  cases op with
  | envCreate binary p =>
    obtain ⟨e, hborn, -⟩ := hpost
    exact h.born hborn
  | timer => exact h.switched hpost
  | yield => exact h.switched hpost
  | exofork =>
    rcases hpost with (rfl | ⟨e, he, hd⟩) | ⟨e, -, hborn, -⟩
    · exact h
    · refine ⟨fun e' he' => ?_, by rw [hd.envFreeList]; exact h.nodup,
        by rw [hd.envFreeList, hd.curenv]; exact h.cur⟩
      rw [hd.envFreeList] at he'
      by_cases hee : e' = e
      · rw [hee, hd.status]
        exact h.dead e he
      · rw [hd.other e' hee]
        exact h.dead e' he'
    · exact h.born hborn
  | setEnvStatus envid st =>
    rcases hpost with rfl | ⟨e, st', he, -, hs⟩
    · exact h
    · exact (h.setEnv (h.unlisted he) _).same hs
  | setTlbModEntry envid f =>
    rcases hpost with rfl | ⟨e, -, rfl⟩
    · exact h
    · exact h.setEnv_status e rfl
  | envDestroy envid => exact hok.elim
  | ipcRecv dstva =>
    rcases hpost with rfl | ⟨-, c, hc, hs⟩
    · exact h
    · have hw := h.setEnv (h.cur c hc) fun v => { v with
        envIpcRecving := 1, envIpcDstva := dstva, envStatus := .notRunnable }
      have hwaits : (k.waits c dstva).FreeInv := ⟨hw.dead, hw.nodup, hw.cur⟩
      exact hwaits.switched hs
  | ipcTrySend envid v s p =>
    rcases hpost with ⟨rfl, -⟩ | ⟨e, s, hf, -, hs⟩
    · exact h
    · exact (h.setEnv (h.unlisted hf.2.1) _).same hs
  | setTrapframe envid tf =>
    rcases hpost with hs | ⟨e, -, c, ws, k₁, -, -, -, hs, rfl⟩
    · exact h.same hs
    · have h₁ := h.same hs
      split
      · exact ⟨h₁.dead, h₁.nodup, h₁.cur⟩
      · exact h₁.setEnv_status e rfl
  | trap tf =>
    subst hpost
    exact ⟨h.dead, h.nodup, h.cur⟩
  | tlbRefill va asid => exact h.same hpost
  | memAlloc envid va p => exact h.same hpost
  | memMap s sv d dv p => exact h.same hpost
  | memUnmap envid va => exact h.same hpost
  | store va w => exact h.same hpost

end Kernel.FreeInv

theorem Trace.freeInv {l : List (Kernel × Op)} (h : Trace Op.IpcOk k l k') (hk : k.FreeInv) :
    k'.FreeInv := by
  induction h with
  | nil => exact hk
  | snoc _ op hok hstep ih => exact ih.step hok hstep

/-! ## Waiting and having got a message -/

/-- `c` waits for a message. -/
structure Kernel.Waiting (k : Kernel) (c : EnvPtr) : Prop where
  recving : (k.envs c).envIpcRecving = 1
  status : (k.envs c).envStatus = .notRunnable
  cur : k.curenv ≠ some c
  unlisted : c ∉ k.envFreeList

/-- `c` has got the message `m` and waits for no other. -/
structure Kernel.Got (k : Kernel) (c : EnvPtr) (m : Mail) : Prop where
  recving : (k.envs c).envIpcRecving = 0
  mail : (k.envs c).mail = m
  unlisted : c ∉ k.envFreeList

theorem recving_of_ipc {v v' : Env} (h : v'.ipc = v.ipc) : v'.envIpcRecving = v.envIpcRecving :=
  congrArg (fun t => t.2.2.1) h

theorem mail_of_ipc {v v' : Env} (h : v'.ipc = v.ipc) : v'.mail = v.mail :=
  congrArg (fun t => Mail.mk t.1 t.2.1 t.2.2.2.2) h

/-- Where only other things change, `c` keeps waiting. -/
theorem Kernel.Waiting.of_ipc (h : k.Waiting c) (hipc : (k'.envs c).ipc = (k.envs c).ipc)
    (hst : (k'.envs c).envStatus = (k.envs c).envStatus) (hcur : k'.curenv ≠ some c)
    (hfree : k'.envFreeList ⊆ k.envFreeList) : k'.Waiting c :=
  ⟨(recving_of_ipc hipc).trans h.recving, hst.trans h.status, hcur, fun hc => h.unlisted (hfree hc)⟩

theorem Kernel.Got.of_ipc {m : Mail} (h : k.Got c m) (hipc : (k'.envs c).ipc = (k.envs c).ipc)
    (hfree : k'.envFreeList ⊆ k.envFreeList) : k'.Got c m :=
  ⟨(recving_of_ipc hipc).trans h.recving, (mail_of_ipc hipc).trans h.mail,
    fun hc => h.unlisted (hfree hc)⟩

/-- A switch goes to a runnable env and leaves messages and statuses alone. -/
theorem Kernel.Switched.ipc (h : k.Switched k') (c : EnvPtr) :
    (k'.envs c).ipc = (k.envs c).ipc ∧ (k'.envs c).envStatus = (k.envs c).envStatus ∧
      ((k.envs c).envStatus ≠ .runnable → k'.curenv ≠ some c) ∧
      k'.envFreeList = k.envFreeList := by
  refine ⟨h.field (fun _ _ => rfl) (fun _ _ => rfl) c,
    h.field (φ := Env.envStatus) (fun _ _ => rfl) (fun _ _ => rfl) c, ?_⟩
  obtain ⟨e, hrun, hsame⟩ := h
  constructor
  · intro hne hc
    obtain rfl : e = c := Option.some.inj (hsame.curenv.symm.trans hc)
    exact hne hrun
  · refine hsame.envFreeList.trans ?_
    show k.saved.envFreeList = _
    unfold Kernel.saved
    cases k.curenv <;> rfl

theorem Kernel.Waiting.switched (h : k.Waiting c) (hs : k.Switched k') : k'.Waiting c := by
  obtain ⟨hipc, hst, hcur, hfree⟩ := hs.ipc c
  refine h.of_ipc hipc hst (hcur ?_) (by rw [hfree]; exact List.Subset.refl _)
  rw [h.status]
  simp

theorem Kernel.Waiting.same (h : k.Waiting c) (hs : k.SameEnvs k') : k'.Waiting c :=
  h.of_ipc (by rw [hs.envs]) (by rw [hs.envs]) (by rw [hs.curenv]; exact h.cur)
    (by rw [hs.envFreeList]; exact List.Subset.refl _)

/-- Another env is changed. -/
theorem Kernel.Waiting.setEnv (h : k.Waiting c) (hne : c ≠ e) (f : Env → Env) :
    (k.setEnv e f).Waiting c := by
  have henv : (k.setEnv e f).envs c = k.envs c := by rw [setEnv_envs, update_of_ne hne]
  exact h.of_ipc (by rw [henv]) (by rw [henv]) h.cur (List.Subset.refl _)

theorem Kernel.Waiting.born (h : k.Waiting c) (hb : k.Born e k') : k'.Waiting c := by
  have hne : c ≠ e := by
    rintro rfl
    exact h.unlisted hb.listed
  refine h.of_ipc (by rw [hb.other c hne]) (by rw [hb.other c hne]) (by rw [hb.curenv]; exact h.cur) ?_
  rw [hb.envFreeList]
  exact List.erase_subset

/-- **An env that waits goes on waiting until a message is delivered to it.** -/
theorem Kernel.Waiting.step (h : k.Waiting c) (hok : op.IpcOk k) (hstep : Step op k k') :
    (message c (k, op) = none ∧ k'.Waiting c) ∨
      ∃ m, message c (k, op) = some m ∧ k'.Got c m := by
  have hpost := exec_post hstep
  have hnone : (∀ envid v s p, op ≠ .ipcTrySend envid v s p) → k'.Waiting c →
      (message c (k, op) = none ∧ k'.Waiting c) ∨
        ∃ m, message c (k, op) = some m ∧ k'.Got c m := by
    intro hop hw
    refine .inl ⟨?_, hw⟩
    cases op <;> first | rfl | exact absurd rfl (hop _ _ _ _)
  cases op with
  | envCreate binary p =>
    obtain ⟨e, hborn, -⟩ := hpost
    exact hnone (by simp) (h.born hborn)
  | timer => exact hnone (by simp) (h.switched hpost)
  | yield => exact hnone (by simp) (h.switched hpost)
  | exofork =>
    refine hnone (by simp) ?_
    rcases hpost with (rfl | ⟨e, he, hd⟩) | ⟨e, -, hborn, -⟩
    · exact h
    · have hne : c ≠ e := by
        rintro rfl
        exact h.unlisted he
      exact h.of_ipc (by rw [hd.other c hne]) (by rw [hd.other c hne]) (by rw [hd.curenv]; exact h.cur)
        (by rw [hd.envFreeList]; exact List.Subset.refl _)
    · exact h.born hborn
  | setEnvStatus envid st =>
    refine hnone (by simp) ?_
    rcases hpost with rfl | ⟨e, st', he, -, hs⟩
    · exact h
    · have hne : c ≠ e := by
        rintro rfl
        have h0 := hok c he
        rw [h.recving] at h0
        exact absurd h0 (by decide)
      exact (h.setEnv hne _).same hs
  | setTlbModEntry envid f =>
    refine hnone (by simp) ?_
    rcases hpost with rfl | ⟨e, -, rfl⟩
    · exact h
    · by_cases hne : c = e
      · subst hne
        have henv : (k.setEnv c fun v => { v with envUserTlbModEntry := f }).envs c =
            { k.envs c with envUserTlbModEntry := f } := by rw [setEnv_envs, update_self]
        exact h.of_ipc (by rw [henv]; rfl) (by rw [henv]) h.cur (List.Subset.refl _)
      · exact h.setEnv hne _
  | envDestroy envid => exact hok.elim
  | ipcRecv dstva =>
    refine hnone (by simp) ?_
    rcases hpost with rfl | ⟨-, r, hr, hs⟩
    · exact h
    · have hne : c ≠ r := by
        rintro rfl
        exact h.cur hr
      have hw := h.setEnv hne fun v => { v with
        envIpcRecving := 1, envIpcDstva := dstva, envStatus := .notRunnable }
      have hwaits : (k.waits r dstva).Waiting c := ⟨hw.recving, hw.status, hw.cur, hw.unlisted⟩
      exact hwaits.switched hs
  | ipcTrySend envid v srcva p =>
    rcases hpost with ⟨rfl, hnf⟩ | ⟨e, s, hf, hc, hs⟩
    · exact .inl ⟨message_none (hnf c), h⟩
    · by_cases hne : c = e
      · subst hne
        refine .inr ⟨_, message_sent hf hc, ?_⟩
        have henv : k'.envs c = (k.envs c).deliver v (k.envs s).envId p := by
          rw [hs.envs, setEnv_envs, update_self]
        refine ⟨by rw [henv]; rfl, by rw [henv]; rfl, ?_⟩
        rw [hs.envFreeList]
        exact h.unlisted
      · refine .inl ⟨message_none fun hf' => hne ?_, (h.setEnv hne _).same hs⟩
        have heq := hf'.2.1
        rw [hf.2.1] at heq
        injection heq with heq _
        exact heq.symm
  | setTrapframe envid tf =>
    refine hnone (by simp) ?_
    rcases hpost with hs | ⟨e, -, r, ws, k₁, -, -, -, hs, rfl⟩
    · exact h.same hs
    · have h₁ := h.same hs
      split
      · exact ⟨h₁.recving, h₁.status, h₁.cur, h₁.unlisted⟩
      · by_cases hne : c = e
        · subst hne
          have henv : (k₁.setEnv c fun v => { v with envTf := trapframeOf ws }).envs c =
              { k₁.envs c with envTf := trapframeOf ws } := by rw [setEnv_envs, update_self]
          exact h₁.of_ipc (by rw [henv]; rfl) (by rw [henv]) h₁.cur (List.Subset.refl _)
        · exact h₁.setEnv hne _
  | trap tf =>
    refine hnone (by simp) ?_
    subst hpost
    exact ⟨h.recving, h.status, h.cur, h.unlisted⟩
  | tlbRefill va asid => exact hnone (by simp) (h.same hpost)
  | memAlloc envid va p => exact hnone (by simp) (h.same hpost)
  | memMap s sv d dv p => exact hnone (by simp) (h.same hpost)
  | memUnmap envid va => exact hnone (by simp) (h.same hpost)
  | store va w => exact hnone (by simp) (h.same hpost)

/-- Only its own `sys_ipc_recv` and a message change what an env has for IPC, as long as it is not
destroyed; and the free list grows only where an env is destroyed. -/
theorem ipc_kept (hd : ∀ envid, op = .envDestroy envid → envid2env envid true k ≠ .ret c k)
    (hstep : Step op k k') (hr : ¬Receives c (k, op)) (hm : message c (k, op) = none) :
    (k'.envs c).ipc = (k.envs c).ipc ∧ (op.IpcOk k → k'.envFreeList ⊆ k.envFreeList) := by
  have hpost := exec_post hstep
  have hsame : ∀ {k₁ k₂ : Kernel}, k₁.SameEnvs k₂ →
      (k₂.envs c).ipc = (k₁.envs c).ipc ∧ (op.IpcOk k → k₂.envFreeList ⊆ k₁.envFreeList) :=
    fun hs => ⟨by rw [hs.envs], fun _ => by rw [hs.envFreeList]; exact List.Subset.refl _⟩
  have hset : ∀ {k₁ : Kernel} (e : EnvPtr) {f : Env → Env}, (∀ v, (f v).ipc = v.ipc) →
      ((k₁.setEnv e f).envs c).ipc = (k₁.envs c).ipc := by
    intro k₁ e f hf
    rw [setEnv_envs]
    by_cases hne : c = e
    · rw [hne, update_self, hf]
    · rw [update_of_ne hne]
  have hswitch : ∀ {k₁ k₂ : Kernel}, k₁.Switched k₂ →
      (k₂.envs c).ipc = (k₁.envs c).ipc ∧ (op.IpcOk k → k₂.envFreeList ⊆ k₁.envFreeList) := by
    intro k₁ k₂ hs
    obtain ⟨hipc, -, -, hfree⟩ := hs.ipc c
    exact ⟨hipc, fun _ => by rw [hfree]; exact List.Subset.refl _⟩
  have hborn : ∀ {e : EnvPtr}, k.Born e k' →
      (k'.envs c).ipc = (k.envs c).ipc ∧ (op.IpcOk k → k'.envFreeList ⊆ k.envFreeList) := by
    intro e hb
    refine ⟨?_, fun _ => by rw [hb.envFreeList]; exact List.erase_subset⟩
    by_cases hne : c = e
    · rw [hne, hb.ipc]
    · rw [hb.other c hne]
  cases op with
  | envCreate binary p =>
    obtain ⟨e, hb, -⟩ := hpost
    exact hborn hb
  | timer => exact hswitch hpost
  | yield => exact hswitch hpost
  | exofork =>
    rcases hpost with (rfl | ⟨e, -, hd⟩) | ⟨e, -, hb, -⟩
    · exact hsame (.refl _)
    · refine ⟨?_, fun _ => by rw [hd.envFreeList]; exact List.Subset.refl _⟩
      by_cases hne : c = e
      · rw [hne, hd.ipc]
      · rw [hd.other c hne]
    · exact hborn hb
  | setEnvStatus envid st =>
    rcases hpost with rfl | ⟨e, st', -, -, hs⟩
    · exact hsame (.refl _)
    · exact ⟨(hsame hs).1.trans (hset e fun _ => rfl), (hsame hs).2⟩
  | setTlbModEntry envid f =>
    rcases hpost with rfl | ⟨e, -, rfl⟩
    · exact hsame (.refl _)
    · exact ⟨hset e fun _ => rfl, fun _ => List.Subset.refl _⟩
  | envDestroy envid =>
    refine ⟨?_, fun hok => hok.elim⟩
    rcases hpost with hs | ⟨e, he, hdest⟩
    · exact (hsame hs).1
    · have hne : c ≠ e := by
        rintro rfl
        exact hd envid rfl he
      have hrel : (k.released e).envs c = k.envs c := update_of_ne hne _ _
      rcases hdest with ⟨-, hs⟩ | ⟨-, hs⟩
      · rw [(hsame hs).1, hrel]
      · exact (hswitch hs).1.trans (congrArg Env.ipc hrel)
  | ipcRecv dstva =>
    rcases hpost with rfl | ⟨hlegal, r, hcur, hs⟩
    · exact hsame (.refl _)
    · have hne : c ≠ r := by
        rintro rfl
        exact hr ⟨dstva, rfl, hlegal, hcur⟩
      have henv : (k.waits r dstva).envs c = k.envs c := update_of_ne hne _ _
      exact ⟨(hswitch hs).1.trans (by rw [henv]), (hswitch hs).2⟩
  | ipcTrySend envid v srcva p =>
    rcases hpost with ⟨rfl, -⟩ | ⟨e, s, hf, hcur, hs⟩
    · exact hsame (.refl _)
    · have hne : c ≠ e := by
        rintro rfl
        rw [message_sent hf hcur] at hm
        cases hm
      refine ⟨(hsame hs).1.trans ?_, (hsame hs).2⟩
      rw [setEnv_envs, update_of_ne hne]
  | setTrapframe envid tf =>
    rcases hpost with hs | ⟨e, -, r, ws, k₁, -, -, -, hs, rfl⟩
    · exact hsame hs
    · have h₁ := hsame hs
      split
      · exact h₁
      · refine ⟨(hset e ?_).trans h₁.1, h₁.2⟩
        exact fun _ => rfl
  | trap tf =>
    subst hpost
    exact ⟨rfl, fun _ => List.Subset.refl _⟩
  | tlbRefill va asid => exact hsame hpost
  | memAlloc envid va p => exact hsame hpost
  | memMap s sv d dv p => exact hsame hpost
  | memUnmap envid va => exact hsame hpost
  | store va w => exact hsame hpost

/-- Where no env is destroyed. -/
theorem ipc_step (hok : op.IpcOk k) (hstep : Step op k k') (hr : ¬Receives c (k, op))
    (hm : message c (k, op) = none) :
    (k'.envs c).ipc = (k.envs c).ipc ∧ k'.envFreeList ⊆ k.envFreeList := by
  have hd : ∀ envid, op = .envDestroy envid → envid2env envid true k ≠ .ret c k := by
    rintro envid rfl
    exact hok.elim
  obtain ⟨hipc, hfree⟩ := ipc_kept hd hstep hr hm
  exact ⟨hipc, hfree hok⟩

/-- **An env that has got a message keeps it**, and gets no other, until it waits again. -/
theorem Kernel.Got.step {m : Mail} (h : k.Got c m) (hok : op.IpcOk k) (hstep : Step op k k')
    (hr : ¬Receives c (k, op)) : message c (k, op) = none ∧ k'.Got c m := by
  have hm : message c (k, op) = none := by
    cases op with
    | ipcTrySend envid v srcva p => exact message_none fun hf => hf.2.2 h.recving
    | _ => rfl
  obtain ⟨hipc, hfree⟩ := ipc_step hok hstep hr hm
  exact ⟨hm, h.of_ipc hipc hfree⟩

/-! ## Whole runs -/

/-- The messages that a run delivers to `c`. -/
def messages (c : EnvPtr) (l : List (Kernel × Op)) : List Mail := l.filterMap (message c)

theorem messages_snoc (c : EnvPtr) (l : List (Kernel × Op)) (x : Kernel × Op) :
    messages c (l ++ [x]) = messages c l ++ (message c x).toList := by
  rw [messages, List.filterMap_append]
  cases h : message c x <;> simp [messages, h]

/-- From the moment it waits, an env still waits or has got one message. -/
theorem Kernel.Waiting.trace (h : k.Waiting c) {l : List (Kernel × Op)}
    (ht : Trace Op.IpcOk k l k') (hr : ∀ x ∈ l, ¬Receives c x) :
    (messages c l = [] ∧ k'.Waiting c) ∨ ∃ m, messages c l = [m] ∧ k'.Got c m := by
  induction ht with
  | nil => exact .inl ⟨rfl, h⟩
  | snoc _ op hok hstep ih =>
    have hr' := hr _ (List.mem_append_right _ List.mem_cons_self)
    rw [messages_snoc]
    rcases ih fun x hx => hr x (List.mem_append_left _ hx) with ⟨hnil, hw⟩ | ⟨m, hone, hgot⟩
    · rcases hw.step hok hstep with ⟨hm, hw'⟩ | ⟨m, hm, hgot⟩
      · exact .inl ⟨by rw [hnil, hm]; rfl, hw'⟩
      · exact .inr ⟨m, by rw [hnil, hm]; rfl, hgot⟩
    · obtain ⟨hm, hgot'⟩ := hgot.step hok hstep hr'
      exact .inr ⟨m, by rw [hone, hm]; rfl, hgot'⟩

/-- `sys_ipc_recv` lets its caller wait. -/
theorem waiting_of_recv (h : k.FreeInv) (hc : k.curenv = some c) {dstva : Word}
    (hret : sysIpcRecv dstva k = .ret .switched k') : k'.Waiting c := by
  have hspec := sysIpcRecv_waits dstva k
  rw [hret] at hspec
  obtain ⟨-, c', hc', hs⟩ := hspec
  obtain rfl : c = c' := Option.some.inj (hc.symm.trans hc')
  obtain ⟨hipc, hst, hcur, hfree⟩ := hs.ipc c
  have henv : (k.waits c dstva).envs c = { k.envs c with
      envIpcRecving := 1, envIpcDstva := dstva, envStatus := .notRunnable } := update_self _ _ _
  refine ⟨(recving_of_ipc hipc).trans (by rw [henv]), hst.trans (by rw [henv]), hcur ?_, ?_⟩
  · rw [henv]
    simp
  · rw [hfree]
    exact h.cur c hc

theorem Kernel.Booted.freeInv (h : k.Booted) : k.FreeInv where
  dead := fun e _ => by simpa [Kernel.Live] using h.dead e
  nodup := h.inv.free_nodup
  cur := fun c hc => by rw [h.curenv] at hc; cases hc

/-- A send that finds the target not waiting fails and changes nothing. -/
theorem send_refused {envid value srcva perm : Word} (hva : ¬(srcva ≠ 0 ∧ isIllegalVa srcva = true))
    (he : envid2env envid false k = .ret e k) (hrecv : (k.envs e).envIpcRecving = 0) :
    sysIpcTrySend envid value srcva perm k = .err .ipcNotRecv k := by
  unfold sysIpcTrySend
  rw [if_neg hva, bind_ret he, get_bind, if_pos hrecv]
  rfl

/-- **Messages are delivered exactly once.** In any run in which no env is destroyed and no waiting env
is given a status: from a `sys_ipc_recv` of `c` to its next one, `c` runs again only after exactly one
message was delivered to it, and what it reads then is this message. A send that does not find its
target waiting fails and changes nothing. -/
theorem ipc_exactly_once {b : Boot} {k₀ k k₁ k' : Kernel} {l₀ l : List (Kernel × Op)} {dstva : Word}
    (hboot : boot b = .ret () k₀) (h₀ : Trace Op.IpcOk k₀ l₀ k) (hc : k.curenv = some c)
    (hrecv : sysIpcRecv dstva k = .ret .switched k₁) (h : Trace Op.IpcOk k₁ l k')
    (hr : ∀ x ∈ l, ¬Receives c x) :
    (k'.curenv = some c → ∃ m, messages c l = [m] ∧ (k'.envs c).mail = m) ∧
    (∀ m ∈ messages c l, messages c l = [m] ∧ (k'.envs c).mail = m) ∧
    (∀ envid value srcva perm e, ¬(srcva ≠ 0 ∧ isIllegalVa srcva = true) →
      envid2env envid false k' = .ret e k' → (k'.envs e).envIpcRecving = 0 →
      sysIpcTrySend envid value srcva perm k' = .err .ipcNotRecv k') := by
  have hinv : k.FreeInv := h₀.freeInv (booted_of_boot hboot).freeInv
  have hw := waiting_of_recv hinv hc hrecv
  refine ⟨?_, ?_, fun _ _ _ _ _ => send_refused⟩
  · intro hcur
    rcases hw.trace h hr with ⟨-, hw'⟩ | ⟨m, hone, hgot⟩
    · exact absurd hcur hw'.cur
    · exact ⟨m, hone, hgot.mail⟩
  · intro m hm
    rcases hw.trace h hr with ⟨hnil, -⟩ | ⟨m', hone, hgot⟩
    · rw [hnil] at hm
      cases hm
    · rw [hone, List.mem_singleton] at hm
      subst hm
      exact ⟨hone, hgot.mail⟩

/-! ## A run that can be evaluated -/

theorem Trace.of_runOps {ok : Kernel → Op → Prop} {k : Kernel} : ∀ {ops : List Op} {k₁ k' : Kernel}
    {l : List (Kernel × Op)}, (∀ op ∈ ops, ∀ k, ok k op) → Trace ok k l k₁ →
    runOps ops k₁ = some k' → ∃ l', Trace ok k (l ++ l') k' ∧ l'.map Prod.snd = ops
  | [], k₁, k', l, _, ht, h => by
    obtain rfl : k₁ = k' := Option.some.inj h
    exact ⟨[], by rw [List.append_nil]; exact ht, rfl⟩
  | op :: ops, k₁, k', l, hok, ht, h => by
    obtain ⟨k₂, hstep, h⟩ := runOps_cons h
    obtain ⟨l', ht', hl'⟩ := Trace.of_runOps (fun op hop => hok op (List.mem_cons_of_mem _ hop))
      (ht.snoc op (hok op List.mem_cons_self k₁) hstep) h
    refine ⟨(k₁, op) :: l', ?_, by rw [List.map_cons, hl']⟩
    rwa [List.append_assoc, List.singleton_append] at ht'

/-- Two processes; the second waits, the first sends it the value 7 and yields. -/
def recvBefore : List Op :=
  [.envCreate (some emptyImage) 1, .envCreate (some emptyImage) 1, .timer]

/-- What happens after the call of the second process. -/
def recvAfter : List Op := [.ipcTrySend 4097 7 0 0, .ipcTrySend 4097 8 0 0, .yield]

/-- The whole run, with a test for its last state. -/
def recvTest : Bool :=
  match boot smallBoot with
  | .ret _ k₀ =>
    (runOps recvBefore k₀).any fun k => k.curenv == some 1 &&
      match sysIpcRecv 0 k with
      | .ret .switched k₁ => (runOps recvAfter k₁).any fun k' => k'.curenv == some 1
      | _ => false
  | _ => false

theorem recv_runs : ∃ k₀ k k₁ k', boot smallBoot = .ret () k₀ ∧ runOps recvBefore k₀ = some k ∧
    k.curenv = some 1 ∧ sysIpcRecv 0 k = .ret .switched k₁ ∧ runOps recvAfter k₁ = some k' ∧
    k'.curenv = some 1 := by
  have htest : recvTest = true := by decide +kernel
  unfold recvTest at htest
  split at htest
  next k₀ hboot =>
    obtain ⟨k, hk, htest⟩ := (Option.any_eq_true _ _).mp htest
    rw [Bool.and_eq_true, beq_iff_eq] at htest
    obtain ⟨hc, htest⟩ := htest
    split at htest
    next k₁ hrecv =>
      obtain ⟨k', hk', hc'⟩ := (Option.any_eq_true _ _).mp htest
      exact ⟨k₀, k, k₁, k', hboot, hk, hc, hrecv, hk', by simpa using hc'⟩
    next => cases htest
  next => cases htest

theorem ipc_exactly_once_run : ∃ k₁ k' l m, Trace Op.IpcOk k₁ l k' ∧ k'.curenv = some 1 ∧
    l.map Prod.snd = recvAfter ∧ messages 1 l = [m] ∧ (k'.envs 1).mail = m := by
  obtain ⟨k₀, k, k₁, k', hboot, hk, hc, hrecv, hk', hc'⟩ := recv_runs
  have hok : ∀ op ∈ recvBefore, ∀ k, Op.IpcOk k op := by
    intro op hop k
    simp only [recvBefore, List.mem_cons, List.not_mem_nil, or_false] at hop
    rcases hop with rfl | rfl | rfl <;> trivial
  have hok' : ∀ op ∈ recvAfter, ∀ k, Op.IpcOk k op := by
    intro op hop k
    simp only [recvAfter, List.mem_cons, List.not_mem_nil, or_false] at hop
    rcases hop with rfl | rfl | rfl <;> trivial
  obtain ⟨l₀, h₀, -⟩ := Trace.of_runOps hok .nil hk
  obtain ⟨l, h, hl⟩ := Trace.of_runOps hok' .nil hk'
  have hr : ∀ x ∈ l, ¬Receives 1 x := by
    rintro x hx ⟨dstva, hop, -⟩
    have hmem : x.2 ∈ recvAfter := hl ▸ List.mem_map_of_mem hx
    rw [hop] at hmem
    simp [recvAfter] at hmem
  obtain ⟨m, hone, hmail⟩ := (ipc_exactly_once hboot h₀ hc hrecv h hr).1 hc'
  exact ⟨k₁, k', l, m, h, hc', hl, hone, hmail⟩

end Mos
