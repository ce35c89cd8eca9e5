import Mos.Kern.EnvIds
import Mos.Kern.Ipc
import Mos.Kern.Counter

/-!
# The mailbox of a new env

`env_alloc` takes the first slot of `env_free_list` and sets some of its fields; the fields of the
message are not among them, and `env_free` does not reset them either. So a child inherits the mailbox
of the last env in its slot. If that env was waiting for a message when it was destroyed, the child
takes the next message before it has ever asked for one, and is woken by it (`woken_before_birth`).
`new_mailbox_iff` says that this is the only way to go wrong.
-/

namespace Mos

open Lib Prog Function

variable {k k' k₁ : Kernel} {e : EnvPtr} {op : Op} {b : Boot} {id : Word}

/-! ## The child of `sys_exofork` -/

theorem envx_id (n : Word) (e : EnvPtr) : envx (envIdOf n e) = e := by
  apply Fin.ext
  have hmask : (0x3ff : Word).toNat = 2 ^ 10 - 1 := rfl
  have he : e.val < 1024 := e.isLt
  have hlow : (BitVec.ofNat 32 e.val).toNat % 2 ^ 10 = e.val := by
    rw [BitVec.toNat_ofNat]
    omega
  have hhigh : (n <<< 11).toNat % 2 ^ 10 = 0 := by
    rw [BitVec.toNat_shiftLeft, Nat.shiftLeft_eq]
    omega
  show (envIdOf n e &&& 0x3ff).toNat = e.val
  rw [BitVec.toNat_and, hmask, Nat.and_two_pow_sub_one_eq_mod, envIdOf, BitVec.toNat_or,
    Nat.or_mod_two_pow, hhigh, hlow, Nat.zero_or]

/-- `e` is the child that `sys_exofork` has made in the first free slot. -/
structure Kernel.Child (k : Kernel) (e : EnvPtr) (id : Word) (k₁ : Kernel) : Prop where
  slot : envx id = e
  envId : (k₁.envs e).envId = id
  status : (k₁.envs e).envStatus = .notRunnable
  ipc : (k₁.envs e).ipc = (k.envs e).ipc
  envFreeList : k₁.envFreeList = k.envFreeList.erase e

theorem sysExofork_child (k : Kernel) :
    (sysExofork k).Sat
      (fun r k₁ => ∃ e id, k.envFreeList.head? = some e ∧ r = .value id ∧ k.Child e id k₁)
      (fun _ _ => True) (fun _ => True) := by
  refine sat_call (curenvPtr_spec k) ?_ (fun _ _ hq => hq.elim) (fun _ h => h)
  rintro c _ ⟨rfl, -⟩
  rw [get_bind]
  refine sat_call (envAlloc_numbered _ k) ?_ (fun _ _ _ => trivial) (fun _ h => h)
  rintro e k₂ ⟨⟨rest, hlist⟩, hfree, k₃, hnum, henvs, -⟩
  rw [modify_bind, get_bind]
  refine ⟨e, envIdOf (k.mkenvidCount + 1) e, by rw [hlist]; rfl, ?_, envx_id _ e, ?_, ?_, ?_, hfree⟩
  · rw [setEnv_envs, update_self, henvs]
    exact congrArg _ hnum.envId
  · rw [setEnv_envs, update_self, henvs]
    exact hnum.envId
  · rw [setEnv_envs, update_self]
  · rw [setEnv_envs, update_self]
    show (k₂.envs e).ipc = _
    rw [henvs, hnum.drafted.ipc]

/-! ## Until the child asks for a message -/

/-- The operation is not a `sys_ipc_recv` of `e` itself, and does not destroy `e`. -/
def Op.Unasked (e : EnvPtr) (k : Kernel) (op : Op) : Prop :=
  ¬Receives e (k, op) ∧ ∀ envid, op = .envDestroy envid → envid2env envid true k ≠ .ret e k

/-- The operation does not set the status of `e` either. -/
def Op.Unstarted (e : EnvPtr) (k : Kernel) (op : Op) : Prop :=
  op.Unasked e k ∧ ∀ envid st, op = .setEnvStatus envid st → envid2env envid true k ≠ .ret e k

/-- Every `sys_ipc_try_send` to `e` is refused and changes nothing. -/
def Kernel.Refuses (k : Kernel) (e : EnvPtr) : Prop :=
  ∀ envid value srcva perm, envid2env envid false k = .ret e k →
    sysIpcTrySend envid value srcva perm k =
      .err (if srcva ≠ 0 ∧ isIllegalVa srcva = true then .inval else .ipcNotRecv) k

/-- A mailbox that is closed until its owner opens it. -/
structure Kernel.CleanMailbox (k : Kernel) (e : EnvPtr) : Prop where
  refuses : ∀ l k', Trace (Op.Unasked e) k l k' → k'.Refuses e
  status : ∀ l k', Trace (Op.Unstarted e) k l k' → (k'.envs e).envStatus = .notRunnable

theorem refuses_of_closed (h : (k.envs e).envIpcRecving = 0) : k.Refuses e := by
  intro envid value srcva perm he
  by_cases hva : srcva ≠ 0 ∧ isIllegalVa srcva = true
  · rw [if_pos hva, sysIpcTrySend, if_pos hva]
    rfl
  · rw [if_neg hva]
    exact send_refused hva he h

/-- A message without a page to a waiting env does not fail. -/
theorem send_taken {envid : Word} (value perm : Word) (he : envid2env envid false k = .ret e k)
    (h : (k.envs e).envIpcRecving ≠ 0) :
    (sysIpcTrySend envid value 0 perm k).Sat (fun _ _ => True) (fun _ _ => False)
      (fun _ => True) := by
  rw [sysIpcTrySend, if_neg (by simp), bind_ret he, get_bind, if_neg h]
  refine sat_call (curenvPtr_spec k) ?_ (fun _ _ hq => hq.elim) (fun _ _ => trivial)
  rintro c _ ⟨rfl, -⟩
  rw [modify_bind]
  refine sat_call (schedInsertTail_same e _) ?_ (fun _ _ hq => hq.elim) (fun _ hq => hq)
  intro _ k₂ _
  rw [if_neg (by simp)]
  trivial

theorem closed_step (h : (k.envs e).envIpcRecving = 0) (hop : op.Unasked e k)
    (hstep : Step op k k') : (k'.envs e).envIpcRecving = 0 := by
  have hm : message e (k, op) = none := by
    cases op with
    | ipcTrySend envid v srcva p => exact message_none fun hf => hf.2.2 h
    | _ => rfl
  exact (recving_of_ipc (ipc_kept (fun envid => hop.2 envid) hstep hop.1 hm).1).trans h

theorem closed_trace (h : (k.envs e).envIpcRecving = 0) {l : List (Kernel × Op)}
    (ht : Trace (Op.Unasked e) k l k') : (k'.envs e).envIpcRecving = 0 := by
  induction ht with
  | nil => exact h
  | snoc _ op hop hstep ih => exact closed_step ih hop hstep

/-- A child that nobody has started. -/
structure Kernel.Asleep (k : Kernel) (e : EnvPtr) : Prop where
  recving : (k.envs e).envIpcRecving = 0
  status : (k.envs e).envStatus = .notRunnable
  unlisted : e ∉ k.envFreeList

theorem Kernel.Asleep.of_env (h : k.Asleep e) (hk : k'.envs e = k.envs e)
    (hfree : k'.envFreeList = k.envFreeList) : k'.Asleep e :=
  ⟨by rw [hk]; exact h.recving, by rw [hk]; exact h.status, by rw [hfree]; exact h.unlisted⟩

theorem Kernel.Asleep.switched (h : k.Asleep e) (hs : k.Switched k') : k'.Asleep e := by
  obtain ⟨hipc, hst, -, hfree⟩ := hs.ipc e
  exact ⟨(recving_of_ipc hipc).trans h.recving, hst.trans h.status, by rw [hfree]; exact h.unlisted⟩

theorem Kernel.Asleep.same (h : k.Asleep e) (hs : k.SameEnvs k') : k'.Asleep e :=
  h.of_env (by rw [hs.envs]) hs.envFreeList

theorem Kernel.Asleep.setEnv (h : k.Asleep e) {e' : EnvPtr} (hne : e ≠ e') (f : Env → Env) :
    (k.setEnv e' f).Asleep e :=
  h.of_env (by rw [setEnv_envs, update_of_ne hne]) rfl

theorem Kernel.Asleep.born (h : k.Asleep e) {e' : EnvPtr} (hb : k.Born e' k') : k'.Asleep e := by
  have hne : e ≠ e' := by
    rintro rfl
    exact h.unlisted hb.listed
  refine ⟨by rw [hb.other e hne]; exact h.recving, by rw [hb.other e hne]; exact h.status, ?_⟩
  rw [hb.envFreeList]
  exact fun hc => h.unlisted (List.mem_of_mem_erase hc)

theorem Kernel.Asleep.released (h : k.Asleep e) {e' : EnvPtr} (hne : e ≠ e') :
    (k.released e').Asleep e := by
  have hs := h.setEnv hne fun v => { v with envStatus := .free }
  refine ⟨hs.recving, hs.status, ?_⟩
  rintro (_ | ⟨_, hc⟩)
  · exact hne rfl
  · exact h.unlisted hc

/-- Nothing starts a sleeping child but its own `sys_ipc_recv`, `sys_set_env_status` and
`sys_env_destroy`. -/
theorem Kernel.Asleep.step (h : k.Asleep e) (hop : op.Unstarted e k) (hstep : Step op k k') :
    k'.Asleep e := by
  have hpost := exec_post hstep
  obtain ⟨⟨hrecv, hdestroy⟩, hset⟩ := hop
  cases op with
  | envCreate binary p =>
    obtain ⟨e', hborn, -⟩ := hpost
    exact h.born hborn
  | timer => exact h.switched hpost
  | yield => exact h.switched hpost
  | exofork =>
    rcases hpost with (rfl | ⟨e', he', hd⟩) | ⟨e', -, hborn, -⟩
    · exact h
    · have hne : e ≠ e' := by
        rintro rfl
        exact h.unlisted he'
      exact h.of_env (hd.other e hne) hd.envFreeList
    · exact h.born hborn
  | setEnvStatus envid st =>
    rcases hpost with rfl | ⟨e', st', he', -, hs⟩
    · exact h
    · have hne : e ≠ e' := by
        rintro rfl
        exact hset envid st rfl he'
      exact (h.setEnv hne _).same hs
  | setTlbModEntry envid f =>
    rcases hpost with rfl | ⟨e', -, rfl⟩
    · exact h
    · by_cases hne : e = e'
      · subst hne
        refine ⟨?_, ?_, h.unlisted⟩
        · rw [setEnv_envs, update_self]
          exact h.recving
        · rw [setEnv_envs, update_self]
          exact h.status
      · exact h.setEnv hne _
  | envDestroy envid =>
    rcases hpost with hs | ⟨e', he', ⟨-, hs⟩ | ⟨-, hs⟩⟩
    · exact h.same hs
    all_goals
      have hne : e ≠ e' := by
        rintro rfl
        exact hdestroy envid rfl he'
    · exact (h.released hne).same hs
    · have hr := h.released hne
      have hr' : Kernel.Asleep { k.released e' with curenv := none } e :=
        ⟨hr.recving, hr.status, hr.unlisted⟩
      exact hr'.switched hs
  | ipcRecv dstva =>
    rcases hpost with rfl | ⟨hva, c, hc, hs⟩
    · exact h
    · have hne : e ≠ c := by
        rintro rfl
        exact hrecv ⟨dstva, rfl, hva, hc⟩
      have hw := h.setEnv hne fun v => { v with
        envIpcRecving := 1, envIpcDstva := dstva, envStatus := .notRunnable }
      have hwaits : (k.waits c dstva).Asleep e := ⟨hw.recving, hw.status, hw.unlisted⟩
      exact hwaits.switched hs
  | ipcTrySend envid v srcva p =>
    rcases hpost with ⟨rfl, -⟩ | ⟨e', c, hf, -, hs⟩
    · exact h
    · have hne : e ≠ e' := by
        rintro rfl
        exact hf.2.2 h.recving
      exact (h.setEnv hne _).same hs
  | setTrapframe envid tf =>
    rcases hpost with hs | ⟨e', -, c, ws, k₁, -, -, -, hs, rfl⟩
    · exact h.same hs
    · have h₁ := h.same hs
      split
      · exact ⟨h₁.recving, h₁.status, h₁.unlisted⟩
      · by_cases hne : e = e'
        · subst hne
          refine ⟨?_, ?_, h₁.unlisted⟩
          · rw [setEnv_envs, update_self]
            exact h₁.recving
          · rw [setEnv_envs, update_self]
            exact h₁.status
        · exact h₁.setEnv hne _
  | trap tf =>
    obtain rfl := hpost
    exact ⟨h.recving, h.status, h.unlisted⟩
  | tlbRefill va asid => exact h.same hpost
  | memAlloc envid va p => exact h.same hpost
  | memMap s sv d dv p => exact h.same hpost
  | memUnmap envid va => exact h.same hpost
  | store va w => exact h.same hpost

theorem Kernel.Asleep.trace (h : k.Asleep e) {l : List (Kernel × Op)}
    (ht : Trace (Op.Unstarted e) k l k') : k'.Asleep e := by
  induction ht with
  | nil => exact h
  | snoc _ op hop hstep ih => exact ih.step hop hstep

/-- **The child of `sys_exofork` has a clean mailbox exactly if the last env in its slot was not
waiting for a message when it went.** -/
theorem new_mailbox_iff (h : Reach (fun _ _ => True) b k) (he : k.envFreeList.head? = some e)
    (hret : sysExofork k = .ret (.value id) k₁) (hid : id ≠ 0) :
    k₁.CleanMailbox (envx id) ↔ (k.envs e).envIpcRecving = 0 := by
  obtain ⟨M, hgood⟩ := h.good
  have hchild := sysExofork_child k
  rw [hret] at hchild
  obtain ⟨e', id', he', hid', hchild⟩ := hchild
  obtain rfl : e = e' := Option.some.inj (he.symm.trans he')
  obtain rfl : id = id' := by
    injection hid'
  have hrecv := recving_of_ipc hchild.ipc
  rw [hchild.slot, ← hrecv]
  constructor
  · intro hclean
    have hl : k₁.Live e := by
      rw [Kernel.Live, hchild.status]
      simp
    have hfind : envid2env id false k₁ = .ret e k₁ := by
      rw [envid2env_slot hid, hchild.slot, if_pos ⟨hl, hchild.envId⟩]
    by_contra hne
    have htaken := send_taken 0 0 hfind hne
    rw [hclean.refuses [] k₁ .nil id 0 0 0 hfind] at htaken
    exact htaken
  · intro h0
    refine ⟨fun l k' ht => refuses_of_closed (closed_trace h0 ht), fun l k' ht => ?_⟩
    have hasleep : k₁.Asleep e := by
      refine ⟨h0, hchild.status, ?_⟩
      rw [hchild.envFreeList]
      exact fun hc => (List.Nodup.mem_erase_iff hgood.inv.free_nodup).mp hc |>.1 rfl
    exact (hasleep.trace ht).status

/-! ## A new child, and a recycled slot -/

/-- The state and the child of a `sys_exofork` after some operations. -/
theorem exists_exofork (ops : List Op) (test : Kernel → Word → Kernel → Bool)
    (h : ((boot smallBoot).state?.bind (plainOps ops)).any (fun k =>
      match sysExofork k with
      | .ret (.value id) k₁ => test k id k₁
      | _ => false) = true) :
    ∃ k id k₁, Reach (fun _ _ => True) smallBoot k ∧ sysExofork k = .ret (.value id) k₁ ∧
      test k id k₁ = true := by
  obtain ⟨k, hr, htest⟩ := exists_fitting smallBoot ops _ h
  split at htest
  next id k₁ hret => exact ⟨k, id, k₁, hr.reach, hret, htest⟩
  next => cases htest

theorem new_mailbox_first : ∃ k k₁, sysExofork k = .ret (.value 4097) k₁ ∧
    k₁.CleanMailbox 1 := by
  obtain ⟨k, id, k₁, hr, hret, htest⟩ := exists_exofork
    [.envCreate (some emptyImage) 1, .timer] (fun k id _ => id == 4097 &&
      k.envFreeList.head? == some 1 && (k.envs 1).envIpcRecving == 0) (by decide +kernel)
  simp only [Bool.and_eq_true, beq_iff_eq] at htest
  obtain ⟨⟨rfl, he⟩, h0⟩ := htest
  exact ⟨k, k₁, hret, (new_mailbox_iff hr he hret (by decide)).mpr h0⟩

/-- A child waits for a message, and its parent destroys it. -/
def recycleRun : List Op :=
  [.envCreate (some emptyImage) 1, .timer, .exofork, .setEnvStatus 4097 1, .yield, .ipcRecv 0,
    .envDestroy 4097]

/-- **The next child in the slot is woken by a message that it never asked for.** -/
theorem woken_before_birth : ∃ k k₁ k₂ r, Reach (fun _ _ => True) smallBoot k ∧
    sysExofork k = .ret (.value 6145) k₁ ∧ (k₁.envs 1).envStatus = .notRunnable ∧
    sysIpcTrySend 6145 7 0 0 k₁ = .ret r k₂ ∧ (k₂.envs 1).envStatus = .runnable ∧
    ¬k₁.CleanMailbox 1 := by
  obtain ⟨k, id, k₁, hr, hret, htest⟩ := exists_exofork recycleRun (fun _ id k₁ => id == 6145 &&
    (k₁.envs 1).envStatus == .notRunnable && (envid2env 6145 false k₁).retAnd (fun e _ => e == 1) &&
    (sysIpcTrySend 6145 7 0 0 k₁).retAnd fun _ k₂ => (k₂.envs 1).envStatus == .runnable)
    (by decide +kernel)
  simp only [Bool.and_eq_true, beq_iff_eq] at htest
  obtain ⟨⟨⟨rfl, hst⟩, hfind⟩, hsend⟩ := htest
  obtain ⟨r, k₂, hsent, hsend⟩ := Outcome.retAnd_eq_true.mp hsend
  obtain ⟨e, k₃, he, hfind⟩ := Outcome.retAnd_eq_true.mp hfind
  refine ⟨k, k₁, k₂, r, hr, hret, hst, hsent, by simpa using hsend, fun hclean => ?_⟩
  have heq := envid2env_eq 6145 false k₁
  rw [he] at heq
  obtain ⟨rfl, -⟩ := heq
  obtain rfl : e = 1 := by simpa using hfind
  have href := hclean.refuses [] k₁ .nil 6145 7 0 0 he
  rw [hsent] at href
  cases href

end Mos
