import Mos.Kern.Envs
import Mos.Kern.Reach

/-!
# Every env resumes in user mode

The status register of the CPU holds a stack of three pairs of bits, mode and interrupt enable: an
exception pushes, `rfe` pops. What an env resumes with is the previous pair of the word that
`RESTORE_SOME` loads, from the trap frame on the kernel stack or, after a switch, from `env_tf`. A
`Machine` is the kernel together with the status register while an env runs. Trap frames are saved by
the hardware's push, copied by `sys_exofork` and `env_run`, and replaced from user memory by
`sys_set_trapframe`, which does not look at the status word. `resumes_in_user_mode` says that this is
the only way out of user mode.
-/

namespace Mos

open Lib Prog Function

variable {M : List Nat} {k k' : Kernel} {c e : EnvPtr} {op : Op} {w : Word}

/-! ## The status register -/

/-- `STATUS_KUp`. -/
def statusKUp : Word := 0x8
/-- `STATUS_IEp`. -/
def statusIEp : Word := 0x4
/-- `STATUS_KUc`. -/
def statusKUc : Word := 0x2
/-- `STATUS_IEc`. -/
def statusIEc : Word := 0x1

/-- What an exception does to the status register: it pushes kernel mode without interrupts. -/
def enterStatus (s : Word) : Word := (s &&& ~~~(0x3f : Word)) ||| (s &&& 0xf) <<< 2

/-- What `rfe` does to the status register: it pops. -/
def leaveStatus (s : Word) : Word := (s &&& ~~~(0xf : Word)) ||| (s >>> 2 &&& 0xf)

/-- A saved status that leads back to user mode with interrupts. -/
def UserStatus (s : Word) : Prop := has s statusKUp = true ∧ has s statusIEp = true

instance (s : Word) : Decidable (UserStatus s) := inferInstanceAs (Decidable (_ ∧ _))

/-- User mode with interrupts. -/
def UserMode (s : Word) : Prop := has s statusKUc = true ∧ has s statusIEc = true

theorem has_bit (s : Word) (i : Nat) (hi : i < 32) : has s (1#32 <<< i) = s.getLsbD i := by
  have hone : ∀ j, (1#32 <<< i).getLsbD j = decide (j = i) := by
    intro j
    rw [BitVec.getLsbD_shiftLeft]
    by_cases hj : j < 32 <;> by_cases hji : j < i <;> simp [hj, hji] <;> omega
  cases hs : s.getLsbD i with
  | true =>
    have hne : s &&& 1#32 <<< i ≠ 0 := by
      intro h0
      have := congrArg (·.getLsbD i) h0
      simp [BitVec.getLsbD_and, hone, hs] at this
    simpa [has] using hne
  | false =>
    have h0 : s &&& 1#32 <<< i = 0#32 := by
      apply BitVec.eq_of_getLsbD_eq
      intro j _
      rw [BitVec.getLsbD_and, hone]
      by_cases hj : j = i
      · simp [hj, hs]
      · simp [hj]
    simp [has, h0]

theorem userStatus_iff (s : Word) :
    UserStatus s ↔ s.getLsbD 3 = true ∧ s.getLsbD 2 = true := by
  unfold UserStatus
  rw [show statusKUp = 1#32 <<< 3 by decide, show statusIEp = 1#32 <<< 2 by decide,
    has_bit s 3 (by decide), has_bit s 2 (by decide)]

theorem userMode_iff (s : Word) :
    UserMode s ↔ s.getLsbD 1 = true ∧ s.getLsbD 0 = true := by
  unfold UserMode
  rw [show statusKUc = 1#32 <<< 1 by decide, show statusIEc = 1#32 <<< 0 by decide,
    has_bit s 1 (by decide), has_bit s 0 (by decide)]

/-- An exception in user mode saves a status that leads back. -/
theorem userStatus_enter {s : Word} (h : UserMode s) : UserStatus (enterStatus s) := by
  rw [userMode_iff] at h
  rw [userStatus_iff, enterStatus]
  simp [h]

/-- A status that leads back to user mode does so. -/
theorem userMode_leave {s : Word} (h : UserStatus s) : UserMode (leaveStatus s) := by
  rw [userStatus_iff] at h
  rw [userMode_iff, leaveStatus]
  simp [h]

theorem userStatus_user : UserStatus statusUser := by decide

/-! ## What the kernel loads -/

/-- The word at a user address; a page that is not there yet will be mapped cleared. -/
def Kernel.userWord (k : Kernel) (c : EnvPtr) (va : Word) : Word :=
  match k.vm.leaf c (ppn va) with
  | none => 0
  | some pte => k.mem (ppn pte) (wordIndex va)

theorem userWord_mapped {va pte : Word} (h : k.vm.leaf c (ppn va) = some pte) :
    k.userWord c va = k.mem (ppn pte) (wordIndex va) := by
  unfold Kernel.userWord
  rw [h]

/-- A refill changes no word of user memory. -/
theorem userWord_refill (h : k.vm.Inv M) (hd : k.vm.dir c = some k.curPgdir) {va : Word}
    (hva : va < utop) (asid : Word) :
    (doTlbRefill va asid k).Sat
      (fun pte k' => k'.vm.Inv M ∧ k'.vm.leaf c (ppn va) = some pte ∧
        k'.userWord c = k.userWord c) (fun _ _ => False) (fun _ => True) := by
  refine (doTlbRefill_spec h hd hva asid).mono ?_ (fun _ _ h => h) (fun _ h => h)
  rintro pte k₁ ⟨hinv₁, hl₁, rfl | ⟨hnone, pp, hpp, hzero, hmap⟩⟩
  · exact ⟨hinv₁, hl₁, rfl⟩
  · refine ⟨hinv₁, hl₁, funext fun va' => ?_⟩
    have hlt : pp < 2 ^ 20 := lt_trans (h.managed pp (h.free_spec pp hpp).1) h.npage_lt
    unfold Kernel.userWord
    rw [hmap.leaf]
    by_cases hpage : ppn va' = ppn va
    · rw [if_pos ⟨rfl, hpage⟩, hpage, hnone]
      have hppn : ppn (pageEntry pp pteD) = pp := ppn_entry hlt (by decide)
      simp only [hppn, hzero]
    · rw [if_neg fun hc => hpage hc.2]
      cases hl : k.vm.leaf c (ppn va') with
      | none => rfl
      | some w => exact congrFun (hmap.data _ (h.usable_of_leaf hl)) _

theorem loadUser_word (h : k.vm.Inv M) (hd : k.vm.dir c = some k.curPgdir) {va : Word}
    (hva : va < utop) (asid : Word) :
    (loadUser va asid k).Sat
      (fun w k' => k'.vm.Inv M ∧ w = k.userWord c va ∧ k'.userWord c = k.userWord c)
      (fun _ _ => False) (fun _ => True) := by
  unfold loadUser
  split
  · trivial
  · refine sat_call (userWord_refill h hd hva asid) ?_ (fun _ _ h => h) (fun _ h => h)
    rintro pte k₁ ⟨hinv₁, hl₁, hword⟩
    refine ⟨hinv₁, ?_, hword⟩
    rw [← hword, userWord_mapped hl₁]

/-- **The loaded words are the words of user memory.** -/
theorem loadUserWords_words (asid : Word) : ∀ {n : Nat} {k : Kernel} {va : Word}, k.vm.Inv M →
    k.vm.dir c = some k.curPgdir → va.toNat + 4 * n ≤ utop.toNat →
    (loadUserWords asid va n k).Sat
      (fun ws _ => ∀ i < n, ws.getD i 0 = k.userWord c (va + BitVec.ofNat 32 (4 * i)))
      (fun _ _ => False) (fun _ => True)
  | 0, _, _, _, _, _ => fun i hi => absurd hi (Nat.not_lt_zero i)
  | n + 1, k, va, h, hd, hva => by
    have hlt : va < utop := show va.toNat < utop.toNat by omega
    refine sat_call ((loadUser_word h hd hlt asid).and (framed_loadUser va asid k)) ?_
      (fun _ _ h => h.1) (fun _ _ => trivial)
    rintro w k₁ ⟨⟨hinv₁, rfl, hword⟩, hf₁⟩
    have hd₁ : k₁.vm.dir c = some k₁.curPgdir := by
      rw [hf₁.dir, hf₁.curPgdir]
      exact hd
    have hnext : (va + 4).toNat = va.toNat + 4 := by
      have := toNat_utop
      rw [BitVec.toNat_add, show (4 : Word).toNat = 4 from rfl]
      omega
    refine sat_call (loadUserWords_words asid hinv₁ hd₁ (by rw [hnext]; omega)) ?_ (fun _ _ h => h)
      (fun _ h => h)
    intro ws k₂ hws i hi
    cases i with
    | zero => simp
    | succ i =>
      have haddr : va + 4 + BitVec.ofNat 32 (4 * i) = va + BitVec.ofNat 32 (4 * (i + 1)) := by
        apply BitVec.eq_of_toNat_eq
        simp only [BitVec.toNat_add, BitVec.toNat_ofNat, show (4 : Word).toNat = 4 from rfl]
        omega
      rw [List.getD_cons_succ, hws i (by omega), hword, haddr]

/-! ## The machine -/

/-- The handlers of the kernel, with what they do with the caller. -/
def serve : Op → KernM SysRet
  | .envCreate b p => do
    let _ ← envCreate b p
    pure (.value 0)
  | .timer => do
    schedule false
    pure .switched
  | .yield => sysYield
  | .tlbRefill va asid => do
    tlbRefill va asid
    pure (.value 0)
  | .memAlloc e va p => sysMemAlloc e va p
  | .memMap s sv d dv p => sysMemMap s sv d dv p
  | .memUnmap e va => sysMemUnmap e va
  | .exofork => sysExofork
  | .setEnvStatus e st => sysSetEnvStatus e st
  | .setTlbModEntry e f => sysSetTlbModEntry e f
  | .envDestroy e => sysEnvDestroy e
  | .ipcRecv va => sysIpcRecv va
  | .ipcTrySend e v s p => sysIpcTrySend e v s p
  | .setTrapframe e tf => sysSetTrapframe e tf
  | .trap tf => do
    modify fun k => { k with kstackTf := tf }
    pure (.value 0)
  | .store va w => do
    storeUser va w
    pure (.value 0)

theorem state?_drop {α : Type} (m : KernM α) (k : Kernel) :
    ((m >>= fun _ => pure ()) k).state? = (m k).state? := by
  rw [bind_apply]
  cases m k <;> rfl

theorem serve_state (op : Op) (k : Kernel) : (serve op k).state? = (exec op k).state? := by
  have hret : ∀ {α : Type} (m : KernM α) (r : SysRet),
      ((m >>= fun _ => pure r) k).state? = (m k).state? := by
    intro α m r
    rw [bind_apply]
    cases m k <;> rfl
  cases op with
  | envCreate b p => exact (hret _ _).trans (state?_drop _ k).symm
  | timer => exact hret _ _
  | tlbRefill va asid => exact hret _ _
  | store va w => exact hret _ _
  | trap tf => rfl
  | _ => exact (state?_drop _ k).symm

/-- The kernel and, while an env runs, the status register. -/
structure Machine where
  kernel : Kernel
  running : Option Word

/-- How a handler ends: the kernel it leaves and the status that `RESTORE_SOME` loads, from `env_tf`
after a switch and from the kernel stack otherwise. -/
def resumed : Outcome Kernel Err Panic SysRet → Option (Kernel × Word)
  | .ret .switched k => k.curenv.map fun c => (k, (k.envs c).envTf.cp0Status)
  | .ret (.value _) k => some (k, k.kstackTf.cp0Status)
  | .err _ k => some (k, k.kstackTf.cp0Status)
  | .halt _ => none

/-- The operations that the kernel performs in an exception of the current env. -/
def Op.Handler : Op → Prop
  | .envCreate _ _ => False
  | .trap _ => False
  | .store _ _ => False
  | _ => True

/-- The machines that runs from boot lead to, with handlers that meet `ok`. Envs are created before
the first one runs; the first exception is a timer interrupt. -/
inductive Machine.Reach (ok : Kernel → Op → Prop) (b : Boot) : Machine → Prop
  | boot {k : Kernel} (h : boot b = .ret () k) : Machine.Reach ok b ⟨k, none⟩
  | create {k k' : Kernel} (h : Machine.Reach ok b ⟨k, none⟩) (hc : k.curenv = none)
      (binary : Option ElfImage) (p : Word) (hsane : Op.Sane k (.envCreate binary p))
      (hstep : Step (.envCreate binary p) k k') (hcount : k'.vm.Bounded) :
      Machine.Reach ok b ⟨k', none⟩
  | serve {k k' : Kernel} {w : Word} (h : Machine.Reach ok b ⟨k, none⟩) (op : Op)
      (hop : op.Handler) (hcur : k.curenv ≠ none ∨ op = .timer) (hsane : op.Sane k)
      (hok : ok k op) (hret : resumed (Mos.serve op k) = some (k', w))
      (hcount : k'.vm.Bounded) : Machine.Reach ok b ⟨k', some (leaveStatus w)⟩
  | trap {k : Kernel} {s : Word} (h : Machine.Reach ok b ⟨k, some s⟩) (tf : Trapframe)
      (htf : tf.cp0Status = enterStatus s) : Machine.Reach ok b ⟨{ k with kstackTf := tf }, none⟩
  | store {k k' : Kernel} {s : Word} (h : Machine.Reach ok b ⟨k, some s⟩) (va w : Word)
      (hstep : Step (.store va w) k k') (hcount : k'.vm.Bounded) :
      Machine.Reach ok b ⟨k', some s⟩
  | evict {k : Kernel} {r : Option Word} (h : Machine.Reach ok b ⟨k, r⟩) (tlb : List TlbEntry)
      (hsub : tlb ⊆ k.tlb) : Machine.Reach ok b ⟨{ k with tlb := tlb }, r⟩

variable {ok : Kernel → Op → Prop} {b : Boot} {m m' : Machine}

theorem step_of_resumed (h : resumed (serve op k) = some (k', w)) : Step op k k' := by
  have hstate : (serve op k).state? = some k' := by
    cases hs : serve op k with
    | ret r k₁ =>
      rw [hs] at h
      cases r with
      | switched =>
        obtain ⟨c, -, hc⟩ := Option.map_eq_some_iff.mp h
        exact congrArg some (congrArg Prod.fst hc)
      | value v => exact congrArg some (congrArg Prod.fst (Option.some.inj h))
    | err er k₁ =>
      rw [hs] at h
      exact congrArg some (congrArg Prod.fst (Option.some.inj h))
    | halt p =>
      rw [hs] at h
      cases h
  rw [serve_state] at hstate
  exact hstate

/-- The kernel of a machine that runs lead to is reachable. -/
theorem Machine.Reach.kernel (h : Machine.Reach ok b m) : Mos.Reach (fun _ _ => True) b m.kernel := by
  induction h with
  | boot hb => exact .boot hb
  | create _ _ binary p hsane hstep hcount ih => exact .step ih _ hsane trivial hstep hcount
  | serve _ op _ _ hsane _ hret hcount ih =>
    exact .step ih op hsane trivial (step_of_resumed hret) hcount
  | @trap k s _ tf _ ih =>
    obtain ⟨M, hgood⟩ := ih.good
    have hsane : Op.Sane k (.trap tf) := trivial
    exact .step ih (.trap tf) hsane trivial rfl hgood.inv.vm.bounded
  | @store k k' s _ va w hstep hcount ih =>
    have hsane : Op.Sane k (.store va w) := trivial
    exact .step ih (.store va w) hsane trivial hstep hcount
  | evict _ tlb hsub ih => exact .evict ih tlb hsub

/-! ## Handlers that return to the caller -/

/-- The handlers that never switch to another env. -/
def Op.Returns : Op → Prop
  | .tlbRefill _ _ => True
  | .memAlloc _ _ _ => True
  | .memMap _ _ _ _ _ => True
  | .memUnmap _ _ => True
  | .exofork => True
  | .setEnvStatus _ _ => True
  | .setTlbModEntry _ _ => True
  | .ipcTrySend _ _ _ _ => True
  | .setTrapframe _ _ => True
  | _ => False

theorem serve_returns (hop : op.Returns) (k : Kernel) :
    (serve op k).Sat (fun r _ => r ≠ .switched) (fun _ _ => True) (fun _ => True) := by
  have hval : ∀ (w : Word) (k : Kernel), ((pure (.value w) : KernM SysRet) k).Sat
      (fun r _ => r ≠ .switched) (fun _ _ => True) (fun _ => True) := fun w k hc => by cases hc
  cases op with
  | tlbRefill va asid => exact sat_last fun _ => hval 0
  | memAlloc e va p =>
    simp only [serve, sysMemAlloc]
    split
    · trivial
    · exact sat_last fun _ _ => sat_last fun _ _ => sat_last fun _ _ => sat_last fun _ => hval 0
  | memMap s sv d dv p =>
    simp only [serve, sysMemMap]
    split
    · trivial
    · refine sat_last fun _ _ => sat_last fun _ _ => sat_last fun _ _ => sat_last fun r k => ?_
      split
      · trivial
      · exact sat_last fun _ => hval 0
  | memUnmap e va =>
    simp only [serve, sysMemUnmap]
    split
    · trivial
    · exact sat_last fun _ _ => sat_last fun _ _ => sat_last fun _ => hval 0
  | exofork =>
    exact sat_last fun _ _ => sat_last fun _ _ => sat_last fun _ _ => sat_last fun _ _ =>
      sat_last fun _ => hval _
  | setEnvStatus e st =>
    simp only [serve, sysSetEnvStatus]
    cases statusArg st with
    | none => trivial
    | some st =>
      refine sat_last fun _ _ => sat_last fun _ k => ?_
      split
      · exact sat_last fun _ _ => sat_last fun _ => hval 0
      · split
        · exact sat_last fun _ _ => sat_last fun _ => hval 0
        · exact sat_last fun _ => hval 0
  | setTlbModEntry e f => exact sat_last fun _ _ => sat_last fun _ => hval 0
  | ipcTrySend e v s p =>
    simp only [serve, sysIpcTrySend]
    split
    · trivial
    · refine sat_last fun _ _ => sat_last fun _ k => ?_
      split
      · trivial
      · refine sat_last fun _ _ => sat_last fun _ _ => sat_last fun _ k => ?_
        split
        · refine sat_last fun _ _ => sat_last fun r k => ?_
          split
          · trivial
          · exact sat_last fun _ => hval 0
        · exact hval 0 k
  | setTrapframe e tf =>
    simp only [serve, sysSetTrapframe]
    split
    · trivial
    · refine sat_last fun _ _ => sat_last fun _ _ => sat_last fun _ _ => sat_last fun _ k => ?_
      split
      · exact sat_last fun _ => hval _
      · exact sat_last fun _ => hval 0
  | _ => exact hop.elim

/-- Such a handler resumes the caller from the kernel stack. -/
theorem status_of_returns (hop : op.Returns) (h : resumed (serve op k) = some (k', w)) :
    w = k'.kstackTf.cp0Status := by
  have hr := serve_returns hop k
  cases hs : serve op k with
  | ret r k₁ =>
    rw [hs] at h hr
    cases r with
    | switched => exact absurd rfl hr
    | value v =>
      obtain ⟨rfl, rfl⟩ := Prod.mk.inj (Option.some.inj h)
      rfl
  | err er k₁ =>
    rw [hs] at h
    obtain ⟨rfl, rfl⟩ := Prod.mk.inj (Option.some.inj h)
    rfl
  | halt p =>
    rw [hs] at h
    cases h

/-! ## Saved contexts -/

/-- The contexts of the envs that do not run lead back to user mode. -/
def Kernel.Tame (k : Kernel) : Prop :=
  ∀ e, k.Live e → k.curenv ≠ some e → UserStatus (k.envs e).envTf.cp0Status

/-- So does the context of the current env on the kernel stack. -/
def Kernel.Caught (k : Kernel) : Prop :=
  ∀ c, k.curenv = some c → UserStatus k.kstackTf.cp0Status

theorem Kernel.Tame.same (h : k.Tame) (hs : k.SameEnvs k') : k'.Tame := by
  intro e hl hc
  unfold Kernel.Live at hl
  rw [hs.envs] at hl ⊢
  rw [hs.curenv] at hc
  exact h e hl hc

theorem tf_ran (k : Kernel) (e e' : EnvPtr) : ((k.ran e).envs e').envTf =
    if k.curenv = some e' then k.kstackTf else (k.envs e').envTf := by
  have hruns : ((k.ran e).envs e').envTf = (k.saved.envs e').envTf := by
    show (update k.saved.envs e _ e').envTf = _
    by_cases he : e' = e
    · rw [he, update_self]
    · rw [update_of_ne he]
  rw [hruns]
  unfold Kernel.saved
  cases hc : k.curenv with
  | none => simp
  | some c =>
    simp only [setEnv_envs]
    by_cases he : e' = c
    · rw [he, update_self, if_pos rfl]
    · rw [update_of_ne he, if_neg fun hce => he (Option.some.inj hce).symm]

/-! ## Handlers -/

/-- The steps that keep envs in user mode: the trap frame that `sys_set_trapframe` is given has the
right status. -/
def Op.FrameOk (k : Kernel) : Op → Prop
  | .setTrapframe envid tf => isIllegalVaRange tf 152 = false → ∀ c e, k.curenv = some c →
    envid2env envid true k = .ret e k → UserStatus (k.userWord c (tf + 128))
  | _ => True

theorem Kernel.Tame.setEnv (h : k.Tame) (hl : k.Live e) {f : Env → Env}
    (htf : (f (k.envs e)).envTf = (k.envs e).envTf) : (k.setEnv e f).Tame := by
  intro e' hl' hc
  unfold Kernel.Live at hl'
  rw [setEnv_envs] at hl' ⊢
  by_cases he : e' = e
  · subst he
    rw [update_self, htf]
    exact h e' hl hc
  · rw [update_of_ne he] at hl' ⊢
    exact h e' hl' hc

theorem Kernel.Tame.born (h : k.Tame) (hb : k.Born e k')
    (htf : UserStatus (k'.envs e).envTf.cp0Status) : k'.Tame := by
  intro e' hl hc
  by_cases he : e' = e
  · rw [he]
    exact htf
  · unfold Kernel.Live at hl
    rw [hb.other e' he] at hl ⊢
    exact h e' hl (hb.curenv ▸ hc)

theorem live_of_envid2env (h : k.Inv M) {envid : Word} {checkperm : Bool}
    (he : envid2env envid checkperm k = .ret e k) : k.Live e := by
  have hspec := envid2env_spec (fun _ => h.live_cur) envid checkperm
  rw [he] at hspec
  exact hspec.2.1

/-- The context that `sys_set_trapframe` loads. -/
theorem status_loaded (h : k.Inv M) (hc : k.curenv = some c) {asid tf : Word} {ws : List Word}
    (hva : isIllegalVaRange tf 152 = false) (hload : loadUserWords asid tf 38 k = .ret ws k') :
    (trapframeOf ws).cp0Status = k.userWord c (tf + 128) := by
  have hrange : tf.toNat + 4 * 38 ≤ utop.toNat := 
    legalRange (by decide) (by decide) (hva ▸ Bool.false_ne_true)
  have hspec := loadUserWords_words (c := c) asid h.vm (h.cur c hc) hrange
  rw [hload] at hspec
  exact hspec 32 (by decide)

/-- A handler that returns keeps all saved contexts in order. -/
theorem returns_tame (h : k.Inv M) (ht : k.Tame) (hk : UserStatus k.kstackTf.cp0Status)
    (hop : op.Returns) (hok : op.FrameOk k) (hstep : Step op k k') :
    k'.Tame ∧ UserStatus k'.kstackTf.cp0Status := by
  have hpost := exec_post hstep
  have hsame : ∀ {k₁ : Kernel}, k₁.SameEnvs k' → k₁.kstackTf = k.kstackTf → k₁.Tame →
      k'.Tame ∧ UserStatus k'.kstackTf.cp0Status := by
    intro k₁ hs htf ht₁
    refine ⟨ht₁.same hs, ?_⟩
    rw [hs.kstackTf, htf]
    exact hk
  cases op with
  | tlbRefill va asid => exact hsame hpost rfl ht
  | memAlloc envid va p => exact hsame hpost rfl ht
  | memMap s sv d dv p => exact hsame hpost rfl ht
  | memUnmap envid va => exact hsame hpost rfl ht
  | exofork =>
    rcases hpost with (rfl | ⟨e, he, hd⟩) | ⟨e, -, hborn, -, htf⟩
    · exact ⟨ht, hk⟩
    · refine ⟨fun e' hl hc => ?_, hd.kstackTf ▸ hk⟩
      have hne : e' ≠ e := by
        rintro rfl
        unfold Kernel.Live at hl
        rw [hd.status] at hl
        exact h.free_dead e' he hl
      unfold Kernel.Live at hl
      rw [hd.other e' hne] at hl ⊢
      exact ht e' hl (hd.curenv ▸ hc)
    · refine ⟨ht.born hborn ?_, hborn.kstackTf ▸ hk⟩
      rw [htf]
      exact hk
  | setEnvStatus envid st =>
    rcases hpost with rfl | ⟨e, st', he, -, hs⟩
    · exact ⟨ht, hk⟩
    · exact hsame hs rfl (ht.setEnv (live_of_envid2env h he) rfl)
  | setTlbModEntry envid f =>
    rcases hpost with rfl | ⟨e, he, rfl⟩
    · exact ⟨ht, hk⟩
    · exact ⟨ht.setEnv (live_of_envid2env h he) rfl, hk⟩
  | ipcTrySend envid v s p =>
    rcases hpost with ⟨rfl, -⟩ | ⟨e, c, hf, -, hs⟩
    · exact ⟨ht, hk⟩
    · exact hsame hs rfl (ht.setEnv (live_of_envid2env h hf.2.1) rfl)
  | setTrapframe envid tf =>
    rcases hpost with hs | ⟨e, he, c, ws, k₁, hc, hva, hload, hs, rfl⟩
    · exact hsame hs rfl ht
    · have hstatus : UserStatus (trapframeOf ws).cp0Status := by
        rw [status_loaded h hc hva hload]
        exact hok hva c e hc he
      have ht₁ := ht.same hs
      split
      · exact ⟨ht₁, hstatus⟩
      · refine ⟨fun e' hl hc' => ?_, hs.kstackTf ▸ hk⟩
        unfold Kernel.Live at hl
        rw [setEnv_envs] at hl ⊢
        by_cases hne : e' = e
        · rw [hne, update_self]
          exact hstatus
        · rw [update_of_ne hne] at hl ⊢
          exact ht₁ e' hl hc'
  | _ => exact hop.elim

/-! ## Handlers that switch -/

/-- A handler has ended well: after a switch all contexts lead back to user mode, and otherwise those
of the waiting envs and the one on the kernel stack. -/
def Settled : SysRet → Kernel → Prop
  | .switched, k => ∀ e, k.Live e → UserStatus (k.envs e).envTf.cp0Status
  | .value _, k => k.Tame ∧ UserStatus k.kstackTf.cp0Status

theorem resumed_settled {o : Outcome Kernel Err Panic SysRet}
    (h : o.Sat Settled (fun _ k => k.Tame ∧ UserStatus k.kstackTf.cp0Status) (fun _ => True))
    (hlive : ∀ c, k'.curenv = some c → k'.Live c) (hret : resumed o = some (k', w)) :
    k'.Tame ∧ UserStatus w := by
  cases o with
  | ret r k₁ =>
    cases r with
    | switched =>
      obtain ⟨c, hc, heq⟩ := Option.map_eq_some_iff.mp hret
      obtain ⟨rfl, rfl⟩ := Prod.mk.inj heq
      exact ⟨fun e hl _ => h e hl, h c (hlive c hc)⟩
    | value v =>
      obtain ⟨rfl, rfl⟩ := Prod.mk.inj (Option.some.inj hret)
      exact h
  | err er k₁ =>
    obtain ⟨rfl, rfl⟩ := Prod.mk.inj (Option.some.inj hret)
    exact h
  | halt p => cases hret

/-- **A switch leaves every context in order.** -/
theorem settled_switched (ht : k.Tame) (hk : k.Caught) (hs : k.Switched k') :
    Settled .switched k' := by
  have hst := hs.field (φ := Env.envStatus) (fun _ _ => rfl) fun _ _ => rfl
  obtain ⟨e, -, hsame⟩ := hs
  intro e' hl
  have hl' : k.Live e' := by
    unfold Kernel.Live at hl ⊢
    rw [← hst e']
    exact hl
  rw [hsame.envs, tf_ran]
  split
  next hc => exact hk e' hc
  next hc => exact ht e' hl' hc

theorem settled_ret (ht : k.Tame) (hk : UserStatus k.kstackTf.cp0Status) (hs : k.Switched k')
    (r : SysRet) : Settled r k' := by
  have hall := settled_switched ht (fun _ _ => hk) hs
  cases r with
  | switched => exact hall
  | value v =>
    obtain ⟨e, -, hsame⟩ := hs
    refine ⟨fun e' hl _ => hall e' hl, ?_⟩
    have hstack : (k.ran e).kstackTf = k.kstackTf := by
      show k.saved.kstackTf = _
      unfold Kernel.saved
      cases k.curenv <;> rfl
    rw [hsame.kstackTf, hstack]
    exact hk

theorem Kernel.Tame.released (h : k.Tame) : (k.released e).Tame := by
  intro e' hl hc
  have hne : e' ≠ e := by
    rintro rfl
    refine hl ?_
    show (update k.envs e' _ e').envStatus = _
    rw [update_self]
  have henv : (k.released e).envs e' = k.envs e' := update_of_ne hne _ _
  unfold Kernel.Live at hl
  rw [henv] at hl ⊢
  exact h e' hl hc

theorem Kernel.Tame.forget (h : k.Tame) (hc : k.curenv = some e) (hdead : ¬k.Live e) :
    Kernel.Tame { k with curenv := none } := by
  intro e' hl _
  refine h e' hl fun hc' => hdead ?_
  rw [Option.some.inj (hc.symm.trans hc')]
  exact hl

theorem not_live_released (k : Kernel) (e : EnvPtr) : ¬(k.released e).Live e := by
  intro hl
  refine hl ?_
  show (update k.envs e _ e).envStatus = _
  rw [update_self]

theorem sysIpcRecv_settled (h : k.Inv M) (ht : k.Tame) (hk : UserStatus k.kstackTf.cp0Status)
    (dstva : Word) :
    (sysIpcRecv dstva k).Sat Settled (fun _ k => k.Tame ∧ UserStatus k.kstackTf.cp0Status)
      (fun _ => True) := by
  refine (sysIpcRecv_waits dstva k).mono ?_ (fun _ _ heq => heq ▸ ⟨ht, hk⟩) (fun _ h => h)
  rintro r k₁ ⟨-, c, hc, hs⟩
  have ht' : (k.setEnv c fun v => { v with
      envIpcRecving := 1, envIpcDstva := dstva, envStatus := .notRunnable }).Tame :=
    ht.setEnv (h.live_cur hc) rfl
  exact settled_ret (k := k.waits c dstva) ht' hk hs r

theorem sysEnvDestroy_settled (ht : k.Tame) (hk : UserStatus k.kstackTf.cp0Status)
    (envid : Word) :
    (sysEnvDestroy envid k).Sat Settled (fun _ k => k.Tame ∧ UserStatus k.kstackTf.cp0Status)
      (fun _ => True) := by
  refine (sysEnvDestroy_destroyed envid k).mono ?_
    (fun _ _ hs => ⟨ht.same hs, hs.kstackTf ▸ hk⟩) (fun _ h => h)
  rintro r k₁ ⟨e, -, ⟨hc, hs⟩ | ⟨hc, hs⟩, hr⟩
  · cases r with
    | switched => exact absurd (hr rfl) hc
    | value v =>
      refine ⟨ht.released.same hs, ?_⟩
      rw [hs.kstackTf]
      exact hk
  · have ht' := ht.released.forget (e := e) hc (not_live_released k e)
    exact settled_ret ht' hk hs r

/-- **Every handler ends well**, if the frames that `sys_set_trapframe` is given are in order. -/
theorem serve_tame (h : k.Inv M) (ht : k.Tame) (hk : k.Caught) (hop : op.Handler)
    (hcur : k.curenv ≠ none ∨ op = .timer) (hok : op.FrameOk k)
    (hlive : ∀ c, k'.curenv = some c → k'.Live c) (hret : resumed (serve op k) = some (k', w)) :
    k'.Tame ∧ UserStatus w := by
  have hstack : op ≠ .timer → UserStatus k.kstackTf.cp0Status := by
    intro hne
    obtain ⟨c, hc⟩ := Option.ne_none_iff_exists'.mp (hcur.resolve_right hne)
    exact hk c hc
  have hreturns : op.Returns → op ≠ .timer → k'.Tame ∧ UserStatus w := by
    intro hr hne
    have hend := returns_tame h ht (hstack hne) hr hok (step_of_resumed hret)
    rw [status_of_returns hr hret]
    exact hend
  have hsched : ∀ yield, ((do schedule yield; pure .switched : KernM SysRet) k).Sat Settled
      (fun _ k => k.Tame ∧ UserStatus k.kstackTf.cp0Status) (fun _ => True) := fun yield =>
    sat_call (schedule_switched yield k) (fun _ _ hs => settled_switched ht hk hs)
      (fun _ _ h => h.elim) (fun _ h => h)
  cases op with
  | timer => exact resumed_settled (hsched false) hlive hret
  | yield => exact resumed_settled (hsched true) hlive hret
  | ipcRecv dstva => exact resumed_settled (sysIpcRecv_settled h ht (hstack nofun) dstva) hlive hret
  | envDestroy envid =>
    exact resumed_settled (sysEnvDestroy_settled ht (hstack nofun) envid) hlive hret
  | tlbRefill va asid => exact hreturns trivial nofun
  | memAlloc envid va p => exact hreturns trivial nofun
  | memMap s sv d dv p => exact hreturns trivial nofun
  | memUnmap envid va => exact hreturns trivial nofun
  | exofork => exact hreturns trivial nofun
  | setEnvStatus envid st => exact hreturns trivial nofun
  | setTlbModEntry envid f => exact hreturns trivial nofun
  | ipcTrySend envid v s p => exact hreturns trivial nofun
  | setTrapframe envid tf => exact hreturns trivial nofun
  | _ => exact hop.elim

/-! ## Runs -/

/-- What holds of every machine that runs with proper frames lead to. -/
structure Machine.Inv (m : Machine) : Prop where
  tame : m.kernel.Tame
  mode : ∀ s, m.running = some s → UserMode s
  caught : m.running = none → m.kernel.Caught

theorem Machine.Reach.inv (h : Machine.Reach (fun k op => op.FrameOk k) b m) : m.Inv := by
  induction h with
  | @boot k hb =>
    have hbooted := booted_of_boot hb
    exact ⟨fun e hl => absurd hl (hbooted.dead e), nofun,
      fun _ c hc => nomatch (hbooted.curenv ▸ hc : none = some c)⟩
  | @create k k' _ hc binary p hsane hstep hcount ih =>
    obtain ⟨e, hborn, -, htf⟩ := exec_post hstep
    refine ⟨ih.tame.born hborn (htf ▸ userStatus_user), nofun, fun _ c hc' => ?_⟩
    rw [hborn.curenv, hc] at hc'
    cases hc'
  | @serve k k' w hr op hop hcur hsane hok hret hcount ih =>
    obtain ⟨M, hgood⟩ := hr.kernel.good
    obtain ⟨M', hgood'⟩ := (Machine.Reach.serve hr op hop hcur hsane hok hret hcount).kernel.good
    obtain ⟨htame, hstatus⟩ := serve_tame hgood.inv ih.tame (ih.caught rfl) hop hcur hok
      (fun c hc => hgood'.inv.live_cur hc) hret
    refine ⟨htame, ?_, nofun⟩
    intro s hs
    obtain rfl : leaveStatus w = s := Option.some.inj hs
    exact userMode_leave hstatus
  | @trap k s _ tf htf ih =>
    refine ⟨ih.tame, nofun, fun _ c _ => ?_⟩
    rw [htf]
    exact userStatus_enter (ih.mode s rfl)
  | @store k k' s _ va w hstep hcount ih =>
    exact ⟨ih.tame.same (exec_post hstep), ih.mode, nofun⟩
  | evict _ tlb _ ih => exact ⟨ih.tame, ih.mode, ih.caught⟩

/-- The status that an env resumes with as things stand: in `env_tf`, or on the kernel stack for the
current env. While the current env runs nothing is saved for it. -/
def Machine.saved (m : Machine) (e : EnvPtr) : Option Word :=
  if m.kernel.curenv = some e then
    if m.running.isNone then some m.kernel.kstackTf.cp0Status else none
  else some (m.kernel.envs e).envTf.cp0Status

/-- **Every env always resumes in user mode**, in every run in which the frames that
`sys_set_trapframe` loads have the right status: every saved status leads back to user mode with
interrupts, and the env that runs does so in user mode. -/
theorem resumes_in_user_mode (b : Boot) (m : Machine)
    (h : Machine.Reach (fun k op => op.FrameOk k) b m) :
    (∀ e w, m.kernel.Live e → m.saved e = some w → UserStatus w) ∧
      ∀ s, m.running = some s → UserMode s := by
  have hinv := h.inv
  refine ⟨fun e w hl hw => ?_, hinv.mode⟩
  unfold Machine.saved at hw
  split at hw
  next hc =>
    split at hw
    next hnone =>
      obtain rfl := Option.some.inj hw
      exact hinv.caught (Option.isNone_iff_eq_none.mp hnone) e hc
    next => cases hw
  next hc =>
    obtain rfl := Option.some.inj hw
    exact hinv.tame e hl hc

/-! ## Runs that can be evaluated -/

/-- The kernel when an env that runs with status `s` traps. -/
def Machine.entered (m : Machine) : Kernel :=
  match m.running with
  | none => m.kernel
  | some s => { m.kernel with kstackTf := { Trapframe.zero with cp0Status := enterStatus s } }

/-- A timer interrupt. -/
def Op.isTimer : Op → Bool
  | .timer => true
  | _ => false

/-- An operation of an example: an env is created, the current env stores a word, or it traps and is
served. -/
def Machine.play (okb : Kernel → Op → Bool) (op : Op) (m : Machine) : Option Machine :=
  if op.saneb m.entered && okb m.entered op && m.entered.roomy then
    match op with
    | .trap _ => none
    | .envCreate binary p =>
      if m.running = none ∧ m.kernel.curenv = none then
        (exec (.envCreate binary p) m.kernel).state?.map fun k => ⟨k, none⟩
      else none
    | .store va w =>
      m.running.bind fun s => (exec (.store va w) m.kernel).state?.map fun k => ⟨k, some s⟩
    | op =>
      if m.kernel.curenv ≠ none ∨ op.isTimer then
        (resumed (serve op m.entered)).map fun r => ⟨r.1, some (leaveStatus r.2)⟩
      else none
  else none

theorem Machine.Reach.entered (h : Machine.Reach ok b m) : Machine.Reach ok b ⟨m.entered, none⟩ := by
  obtain ⟨k, r⟩ := m
  cases r with
  | none => exact h
  | some s => exact .trap h _ rfl

theorem Machine.Reach.bounded (h : Machine.Reach ok b m) (hsane : op.Sane m.entered)
    (hroom : m.entered.roomy = true) (hstep : Step op m.entered k') : k'.vm.Bounded := by
  obtain ⟨M, hgood⟩ := h.entered.kernel.good
  obtain ⟨M', hgood'⟩ := hgood.step hsane hstep (.inr (hgood.inv.room hroom))
  exact hgood'.inv.vm.bounded

theorem Machine.Reach.play {okb : Kernel → Op → Bool} (hokb : ∀ k op, okb k op = true → ok k op)
    (h : Machine.Reach ok b m) (hp : m.play okb op = some m') : Machine.Reach ok b m' := by
  unfold Machine.play at hp
  split at hp
  next htest =>
    simp only [Bool.and_eq_true] at htest
    obtain ⟨⟨hsane, hok⟩, hroom⟩ := htest
    replace hsane := Op.sane_of_saneb hsane
    split at hp
    next => cases hp
    next binary p =>
      split at hp
      next hc =>
        obtain ⟨k', hstep, rfl⟩ := Option.map_eq_some_iff.mp hp
        obtain ⟨k, r⟩ := m
        obtain ⟨rfl, hc⟩ : r = none ∧ k.curenv = none := hc
        exact .create h hc binary p hsane hstep (h.bounded hsane hroom hstep)
      next => cases hp
    next va w =>
      obtain ⟨s, hs, hp⟩ := Option.bind_eq_some_iff.mp hp
      obtain ⟨k', hstep, rfl⟩ := Option.map_eq_some_iff.mp hp
      obtain ⟨k, r⟩ := m
      obtain rfl : r = some s := hs
      refine .store h va w hstep ?_
      obtain ⟨M, hgood⟩ := h.kernel.good
      have hsane : Op.Sane k (.store va w) := trivial
      obtain ⟨M', hgood'⟩ := hgood.step hsane hstep (.inr (hgood.inv.room hroom))
      exact hgood'.inv.vm.bounded
    next hne₁ hne₂ hne₃ =>
      split at hp
      next hcur =>
        obtain ⟨⟨k', w⟩, hret, rfl⟩ := Option.map_eq_some_iff.mp hp
        have hop : op.Handler := by
          cases op with
          | envCreate binary p => exact absurd rfl (hne₂ binary p)
          | trap tf => exact absurd rfl (hne₁ tf)
          | store va w => exact absurd rfl (hne₃ va w)
          | _ => trivial
        have hcur' : m.entered.curenv ≠ none ∨ op = .timer := by
          rcases hcur with hc | ht
          · refine .inl ?_
            unfold Machine.entered
            split <;> exact hc
          · refine .inr ?_
            cases op with
            | timer => rfl
            | _ => cases ht
        exact .serve h.entered op hop hcur' hsane (hokb _ _ hok) hret
          (h.bounded hsane hroom (step_of_resumed hret))
      next => cases hp
  next => cases hp

/-- Performs operations one after the other, with the tests. -/
def Machine.plays (okb : Kernel → Op → Bool) : List Op → Machine → Option Machine
  | [], m => some m
  | op :: ops, m => (m.play okb op).bind (Machine.plays okb ops)

theorem Machine.Reach.plays {okb : Kernel → Op → Bool} (hokb : ∀ k op, okb k op = true → ok k op) :
    ∀ {ops : List Op} {m : Machine}, Machine.Reach ok b m → m.plays okb ops = some m' →
      Machine.Reach ok b m'
  | [], _, h, hp => Option.some.inj hp ▸ h
  | _ :: _, _, h, hp => by
    obtain ⟨m₁, h₁, hp⟩ := Option.bind_eq_some_iff.mp hp
    exact Machine.Reach.plays hokb (h.play hokb h₁) hp

theorem exists_machine {okb : Kernel → Op → Bool} (hokb : ∀ k op, okb k op = true → ok k op)
    (b : Boot) (ops : List Op) (test : Machine → Bool)
    (h : ((Mos.boot b).state?.bind fun k => Machine.plays okb ops ⟨k, none⟩).any test = true) :
    ∃ m, Machine.Reach ok b m ∧ test m = true := by
  obtain ⟨m, hm, htest⟩ := (Option.any_eq_true _ _).mp h
  obtain ⟨k₀, ho, hm⟩ := Option.bind_eq_some_iff.mp hm
  exact ⟨m, Machine.Reach.plays hokb (.boot (boot_of_state? ho)) hm, htest⟩

/-- A test for the frames of an example. -/
def Op.frameOkb (k : Kernel) : Op → Bool
  | .setTrapframe _ tf => k.curenv.all fun c => decide (UserStatus (k.userWord c (tf + 128)))
  | _ => true

theorem Op.frameOk_of_frameOkb (k : Kernel) (op : Op) (h : op.frameOkb k = true) : op.FrameOk k := by
  cases op with
  | setTrapframe envid tf =>
    intro _ c _ hc _
    simp only [Op.frameOkb, hc, Option.all_some, decide_eq_true_eq] at h
    exact h
  | _ => trivial

/-- An env loads a frame with the status of user mode. -/
theorem resumes_in_user_mode_frame : ∃ m, Machine.Reach (fun k op => op.FrameOk k) smallBoot m ∧
    (∀ e w, m.kernel.Live e → m.saved e = some w → UserStatus w) ∧
      ∀ s, m.running = some s → UserMode s := by
  obtain ⟨m, hm, -⟩ := exists_machine Op.frameOk_of_frameOkb smallBoot
    [.envCreate (some emptyImage) 1, .timer, .memAlloc 0 0x400000 pteD,
      .store 0x400080 statusUser, .setTrapframe 0 0x400000, .timer] (fun _ => true)
    (by decide +kernel)
  exact ⟨m, hm, resumes_in_user_mode smallBoot m hm⟩

/-- A page of zeros is a frame without these bits: the env that loads it runs in kernel mode, and the
next exception saves a status without them. -/
theorem resumes_in_kernel_mode : ¬∀ b m, Machine.Reach (fun _ _ => True) b m →
    ∀ e w, m.kernel.Live e → m.saved e = some w → UserStatus w := by
  intro hall
  have hany : ∀ (k : Kernel) (op : Op), true = true → True := fun _ _ _ => trivial
  obtain ⟨⟨k, r⟩, hm, htest⟩ := exists_machine hany smallBoot
    [.envCreate (some emptyImage) 1, .timer, .memAlloc 0 0x400000 pteD, .setTrapframe 0 0x400000]
    (fun m => m.running == some 0 && m.kernel.curenv == some 0 &&
      decide (m.kernel.Live 0)) (by decide +kernel)
  simp only [Bool.and_eq_true, beq_iff_eq, decide_eq_true_eq] at htest
  obtain ⟨⟨rfl, hc⟩, hl⟩ := htest
  have hsaved := hall smallBoot _ (.trap hm { Trapframe.zero with cp0Status := enterStatus 0 } rfl) 0
    (enterStatus 0) hl
  refine absurd (hsaved ?_) (by decide)
  simp [Machine.saved, hc]

end Mos
