import Mos.Kern.EffectRun

/-!
# Reachable states

A state is reachable if a run from boot leads to it: system calls with flags as permissions,
interrupts, refills of user addresses with the ASID of the current env, and the loss of TLB entries,
as long as no frame is mapped more often than its 16-bit count can say (`Reach`). Runs can be
restricted to steps that meet a condition.

`exec_via` says of every operation that it is a chain of elementary changes, so what holds of the
booted kernel and across every elementary change holds of every reachable state (`Reach.keeps`).
`Kernel.Good` is what holds of all of them.
-/

namespace Mos

open Lib Prog Function

variable {M : List Nat} {k k' : Kernel} {P : EnvPtr → Nat → Option Word → Prop}

/-! ## One operation -/

/-- What is asked of an operation: programs lie below `UTOP`, refills are for user addresses and the
current env, and permissions are flags. -/
def Op.Sane (k : Kernel) : Op → Prop
  | .envCreate binary _ => BinaryOk binary
  | .tlbRefill va asid => va < ulim ∧ ∃ c, k.curenv = some c ∧ asid = (k.envs c).envAsid
  | .memAlloc _ _ perm => perm < 4096
  | .memMap _ _ _ _ perm => perm < 4096
  | .ipcTrySend _ _ _ perm => perm < 4096
  | _ => True

/-- `P` allows the entries that an operation writes. -/
def Op.Places (P : EnvPtr → Nat → Option Word → Prop) (k : Kernel) : Op → Prop
  | .envCreate binary _ => Loads P binary
  | .tlbRefill _ _ => Demand P k
  | .memAlloc envid va perm => isIllegalVa va = false → ∀ e pp, envid2env envid true k = .ret e k →
    P e (ppn va) (some (pageEntry pp perm))
  | .memMap _ _ dstid dstva perm => isIllegalVa dstva = false → ∀ e pp,
    envid2env dstid true k = .ret e k → P e (ppn dstva) (some (pageEntry pp perm))
  | .memUnmap envid va => ∀ e, envid2env envid true k = .ret e k → P e (ppn va) none
  | .envDestroy envid => ∀ e n, envid2env envid true k = .ret e k → P e n none
  | .ipcTrySend envid _ srcva perm => srcva ≠ 0 → ∀ c e w, k.curenv = some c →
    k.vm.leaf c (ppn srcva) = some w → envid2env envid false k = .ret e k →
    (k.envs e).envIpcRecving ≠ 0 → P e (ppn (k.envs e).envIpcDstva) (some (pageEntry (ppn w) perm))
  | .setTrapframe _ _ => Demand P k
  | _ => True

theorem tlbRefill_makes (h : k.Inv M) (hb : k.basePgdir ∉ M) (hok : k.DirsOk) {c : EnvPtr}
    {va : Word} (hc : k.curenv = some c) (hva : va < ulim) (hP : Demand P k) :
    Makes P (tlbRefill va (k.envs c).envAsid) k := by
  refine sat_call ((refill_spec h hb hok hc hva hP).and (framed_doTlbRefill va _ k)) ?_
    (fun _ _ h => h.1.elim) (fun _ _ => trivial)
  rintro pte k₁ ⟨⟨hvia, _, hl₁⟩, hf₁⟩
  have hasid : (k.envs c).envAsid = (k₁.envs c).envAsid := by rw [hf₁.envs]
  rw [hasid]
  exact hvia.tail (.refill c va pte (hf₁.curenv.trans hc) hl₁)

/-- **Every operation is a chain of elementary changes.** -/
theorem exec_via (h : k.Inv M) (hb : k.basePgdir ∉ M) (hok : k.DirsOk) (op : Op) (hs : op.Sane k)
    (hP : op.Places P k) : Makes P (exec op) k := by
  have hdrop : ∀ {α : Type} {m : KernM α}, Makes P m k → Makes P (m >>= fun _ => pure ()) k :=
    fun hm => makes_call hm (Outcome.sat_self _) fun _ _ _ _ => makes_pure ()
  have hsched : ∀ yield, Makes P (schedule yield) k := fun yield =>
    makes_of_still (schedule_still h hb yield) fun _ _ h => h.elim
  cases op with
  | envCreate binary p => exact hdrop (envCreate_makes h hb hs hP p)
  | timer => exact hsched false
  | yield =>
    exact hdrop (makes_call (hsched true) (Outcome.sat_self _) fun _ _ _ _ => makes_pure _)
  | tlbRefill va asid =>
    obtain ⟨hva, c, hc, rfl⟩ := hs
    exact tlbRefill_makes h hb hok hc hva hP
  | memAlloc e va p => exact hdrop (sysMemAlloc_makes h hb hs hP)
  | memMap s sv d dv p => exact hdrop (sysMemMap_makes h hb hs hP)
  | memUnmap e va => exact hdrop (sysMemUnmap_makes h hb hP)
  | exofork => exact hdrop (sysExofork_makes h hb)
  | setEnvStatus e st => exact hdrop (sysSetEnvStatus_makes h hb e st)
  | setTlbModEntry e f => exact hdrop (sysSetTlbModEntry_makes h e f)
  | envDestroy e => exact hdrop (sysEnvDestroy_makes h hb hP)
  | ipcRecv va => exact hdrop (sysIpcRecv_makes h hb va)
  | ipcTrySend e v s p => exact hdrop (sysIpcTrySend_makes h hb hs hP)
  | setTrapframe e tf => exact hdrop (sysSetTrapframe_makes h hb e tf hP)
  | trap tf =>
    have hs : k.Still { k with kstackTf := tf } := .of_vm rfl rfl (fun _ _ => rfl) rfl rfl
    exact Via.of_still hs
  | store va w => exact storeUser_makes h hb va w

/-- The invariant is kept; a refill from `UVPT` on can lose a frame. -/
theorem exec_sane (h : k.Inv M) (hb : k.basePgdir ∉ M) (hok : k.DirsOk) (op : Op)
    (hs : op.Sane k) :
    (exec op k).Sat (fun _ k' => k.Counts k' ∨ op.Fits k → ∃ M', M' ⊆ M ∧ k'.Inv M')
      (fun _ k' => k.Counts k' ∨ op.Fits k → ∃ M', M' ⊆ M ∧ k'.Inv M') (fun _ => True) := by
  have hweak : op.Ok k → (exec op k).Sat
      (fun _ k' => k.Counts k' ∨ op.Fits k → ∃ M', M' ⊆ M ∧ k'.Inv M')
      (fun _ k' => k.Counts k' ∨ op.Fits k → ∃ M', M' ⊆ M ∧ k'.Inv M') (fun _ => True) := fun hop =>
    (exec_inv h op hop).mono (fun _ _ hq hb => ⟨M, List.Subset.refl M, hq hb⟩)
      (fun _ _ hq hb => ⟨M, List.Subset.refl M, hq hb⟩) (fun _ h => h)
  cases op with
  | tlbRefill va asid =>
    obtain ⟨hva, c, hc, rfl⟩ := hs
    refine sat_call ((refill_spec (P := fun _ _ _ => True) h hb hok hc hva
      fun _ _ _ _ _ => trivial).and (framed_doTlbRefill va _ k)) ?_ (fun _ _ hq => hq.1.elim)
      (fun _ _ => trivial)
    rintro pte k₁ ⟨⟨_, ⟨M', hM', hinv₁⟩, _⟩, hf₁⟩ _
    have hdir : k₁.vm.dir = k.vm.dir := hf₁.dir
    refine ⟨M', hM', hinv₁, ?_, ?_, ?_, ?_⟩
    · intro c' hc'
      show k₁.vm.dir c' = some k₁.curPgdir
      rw [hdir, hf₁.curPgdir]
      exact h.cur c' (hf₁.curenv ▸ hc')
    · show ∀ e, (k₁.envs e).envIpcDstva < utop
      rw [hf₁.envs]
      exact h.dstva
    · show ∀ e ∈ k₁.envFreeList, (k₁.envs e).envStatus ≠ .free → False
      rw [hf₁.envFreeList, hf₁.envs]
      exact h.free_dead
    · show k₁.envFreeList.Nodup
      rw [hf₁.envFreeList]
      exact h.free_nodup
  | envCreate binary p => exact hweak hs
  | memAlloc e va p => exact hweak hs
  | memMap s sv d dv p => exact hweak hs
  | ipcTrySend e v s p => exact hweak hs
  | timer => exact hweak trivial
  | yield => exact hweak trivial
  | memUnmap e va => exact hweak trivial
  | exofork => exact hweak trivial
  | setEnvStatus e st => exact hweak trivial
  | setTlbModEntry e f => exact hweak trivial
  | envDestroy e => exact hweak trivial
  | ipcRecv va => exact hweak trivial
  | setTrapframe e tf => exact hweak trivial
  | trap tf => exact hweak trivial
  | store va w => exact hweak trivial

/-! ## Runs -/

/-- What holds of every reachable state: memory is in order for the frames `M`, to which the template
does not belong, and page directories have their form. -/
structure Kernel.Good (M : List Nat) (k : Kernel) : Prop where
  inv : k.Inv M
  base : k.basePgdir ∉ M
  dirs : k.DirsOk

/-- The states that runs from boot lead to, with steps that meet `ok`. -/
inductive Reach (ok : Kernel → Op → Prop) (b : Boot) : Kernel → Prop
  | boot {k : Kernel} (h : boot b = .ret () k) : Reach ok b k
  | step {k k' : Kernel} (h : Reach ok b k) (op : Op) (hsane : op.Sane k) (hok : ok k op)
      (hstep : Step op k k') (hcount : k'.vm.Bounded) : Reach ok b k'
  | evict {k : Kernel} (h : Reach ok b k) (tlb : List TlbEntry) (hsub : tlb ⊆ k.tlb) :
      Reach ok b { k with tlb := tlb }

variable {ok : Kernel → Op → Prop} {b : Boot}

theorem still_evict {tlb : List TlbEntry} (hsub : tlb ⊆ k.tlb) : k.Still { k with tlb := tlb } :=
  .of_frame ⟨_, _, _, _, _, rfl⟩ (.refl _ _) rfl hsub

theorem Kernel.Good.advance (h : k.Good M) {op : Op} (hsane : op.Sane k) (hstep : Step op k k')
    (hcount : k.Counts k' ∨ op.Fits k) : ∃ M', k'.Good M' := by
  obtain ⟨M', hM', hinv'⟩ := (exec_sane h.inv h.base h.dirs op hsane).of_state? hstep hcount
  have hvia : Via (fun _ _ _ => True) k k' := by
    refine (exec_via h.inv h.base h.dirs op hsane ?_).of_state? hstep
    cases op <;> simp [Op.Places, Demand, Loads]
  exact ⟨M', hinv', fun hc => h.base (hvia.base ▸ hM' hc), hvia.dirsOk h.dirs⟩

theorem Kernel.Good.step (h : k.Good M) {op : Op} (hsane : op.Sane k) (hstep : Step op k k')
    (hcount : k.Counts k') : ∃ M', k'.Good M' := h.advance hsane hstep (.inl hcount)

theorem Kernel.Booted.good (h : k.Booted) : k.Good k.pageFreeList := by
  have hnone : ∀ d, d ∉ k.pgdirs := fun d => by simp [h.pgdirs]
  exact ⟨h.inv, h.base, fun d hd => absurd hd (hnone d), fun d hd => absurd hd (hnone d), h.template⟩

/-- **Every reachable state is good.** -/
theorem Reach.good (h : Reach ok b k) : ∃ M, k.Good M := by
  induction h with
  | boot hboot => exact ⟨_, (booted_of_boot hboot).good⟩
  | step _ op hsane _ hstep hcount ih =>
    obtain ⟨M, hgood⟩ := ih
    exact hgood.step hsane hstep (.inl hcount)
  | evict _ tlb hsub ih =>
    obtain ⟨M, h⟩ := ih
    exact ⟨M, ⟨h.inv.vm, h.inv.cur, h.inv.dstva, h.inv.free_dead, h.inv.free_nodup⟩, h.base,
      ⟨h.dirs.self, h.dirs.dirty, h.dirs.template⟩⟩

/-- **What holds at boot and across every elementary change holds in every reachable state.** -/
theorem Reach.keeps {I : Kernel → Prop} (hboot : ∀ k, k.Booted → I k)
    (hmicro : ∀ k k', Micro P k k' → I k → I k')
    (hplaces : ∀ k op, Reach ok b k → op.Sane k → ok k op → op.Places P k)
    (h : Reach ok b k) : I k := by
  induction h with
  | boot hb => exact hboot _ (booted_of_boot hb)
  | step hr op hsane hok hstep _ ih =>
    obtain ⟨M, hgood⟩ := hr.good
    have hP := hplaces _ op hr hsane hok
    have hvia := (exec_via hgood.inv hgood.base hgood.dirs op hsane hP).of_state? hstep
    exact hvia.keeps hmicro ih
  | evict _ tlb hsub ih => exact hmicro _ _ (.still (still_evict hsub)) ih

/-! ## Runs that can be evaluated -/

/-- A test for the operations of an example. -/
def Op.saneb (k : Kernel) : Op → Bool
  | .envCreate (some img) _ => img.phdrs.isEmpty
  | .envCreate none _ => true
  | .tlbRefill va asid => va < ulim && k.curenv.any fun c => asid == (k.envs c).envAsid
  | .memAlloc _ _ perm => perm < 4096
  | .memMap _ _ _ _ perm => perm < 4096
  | .ipcTrySend _ _ _ perm => perm < 4096
  | _ => true

theorem Op.sane_of_saneb {op : Op} (h : op.saneb k = true) : op.Sane k := by
  cases op with
  | envCreate binary p =>
    intro img himg ph hph
    subst himg
    have hnil : img.phdrs = [] := by simpa [Op.saneb] using h
    rw [hnil] at hph
    cases hph
  | tlbRefill va asid =>
    simp only [Op.saneb, Bool.and_eq_true, decide_eq_true_eq, Option.any_eq_true, beq_iff_eq] at h
    obtain ⟨hva, c, hc, hasid⟩ := h
    exact ⟨hva, c, hc, hasid⟩
  | memAlloc e va perm => simpa [Op.saneb, Op.Sane] using h
  | memMap s sv d dv perm => simpa [Op.saneb, Op.Sane] using h
  | ipcTrySend e v s perm => simpa [Op.saneb, Op.Sane] using h
  | _ => trivial

/-- Every count is below its limit. -/
def Kernel.roomy (k : Kernel) : Bool :=
  (List.range k.npage).all fun f => (k.ppRef f).toNat < 65535

theorem Kernel.Inv.room (h : k.Inv M) (hroom : k.roomy = true) (f : Nat) : k.vm.refs f < 65535 := by
  by_cases hz : k.vm.refs f = 0
  · omega
  · obtain ⟨s, hs⟩ := not_forall_not.mp (fun hc => hz (refCount_eq_zero.mpr hc))
    obtain ⟨hM, hp⟩ := h.vm.held s f hs
    have hcount := h.vm.count f hM hp
    have hlt : f < k.npage := h.vm.managed f hM
    have := List.all_eq_true.mp hroom f (List.mem_range.mpr hlt)
    rw [decide_eq_true_eq] at this
    have hlt' : (k.vm.ppRef f).toNat < 65535 := this
    omega

/-- Performs operations one after the other, with the tests. -/
def testOps (okb : Kernel → Op → Bool) : List Op → Kernel → Option Kernel
  | [], k => some k
  | op :: ops, k =>
    if op.saneb k && okb k op && k.roomy then (exec op k).state?.bind (testOps okb ops) else none

theorem Reach.of_testOps {okb : Kernel → Op → Bool} (hokb : ∀ k op, okb k op = true → ok k op) :
    ∀ {ops : List Op} {k k' : Kernel}, Reach ok b k → testOps okb ops k = some k' → Reach ok b k'
  | [], k, k', hr, h => by
    cases h
    exact hr
  | op :: ops, k, k', hr, h => by
    unfold testOps at h
    split at h
    next htest =>
      simp only [Bool.and_eq_true] at htest
      obtain ⟨⟨hsane, hok⟩, hroom⟩ := htest
      obtain ⟨k₁, hstep, h⟩ := Option.bind_eq_some_iff.mp h
      obtain ⟨M, hgood⟩ := hr.good
      obtain ⟨M', hgood'⟩ := hgood.step (Op.sane_of_saneb hsane) hstep
        (.inr (hgood.inv.room hroom))
      refine Reach.of_testOps hokb (.step hr op (Op.sane_of_saneb hsane) (hokb k op hok) hstep ?_) h
      exact hgood'.inv.vm.bounded
    next => cases h

/-- A run from boot that can be carried out leads to a reachable state. -/
theorem exists_reach {okb : Kernel → Op → Bool} (hokb : ∀ k op, okb k op = true → ok k op)
    (b : Boot) (ops : List Op) (test : Kernel → Bool)
    (h : ((Mos.boot b).state?.bind (testOps okb ops)).any test = true) :
    ∃ k, Reach ok b k ∧ test k = true := by
  obtain ⟨k, hk, htest⟩ := (Option.any_eq_true _ _).mp h
  obtain ⟨k₀, ho, hk⟩ := Option.bind_eq_some_iff.mp hk
  exact ⟨k, Reach.of_testOps hokb (.boot (boot_of_state? ho)) hk, htest⟩

/-- The same for runs without further conditions. -/
theorem exists_reach_any (b : Boot) (ops : List Op) (test : Kernel → Bool)
    (h : ((Mos.boot b).state?.bind (testOps (fun _ _ => true) ops)).any test = true) :
    ∃ k, Reach (fun _ _ => True) b k ∧ test k = true :=
  exists_reach (fun _ _ _ => trivial) b ops test h

end Mos
