import Mos.Kern.BootSpec

/-!
# Reference counting is exact

Every system call, interrupt and TLB refill keeps `Kernel.Inv`, so it holds after any run from boot.
Two things are asked of a run: permissions stay within the flag bits of an entry, because
`page_insert` writes whatever it is given into the entry, and no frame is mapped more than 65535
times, because `pp_ref` has 16 bits. `sys_mem_map` and `sys_ipc_try_send` are the calls that add a
mapping of a frame that is already mapped; for them the bound on the state they leave is what keeps
the count from overflowing.
-/

namespace Mos

open Lib Prog Function

variable {M : List Nat} {k k' : Kernel} {e : EnvPtr}

/-! ## System calls -/

theorem legal_of_not_illegal {va : Word} (h : ¬isIllegalVa va = true) : va < utop := by
  simp only [isIllegalVa, Bool.or_eq_true, decide_eq_true_eq, not_or] at h
  have h₂ : ¬utop.toNat ≤ va.toNat := h.2
  show va.toNat < utop.toNat
  omega

theorem live_frame (hf : k.Frame k') (hl : k.Live e) : k'.Live e := by
  unfold Kernel.Live
  rw [hf.envs]
  exact hl

theorem sysMemAlloc_inv (h : k.Inv M) (envid va : Word) {perm : Word} (hperm : perm < 4096) :
    (sysMemAlloc envid va perm k).Sat (fun _ k' => k'.Inv M) (fun _ k' => k'.Inv M)
      (fun _ => True) := by
  unfold sysMemAlloc
  split
  · exact h
  next hva =>
    refine sat_call (envid2env_spec (fun _ => h.live_cur) envid true) ?_ (fun _ _ he => he ▸ h) (fun _ h => h)
    rintro e _ ⟨rfl, hl, _⟩
    refine sat_call ((pageAlloc_spec h.vm).and (framed_pageAlloc _)) ?_
      (fun _ _ he => he.1.2 ▸ h) (fun _ _ => trivial)
    rintro pp k₁ ⟨⟨hinv₁, _, hfresh, _⟩, hf₁⟩
    have h₁ := h.frame hf₁ hinv₁
    rw [get_bind]
    refine sat_call ((pageInsert_spec hinv₁ (dir_of_live (live_frame hf₁ hl))
      (pdx_lt_of_lt_utop (legal_of_not_illegal hva)) hfresh.usable hperm _).and
      (framed_pageInsert _ _ _ _ _ k₁)) ?_ ?_ (fun _ _ => trivial)
    · rintro _ k₂ ⟨⟨_, hinv₂⟩, hf₂⟩
      exact h₁.frame hf₂ (hinv₂ (.inl (by rw [hfresh.refs]; decide)))
    · rintro _ k₂ ⟨⟨_, hvm₂⟩, hf₂⟩
      exact h₁.frame hf₂ (hvm₂ ▸ hinv₁)

/-- No count overflows from `k` to `k'`: none has in `k'`, or none is at its limit in `k`. -/
def Kernel.Counts (k k' : Kernel) : Prop := k'.vm.Bounded ∨ ∀ f, k.vm.refs f < 65535

/-- The count of `pp` has room for a mapping at `va`: it is below its limit, or `e` maps `pp` there
already. -/
def Kernel.Fits (k : Kernel) (e : EnvPtr) (va : Word) (pp : Nat) : Prop :=
  k.vm.refs pp < 65535 ∨ (k.vm.leaf e (ppn va)).map ppn = some pp

/-- The operation maps no frame whose count is at its limit. Only two calls map a frame that may have
other mappings. -/
def Op.Fits (k : Kernel) : Op → Prop
  | .memMap srcid srcva dstid dstva _ => ∀ src dst pp, envid2env srcid true k = .ret src k →
    envid2env dstid true k = .ret dst k → (k.vm.leaf src (ppn srcva)).map ppn = some pp →
    k.Fits dst dstva pp
  | .ipcTrySend envid _ srcva _ => srcva ≠ 0 → ∀ c e pp, k.curenv = some c →
    envid2env envid false k = .ret e k → (k.envs e).envIpcRecving ≠ 0 →
    (k.vm.leaf c (ppn srcva)).map ppn = some pp → k.Fits e (k.envs e).envIpcDstva pp
  | _ => True

/-- Mapping a page that is mapped already. -/
theorem pageInsert_mapped (h : k.Inv M) {src dst : EnvPtr} (hl : k.Live dst) {w va perm : Word}
    {n : Nat} (hw : k.vm.leaf src n = some w) (hva : va < utop) (hperm : perm < 4096) (asid : Word) :
    (pageInsert (k.envs dst).envPgdir asid (ppn w) va perm k).Sat
      (fun _ k' => k.Counts k' ∨ k.Fits dst va (ppn w) → k'.Inv M) (fun _ k' => k'.Inv M)
      (fun _ => False) := by
  by_cases hsame : (k.vm.leaf dst (ppn va)).map ppn = some (ppn w)
  · obtain ⟨w', hl', hpp⟩ := Option.map_eq_some_iff.mp hsame
    refine ((pageInsert_same h.vm (dir_of_live hl) hl' hpp hperm asid).and
      (framed_pageInsert _ _ _ _ _ k)).mono ?_ (fun _ _ hq => hq.1.elim) (fun _ hq => hq.1)
    rintro _ k₁ ⟨⟨_, hinv₁⟩, hf₁⟩ _
    exact h.frame hf₁ hinv₁
  · refine ((pageInsert_spec h.vm (dir_of_live hl) (pdx_lt_of_lt_utop hva)
      (h.vm.usable_of_leaf hw) hperm asid).and (framed_pageInsert _ _ _ _ _ k)).mono ?_ ?_
      (fun _ h => h.1)
    · rintro _ k₁ ⟨⟨_, hinv₁⟩, hf₁⟩ hb
      refine h.frame hf₁ (hinv₁ ?_)
      rcases hb with (hb | hb) | hb | hb
      · exact .inr hb
      · exact .inl (hb _)
      · exact .inl hb
      · exact absurd hb hsame
    · rintro _ k₁ ⟨⟨_, hvm₁⟩, hf₁⟩
      exact h.frame hf₁ (hvm₁ ▸ h.vm)

theorem sysMemMap_inv (h : k.Inv M) (srcid srcva dstid dstva : Word) {perm : Word}
    (hperm : perm < 4096) :
    (sysMemMap srcid srcva dstid dstva perm k).Sat
      (fun _ k' => k.Counts k' ∨ (Op.memMap srcid srcva dstid dstva perm).Fits k → k'.Inv M)
      (fun _ k' => k'.Inv M) (fun _ => True) := by
  unfold sysMemMap
  split
  · exact h
  next hva =>
    rw [Bool.or_eq_true, not_or] at hva
    refine sat_call (envid2env_read (fun _ => h.live_cur) srcid true) ?_ (fun _ _ he => he ▸ h)
      (fun _ h => h)
    rintro src _ ⟨rfl, hls, -, hsrc⟩
    refine sat_call (envid2env_read (fun _ => h.live_cur) dstid true) ?_ (fun _ _ he => he ▸ h)
      (fun _ h => h)
    rintro dst _ ⟨rfl, hld, -, hdst⟩
    rw [get_bind]
    cases hw : k.vm.leaf src (ppn srcva) with
    | none =>
      rw [bind_ret (pageLookup_unmapped h.vm (dir_of_live hls)
        (pdx_lt_of_lt_utop (legal_of_not_illegal hva.1)) hw)]
      exact h
    | some w =>
      obtain ⟨t, _, _, hlook⟩ := pageLookup_mapped h.vm (dir_of_live hls) hw
      rw [bind_ret hlook]
      refine sat_call (pageInsert_mapped h hld hw (legal_of_not_illegal hva.2) hperm _)
        (fun _ _ hq hb => hq (hb.imp_right fun hfits => ?_)) (fun _ _ hq => hq) (fun _ hq => hq.elim)
      exact hfits src dst _ hsrc hdst (by rw [hw]; rfl)

theorem sysMemUnmap_inv (h : k.Inv M) (envid va : Word) :
    (sysMemUnmap envid va k).Sat (fun _ k' => k'.Inv M) (fun _ k' => k'.Inv M) (fun _ => True) := by
  unfold sysMemUnmap
  split
  · exact h
  next hva =>
    refine sat_call (envid2env_spec (fun _ => h.live_cur) envid true) ?_ (fun _ _ he => he ▸ h) (fun _ h => h)
    rintro e _ ⟨rfl, hl, _⟩
    rw [get_bind]
    refine sat_call ((pageRemove_spec h.vm (dir_of_live hl)
      (pdx_lt_of_lt_utop (legal_of_not_illegal hva)) _).and (framed_pageRemove _ _ _ _)) ?_
      (fun _ _ hq => hq.1.elim) (fun _ hq => hq.1.elim)
    rintro _ k₁ ⟨⟨hinv₁, _⟩, hf₁⟩
    exact h.frame hf₁ hinv₁

theorem sysExofork_inv (h : k.Inv M) :
    (sysExofork k).Sat (fun _ k' => k'.Inv M) (fun _ k' => k'.Inv M) (fun _ => True) := by
  refine sat_call (curenvPtr_spec k) ?_ (fun _ _ hq => hq.elim) (fun _ h => h)
  rintro c _ ⟨rfl, hc⟩
  rw [get_bind]
  refine sat_call (envAlloc_spec h _) ?_ (fun _ _ h => h) (fun _ h => h.elim)
  rintro e k₁ ⟨h₁, hn₁, hl₁⟩
  rw [modify_bind, get_bind]
  exact (h₁.wake hn₁ hl₁ (f := fun v => { v with
    envTf := k₁.kstackTf.setReg 2 0
    envStatus := .notRunnable
    envPri := (k₁.envs c).envPri }) (by simp) rfl (h₁.dstva e)).1

theorem sysEnvDestroy_inv (h : k.Inv M) (envid : Word) :
    (sysEnvDestroy envid k).Sat (fun _ k' => k'.Inv M) (fun _ k' => k'.Inv M)
      (fun _ => True) := by
  refine sat_call (envid2env_spec (fun _ => h.live_cur) envid true) ?_ (fun _ _ he => he ▸ h) (fun _ h => h)
  rintro e _ ⟨rfl, hl, hcur⟩
  obtain ⟨c, hc⟩ := Option.ne_none_iff_exists'.mp (hcur rfl)
  refine sat_call (envDestroy_spec h hl hc) ?_ (fun _ _ hq => hq.elim) (fun _ h => h)
  intro r k₁ h₁
  cases r <;> exact h₁

theorem sysSetTlbModEntry_inv (h : k.Inv M) (envid func : Word) :
    (sysSetTlbModEntry envid func k).Sat (fun _ k' => k'.Inv M) (fun _ k' => k'.Inv M)
      (fun _ => True) := by
  refine sat_call (envid2env_spec (fun _ => h.live_cur) envid true) ?_ (fun _ _ he => he ▸ h) (fun _ h => h)
  rintro e _ ⟨rfl, hl, _⟩
  exact h.setEnv Iff.rfl rfl (h.dstva e)

theorem sysSetEnvStatus_inv (h : k.Inv M) (envid status : Word) :
    (sysSetEnvStatus envid status k).Sat (fun _ k' => k'.Inv M) (fun _ k' => k'.Inv M)
      (fun _ => True) := by
  unfold sysSetEnvStatus
  cases hst : statusArg status with
  | none => exact h
  | some st =>
    have hst' := statusArg_ne_free hst
    refine sat_call (envid2env_spec (fun _ => h.live_cur) envid true) ?_ (fun _ _ he => he ▸ h) (fun _ h => h)
    rintro e _ ⟨rfl, hl, hcur⟩
    obtain ⟨c, hc⟩ := Option.ne_none_iff_exists'.mp (hcur rfl)
    rw [get_bind]
    -- the queue is changed or not, then the status is set
    have hset : ∀ k₁ : Kernel, k₁.vm.Inv M ∧ k.QFrame k₁ →
        (k₁.setEnv e fun v => { v with envStatus := st }).Inv M := by
      rintro k₁ ⟨hvm₁, hf₁⟩
      have h₁ := h.qframe hf₁ hvm₁
      have hl₁ : k₁.Live e := by
        have hd := dir_of_live hl
        rw [← hf₁.dir] at hd
        exact (dir_eq_some.mp hd).1
      exact h₁.setEnv (iff_of_true hst' hl₁) rfl (h₁.dstva e)
    split
    · exact sat_call (schedRemove_spec h.vm (h.nullSafe hc) e) (fun _ k₁ h₁ => hset k₁ h₁)
        (fun _ _ hq => hq.elim) (fun _ h => h)
    · split
      · exact sat_call (schedInsertTail_spec h.vm (h.nullSafe hc) e) (fun _ k₁ h₁ => hset k₁ h₁)
          (fun _ _ hq => hq.elim) (fun _ h => h)
      · exact hset k ⟨h.vm, _, Kernel.Frame.refl _⟩

theorem sysIpcRecv_inv (h : k.Inv M) (dstva : Word) :
    (sysIpcRecv dstva k).Sat (fun _ k' => k'.Inv M) (fun _ k' => k'.Inv M) (fun _ => True) := by
  unfold sysIpcRecv
  split
  · exact h
  next hva =>
    have hlt : dstva < utop := by
      by_cases h0 : dstva = 0
      · rw [h0]
        decide
      · exact legal_of_not_illegal fun hc => hva ⟨h0, hc⟩
    refine sat_call (curenvPtr_spec k) ?_ (fun _ _ hq => hq.elim) (fun _ h => h)
    rintro c _ ⟨rfl, hc⟩
    rw [modify_bind]
    have h₁ := h.setEnv (e := c) (f := fun v => { v with
      envIpcRecving := 1, envIpcDstva := dstva, envStatus := .notRunnable })
      (iff_of_true (by simp) (h.live_cur hc)) rfl hlt
    have hc₁ : (k.setEnv c fun v => { v with
      envIpcRecving := 1, envIpcDstva := dstva, envStatus := .notRunnable }).curenv = some c := hc
    generalize (k.setEnv c fun v => { v with
      envIpcRecving := 1, envIpcDstva := dstva, envStatus := .notRunnable }) = k₁ at h₁ hc₁
    refine sat_call (schedRemove_spec h₁.vm (h₁.nullSafe hc₁) c) ?_ (fun _ _ hq => hq.elim)
      (fun _ h => h)
    rintro _ k₂ ⟨hvm₂, hf₂⟩
    have h₂ := h₁.qframe hf₂ hvm₂
    rw [modify_bind]
    have h₃ : Kernel.Inv M { k₂ with kstackTf := k₂.kstackTf.setReg 2 0 } :=
      ⟨h₂.vm, h₂.cur, h₂.dstva, h₂.free_dead, h₂.free_nodup⟩
    exact sat_call (schedule_spec h₃ true) (fun _ _ h => h) (fun _ _ hq => hq.elim) (fun _ h => h)

theorem sysIpcTrySend_inv (h : k.Inv M) (envid value srcva : Word) {perm : Word}
    (hperm : perm < 4096) :
    (sysIpcTrySend envid value srcva perm k).Sat
      (fun _ k' => k.Counts k' ∨ (Op.ipcTrySend envid value srcva perm).Fits k → k'.Inv M)
      (fun _ k' => k'.Inv M) (fun _ => True) := by
  unfold sysIpcTrySend
  split
  · exact h
  next hva =>
    refine sat_call (envid2env_read (fun _ => h.live_cur) envid false) ?_ (fun _ _ he => he ▸ h)
      (fun _ h => h)
    rintro e _ ⟨rfl, hl, -, he⟩
    rw [get_bind]
    split
    · exact h
    next hrecv =>
      refine sat_call (curenvPtr_spec k) ?_ (fun _ _ hq => hq.elim) (fun _ h => h)
      rintro c _ ⟨rfl, hc⟩
      rw [modify_bind]
      have h₁ := h.setEnv (e := e) (f := fun v => { v with
        envIpcValue := value
        envIpcFrom := (k.envs c).envId
        envIpcPerm := pteV ||| perm
        envIpcRecving := 0
        envStatus := .runnable }) (iff_of_true (by simp) hl) rfl (h.dstva e)
      have hvm₁ : (k.setEnv e fun v => { v with
        envIpcValue := value
        envIpcFrom := (k.envs c).envId
        envIpcPerm := pteV ||| perm
        envIpcRecving := 0
        envStatus := .runnable }).vm = k.vm := vm_setEnv (iff_of_true (by simp) hl) rfl
      have hc₁ : (k.setEnv e fun v => { v with
        envIpcValue := value
        envIpcFrom := (k.envs c).envId
        envIpcPerm := pteV ||| perm
        envIpcRecving := 0
        envStatus := .runnable }).curenv = some c := hc
      have hl₁ : (k.setEnv e fun v => { v with
        envIpcValue := value
        envIpcFrom := (k.envs c).envId
        envIpcPerm := pteV ||| perm
        envIpcRecving := 0
        envStatus := .runnable }).Live e := by
        unfold Kernel.Live
        rw [setEnv_envs, update_self]
        simp
      have hdst₁ : ((k.setEnv e fun v => { v with
        envIpcValue := value
        envIpcFrom := (k.envs c).envId
        envIpcPerm := pteV ||| perm
        envIpcRecving := 0
        envStatus := .runnable }).envs e).envIpcDstva = (k.envs e).envIpcDstva := by
        rw [setEnv_envs, update_self]
      generalize (k.setEnv e fun v => { v with
        envIpcValue := value
        envIpcFrom := (k.envs c).envId
        envIpcPerm := pteV ||| perm
        envIpcRecving := 0
        envStatus := .runnable }) = k₁ at h₁ hc₁ hl₁ hvm₁ hdst₁
      refine sat_call ((schedInsertTail_spec h₁.vm (h₁.nullSafe hc₁) e).and
        (schedInsertTail_slots h₁.vm (h₁.nullSafe hc₁) e)) ?_ (fun _ _ hq => hq.1.elim)
        (fun _ _ => trivial)
      rintro _ k₂ ⟨⟨hvm₂, hf₂⟩, hslots⟩
      have hrefs : k₂.vm.refs = k.vm.refs := by
        funext f
        unfold Vm.refs
        rw [hslots, hvm₁]
      have h₂ := h₁.qframe hf₂ hvm₂
      have hdst₂ : (k₂.envs e).envIpcDstva = (k.envs e).envIpcDstva := by
        obtain ⟨q, hf⟩ := hf₂
        rw [hf.envs]
        exact hdst₁
      split
      next h0 =>
        have hsrc : srcva < utop := legal_of_not_illegal fun hc' => hva ⟨h0, hc'⟩
        have hlc : k₂.Live c := by
          have hd := h₁.cur c hc₁
          rw [← hf₂.dir] at hd
          exact (dir_eq_some.mp hd).1
        have hle : k₂.Live e := by
          have hd := dir_of_live hl₁
          rw [← hf₂.dir] at hd
          exact (dir_eq_some.mp hd).1
        rw [ipcMapPage, get_bind]
        cases hw : k₂.vm.leaf c (ppn srcva) with
        | none =>
          rw [bind_ret (pageLookup_unmapped h₂.vm (dir_of_live hlc) (pdx_lt_of_lt_utop hsrc) hw)]
          exact h₂
        | some w =>
          obtain ⟨t, _, _, hlook⟩ := pageLookup_mapped h₂.vm (dir_of_live hlc) hw
          rw [bind_ret hlook]
          simp only
          rw [sat_bind, sat_attempt]
          refine (pageInsert_mapped h₂ hle hw (h₂.dstva e) hperm _).mono ?_
            (fun _ _ hq _ => hq) (fun _ hq => hq.elim)
          intro _ k₃ hq hb
          refine hq (hb.imp (fun hs => hs.imp_right fun hs => by rw [hrefs]; exact hs) fun hfits => ?_)
          -- the queue is not kept in page tables
          have hmap : ∀ e' n, (k₂.vm.leaf e' n).map ppn = (k.vm.leaf e' n).map ppn := by
            intro e' n
            by_cases hn : n < npte
            · have hslot := congrFun hslots (.page e' ⟨n, hn⟩)
              rw [hvm₁] at hslot
              exact hslot
            · have hnone : ∀ v : Vm, v.leaf e' n = none := fun v =>
                Option.eq_none_iff_forall_ne_some.mpr fun w hw => hn (Vm.leaf_lt hw)
              rw [hnone, hnone]
          unfold Kernel.Fits
          rw [hrefs, hmap, hdst₂]
          refine hfits h0 c e _ hc he hrecv ?_
          rw [← hmap, hw]
          rfl
      next => exact fun _ => h₂

/-- A trap frame that `sys_set_trapframe` reads lies below `UTOP`. -/
theorem legalRange {va : Word} {n : Nat} (hn : n < 2 ^ 32) (h0 : n ≠ 0)
    (h : ¬isIllegalVaRange va (BitVec.ofNat 32 n) = true) : va.toNat + n ≤ utop.toNat := by
  have hlen : (BitVec.ofNat 32 n).toNat = n := by
    rw [BitVec.toNat_ofNat]
    exact Nat.mod_eq_of_lt hn
  have hne : (BitVec.ofNat 32 n != 0) = true := by
    rw [bne_iff_ne]
    intro hc
    rw [hc] at hlen
    exact h0 hlen.symm
  simp only [isIllegalVaRange, hne, Bool.true_and, Bool.or_eq_true, decide_eq_true_eq, not_or] at h
  obtain ⟨⟨hwrap, _⟩, htop⟩ := h
  have hwrap' : ¬(va + BitVec.ofNat 32 n).toNat < va.toNat := hwrap
  have htop' : ¬utop.toNat < (va + BitVec.ofNat 32 n).toNat := htop
  rw [BitVec.toNat_add, hlen] at hwrap' htop'
  have := va.isLt
  omega

theorem sysSetTrapframe_inv (h : k.Inv M) (envid tf : Word) :
    (sysSetTrapframe envid tf k).Sat (fun _ k' => k'.Inv M) (fun _ k' => k'.Inv M)
      (fun _ => True) := by
  unfold sysSetTrapframe
  split
  · exact h
  next hva =>
    refine sat_call (envid2env_spec (fun _ => h.live_cur) envid true) ?_ (fun _ _ he => he ▸ h)
      (fun _ h => h)
    rintro e _ ⟨rfl, hl, _⟩
    refine sat_call (curenvPtr_spec k) ?_ (fun _ _ hq => hq.elim) (fun _ h => h)
    rintro c _ ⟨rfl, hc⟩
    rw [get_bind]
    have hrange : tf.toNat + 4 * 38 ≤ utop.toNat := legalRange (by decide) (by decide) hva
    refine sat_call ((loadUserWords_spec (k.envs c).envAsid h.vm (h.cur c hc) hrange).and
      (framed_loadUserWords _ tf 38 k)) ?_ (fun _ _ hq => hq.1.elim) (fun _ _ => trivial)
    rintro ws k₁ ⟨⟨hinv₁, _⟩, hf₁⟩
    have h₁ := h.frame hf₁ hinv₁
    split
    · exact ⟨h₁.vm, h₁.cur, h₁.dstva, h₁.free_dead, h₁.free_nodup⟩
    · exact h₁.setEnv Iff.rfl rfl (h₁.dstva e)

/-- A store in user mode goes to a mapped page. -/
theorem storeUser_inv (h : k.Inv M) (va w : Word) :
    (storeUser va w k).Sat (fun _ k' => k'.Inv M) (fun _ k' => k'.Inv M) (fun _ => True) := by
  refine sat_call (curenvPtr_spec k) ?_ (fun _ _ hq => hq.elim) (fun _ h => h)
  rintro c _ ⟨rfl, hc⟩
  rw [get_bind]
  have hd := dir_of_live (h.live_cur hc)
  split
  next hva =>
    cases hl : k.vm.leaf c (ppn va) with
    | none =>
      rw [bind_ret (pageLookup_unmapped h.vm hd (pdx_lt_of_lt_utop hva) hl)]
      exact h
    | some pte =>
      obtain ⟨t, _, _, hlook⟩ := pageLookup_mapped h.vm hd hl
      rw [bind_ret hlook]
      simp only [readWord_bind]
      split
      · exact h.frame ⟨_, _, _, _, _, rfl⟩
          (inv_setWord_usable h.vm (h.vm.usable_of_leaf hl) (wordIndex va) w).1
      · exact h
  next => exact h

/-! ## Runs -/

/-- What is asked of an operation: programs and refilled addresses lie below `UTOP`, and permissions
are flags. -/
def Op.Ok (k : Kernel) : Op → Prop
  | .envCreate binary _ => BinaryOk binary
  | .tlbRefill va _ => va < utop ∧ k.curenv ≠ none
  | .memAlloc _ _ perm => perm < 4096
  | .memMap _ _ _ _ perm => perm < 4096
  | .ipcTrySend _ _ _ perm => perm < 4096
  | _ => True

/-- **Every operation keeps the invariant**, unless it makes a count overflow. -/
theorem exec_inv (h : k.Inv M) (op : Op) (hok : op.Ok k) :
    (exec op k).Sat (fun _ k' => k.Counts k' ∨ op.Fits k → k'.Inv M)
      (fun _ k' => k.Counts k' ∨ op.Fits k → k'.Inv M) (fun _ => True) := by
  have hdrop : ∀ {α : Type} {m : KernM α},
      (m k).Sat (fun _ k' => k.Counts k' ∨ op.Fits k → k'.Inv M) (fun _ k' => k'.Inv M)
        (fun _ => True) →
      ((m >>= fun _ => pure ()) k).Sat (fun _ k' => k.Counts k' ∨ op.Fits k → k'.Inv M)
        (fun _ k' => k.Counts k' ∨ op.Fits k → k'.Inv M) (fun _ => True) := by
    intro α m hm
    exact sat_call hm (fun _ _ hq => hq) (fun _ _ hq _ => hq) (fun _ h => h)
  have hweak : ∀ {α : Type} {m : KernM α},
      (m k).Sat (fun _ k' => k'.Inv M) (fun _ k' => k'.Inv M) (fun _ => True) →
      (m k).Sat (fun _ k' => k.Counts k' ∨ op.Fits k → k'.Inv M) (fun _ k' => k'.Inv M)
        (fun _ => True) :=
    fun hm => hm.mono (fun _ _ hq _ => hq) (fun _ _ hq => hq) (fun _ h => h)
  cases op with
  | envCreate b p =>
    exact hdrop (hweak ((envCreate_spec h hok p).mono (fun _ _ hq => hq) (fun _ _ hq => hq.elim)
      (fun _ h => h)))
  | timer =>
    exact (schedule_spec h false).mono (fun _ _ hq _ => hq) (fun _ _ hq => hq.elim) (fun _ h => h)
  | yield =>
    refine hdrop (hweak (sat_call (schedule_spec h true) (fun _ _ hq => hq)
      (fun _ _ hq => hq.elim) (fun _ h => h)))
  | tlbRefill va asid =>
    obtain ⟨hva, hcur⟩ := hok
    obtain ⟨c, hc⟩ := Option.ne_none_iff_exists'.mp hcur
    refine ((tlbRefill_spec h.vm (h.cur c hc) hva asid).and (framed_tlbRefill va asid k)).mono ?_
      (fun _ _ hq => hq.1.elim) (fun _ _ => trivial)
    exact fun _ k₁ hq _ => h.frame hq.2 hq.1
  | memAlloc e va p => exact hdrop (hweak (sysMemAlloc_inv h e va hok))
  | memMap s sv d dv p => exact hdrop (sysMemMap_inv h s sv d dv hok)
  | memUnmap e va => exact hdrop (hweak (sysMemUnmap_inv h e va))
  | exofork => exact hdrop (hweak (sysExofork_inv h))
  | setEnvStatus e st => exact hdrop (hweak (sysSetEnvStatus_inv h e st))
  | setTlbModEntry e f => exact hdrop (hweak (sysSetTlbModEntry_inv h e f))
  | envDestroy e => exact hdrop (hweak (sysEnvDestroy_inv h e))
  | ipcRecv va => exact hdrop (hweak (sysIpcRecv_inv h va))
  | ipcTrySend e v s p => exact hdrop (sysIpcTrySend_inv h e v s hok)
  | setTrapframe e tf => exact hdrop (hweak (sysSetTrapframe_inv h e tf))
  | trap tf => exact fun _ => ⟨h.vm, h.cur, h.dstva, h.free_dead, h.free_nodup⟩
  | store va w =>
    exact (storeUser_inv h va w).mono (fun _ _ hq _ => hq) (fun _ _ hq _ => hq) (fun _ h => h)

/-- A step of a run in which no count overflows. -/
def CountedStep (k k' : Kernel) : Prop := ∃ op, op.Ok k ∧ Step op k k' ∧ k'.vm.Bounded

/-- The invariant holds along every run. -/
theorem inv_of_run (h : k.Inv M) (hrun : Relation.ReflTransGen CountedStep k k') : k'.Inv M := by
  induction hrun with
  | refl => exact h
  | tail _ hstep ih =>
    obtain ⟨op, hok, hstep, hbound⟩ := hstep
    exact (exec_inv ih op hok).of_state? hstep (.inl (.inl hbound))

/-- **Page reference counting is exact.** After any run from boot, every frame that `page_alloc` can
hand out and that is no page directory is counted as often as live envs refer to it, as a page or as
a page table; and a frame on the free list is counted 0, referred to by nothing and listed once. -/
theorem page_refs_exact (b : Boot) {k₀ k : Kernel} (hboot : boot b = .ret () k₀)
    (hrun : Relation.ReflTransGen CountedStep k₀ k) :
    (∀ f ∈ k₀.pageFreeList, f ∉ k.pgdirs → (k.ppRef f).toNat = k.vm.refs f) ∧
      ∀ f ∈ k.pageFreeList,
        k.ppRef f = 0 ∧ k.vm.refs f = 0 ∧ k.pageFreeList.count f = 1 := by
  have hinv := inv_of_run (booted_of_boot hboot).inv hrun
  refine ⟨fun f hf hp => hinv.vm.count f hf hp, fun f hf => ?_⟩
  obtain ⟨hM, hp, h0⟩ := hinv.vm.free_spec f hf
  refine ⟨h0, refCount_eq_zero.mpr fun s => hinv.vm.free_not_held hf, ?_⟩
  exact List.count_eq_one_of_mem hinv.vm.free_nodup hf

/-- Where the counts are exact none has overflowed. -/
theorem Vm.Inv.bounded {v : Vm} (h : v.Inv M) : v.Bounded := by
  intro f
  by_cases hz : v.refs f = 0
  · omega
  · obtain ⟨s, hs⟩ := not_forall_not.mp (fun hc => hz (refCount_eq_zero.mpr hc))
    obtain ⟨hM, hp⟩ := h.held s f hs
    have := h.count f hM hp
    have := (v.ppRef f).isLt
    omega

/-- Creating an env, running it and giving it a page maps no frame a second time. -/
theorem run_alloc (h : k.Inv M) (hrun : runOps
    [.envCreate (some emptyImage) 1, .timer, .memAlloc 0 utext pteD] k = some k') :
    Relation.ReflTransGen CountedStep k k' := by
  obtain ⟨k₁, hs₁, hrun⟩ := runOps_cons hrun
  obtain ⟨k₂, hs₂, hrun⟩ := runOps_cons hrun
  obtain ⟨k₃, hs₃, hrun⟩ := runOps_cons hrun
  obtain rfl : k₃ = k' := Option.some.inj hrun
  have hok : BinaryOk (some emptyImage) := fun img himg ph hph => by
    cases himg
    cases hph
  have hdrop : ∀ {α : Type} {m : KernM α} {k k' : Kernel},
      (m k).Sat (fun _ k' => k'.Inv M) (fun _ k' => k'.Inv M) (fun _ => True) →
      ((m >>= fun _ => pure ()) k).state? = some k' → k'.Inv M := by
    intro α m k k' hm hs
    have hm' : ((m >>= fun _ => pure ()) k).Sat (fun _ k' => k'.Inv M) (fun _ k' => k'.Inv M)
        (fun _ => True) := sat_call hm (fun _ _ hq => hq) (fun _ _ hq => hq) (fun _ h => h)
    exact hm'.of_state? hs
  have h₁ : k₁.Inv M := hdrop ((envCreate_spec h hok 1).mono (fun _ _ hq => hq)
    (fun _ _ hq => hq.elim) (fun _ h => h)) hs₁
  have hsched : (schedule false k₁).Sat (fun _ k' => k'.Inv M) (fun _ k' => k'.Inv M)
      (fun _ => True) :=
    (schedule_spec h₁ false).mono (fun _ _ hq => hq) (fun _ _ hq => hq.elim) (fun _ h => h)
  have h₂ : k₂.Inv M := hsched.of_state? hs₂
  have h₃ : k₃.Inv M := hdrop (sysMemAlloc_inv h₂ 0 utext (by decide)) hs₃
  have hc₁ : CountedStep k k₁ := ⟨.envCreate (some emptyImage) 1, hok, hs₁, h₁.vm.bounded⟩
  have hc₂ : CountedStep k₁ k₂ := ⟨.timer, trivial, hs₂, h₂.vm.bounded⟩
  have hc₃ : CountedStep k₂ k₃ :=
    ⟨.memAlloc 0 utext pteD, show pteD < 4096 by decide, hs₃, h₃.vm.bounded⟩
  exact ((Relation.ReflTransGen.single hc₁).tail hc₂).tail hc₃

theorem page_refs_exact_small : ∃ k₀ k, boot smallBoot = .ret () k₀ ∧
    Relation.ReflTransGen CountedStep k₀ k ∧
    (∀ f ∈ k₀.pageFreeList, f ∉ k.pgdirs → (k.ppRef f).toNat = k.vm.refs f) ∧
      ∀ f ∈ k.pageFreeList,
        k.ppRef f = 0 ∧ k.vm.refs f = 0 ∧ k.pageFreeList.count f = 1 := by
  obtain ⟨k₀, k, hboot, hrun, _⟩ := exists_run smallBoot
    [.envCreate (some emptyImage) 1, .timer, .memAlloc 0 utext pteD] (fun _ => true)
    (by decide +kernel)
  have hsteps := run_alloc (booted_of_boot hboot).inv hrun
  exact ⟨k₀, k, hboot, hsteps, page_refs_exact smallBoot hboot hsteps⟩

end Mos
