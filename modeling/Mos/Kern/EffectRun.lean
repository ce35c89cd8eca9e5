import Mos.Kern.EffectSpec

/-!
# Every operation is a chain of elementary changes: envs and system calls

`env_free` unmaps one page after the other and takes the tables out before the env dies. `env_alloc`
sets up a page directory and picks an ASID whose bit is clear; the env is born when its status is
set. The system calls map or unmap one page each.
-/

namespace Mos

open Lib Prog Function

variable {M : List Nat} {k k' k₁ k₂ : Kernel} {e : EnvPtr} {α : Type}
  {P : EnvPtr → Nat → Option Word → Prop} {d i j t : Nat}

/-! ## Release -/

theorem envFreePte_makes {k₀ : Kernel} (h : Emptying M k₀ e d i t j k) (hb : k.basePgdir ∉ M)
    (hj : j < 1024) (hP : ∀ n, P e n none) :
    Makes P (envFreePte d (k.envs e).envAsid t i j) k := by
  obtain ⟨hl, hd⟩ := dir_eq_some.mp h.dir
  have hi : i < npde := Vm.table_lt h.here
  have hpdx := pdx_index (lt_trans hi (by decide)) hj
  unfold Makes
  simp only [envFreePte, readWord_bind]
  split
  · rw [← hd]
    exact pageRemove_makes h.inv hb hl (by rw [hpdx]; exact hi) (hP _)
  · exact makes_pure ()

/-- What a loop body makes, a loop makes. -/
theorem makes_loop {body : Nat → KernM Unit} {I : Nat → Kernel → Prop} : ∀ {n i : Nat} {k : Kernel},
    (∀ j k', i ≤ j → j < i + n → I j k' → Makes P (body j) k' ∧
      (body j k').Sat (fun _ => I (j + 1)) (fun _ _ => False) (fun _ => True)) →
    I i k → Makes P (loop body i n) k
  | 0, _, _, _, _ => .refl
  | n + 1, i, k, hbody, hI => by
    obtain ⟨hm, hs⟩ := hbody i k (Nat.le_refl i) (by omega) hI
    refine makes_call hm hs fun _ k₁ _ hI₁ => makes_loop (fun j k' h₁ h₂ hj => ?_) hI₁
    exact hbody j k' (by omega) (by omega) hj

theorem envFreePde_makes {k₀ : Kernel} (h : Releasing M k₀ e d i k) (hb : k.basePgdir ∉ M)
    (hi : i < npde) (hP : ∀ n, P e n none) : Makes P (envFreePde d (k.envs e).envAsid i) k := by
  have htab : k.vm.table e i = if has (k.mem d i) pteV then some (ppn (k.mem d i)) else none :=
    Vm.table_of_dir h.dir hi
  unfold Makes
  simp only [envFreePde, readWord_bind]
  split
  next hval =>
    rw [if_pos hval] at htab
    generalize k.mem d i = pde at htab
    have hlt : ppn (pteAddr pde) < k.npage := by
      rw [ppn_pteAddr]
      exact h.inv.table_lt_npage htab
    rw [kaddr_bind hlt, ppn_pteAddr]
    have hstart : Emptying M k e d i (ppn pde) 0 k :=
      ⟨h.inv, Kernel.Frame.refl k, h.dir, rfl, htab, fun _ hj => absurd hj (Nat.not_lt_zero _),
        .refl e k.vm⟩
    have hstep : ∀ j k', j < 1024 → Emptying M k e d i (ppn pde) j k' →
        (envFreePte d (k.envs e).envAsid (ppn pde) i j k').Sat
          (fun _ k₁ => Emptying M k e d i (ppn pde) (j + 1) k₁) (fun _ _ => False) (fun _ => True) :=
      fun j k' hj hk' => (envFreePte_spec hk' hj _).mono (fun _ _ h => h) (fun _ _ h => h)
        (fun _ h => h.elim)
    refine makes_call (makes_loop (I := fun j k' => Emptying M k e d i (ppn pde) j k') ?_ hstart)
      (sat_loop (I := fun j k' => Emptying M k e d i (ppn pde) j k')
        (fun j k' _ hj hk' => hstep j k' (by omega) hk') hstart) ?_
    · intro j k' _ hj hk'
      refine ⟨?_, hstep j k' (by omega) hk'⟩
      have hasid : (k.envs e).envAsid = (k'.envs e).envAsid := by rw [hk'.frame.envs]
      rw [hasid]
      exact envFreePte_makes hk' (hk'.frame.basePgdir ▸ hb) (by omega) hP
    · -- the table is empty now, and leaves the directory
      intro _ k₁ _ hk₁
      rw [Nat.zero_add] at hk₁
      have hempty : ∀ n, n / 1024 = i → k₁.vm.leaf e n = none := by
        intro n hn
        have := hk₁.empty (n % 1024) (Nat.mod_lt _ (by decide))
        rwa [show i * 1024 + n % 1024 = n by omega] at this
      have hslot := Vm.slotRef_table hk₁.here
      have hp : ppn pde ∉ k₁.pgdirs := (hk₁.inv.held _ _ hslot).2
      have hlt₁ : ppn (pteAddr pde) < k₁.npage := by
        rw [ppn_pteAddr]
        exact hk₁.inv.table_lt_npage hk₁.here
      have hdM : d ∈ M := (hk₁.inv.pgdirs_spec d (hk₁.inv.dir_mem e d hk₁.dir)).1
      have hdec : pageDecref (ppn pde) (k₁.setWord d i 0) =
          .ret () ((k₁.setWord d i 0).decref (ppn pde)) :=
        pageDecref_eq (ppRef_ne_zero (k := k₁) hk₁.inv hslot)
      have hvm : ((k₁.setWord d i 0).decref (ppn pde)).vm = (k₁.vm.setWord d i 0).dropRef (ppn pde) :=
        vm_decref hp
      have hf₂ : k₁.Frame ((k₁.setWord d i 0).decref (ppn pde)) := by
        have := (framed_pageDecref (ppn pde)).of_state? (s := k₁.setWord d i 0) (by rw [hdec]; rfl)
        exact Kernel.Frame.trans _ _ _ ⟨_, _, _, _, _, rfl⟩ this
      have htlb : ((k₁.setWord d i 0).decref (ppn pde)).tlb = k₁.tlb := tlb_decref _ _
      unfold Makes
      rw [writeWord_bind, pa2page_bind (by exact hlt₁), ppn_pteAddr, bind_ret hdec]
      generalize (k₁.setWord d i 0).decref (ppn pde) = k₂ at hvm hf₂ htlb
      refine .of_still (.of_frame (hf₂.trans _ _ _ ⟨_, _, _, _, _, rfl⟩) ?_ ?_ ?_)
      · refine .entry (ne_of_managed (hk₁.frame.basePgdir ▸ hb) hdM) (ne_uvpt_of_lt hi) (.inl rfl) ?_ ?_
        · show k₂.vm.pgdirs = _
          rw [hvm]
          rfl
        · show k₂.vm.mem = _
          rw [hvm]
          rfl
      · show k₂.vm.leaf = _
        rw [hvm, Vm.leaf_dropRef]
        exact Vm.leaf_setPde hk₁.inv hk₁.dir hi hempty (by simp)
      · show List.filter _ k₂.tlb ⊆ _
        rw [htlb]
        exact List.filter_subset_self _
  next => exact makes_pure ()

/-- **`env_free`**: the pages go one by one, then the env dies. -/
theorem envFree_makes (h : k.Inv M) (hb : k.basePgdir ∉ M) (hl : k.Live e) {c : EnvPtr}
    (hc : k.curenv = some c) (hP : ∀ n, P e n none) : Makes P (envFree e) k := by
  unfold Makes
  rw [envFree, get_bind]
  generalize hd : (k.envs e).envPgdir = d
  have hdir : k.vm.dir e = some d := dir_eq_some.mpr ⟨hl, hd⟩
  have hstart : Releasing M k e d 0 k :=
    ⟨h.vm, Kernel.Frame.refl k, hdir, fun _ hi => absurd hi (Nat.not_lt_zero _), .refl e k.vm⟩
  have hstep : ∀ i k', i < npde → Releasing M k e d i k' →
      (envFreePde d (k.envs e).envAsid i k').Sat (fun _ k₁ => Releasing M k e d (i + 1) k₁)
        (fun _ _ => False) (fun _ => True) := fun i k' hi hk' =>
    (envFreePde_spec hk' hi _).mono (fun _ _ h => h) (fun _ _ h => h) (fun _ h => h.elim)
  have hnpde : ∀ i, i < 0 + pdx utop → i < npde := fun i hi => by
    rw [pdx_utop] at hi
    unfold npde
    omega
  refine makes_call (makes_loop (I := fun i k' => Releasing M k e d i k') ?_ hstart)
    (sat_loop (I := fun i k' => Releasing M k e d i k')
      (fun i k' _ hi hk' => hstep i k' (hnpde i hi) hk') hstart) ?_
  · intro i k' _ hi hk'
    refine ⟨?_, hstep i k' (hnpde i hi) hk'⟩
    have hasid : (k.envs e).envAsid = (k'.envs e).envAsid := by rw [hk'.frame.envs]
    rw [hasid]
    exact envFreePde_makes hk' (hk'.frame.basePgdir ▸ hb) (hnpde i hi) hP
  · intro _ k₁ _ hk₁
    rw [pdx_utop, Nat.zero_add] at hk₁
    have h₁ : k₁.Inv M := h.frame hk₁.frame hk₁.inv
    have hc₁ : k₁.curenv = some c := hk₁.frame.curenv.trans hc
    have hl₁ : k₁.Live e := (dir_eq_some.mp hk₁.dir).1
    have hasid : (k.envs e).envAsid = (k₁.envs e).envAsid := by rw [hk₁.frame.envs]
    have hb₁ : k₁.basePgdir ∉ M := hk₁.frame.basePgdir ▸ hb
    obtain ⟨hvm₂, hnull⟩ := hk₁.bury h₁ hc₁ (k₁.envs e).envAsid
    have hdeath : Micro P k₁ (k₁.bury e d (k₁.envs e).envAsid) := by
      refine .death e hl₁ (fun n => Vm.leaf_of_no_table (hk₁.no_table _)) rfl (fun e' => ?_)
        (fun e' hee => ?_) ?_ (List.filter_subset_self _) rfl (List.filter_subset_self _) rfl
      · show ((update k₁.envs e _) e').envStatus ≠ .free ↔ _
        by_cases hee : e' = e
        · rw [hee, update_self]
          simp
        · rw [update_of_ne hee]
          exact ⟨fun hl' => ⟨hee, hl'⟩, fun hl' => hl'.2⟩
      · show ((update k₁.envs e _) e').envAsid = _
        rw [update_of_ne hee]
      · have htab : (k₁.bury e d (k₁.envs e).envAsid).vm.table = k₁.vm.table := by
          funext e' i
          by_cases hee : e' = e
          · rw [hee, hk₁.no_table i]
            simp [Vm.table, dir_bury]
          · simp only [Vm.table, dir_bury, update_of_ne hee]
            rfl
        exact Vm.leaf_congr htab fun _ _ _ _ _ _ => rfl
    rw [hasid]
    unfold Makes
    rw [hk₁.tail (k₁.envs e).envAsid]
    refine (schedRemove_still hvm₂ hb₁ hnull e).mono ?_ (fun _ _ h => h.elim) (fun _ h => h)
    exact fun _ k₃ hs => (Relation.ReflTransGen.single hdeath).trans (Via.of_still hs)

theorem envDestroy_makes (h : k.Inv M) (hb : k.basePgdir ∉ M) (hl : k.Live e) {c : EnvPtr}
    (hc : k.curenv = some c) (hP : ∀ n, P e n none) : Makes P (envDestroy e) k := by
  refine makes_call (envFree_makes h hb hl hc hP) (envFree_spec h hl hc) ?_
  rintro _ k₁ hb₁ ⟨hc₁, hinv₁⟩
  unfold Makes
  simp only [get_bind]
  by_cases hce : c = e
  · rw [if_pos hce] at hinv₁
    rw [if_pos (by rw [hc₁, hce]), put_bind]
    have h₀ : k₁.Still { k₁ with curenv := none } := .of_vm rfl rfl (fun _ _ => rfl) rfl rfl
    refine sat_call (schedule_still hinv₁ (show k₁.basePgdir ∉ M by rw [hb₁]; exact hb) true) ?_ (fun _ _ h => h.elim)
      (fun _ h => h)
    exact fun _ k₂ hs => .of_still (h₀.trans hs)
  · rw [if_neg (by rw [hc₁]; simpa using hce)]
    exact .refl

/-! ## New envs -/

theorem envSetupVm_makes (h : k.Inv M) (hb : k.basePgdir ∉ M) (hdead : ¬k.Live e) :
    Makes P (envSetupVm e) k := by
  refine makes_call (pageAlloc_makes h.vm hb) ((pageAlloc_spec h.vm).and (framed_pageAlloc k)) ?_
  rintro p k₁ hb₁ ⟨⟨hinv₁, _, hfresh, _⟩, hf₁⟩
  have hdead₁ : ¬k₁.Live e := by
    unfold Kernel.Live
    rw [hf₁.envs]
    exact hdead
  have hzero : k₁.mem p = fun _ => 0 := funext fun i => hfresh.zero i
  have hpbase : p ≠ k₁.basePgdir := by
    rw [hb₁]
    exact ne_of_managed hb hfresh.managed
  unfold Makes
  simp only [incref_bind]
  rw [modify_apply, Outcome.sat_ret]
  generalize hk₂ : ({ ((k₁.setRef p (k₁.ppRef p + 1)).setEnv e fun v => { v with envPgdir := p }).setFrame p
      (setupPgdir p ((k₁.setRef p (k₁.ppRef p + 1)).mem p)
        ((k₁.setRef p (k₁.ppRef p + 1)).mem (k₁.setRef p (k₁.ppRef p + 1)).basePgdir)) with
      pgdirs := p :: (k₁.setRef p (k₁.ppRef p + 1)).pgdirs } : Kernel) = k₂
  have henvs : k₂.envs = update k₁.envs e { k₁.envs e with envPgdir := p } := by rw [← hk₂]; rfl
  have hlive : ∀ e', k₂.Live e' ↔ k₁.Live e' := by
    intro e'
    unfold Kernel.Live
    rw [henvs]
    by_cases he : e' = e
    · rw [he, update_self]
    · rw [update_of_ne he]
  have hdir : k₂.vm.dir = k₁.vm.dir := by
    funext e'
    by_cases hl : k₁.Live e'
    · have he : e' ≠ e := fun hc => hdead₁ (hc ▸ hl)
      rw [dir_of_live hl, dir_of_live ((hlive e').mpr hl), henvs, update_of_ne he]
    · rw [dir_eq_none.mpr hl, dir_eq_none.mpr fun hc => hl ((hlive e').mp hc)]
  have hmem : k₂.mem = update k₁.mem p (setupPgdir p (k₁.mem p) (k₁.mem k₁.basePgdir)) := by
    rw [← hk₂]
    rfl
  obtain ⟨htab, hleaf⟩ := Vm.view_setFrame (v := k₁.vm) (f := p)
    (fun e => hinv₁.ne_dir hfresh.usable) hfresh.usable.not_table
    (setupPgdir p (k₁.mem p) (k₁.mem k₁.basePgdir))
  obtain ⟨_, hview, _⟩ := Vm.view_of_mem (u := k₂.vm)
    (v := { k₁.vm with mem := update k₁.vm.mem p (setupPgdir p (k₁.mem p) (k₁.mem k₁.basePgdir)) })
    hmem hdir
  refine .single (.pgdir p hpbase (by rw [← hk₂]; rfl) (by rw [hmem, hzero]) (hview.trans hleaf)
    (by rw [← hk₂]; rfl) hlive (fun e' hl => ?_) (by rw [← hk₂]; rfl) (by rw [← hk₂]; rfl))
  have he : e' ≠ e := fun hc => hdead₁ (hc ▸ hl)
  rw [henvs, update_of_ne he]

theorem asidAlloc_clear (k : Kernel) :
    (asidAlloc k).Sat
      (fun a k' => ∃ i < nasid, a = BitVec.ofNat 32 i ∧
        k.asidBitmap (asidIndex i) &&& asidMask i = 0 ∧
        k' = { k with asidBitmap := setAsid k.asidBitmap i })
      (fun _ k' => k' = k) (fun _ => False) := by
  rw [asidAlloc, get_bind]
  cases hfind : (List.range nasid).find? _ with
  | none => exact rfl
  | some i =>
    have hi := List.mem_of_find?_eq_some hfind
    have hclear := List.find?_some hfind
    exact ⟨i, List.mem_range.mp hi, rfl, by simpa using hclear, rfl⟩

/-- `k'` is `k` with the dead env `e` given the ASID `i`. -/
structure Kernel.Fledged (k k' : Kernel) (e : EnvPtr) (i : Nat) : Prop where
  dead : ¬k.Live e
  lt : i < nasid
  clear : k.asidBitmap (asidIndex i) &&& asidMask i = 0
  asid : (k'.envs e).envAsid = BitVec.ofNat 32 i
  bitmap : k'.asidBitmap = setAsid k.asidBitmap i
  other : ∀ e', e' ≠ e → k'.envs e' = k.envs e'
  vm : k'.vm = k.vm
  tlb : k'.tlb = k.tlb
  base : k'.basePgdir = k.basePgdir

/-- The env comes to life. -/
theorem Kernel.Fledged.birth (h : k.Fledged k' e i) (hinv : k'.Inv M) (hn : k'.NewEnv e)
    (hlisted : e ∉ k'.envFreeList) {f : Env → Env} (hst : (f (k'.envs e)).envStatus ≠ .free)
    (hpg : (f (k'.envs e)).envPgdir = (k'.envs e).envPgdir)
    (hdst : (f (k'.envs e)).envIpcDstva < utop)
    (hasid : (f (k'.envs e)).envAsid = (k'.envs e).envAsid) : Micro P k (k'.setEnv e f) := by
  obtain ⟨_, hlive, hleaf⟩ := hinv.wake hn hlisted hst hpg hdst
  have henv : (k'.setEnv e f).envs e = f (k'.envs e) := by rw [setEnv_envs, update_self]
  have hother : ∀ e', e' ≠ e → (k'.setEnv e f).envs e' = k.envs e' := fun e' he => by
    rw [setEnv_envs, update_of_ne he, h.other e' he]
  refine .birth e i h.dead h.lt h.clear (by rw [henv, hasid, h.asid]) h.bitmap (fun e' => ?_)
    (fun e' he => by rw [hother e' he]) (by rw [hleaf, h.vm]) h.tlb (congrArg Vm.mem h.vm)
    (congrArg Vm.pgdirs h.vm) h.base
  by_cases he : e' = e
  · rw [he]
    exact iff_of_true hlive (.inl rfl)
  · unfold Kernel.Live
    rw [hother e' he]
    exact ⟨fun hl => .inr hl, fun hl => hl.resolve_left he⟩

/-- **`env_alloc`**: a page directory is set up, then an ASID with a clear bit is given out. -/
theorem envAlloc_via (h : k.Inv M) (hb : k.basePgdir ∉ M) (parentId : Word) :
    (envAlloc parentId k).Sat (fun e k' => ∃ k₁ i, Via P k k₁ ∧ k₁.Fledged k' e i)
      (fun _ k' => Via P k k') (fun _ => True) := by
  rw [envAlloc, get_bind]
  cases hl : k.envFreeList with
  | nil => exact .refl
  | cons e rest =>
    have hdead : ¬k.Live e := h.free_dead e (by rw [hl]; exact List.mem_cons_self)
    refine sat_call ((envSetupVm_makes h hb hdead).and (envSetupVm_spec h hdead)) ?_
      (fun _ _ h => h.1) (fun _ h => h.1)
    rintro _ k₁ ⟨hvia₁, _, hn₁⟩
    have hdead₁ := hn₁.dead
    simp only [modify_bind, mkenvid_bind]
    have hs₂ := Kernel.Still.setEnv k₁ e
      (f := fun v => { v with envUserTlbModEntry := 0, envRuns := 0 }) Iff.rfl rfl rfl
    generalize (k₁.setEnv e fun v => { v with envUserTlbModEntry := 0, envRuns := 0 }) = k₂ at hs₂
    have hs₃ : k₂.Still { k₂ with mkenvidCount := k₂.mkenvidCount + 1 } :=
      .of_vm rfl rfl (fun _ _ => rfl) rfl rfl
    generalize (k₂.mkenvidCount + 1) <<< 11 ||| BitVec.ofNat 32 e.val = id
    have hs₄ := (hs₂.trans hs₃).trans (Kernel.Still.setEnv _ e (f := fun v => { v with envId := id })
      Iff.rfl rfl rfl)
    generalize (Kernel.setEnv _ e fun v => { v with envId := id }) = k₄ at hs₄
    have hvia₄ : Via P k k₄ := hvia₁.trans (Via.of_still hs₄)
    have hdead₄ : ¬k₄.Live e := fun hc => hdead₁ ((hs₄.live e).mp hc)
    refine sat_call (asidAlloc_clear k₄) ?_ (fun _ _ hk => hk ▸ hvia₄) (fun _ h => h.elim)
    rintro asid _ ⟨i, hi, rfl, hclear, rfl⟩
    refine ⟨k₄, i, hvia₄, hdead₄, hi, hclear, ?_, rfl, fun e' he => ?_, ?_, rfl, rfl⟩
    · show (update k₄.envs e _ e).envAsid = _
      rw [update_self]
    · show update k₄.envs e _ e' = _
      rw [update_of_ne he]
    · exact vm_setEnv (k := { k₄ with asidBitmap := setAsid k₄.asidBitmap i }) (e := e)
        (f := fun v => { v with
          envAsid := BitVec.ofNat 32 i
          envParentId := parentId
          envTf := { (v.envTf.setReg 29 (ustacktop - 4 - 4)) with cp0Status := statusUser } })
        Iff.rfl rfl

theorem sysExofork_makes (h : k.Inv M) (hb : k.basePgdir ∉ M) : Makes P sysExofork k := by
  refine sat_call (curenvPtr_spec k) ?_ (fun _ _ hq => hq.elim) (fun _ h => h)
  rintro c _ ⟨rfl, hc⟩
  rw [get_bind]
  refine sat_call ((envAlloc_via h hb _).and (envAlloc_spec h _)) ?_ (fun _ _ h => h.1)
    (fun _ h => h.1)
  rintro e k₁ ⟨⟨k₀, i, hvia, hfl⟩, h₁, hn₁, hl₁⟩
  rw [modify_bind, get_bind]
  exact hvia.tail (hfl.birth h₁ hn₁ hl₁ (by simp) rfl (h₁.dstva e) rfl)

/-! ## Loading -/

theorem loadIcodeMapper_makes (h : k.Inv M) (hb : k.basePgdir ∉ M) (hl : k.Live e)
    {va perm : Word} (hva : va < utop) (hperm : perm < 4096)
    (hP : ∀ pp, P e (ppn va) (some (pageEntry pp perm))) (offset : Word)
    (src : Option (Nat → BitVec 8)) (len : Word) :
    Makes P (loadIcodeMapper e va offset perm src len) k := by
  refine makes_call (pageAlloc_makes h.vm hb) ((pageAlloc_spec h.vm).and (framed_pageAlloc k)) ?_
  rintro p k₁ hb₁ ⟨⟨hinv₁, _, hfresh, _⟩, hf₁⟩
  have hl₁ : k₁.Live e := live_frame hf₁ hl
  have hb₁' : k₁.basePgdir ∉ M := hb₁ ▸ hb
  have hinsert : ∀ k₂ : Kernel, k₂.vm.Inv M → k₂.basePgdir ∉ M → k₂.Live e → k₂.vm.Usable M p →
      Makes P (get >>= fun k : Kernel => pageInsert (k.envs e).envPgdir (k.envs e).envAsid p va perm)
        k₂ := by
    intro k₂ hinv₂ hb₂ hl₂ hu₂
    exact pageInsert_makes hinv₂ hb₂ hl₂ (pdx_lt_of_lt_utop hva) hu₂ hperm (hP p)
  cases src with
  | none => exact hinsert k₁ hinv₁ hb₁' hl₁ hfresh.usable
  | some b =>
    obtain ⟨htab, hleaf⟩ := Vm.view_setFrame (v := k₁.vm) (f := p)
      (fun _ => hinv₁.ne_dir hfresh.usable) hfresh.usable.not_table
      (copyBytes (k₁.mem p) offset.toNat len.toNat b)
    have hs : k₁.Still (k₁.setFrame p (copyBytes (k₁.mem p) offset.toNat len.toNat b)) :=
      .of_frame ⟨_, _, _, _, _, rfl⟩
        (.frame (ne_of_managed hb₁' hfresh.managed) hfresh.not_pgdir rfl
          fun _ hg => update_of_ne hg _ _) hleaf (List.Subset.refl _)
    have hm := hinsert (k₁.setFrame p (copyBytes (k₁.mem p) offset.toNat len.toNat b))
      (hinv₁.congr rfl rfl rfl rfl rfl (Vm.slotRef_congr htab hleaf)) hb₁' hl₁
      ⟨hfresh.managed, hfresh.not_free, hfresh.not_pgdir, htab ▸ hfresh.usable.not_table⟩
    exact hm.mono (fun _ _ hv => (Via.of_still hs).trans hv)
      (fun _ _ hv => (Via.of_still hs).trans hv) (fun _ h => h)

/-- The pages that a program takes up. -/
def Loads (P : EnvPtr → Nat → Option Word → Prop) (binary : Option ElfImage) : Prop :=
  ∀ img, binary = some img → ∀ ph ∈ img.phdrs, ph.pType = ptLoad →
    ∀ e va perm pp, ph.Covers va → LoadPerm perm → P e (ppn va) (some (pageEntry pp perm))

theorem envCreate_makes (h : k.Inv M) (hb : k.basePgdir ∉ M) {binary : Option ElfImage}
    (hbin : BinaryOk binary) (hP : Loads P binary) (priority : Word) :
    Makes P (envCreate binary priority) k := by
  unfold Makes
  rw [envCreate, sat_bind, sat_attempt]
  refine ((envAlloc_via (P := P) h hb 0).and (envAlloc_spec h 0)).mono ?_ (fun _ _ _ => trivial)
    (fun _ h => h.1)
  rintro e k₁ ⟨⟨k₀, i, hvia, hfl⟩, h₁, hn₁, hl₁⟩
  simp only [modify_bind]
  obtain ⟨h₂, hlive₂, _⟩ := h₁.wake hn₁ hl₁ (f := fun v => { v with
    envPri := priority, envStatus := .runnable }) (by simp) rfl (h₁.dstva e)
  have hvia₂ : Via P k (k₁.setEnv e fun v => { v with envPri := priority, envStatus := .runnable }) :=
    hvia.tail (hfl.birth h₁ hn₁ hl₁ (by simp) rfl (h₁.dstva e) rfl)
  generalize (k₁.setEnv e _) = k₂ at h₂ hlive₂ hvia₂ ⊢
  have hload : (loadIcode e binary k₂).Sat (fun _ k' => Via P k k') (fun _ _ => False)
      (fun _ => True) := by
    cases binary with
    | none => trivial
    | some img =>
      have hphs := loadPhdrs_keeps (e := e) (I := fun k' => (k'.Inv M ∧ k'.Live e) ∧ Via P k k') img
        img.phdrs k₂ ?_ ⟨⟨h₂, hlive₂⟩, hvia₂⟩
      · refine sat_call hphs ?_ (fun _ _ h => h) (fun _ h => h)
        rintro _ k₃ ⟨_, hvia₃⟩
        exact hvia₃.trans (Via.of_still (Kernel.Still.setEnv k₃ e Iff.rfl rfl rfl))
      · intro ph hph hload
        refine ⟨hbin img rfl ph hph hload, fun {k' va perm} hk' hva hperm off src len => ?_⟩
        obtain ⟨⟨h', hl'⟩, hvia'⟩ := hk'
        have hb' : k'.basePgdir ∉ M := hvia'.base ▸ hb
        refine ((loadIcodeMapper_spec h' hl' hva.2 hperm.lt off src len).and
          (loadIcodeMapper_makes h' hb' hl' hva.2 hperm.lt
            (fun pp => hP img rfl ph hph hload e va perm pp hva hperm) off src len)).mono ?_
          (fun _ _ _ => trivial) (fun _ _ => trivial)
        rintro _ k₃ ⟨h₃, hvia₃⟩
        exact ⟨h₃, hvia'.trans hvia₃⟩
  refine sat_call hload ?_ (fun _ _ h => h.elim) (fun _ h => h)
  intro _ k₃ hvia₃
  exact hvia₃.trans (Via.of_still (still_queue k₃ _))

/-! ## System calls -/

theorem curenvPtr_read (k : Kernel) :
    (curenvPtr k).Sat (fun c k' => k = k' ∧ k.curenv = some c) (fun _ k' => k = k')
      (fun _ => True) :=
  (curenvPtr_spec k).mono (fun _ _ h => h) (fun _ _ h => h.elim) (fun _ h => h)

theorem sysMemAlloc_makes (h : k.Inv M) (hb : k.basePgdir ∉ M) {envid va perm : Word}
    (hperm : perm < 4096) (hP : isIllegalVa va = false → ∀ e pp, envid2env envid true k = .ret e k →
      P e (ppn va) (some (pageEntry pp perm))) : Makes P (sysMemAlloc envid va perm) k := by
  unfold sysMemAlloc
  split
  · exact makes_fail _
  next hva =>
    refine makes_read (envid2env_read (fun _ => h.live_cur) envid true) fun e he => ?_
    obtain ⟨hl, _, heq⟩ := he
    refine makes_call (pageAlloc_makes h.vm hb) ((pageAlloc_spec h.vm).and (framed_pageAlloc _)) ?_
    rintro pp k₁ hb₁ ⟨⟨hinv₁, _, hfresh, _⟩, hf₁⟩
    have hm : Makes P (pageInsert (k₁.envs e).envPgdir (k₁.envs e).envAsid pp va perm) k₁ :=
      pageInsert_makes hinv₁ (hb₁ ▸ hb) (live_frame hf₁ hl)
        (pdx_lt_of_lt_utop (legal_of_not_illegal hva)) hfresh.usable hperm
        (hP (by simpa using hva) e pp heq)
    refine makes_get ?_
    exact makes_call hm (Outcome.sat_self _) fun _ _ _ _ => makes_pure _

theorem sysMemMap_makes (h : k.Inv M) (hb : k.basePgdir ∉ M) {srcid srcva dstid dstva perm : Word}
    (hperm : perm < 4096) (hP : isIllegalVa dstva = false → ∀ e pp,
      envid2env dstid true k = .ret e k → P e (ppn dstva) (some (pageEntry pp perm))) :
    Makes P (sysMemMap srcid srcva dstid dstva perm) k := by
  unfold sysMemMap
  split
  · exact makes_fail _
  next hva =>
    rw [Bool.or_eq_true, not_or] at hva
    refine makes_read (envid2env_read (fun _ => h.live_cur) srcid true) fun src hsrc => ?_
    refine makes_read (envid2env_read (fun _ => h.live_cur) dstid true) fun dst hdst => ?_
    unfold Makes
    rw [get_bind]
    cases hw : k.vm.leaf src (ppn srcva) with
    | none =>
      rw [bind_ret (pageLookup_unmapped h.vm (dir_of_live hsrc.1)
        (pdx_lt_of_lt_utop (legal_of_not_illegal hva.1)) hw)]
      exact makes_fail _
    | some w =>
      obtain ⟨t, _, _, hlook⟩ := pageLookup_mapped h.vm (dir_of_live hsrc.1) hw
      rw [bind_ret hlook]
      have hm : Makes P (pageInsert (k.envs dst).envPgdir (k.envs dst).envAsid (ppn w) dstva perm)
          k :=
        pageInsert_makes h.vm hb hdst.1 (pdx_lt_of_lt_utop (legal_of_not_illegal hva.2))
          (h.vm.usable_of_leaf hw) hperm (hP (by simpa using hva.2) dst (ppn w) hdst.2.2)
      exact makes_call hm (Outcome.sat_self _) fun _ _ _ _ => makes_pure _

theorem sysMemUnmap_makes (h : k.Inv M) (hb : k.basePgdir ∉ M) {envid va : Word}
    (hP : ∀ e, envid2env envid true k = .ret e k → P e (ppn va) none) :
    Makes P (sysMemUnmap envid va) k := by
  unfold sysMemUnmap
  split
  · exact makes_fail _
  next hva =>
    refine makes_read (envid2env_read (fun _ => h.live_cur) envid true) fun e he => ?_
    have hm := pageRemove_makes (P := P) h.vm hb he.1
      (pdx_lt_of_lt_utop (legal_of_not_illegal hva)) (hP e he.2.2)
    refine makes_get ?_
    exact makes_call hm (Outcome.sat_self _) fun _ _ _ _ => makes_pure _

theorem sysEnvDestroy_makes (h : k.Inv M) (hb : k.basePgdir ∉ M) {envid : Word}
    (hP : ∀ e n, envid2env envid true k = .ret e k → P e n none) :
    Makes P (sysEnvDestroy envid) k := by
  refine makes_read (envid2env_read (fun _ => h.live_cur) envid true) fun e he => ?_
  obtain ⟨hl, hcur, heq⟩ := he
  obtain ⟨c, hc⟩ := Option.ne_none_iff_exists'.mp (hcur rfl)
  refine makes_call (envDestroy_makes h hb hl hc fun n => hP e n heq) (Outcome.sat_self _) ?_
  intro r k₁ _ _
  cases r <;> exact makes_pure _

theorem sysSetTlbModEntry_makes (h : k.Inv M) (envid func : Word) :
    Makes P (sysSetTlbModEntry envid func) k :=
  makes_read (envid2env_read (fun _ => h.live_cur) envid true) fun e _ =>
    Via.of_still (Kernel.Still.setEnv k e Iff.rfl rfl rfl)

theorem sysSetEnvStatus_makes (h : k.Inv M) (hb : k.basePgdir ∉ M) (envid status : Word) :
    Makes P (sysSetEnvStatus envid status) k := by
  unfold sysSetEnvStatus
  cases hst : statusArg status with
  | none => exact makes_fail _
  | some st =>
    have hst' := statusArg_ne_free hst
    refine makes_read (envid2env_read (fun _ => h.live_cur) envid true) fun e he => ?_
    obtain ⟨hl, hcur, _⟩ := he
    obtain ⟨c, hc⟩ := Option.ne_none_iff_exists'.mp (hcur rfl)
    unfold Makes
    rw [get_bind]
    have hset : ∀ k₁ : Kernel, k.Still k₁ →
        Via P k (k₁.setEnv e fun v => { v with envStatus := st }) := fun k₁ hs =>
      Via.of_still (hs.trans (Kernel.Still.setEnv k₁ e
        (iff_of_true hst' ((hs.live e).mpr hl)) rfl rfl))
    split
    · exact sat_call (schedRemove_still h.vm hb (h.nullSafe hc) e) (fun _ k₁ h₁ => hset k₁ h₁)
        (fun _ _ hq => hq.elim) (fun _ h => h)
    · split
      · exact sat_call (schedInsertTail_still h.vm hb (h.nullSafe hc) e) (fun _ k₁ h₁ => hset k₁ h₁)
          (fun _ _ hq => hq.elim) (fun _ h => h)
      · exact hset k (.refl k)

theorem sysSetTrapframe_makes (h : k.Inv M) (hb : k.basePgdir ∉ M) (envid tf : Word)
    (hP : Demand P k) : Makes P (sysSetTrapframe envid tf) k := by
  unfold sysSetTrapframe
  split
  · exact makes_fail _
  next hva =>
    refine makes_read (envid2env_read (fun _ => h.live_cur) envid true) fun e he => ?_
    refine makes_read (curenvPtr_read k) fun c hc => ?_
    have hrange : tf.toNat + 4 * 38 ≤ utop.toNat := legalRange (by decide) (by decide) hva
    refine makes_get (makes_call (loadUserWords_makes h hb hc rfl hrange hP) (Outcome.sat_self _) ?_)
    intro ws k₁ _ _
    split
    · have hs : k₁.Still { k₁ with kstackTf := trapframeOf ws } :=
        .of_vm rfl rfl (fun _ _ => rfl) rfl rfl
      exact Via.of_still hs
    · exact Via.of_still (Kernel.Still.setEnv k₁ e (f := fun v => { v with envTf := trapframeOf ws })
        Iff.rfl rfl rfl)

theorem sysIpcRecv_makes (h : k.Inv M) (hb : k.basePgdir ∉ M) (dstva : Word) :
    Makes P (sysIpcRecv dstva) k := by
  unfold sysIpcRecv
  split
  · exact makes_fail _
  next hva =>
    have hlt : dstva < utop := by
      by_cases h0 : dstva = 0
      · rw [h0]
        decide
      · exact legal_of_not_illegal fun hc => hva ⟨h0, hc⟩
    refine makes_read (curenvPtr_read k) fun c hc => ?_
    unfold Makes
    rw [modify_bind]
    have h₁ := h.setEnv (e := c) (f := fun v => { v with
      envIpcRecving := 1, envIpcDstva := dstva, envStatus := .notRunnable })
      (iff_of_true (by simp) (h.live_cur hc)) rfl hlt
    have hs₁ := Kernel.Still.setEnv k c (f := fun v => { v with
      envIpcRecving := 1, envIpcDstva := dstva, envStatus := .notRunnable })
      (iff_of_true (by simp) (h.live_cur hc)) rfl rfl
    have hc₁ : (k.setEnv c fun v => { v with
      envIpcRecving := 1, envIpcDstva := dstva, envStatus := .notRunnable }).curenv = some c := hc
    generalize (k.setEnv c fun v => { v with
      envIpcRecving := 1, envIpcDstva := dstva, envStatus := .notRunnable }) = k₁ at h₁ hs₁ hc₁
    have hb₁ : k₁.basePgdir ∉ M := hs₁.base ▸ hb
    refine sat_call ((schedRemove_spec h₁.vm (h₁.nullSafe hc₁) c).and
      (schedRemove_still h₁.vm hb₁ (h₁.nullSafe hc₁) c)) ?_ (fun _ _ hq => hq.1.elim)
      (fun _ _ => trivial)
    rintro _ k₂ ⟨⟨hvm₂, hf₂⟩, hs₂⟩
    have h₂ := h₁.qframe hf₂ hvm₂
    rw [modify_bind]
    have h₃ : Kernel.Inv M { k₂ with kstackTf := k₂.kstackTf.setReg 2 0 } :=
      ⟨h₂.vm, h₂.cur, h₂.dstva, h₂.free_dead, h₂.free_nodup⟩
    have hs₃ : k.Still { k₂ with kstackTf := k₂.kstackTf.setReg 2 0 } :=
      (hs₁.trans hs₂).trans (.of_vm rfl rfl (fun _ _ => rfl) rfl rfl)
    refine sat_call (schedule_still h₃ (hs₃.base ▸ hb) true) ?_ (fun _ _ hq => hq.elim)
      (fun _ h => h)
    exact fun _ k₄ hs₄ => Via.of_still (hs₃.trans hs₄)

/-- What a message does to the `struct Env` of its receiver. -/
def Env.deliver (v : Env) (value sender perm : Word) : Env :=
  { v with
    envIpcValue := value
    envIpcFrom := sender
    envIpcPerm := pteV ||| perm
    envIpcRecving := 0
    envStatus := .runnable }

/-- The receiver of a message gets it and goes to the end of the queue. -/
theorem ipcWake_spec (h : k.Inv M) (hb : k.basePgdir ∉ M) (hl : k.Live e) {c : EnvPtr}
    (hc : k.curenv = some c) (value sender perm : Word) :
    (schedInsertTail e (k.setEnv e fun v => v.deliver value sender perm)).Sat
      (fun _ k' => k'.Inv M ∧ k.Still k' ∧ k'.curenv = k.curenv ∧
        k'.envs = update k.envs e ((k.envs e).deliver value sender perm))
      (fun _ _ => False) (fun _ => True) := by
  have hst : ((k.envs e).deliver value sender perm).envStatus ≠ .free ↔
      (k.envs e).envStatus ≠ .free := iff_of_true (by simp [Env.deliver]) hl
  have h₁ := h.setEnv (e := e) (f := fun v => v.deliver value sender perm) hst rfl (h.dstva e)
  have hs₁ := Kernel.Still.setEnv k e (f := fun v => v.deliver value sender perm) hst rfl rfl
  refine ((schedInsertTail_spec h₁.vm (h₁.nullSafe hc) e).and
    (schedInsertTail_still h₁.vm (hs₁.base ▸ hb) (h₁.nullSafe hc) e)).mono ?_ (fun _ _ hq => hq.1)
    (fun _ _ => trivial)
  rintro _ k₂ ⟨⟨hvm₂, hf₂⟩, hs₂⟩
  refine ⟨h₁.qframe hf₂ hvm₂, hs₁.trans hs₂, ?_⟩
  obtain ⟨_, hf₂⟩ := hf₂
  exact ⟨hf₂.curenv, hf₂.envs⟩

theorem sysIpcTrySend_makes (h : k.Inv M) (hb : k.basePgdir ∉ M) {envid value srcva perm : Word}
    (hperm : perm < 4096) (hP : srcva ≠ 0 → ∀ c e w, k.curenv = some c →
      k.vm.leaf c (ppn srcva) = some w → envid2env envid false k = .ret e k →
      (k.envs e).envIpcRecving ≠ 0 →
        P e (ppn (k.envs e).envIpcDstva) (some (pageEntry (ppn w) perm))) :
    Makes P (sysIpcTrySend envid value srcva perm) k := by
  unfold sysIpcTrySend
  split
  · exact makes_fail _
  next hva =>
    refine makes_read (envid2env_read (fun _ => h.live_cur) envid false) fun e he => ?_
    obtain ⟨hl, _, heq⟩ := he
    unfold Makes
    rw [get_bind]
    split
    · exact makes_fail _
    next hrecv =>
      refine makes_read (curenvPtr_read k) fun c hc => ?_
      unfold Makes
      rw [modify_bind]
      refine sat_call (ipcWake_spec h hb hl hc value (k.envs c).envId perm) ?_
        (fun _ _ hq => hq.elim) (fun _ _ => trivial)
      rintro _ k₂ ⟨h₂, hs, -, henv₂⟩
      split
      next h0 =>
        have hsrc : srcva < utop := legal_of_not_illegal fun hc' => hva ⟨h0, hc'⟩
        have hlc : k₂.Live c := (hs.live c).mpr (h.live_cur hc)
        have hle : k₂.Live e := (hs.live e).mpr hl
        rw [ipcMapPage, get_bind]
        cases hw : k₂.vm.leaf c (ppn srcva) with
        | none =>
          rw [bind_ret (pageLookup_unmapped h₂.vm (dir_of_live hlc) (pdx_lt_of_lt_utop hsrc) hw)]
          exact Via.of_still hs
        | some w =>
          obtain ⟨t, _, _, hlook⟩ := pageLookup_mapped h₂.vm (dir_of_live hlc) hw
          rw [bind_ret hlook]
          have hdst₂ : (k₂.envs e).envIpcDstva = (k.envs e).envIpcDstva := by
            rw [henv₂, update_self]
            rfl
          have hP' := hP h0 c e w hc (by rw [← hs.leaf]; exact hw) heq hrecv
          rw [← hdst₂] at hP'
          have hm : Makes P (pageInsert (k₂.envs e).envPgdir (k₂.envs e).envAsid (ppn w)
              (k₂.envs e).envIpcDstva perm) k₂ :=
            pageInsert_makes h₂.vm (hs.base ▸ hb) hle (pdx_lt_of_lt_utop (h₂.dstva e))
              (h₂.vm.usable_of_leaf hw) hperm hP'
          have hm' := makes_call (makes_attempt hm) (Outcome.sat_self _)
            (f := fun _ => pure (SysRet.value 0)) fun _ _ _ _ => makes_pure _
          exact hm'.mono (fun _ _ hv => (Via.of_still hs).trans hv)
            (fun _ _ hv => (Via.of_still hs).trans hv) (fun _ h => h)
      next => exact Via.of_still hs

theorem storeUser_makes (h : k.Inv M) (hb : k.basePgdir ∉ M) (va w : Word) :
    Makes P (storeUser va w) k := by
  refine makes_read (curenvPtr_read k) fun c hc => ?_
  unfold Makes
  rw [get_bind]
  have hd := dir_of_live (h.live_cur hc)
  split
  next hva =>
    cases hl : k.vm.leaf c (ppn va) with
    | none =>
      rw [bind_ret (pageLookup_unmapped h.vm hd (pdx_lt_of_lt_utop hva) hl)]
      exact .refl
    | some pte =>
      obtain ⟨t, _, _, hlook⟩ := pageLookup_mapped h.vm hd hl
      rw [bind_ret hlook]
      simp only [readWord_bind]
      split
      · exact Via.of_still (still_setWord h.vm hb (h.vm.usable_of_leaf hl) _ w)
      · exact .refl
  next => exact .refl

end Mos
