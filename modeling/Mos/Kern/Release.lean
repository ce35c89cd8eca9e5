import Mos.Kern.Coherence
import Mos.Kern.SchedList

/-!
# What a dead env gives back

`env_free` walks the directory of an env and every table in it while it takes them apart. Its loops
only ever take references out of tables of that env (`Vm.Drained`), and when they are done no entry
below `UTOP` is left. Since the counts are exact before and after, each of them must have gone down
by the number of entries that the env had for the frame, however often and by whom else the frame is
mapped (`env_free_releases`).
-/

namespace Mos

open Lib Prog Function

variable {M : List Nat} {k k' : Kernel} {e : EnvPtr} {b : Boot}

/-! ## The entries of one env -/

/-- The env whose tables the slot is in. -/
def Slot.env : Slot → EnvPtr
  | .table e _ => e
  | .page e _ => e

namespace Vm

variable {v u : Vm} {f : Nat}

/-- How many valid entries below `UTOP` of `e` point to the frame `f`. -/
def entries (v : Vm) (e : EnvPtr) (f : Nat) : Nat :=
  refCount (fun s => if s.env = e then v.slotRef s else none) f

theorem entries_eq_zero (h : ∀ s, v.slotRef s ≠ some f) : v.entries e f = 0 := by
  refine refCount_eq_zero.mpr fun s => ?_
  split
  · exact h s
  · simp

namespace Drained

/-- The tables of other envs are as they were. -/
theorem table_eq (h : v.Drained e u) (hv : v.Inv M) {e' : EnvPtr} (hne : e' ≠ e) :
    u.table e' = v.table e' := by
  funext i
  unfold table
  rw [h.dir]
  cases hd : v.dir e' with
  | none => rfl
  | some d =>
    have hmem : u.mem d = v.mem d :=
      h.mem d (fun hc => hne (hv.dir_inj e' e d hd hc)) fun i => hv.dir_not_table hd
    simp only [hmem]

theorem leaf_eq (h : v.Drained e u) (hv : v.Inv M) {e' : EnvPtr} (hne : e' ≠ e) :
    u.leaf e' = v.leaf e' := by
  funext n
  unfold leaf
  rw [h.table_eq hv hne]
  cases ht : v.table e' (n / 1024) with
  | none => rfl
  | some t =>
    have hmem : u.mem t = v.mem t := by
      refine h.mem t (fun hd => hv.dir_not_table hd ht) fun i hi => ?_
      exact hne (hv.table_inj hi ht).1
    simp only [hmem]

/-- Once `e` has no tables left, what is missing is what `e` had. -/
theorem refs_eq (h : v.Drained e u) (hv : v.Inv M) (hempty : ∀ i, u.table e i = none) (f : Nat) :
    u.refs f + v.entries e f = v.refs f := by
  have hslot : u.slotRef = fun s => if s.env = e then none else v.slotRef s := by
    funext s
    by_cases hs : s.env = e
    · rw [if_pos hs]
      cases s with
      | table e' i =>
        obtain rfl : e' = e := hs
        exact hempty i
      | page e' n =>
        obtain rfl : e' = e := hs
        show (u.leaf e' n).map ppn = none
        rw [leaf_of_no_table (hempty _)]
        rfl
    · rw [if_neg hs]
      cases s with
      | table e' i => exact congrFun (h.table_eq hv hs) i
      | page e' n => exact congrArg (Option.map ppn) (congrFun (h.leaf_eq hv hs) n)
  rw [refs, hslot, Nat.add_comm]
  exact refCount_split v.slotRef (fun s => s.env = e) f

/-- **The counts go down by what `e` had.** -/
theorem count_eq (h : v.Drained e u) (hv : v.Inv M) (hu : u.Inv M)
    (hempty : ∀ i, u.table e i = none) (f : Nat) :
    (u.ppRef f).toNat + v.entries e f = (v.ppRef f).toNat := by
  by_cases hheld : ∃ s, v.slotRef s = some f
  · obtain ⟨s, hs⟩ := hheld
    obtain ⟨hM, hp⟩ := hv.held s f hs
    have hp' : f ∉ u.pgdirs := by rwa [h.pgdirs]
    rw [hu.count f hM hp', hv.count f hM hp]
    exact h.refs_eq hv hempty f
  · have hnone := not_exists.mp hheld
    rw [h.other f hnone, entries_eq_zero hnone, Nat.add_zero]

end Drained

end Vm

/-! ## `env_free` -/

/-- The bit of the ASID itself is cleared. -/
theorem asidUsed_clearAsid_self (bits : Fin 2 → Word) (i : Nat) :
    asidUsed (clearAsid bits i) i = false := by
  unfold asidUsed clearAsid has
  rw [update_self]
  have hclear : ∀ w m : Word, w &&& ~~~m &&& m = 0 := by
    intro w m
    ext j hj
    simp
  simp [hclear]

/-- `k'` is `k` without the env `e` and all that it held, and with everything else. -/
structure Kernel.Released (k : Kernel) (e : EnvPtr) (k' : Kernel) : Prop where
  dead : ¬k'.Live e
  /-- A count goes down by the number of entries of `e` for the frame. -/
  counts : ∀ f, f ≠ (k.envs e).envPgdir →
    (k'.ppRef f).toNat + k.vm.entries e f = (k.ppRef f).toNat
  /-- The page directory, which no entry below `UTOP` points to, is counted 1 by itself. -/
  pgdir : k.vm.entries e (k.envs e).envPgdir = 0 ∧ k.ppRef (k.envs e).envPgdir = 1 ∧
    k'.ppRef (k.envs e).envPgdir = 0
  /-- The frames whose count has come down to 0 are free now, each listed once. -/
  free : ∀ f, f ∈ k'.pageFreeList ↔ f ∈ k.pageFreeList ∨ k.ppRef f ≠ 0 ∧ k'.ppRef f = 0
  nodup : k'.pageFreeList.Nodup
  asid : asidUsed k'.asidBitmap (k.envs e).envAsid.toNat = false
  asids : ∀ i < nasid, i ≠ (k.envs e).envAsid.toNat →
    asidUsed k'.asidBitmap i = asidUsed k.asidBitmap i
  /-- No frame but the directory and the tables of `e` is written. -/
  mem : ∀ f, f ≠ (k.envs e).envPgdir → (∀ i, k.vm.table e i ≠ some f) → k'.mem f = k.mem f
  envs : ∀ e' ≠ e, k'.envs e' = k.envs e'
  dirs : ∀ e' ≠ e, k'.vm.dir e' = k.vm.dir e'
  tables : ∀ e' ≠ e, k'.vm.table e' = k.vm.table e'
  leaves : ∀ e' ≠ e, k'.vm.leaf e' = k.vm.leaf e'

/-- When the directory goes too, the view of the other envs stays. -/
theorem view_bury (k : Kernel) (d : Nat) (asid : Word) {e' : EnvPtr} (hne : e' ≠ e) :
    (k.bury e d asid).vm.dir e' = k.vm.dir e' ∧ (k.bury e d asid).vm.table e' = k.vm.table e' ∧
      (k.bury e d asid).vm.leaf e' = k.vm.leaf e' := by
  have hdir : (k.bury e d asid).vm.dir e' = k.vm.dir e' := by
    rw [dir_bury, update_of_ne hne]
  have htab : (k.bury e d asid).vm.table e' = k.vm.table e' := by
    funext i
    unfold Vm.table
    rw [hdir]
    rfl
  refine ⟨hdir, htab, ?_⟩
  funext n
  unfold Vm.leaf
  rw [htab]
  rfl

/-- **Destroying an env releases exactly what it held.** For every state with exact counts and every
runnable env, `env_free` returns, and each count has gone down by the number of entries that the env
had for the frame. -/
theorem env_free_releases (h : k.vm.Inv M) (hrun : (k.envs e).envStatus = .runnable)
    (hasid : (k.envs e).envAsid.toNat < nasid) {xs : List EnvPtr}
    (hqueue : k.envSchedList.Represents xs) (he : e ∈ xs) :
    ∃ k', envFree e k = .ret () k' ∧ k.Released e k' := by
  have hlive : k.Live e := by
    unfold Kernel.Live
    rw [hrun]
    simp
  obtain ⟨k₁, hk₁, heq⟩ := envFree_eq h hlive
  have hdir := dir_of_live hlive
  generalize hd : (k.envs e).envPgdir = d at hk₁ heq hdir
  generalize ha : (k.envs e).envAsid = asid at heq hasid
  obtain ⟨q, heq', -⟩ := schedRemove_queued (k := k₁.bury e d asid) (e := e)
    (by show k₁.envSchedList.Represents xs; rw [hk₁.frame.envSchedList]; exact hqueue) he
  refine ⟨_, heq.trans heq', ?_⟩
  have hne : ∀ s, k.vm.slotRef s ≠ some d := fun s => h.dir_not_held hdir
  have hd1 : k.ppRef d = 1 := (h.pgdirs_spec d (h.dir_mem e d hdir)).2
  have hd1' : k₁.ppRef d = 1 := (hk₁.drained.other d hne).trans hd1
  have hcounts := hk₁.drained.count_eq h hk₁.inv hk₁.no_table
  have hvm : (k₁.bury e d asid).vm.Inv M :=
    hk₁.inv.dropDir hk₁.dir hk₁.no_table rfl rfl (dir_bury k₁ e d asid) rfl rfl rfl
  constructor
  case dead =>
    exact dir_eq_none.mp ((congrFun (dir_bury k₁ e d asid) e).trans (update_self _ _ _))
  case counts =>
    intro f hf
    rw [hd] at hf
    show (update k₁.ppRef d 0 f).toNat + _ = _
    rw [update_of_ne hf]
    exact hcounts f
  case pgdir =>
    rw [hd]
    refine ⟨Vm.entries_eq_zero hne, hd1, ?_⟩
    exact update_self _ _ _
  case free =>
    intro f
    show f ∈ d :: k₁.pageFreeList ↔ f ∈ k.pageFreeList ∨ k.ppRef f ≠ 0 ∧ update k₁.ppRef d 0 f = 0
    have hfree : f ∈ k₁.pageFreeList ↔ f ∈ k.pageFreeList ∨ k.ppRef f ≠ 0 ∧ k₁.ppRef f = 0 :=
      hk₁.drained.free f
    by_cases hf : f = d
    · simp [hf, hd1]
    · rw [update_of_ne hf, List.mem_cons, hfree]
      simp [hf]
  case nodup =>
    exact hvm.free_nodup
  case asid =>
    rw [ha]
    exact asidUsed_clearAsid_self _ _
  case asids =>
    intro i hi hia
    rw [ha] at hia
    show asidUsed (clearAsid k₁.asidBitmap asid.toNat) i = _
    rw [asidUsed_clearAsid _ hasid hi (Ne.symm hia), hk₁.frame.asidBitmap]
  case mem =>
    intro f hf ht
    rw [hd] at hf
    refine hk₁.drained.mem f ?_ ht
    rw [hdir]
    exact fun hc => hf (Option.some.inj hc).symm
  case envs =>
    intro e' he'
    show update k₁.envs e _ e' = _
    rw [update_of_ne he', hk₁.frame.envs]
  case dirs =>
    intro e' he'
    exact (view_bury k₁ d asid he').1.trans (congrFun hk₁.drained.dir e')
  case tables =>
    intro e' he'
    exact (view_bury k₁ d asid he').2.1.trans (hk₁.drained.table_eq h he')
  case leaves =>
    intro e' he'
    exact (view_bury k₁ d asid he').2.2.trans (hk₁.drained.leaf_eq h he')

/-! ## A run -/

theorem Reach.schedInv (h : Reach (fun k op => op.QueueOk k) b k) : k.SchedInv := by
  induction h with
  | boot hboot => exact (booted_of_boot hboot).schedInv
  | step _ op _ hok hstep _ ih => exact (exec_sched ih op hok).of_state? hstep
  | evict _ tlb _ ih => exact ⟨ih.queue, ih.cur, ih.free_dead, ih.free_nodup⟩

/-- The operation never touches the queue out of turn. -/
def Op.queueb : Op → Bool
  | .envDestroy _ => false
  | .ipcRecv _ => false
  | .ipcTrySend _ _ _ _ => false
  | _ => true

theorem Op.queueOk_of_queueb (k : Kernel) (op : Op) (h : op.queueb = true) : op.QueueOk k := by
  cases op with
  | envDestroy envid => cases h
  | ipcRecv va => cases h
  | ipcTrySend e v s p => cases h
  | _ => trivial

/-- A page of the first env, which it maps a second time and gives to its child (id 4097) twice; the
child has a page and an empty table of its own. -/
def sharedRun : List Op :=
  [.envCreate (some emptyImage) 1, .timer, .exofork, .memAlloc 0 utext pteD,
    .memMap 0 utext 0 (utext + 0x1000) pteD, .memMap 0 utext 4097 utext pteD,
    .memMap 0 utext 4097 (utext + 0x2000) pteD, .memAlloc 4097 0x10000000 pteD,
    .memAlloc 4097 0x20000000 pteD, .memUnmap 4097 0x20000000, .setEnvStatus 4097 1]

/-- The child dies: the shared page is counted 4 before and 2 after. -/
theorem env_free_releases_child : ∃ k k' pp, Reach (fun k op => op.QueueOk k) smallBoot k ∧
    (k.vm.leaf 0 (ppn utext)).map ppn = some pp ∧ k.ppRef pp = 4 ∧ envFree 1 k = .ret () k' ∧
    k.Released 1 k' ∧ k'.ppRef pp = 2 := by
  obtain ⟨k, hr, htest⟩ := exists_reach Op.queueOk_of_queueb smallBoot sharedRun
    (fun k => (k.vm.leaf 0 (ppn utext)).any fun w => (envFree 1 k).retAnd fun _ k' =>
      k.ppRef (ppn w) == 4 && k'.ppRef (ppn w) == 2 &&
        decide ((k.envs 1).envStatus = .runnable) && decide ((k.envs 1).envAsid.toNat < nasid))
    (by decide +kernel)
  obtain ⟨M, hgood⟩ := hr.good
  obtain ⟨xs, hrep, hxs⟩ := hr.schedInv.queue
  obtain ⟨w, hw, htest⟩ := (Option.any_eq_true _ _).mp htest
  obtain ⟨⟨⟩, k', hret, htest⟩ := Outcome.retAnd_eq_true.mp htest
  simp only [Bool.and_eq_true, beq_iff_eq, decide_eq_true_eq] at htest
  obtain ⟨⟨⟨hbefore, hafter⟩, hrun⟩, hasid⟩ := htest
  obtain ⟨k₁, hret₁, hrel⟩ := env_free_releases hgood.inv.vm hrun hasid hrep ((hxs 1).mpr hrun)
  rw [hret] at hret₁
  cases hret₁
  exact ⟨k, k', ppn w, hr, by rw [hw]; rfl, hbefore, hret, hrel, hafter⟩

end Mos
