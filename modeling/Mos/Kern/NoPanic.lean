import Mos.Kern.UserAccess
import Mos.Kern.Envs

/-!
# Which requests panic the kernel

`do_syscall` panics on some requests of a user, and `no_panic_iff` says on which: the two argument
words on the stack, the text of `sys_print_cons`, the trap frame of `sys_set_trapframe` and the buffers
of the device calls have to lie where pages are mapped or can be mapped on demand, the trap frame and
the stack have to be aligned, and what the kernel writes to has to be writable. Nothing of this is
checked first.

The statement is for kernels whose queue is in order, as far as the request needs it, and for requests
that the devices can answer (`Sysno.Sound`). A run that has broken the queue can panic at any later
switch.
-/

namespace Mos

open Lib Prog Function

variable {M : List Nat} {k k' : Kernel} {c e : EnvPtr} {α β : Type}

/-! ## Programs that do not halt -/

/-- `m` comes back from `k`, with a value or an error. -/
def Completes (m : KernM α) (k : Kernel) : Prop :=
  (m k).Sat (fun _ _ => True) (fun _ _ => True) (fun _ => False)

theorem completes_call {m : KernM α} {f : α → KernM β} {Q : α → Kernel → Prop}
    {E : Err → Kernel → Prop} (h : (m k).Sat Q E (fun _ => False))
    (hf : ∀ a k', Q a k' → Completes (f a) k') : Completes (m >>= f) k :=
  sat_call h hf (fun _ _ _ => trivial) (fun _ h => h)

theorem Completes.of_sat {m : KernM α} {Q : α → Kernel → Prop} {E : Err → Kernel → Prop}
    (h : (m k).Sat Q E (fun _ => False)) : Completes m k :=
  h.mono (fun _ _ _ => trivial) (fun _ _ _ => trivial) (fun _ h => h)

theorem completes_pure (a : α) (k : Kernel) : Completes (pure a) k := trivial

theorem completes_get {f : Kernel → KernM α} (h : Completes (f k) k) : Completes (get >>= f) k := h

theorem completes_attempt {m : KernM α} (h : Completes m k) : Completes (attempt m) k :=
  sat_attempt.mpr h

/-- What is known of a program that comes back. -/
theorem Completes.and {m : KernM α} {Q : α → Kernel → Prop} {E : Err → Kernel → Prop}
    {H : Panic → Prop} (h : Completes m k) (hm : (m k).Sat Q E H) :
    (m k).Sat Q E (fun _ => False) :=
  (Outcome.Sat.and h hm).mono (fun _ _ h => h.2) (fun _ _ h => h.2) (fun _ h => h.1)

/-! ## Memory -/

theorem pageInsertNew_completes (h : k.vm.Inv M) {d : Nat} (hd : k.vm.dir e = some d) {va : Word}
    (hva : pdx va < npde) (asid : Word) (pp : Nat) (perm : Word) :
    Completes (pageInsertNew d asid pp va perm) k := by
  cases ht : k.vm.table e (pdx va) with
  | some t =>
    obtain ⟨k', heq, -⟩ := pageInsertNew_table h hd ht asid pp perm
    exact .of_sat (Q := fun _ _ => True) (E := fun _ _ => True) (by rw [heq]; trivial)
  | none =>
    have hflush : tlbInvalidate asid va k = .ret () (k.flush asid va) := rfl
    unfold Completes
    rw [pageInsertNew, bind_ret hflush]
    refine completes_call (pgdirWalk_create (k := k.flush asid va) h hd hva ht) ?_
    rintro r k₁ ⟨t, rfl, -⟩
    trivial

/-- `page_insert` does not panic, whatever it is given to map. -/
theorem pageInsert_completes (h : k.vm.Inv M) {d : Nat} (hd : k.vm.dir e = some d) {va : Word}
    (hva : pdx va < npde) (asid : Word) (pp : Nat) (perm : Word) :
    Completes (pageInsert d asid pp va perm) k := by
  have hnew := pageInsertNew_completes h hd hva asid pp perm
  unfold Completes
  cases ht : k.vm.table e (pdx va) with
  | none =>
    rw [pageInsert, bind_ret (pgdirWalk_absent hd hva ht)]
    exact hnew
  | some t =>
    rw [pageInsert, bind_ret (pgdirWalk_table h hd ht false)]
    simp only [readWord_bind]
    cases hl : k.vm.leaf e (ppn va) with
    | none =>
      simp only [mem_invalid_of_leaf_none ht hl, Bool.false_eq_true, if_false]
      exact hnew
    | some w =>
      obtain ⟨t', ht', hval, rfl⟩ := table_of_leaf hl
      obtain rfl : t' = t := Option.some.inj (ht'.symm.trans ht)
      simp only [hval, if_true]
      rw [pa2page_bind (h.leaf_lt_npage hl)]
      split
      · refine completes_call (pageRemove_spec h hd hva asid) ?_
        rintro _ k₁ ⟨hinv₁, hmap, -⟩
        exact pageInsertNew_completes hinv₁ (hmap.dir ▸ hd) hva asid pp perm
      · trivial

theorem pageLookup_completes (h : k.vm.Inv M) {d : Nat} (hd : k.vm.dir e = some d) {va : Word}
    (hva : pdx va < npde) :
    (pageLookup d va k).Sat (fun _ k' => k' = k) (fun _ _ => False) (fun _ => False) := by
  cases hl : k.vm.leaf e (ppn va) with
  | none => rw [pageLookup_unmapped h hd hva hl]; rfl
  | some w =>
    obtain ⟨t, -, -, heq⟩ := pageLookup_mapped h hd hl
    rw [heq]
    rfl

/-! ## Envs -/

theorem curenvPtr_eq (hc : k.curenv = some c) : curenvPtr k = .ret c k := by
  rw [curenvPtr, get_bind, hc]
  rfl

theorem envid2env_completes (hc : k.curenv = some c) (envid : Word) (checkperm : Bool) :
    Completes (envid2env envid checkperm) k := by
  unfold Completes
  simp only [envid2env, get_bind, hc]
  split
  · trivial
  · split
    · trivial
    · cases checkperm with
      | false => trivial
      | true =>
        simp only [if_true]
        split <;> trivial

/-- `envid2env` for a caller. -/
theorem envid2env_live (h : k.Inv M) (hc : k.curenv = some c) (envid : Word) (checkperm : Bool) :
    (envid2env envid checkperm k).Sat (fun e k' => k = k' ∧ k.Live e) (fun _ k' => k = k')
      (fun _ => False) :=
  (envid2env_completes hc envid checkperm).and
    ((envid2env_spec (fun _ => h.live_cur) envid checkperm).mono (fun _ _ h => ⟨h.1, h.2.1⟩)
      (fun _ _ h => h) (fun _ h => h))

theorem sysGetenvid_completes (hc : k.curenv = some c) : Completes sysGetenvid k := by
  unfold Completes sysGetenvid
  rw [bind_ret (curenvPtr_eq hc)]
  trivial

theorem sysMemAlloc_completes (h : k.Inv M) (hc : k.curenv = some c) (envid va perm : Word) :
    Completes (sysMemAlloc envid va perm) k := by
  unfold Completes sysMemAlloc
  split
  · trivial
  next hva =>
    refine completes_call (envid2env_live h hc envid true) ?_
    rintro e _ ⟨rfl, hl⟩
    refine completes_call ((pageAlloc_spec h.vm).and (framed_pageAlloc k) |>.mono (fun _ _ h => h)
      (fun _ _ h => h) (fun _ h => h.1)) ?_
    rintro pp k₁ ⟨⟨hinv₁, -⟩, hf₁⟩
    refine completes_get ?_
    exact completes_call (pageInsert_completes hinv₁ (dir_of_live (live_frame hf₁ hl))
      (pdx_lt_of_lt_utop (legal_of_not_illegal hva)) _ _ _) fun _ _ _ => completes_pure _ _

theorem sysMemMap_completes (h : k.Inv M) (hc : k.curenv = some c)
    (srcid srcva dstid dstva perm : Word) :
    Completes (sysMemMap srcid srcva dstid dstva perm) k := by
  unfold Completes sysMemMap
  split
  · trivial
  next hva =>
    rw [Bool.or_eq_true, not_or] at hva
    refine completes_call (envid2env_live h hc srcid true) ?_
    rintro src _ ⟨rfl, hsrc⟩
    refine completes_call (envid2env_live h hc dstid true) ?_
    rintro dst _ ⟨rfl, hdst⟩
    refine completes_get ?_
    refine completes_call (pageLookup_completes h.vm (dir_of_live hsrc)
      (pdx_lt_of_lt_utop (legal_of_not_illegal hva.1))) ?_
    rintro r _ rfl
    split
    · trivial
    · exact completes_call (pageInsert_completes h.vm (dir_of_live hdst)
        (pdx_lt_of_lt_utop (legal_of_not_illegal hva.2)) _ _ _) fun _ _ _ => completes_pure _ _

theorem sysMemUnmap_completes (h : k.Inv M) (hc : k.curenv = some c) (envid va : Word) :
    Completes (sysMemUnmap envid va) k := by
  unfold Completes sysMemUnmap
  split
  · trivial
  next hva =>
    refine completes_call (envid2env_live h hc envid true) ?_
    rintro e _ ⟨rfl, hl⟩
    refine completes_get ?_
    exact completes_call (pageRemove_spec h.vm (dir_of_live hl)
      (pdx_lt_of_lt_utop (legal_of_not_illegal hva)) _) fun _ _ _ => completes_pure _ _

theorem sysExofork_completes (h : k.Inv M) (hc : k.curenv = some c) : Completes sysExofork k := by
  unfold Completes sysExofork
  rw [bind_ret (curenvPtr_eq hc), get_bind]
  exact completes_call (envAlloc_spec h _) fun _ _ _ => trivial

theorem sysSetTlbModEntry_completes (h : k.Inv M) (hc : k.curenv = some c) (envid func : Word) :
    Completes (sysSetTlbModEntry envid func) k :=
  completes_call (envid2env_live h hc envid true) fun _ _ _ => trivial

/-! ## The queue -/

theorem schedulePick_completes (h : k.SchedInv) (hrun : (k.envs e).envStatus = .runnable) :
    Completes schedulePick k := by
  obtain ⟨xs, hrep, hxs⟩ := h.queue
  have he : e ∈ xs := (hxs e).mpr hrun
  unfold Completes
  rw [schedulePick, get_bind, hrep.first_eq]
  cases xs with
  | nil => cases he
  | cons x xs =>
    have hx : (k.envs x).envStatus = .runnable := (hxs x).mp List.mem_cons_self
    rw [List.head?_cons]
    simp only [put_bind, envRun_eq]
    rw [if_pos hx]
    trivial

/-- `schedule` finds an env, if the queue is in order and not empty. -/
theorem schedule_completes (h : k.SchedInv) (hrun : (k.envs e).envStatus = .runnable)
    (yield : Bool) : Completes (schedule yield) k := by
  unfold Completes
  rw [schedule, modify_bind, get_bind]
  have h' : Kernel.SchedInv { k with schedCount := k.schedCount - 1 } :=
    ⟨h.queue, h.cur, h.free_dead, h.free_nodup⟩
  have hrun' : ({ k with schedCount := k.schedCount - 1 }.envs e).envStatus = .runnable := hrun
  generalize { k with schedCount := k.schedCount - 1 } = k₁ at h' hrun'
  cases k₁.curenv with
  | none => exact schedulePick_completes h' hrun'
  | some c =>
    simp only
    split
    · exact schedulePick_completes h' hrun'
    next hc =>
      rw [not_not] at hc
      split
      · obtain ⟨q₂, q₃, heq₂, heq₃, h₃⟩ := requeue_sched h' hc
        rw [bind_ret heq₂, bind_ret heq₃]
        exact schedulePick_completes h₃ hrun'
      · rw [envRun_eq, if_pos hc]
        trivial

theorem sysYield_completes (h : k.SchedInv) (hrun : (k.envs e).envStatus = .runnable) :
    Completes sysYield k :=
  completes_call (schedule_completes h hrun true) fun _ _ _ => completes_pure _ _

theorem envFree_completes (h : k.Inv M) (hs : k.SchedInv)
    (hrun : (k.envs e).envStatus = .runnable) : Completes (envFree e) k := by
  have hl : k.Live e := by
    unfold Kernel.Live
    rw [hrun]
    simp
  obtain ⟨k₁, hk₁, heq⟩ := envFree_eq h.vm hl
  obtain ⟨xs, hrep, hxs⟩ := hs.queue
  have hqueue : (k₁.bury e (k.envs e).envPgdir (k.envs e).envAsid).envSchedList =
      k.envSchedList := hk₁.frame.envSchedList
  obtain ⟨q, heq', -⟩ := schedRemove_queued (k := k₁.bury e (k.envs e).envPgdir (k.envs e).envAsid)
    (by rw [hqueue]; exact hrep) ((hxs e).mpr hrun)
  unfold Completes
  rw [heq, heq']
  trivial

/-- `env_destroy` of an env that is on the queue, while another one is there as well. -/
theorem envDestroy_completes (h : k.Inv M) (hs : k.SchedInv) (hc : k.curenv = some c)
    (hrun : (k.envs e).envStatus = .runnable) {e' : EnvPtr} (hne : e' ≠ c)
    (hrun' : (k.envs e').envStatus = .runnable) : Completes (envDestroy e) k := by
  have hspec := ((envFree_completes h hs hrun).and (envFree_sched hs hrun hc)).and
    (envFree_released e k)
  unfold Completes
  rw [envDestroy]
  refine completes_call (hspec.mono (fun _ _ h => h) (fun _ _ h => h) (fun _ h => h.1)) ?_
  rintro _ k₁ ⟨⟨hc₁, hs₁⟩, hrel⟩
  refine completes_get ?_
  split
  next hce =>
    have hec : c = e := Option.some.inj (hc₁.symm.trans hce)
    rw [if_pos hec] at hs₁
    refine completes_call (Q := fun _ k' => k' = { k₁ with curenv := none })
      (E := fun _ _ => False) (by exact rfl) ?_
    rintro _ _ rfl
    have hstay : (k₁.envs e').envStatus = .runnable := by
      rw [hrel.envs]
      show (update k.envs e _ e').envStatus = _
      rw [update_of_ne (hec ▸ hne)]
      exact hrun'
    exact completes_call (schedule_completes hs₁ hstay true) fun _ _ _ => completes_pure _ _
  next => exact completes_pure _ _

theorem sysEnvDestroy_completes (h : k.Inv M) (hs : k.SchedInv) (hc : k.curenv = some c)
    {envid : Word} (hrun : ∀ e, envid2env envid true k = .ret e k → (k.envs e).envStatus = .runnable)
    (hne : e ≠ c) (hrun' : (k.envs e).envStatus = .runnable) :
    Completes (sysEnvDestroy envid) k := by
  refine completes_call ((envid2env_completes hc envid true).and (envid2env_eq envid true k)) ?_
  rintro t _ ⟨rfl, heq⟩
  refine completes_call (envDestroy_completes h hs hc (hrun t heq) hne hrun') ?_
  intro r k₁ _
  split <;> exact completes_pure _ _

theorem sysSetEnvStatus_completes (h : k.Inv M) (hs : k.SchedInv) (hc : k.curenv = some c)
    (envid status : Word) : Completes (sysSetEnvStatus envid status) k := by
  unfold Completes sysSetEnvStatus
  cases statusArg status with
  | none => trivial
  | some st =>
    refine completes_call (envid2env_live h hc envid true) ?_
    rintro e _ ⟨rfl, -⟩
    refine completes_get ?_
    obtain ⟨xs, hrep, hxs⟩ := hs.queue
    split
    next hcase =>
      obtain ⟨q, heq, -⟩ := schedRemove_queued hrep ((hxs e).mpr hcase.1)
      unfold Completes
      rw [bind_ret heq]
      trivial
    next =>
      split
      next hcase =>
        have he : e ∉ xs := by
          rw [hxs, hcase.1]
          simp
        obtain ⟨q, heq, -⟩ := schedInsertTail_queued hrep he
        unfold Completes
        rw [bind_ret heq]
        trivial
      next => trivial

theorem sysIpcRecv_completes (hs : k.SchedInv) (hc : k.curenv = some c) {dstva : Word}
    (hrun : dstva = 0 ∨ isIllegalVa dstva = false → (k.envs c).envStatus = .runnable) (hne : e ≠ c)
    (hrun' : (k.envs e).envStatus = .runnable) : Completes (sysIpcRecv dstva) k := by
  unfold Completes sysIpcRecv
  split
  · trivial
  next hva =>
    obtain ⟨q, heq, h₂⟩ := leave_sched hs hc (hrun (legal_of_null hva)) dstva
    rw [bind_ret (curenvPtr_eq hc), modify_bind, bind_ret heq, modify_bind]
    refine completes_call (schedule_completes h₂ (e := e) ?_ true) fun _ _ _ => completes_pure _ _
    show (update k.envs c _ e).envStatus = _
    rw [update_of_ne hne]
    exact hrun'

theorem schedInsertTail_completes {xs : List EnvPtr} (h : k.envSchedList.Represents xs)
    (e : EnvPtr) :
    (schedInsertTail e k).Sat (fun _ k' => ∃ q, k' = { k with envSchedList := q })
      (fun _ _ => False) (fun _ => False) := by
  rw [schedInsertTail, get_bind]
  have hlast : k.envSchedList.last ≠ .null := h.last_ne_null
  have hsome : ∃ q, k.envSchedList.insertTail e = some q := by
    unfold TailQ.insertTail TailQ.store
    cases hl : k.envSchedList.last with
    | null => exact absurd hl hlast
    | head => exact ⟨_, rfl⟩
    | next a => exact ⟨_, rfl⟩
  obtain ⟨q, hq⟩ := hsome
  rw [hq]
  exact ⟨q, rfl⟩

theorem ipcMapPage_completes (h : k.Inv M) (hc : k.Live c) (he : k.Live e) {srcva : Word}
    (hva : srcva < utop) (perm : Word) : Completes (ipcMapPage c e srcva perm) k := by
  refine completes_get ?_
  refine completes_call (pageLookup_completes h.vm (dir_of_live hc) (pdx_lt_of_lt_utop hva)) ?_
  rintro r _ rfl
  split
  · trivial
  · exact completes_call (completes_attempt (pageInsert_completes h.vm (dir_of_live he)
      (pdx_lt_of_lt_utop (h.dstva e)) _ _ _)) fun _ _ _ => completes_pure _ _

theorem sysIpcTrySend_completes (h : k.Inv M) (hs : k.SchedInv) (hc : k.curenv = some c)
    (envid value srcva perm : Word) : Completes (sysIpcTrySend envid value srcva perm) k := by
  unfold Completes sysIpcTrySend
  split
  · trivial
  next hva =>
    refine completes_call (envid2env_live h hc envid false) ?_
    rintro e _ ⟨rfl, hl⟩
    refine completes_get ?_
    split
    · trivial
    · unfold Completes
      rw [bind_ret (curenvPtr_eq hc), modify_bind]
      have h₁ := h.setEnv (e := e) (f := fun v => v.deliver value (k.envs c).envId perm)
        (iff_of_true (by simp [Env.deliver]) hl) rfl (h.dstva e)
      obtain ⟨xs, hrep, -⟩ := hs.queue
      refine completes_call (schedInsertTail_completes (k := k.setEnv e fun v =>
        v.deliver value (k.envs c).envId perm) hrep e) ?_
      rintro _ _ ⟨q, rfl⟩
      have h₂ : Kernel.Inv M { k.setEnv e fun v => v.deliver value (k.envs c).envId perm with
          envSchedList := q } := h₁.qframe ⟨q, Kernel.Frame.refl _⟩ h₁.vm
      split
      next hsrc =>
        have hlow : srcva < utop :=
          legal_of_not_illegal fun hill => hva ⟨hsrc, hill⟩
        have hle : Kernel.Live { k.setEnv e fun v => v.deliver value (k.envs c).envId perm with
            envSchedList := q } e := by
          show (update k.envs e _ e).envStatus ≠ .free
          rw [update_self]
          simp [Env.deliver]
        have hlc : Kernel.Live { k.setEnv e fun v => v.deliver value (k.envs c).envId perm with
            envSchedList := q } c := h₂.live_cur hc
        exact ipcMapPage_completes h₂ hlc hle hlow perm
      next => exact completes_pure _ _

/-! ## Calls that read or write user memory -/

/-- `m` comes back from `k` if and only if `C` holds. -/
def Decides (C : Prop) (m : KernM α) (k : Kernel) : Prop :=
  (m k).Sat (fun _ _ => C) (fun _ _ => C) (fun _ => ¬C)

theorem Completes.decides {m : KernM α} {C : Prop} (h : Completes m k) (hC : C) : Decides C m k :=
  Outcome.Sat.mono h (fun _ _ _ => hC) (fun _ _ _ => hC) (fun _ h => h.elim)

theorem Decides.iff {m : KernM α} {C : Prop} (h : Decides C m k) : (¬∃ p, m k = .halt p) ↔ C := by
  unfold Decides at h
  cases hm : m k with
  | ret a k' =>
    rw [hm] at h
    exact iff_of_true nofun h
  | err er k' =>
    rw [hm] at h
    exact iff_of_true nofun h
  | halt p =>
    rw [hm] at h
    exact iff_of_false (fun hn => hn ⟨p, rfl⟩) h

/-- The bytes from `s` on. -/
theorem toNat_byte {s : Word} {i : Nat} (h : s.toNat + i < 2 ^ 32) :
    (s + BitVec.ofNat 32 i).toNat = s.toNat + i := by
  rw [BitVec.toNat_add, BitVec.toNat_ofNat]
  omega

theorem ppn_byte_succ (s : Word) (i : Nat) :
    ppn (s + BitVec.ofNat 32 (i + 1)) ≤ ppn (s + BitVec.ofNat 32 i) + 1 := by
  rw [ppn_eq, ppn_eq, BitVec.toNat_add, BitVec.toNat_add, BitVec.toNat_ofNat, BitVec.toNat_ofNat]
  omega

/-- **A loop over the bytes of a range below `UTOP`.** -/
theorem sweep_bytes (body : Nat → KernM Unit) {C : Kernel → Word → Prop} {s : Word} {n : Nat}
    (h : k.Inv M) (hc : k.curenv = some c)
    (hC : ∀ k' m va, va < utop → k.Grown M c m k' → (C k' va ↔ C k va))
    (hbody : ∀ i k', i < n → k'.Inv M → k'.curenv = some c →
      Accesses M c (s + BitVec.ofNat 32 i) (C k' (s + BitVec.ofNat 32 i)) (body i) k')
    (hs : s.toNat + n ≤ utop.toNat) (hroom : 2 * (n / 4096 + 2) ≤ k.pageFreeList.length) :
    Decides (∀ i < n, C k (s + BitVec.ofNat 32 i)) (loop body 0 n) k := by
  have hutop := toNat_utop
  have haddr : ∀ i < n, (s + BitVec.ofNat 32 i).toNat = s.toNat + i := fun i hi =>
    toNat_byte (by omega)
  have hpage : ∀ i < n, ppn (s + BitVec.ofNat 32 i) = (s.toNat + i) / 4096 := fun i hi => by
    rw [ppn_eq, haddr i hi]
  have hfirst : ppn (s + BitVec.ofNat 32 0) = s.toNat / 4096 := by
    rw [ppn_eq, toNat_byte (by omega), Nat.add_zero]
  refine (sweep (fun i => s + BitVec.ofNat 32 i) ((s.toNat + n + 4095) / 4096) h hc ?_
    hbody ?_ (ppn_byte_succ s) ?_ ?_).mono (fun _ _ h => h) (fun _ _ h => h.elim) (fun _ h => h)
  · intro i k' m hi hg
    refine hC k' m _ ?_ hg
    show (s + BitVec.ofNat 32 i).toNat < utop.toNat
    rw [haddr i hi]
    omega
  · intro i hi
    rw [hfirst, hpage i hi]
    omega
  · intro i hi
    rw [hpage i hi]
    omega
  · rw [hfirst]
    omega

/-- The text of `sys_print_cons` lies below `UTOP`. -/
def consRange (s num : Word) : Prop := ¬(utop < s + num ∨ utop ≤ s ∨ s + num < s)

theorem consRange_toNat {s num : Word} (h : consRange s num) :
    s.toNat + num.toNat ≤ utop.toNat := by
  unfold consRange at h
  rw [not_or, not_or] at h
  obtain ⟨h₁, h₂, h₃⟩ := h
  have h₁' : ¬utop.toNat < (s + num).toNat := h₁
  have h₃' : ¬(s + num).toNat < s.toNat := h₃
  rw [BitVec.toNat_add] at h₁' h₃'
  omega

theorem sysPrintCons_decides (io : Io) (h : k.Inv M) (hc : k.curenv = some c) {s num : Word}
    (hroom : 2 * (num.toNat / 4096 + 2) ≤ k.pageFreeList.length) :
    Decides (consRange s num → ∀ i < num.toNat, k.Readable (s + BitVec.ofNat 32 i))
      (sysPrintCons io s num) k := by
  unfold Decides sysPrintCons
  split
  next hbad => exact fun hrange => absurd hbad hrange
  next hrange =>
    have hs := consRange_toNat hrange
    rw [bind_ret (curenvPtr_eq hc), get_bind]
    have hloop := sweep_bytes (C := fun k va => k.Readable va) (fun i => do
      let _ ← loadByte io (k.envs c).envAsid (s + BitVec.ofNat 32 i)) h hc
      (fun k' m va hva hg => hg.readable h hc hva) ?_ hs hroom
    · exact sat_call hloop (fun _ _ h _ => h) (fun _ _ h _ => h) (fun _ h hall => h (hall hrange))
    · intro i k' hi h' hc'
      have hva : s + BitVec.ofNat 32 i < utop := by
        show (s + BitVec.ofNat 32 i).toNat < utop.toNat
        have hutop := toNat_utop
        rw [toNat_byte (by omega)]
        omega
      exact sat_call (loadByte_accesses io h' hc' hva _) (fun _ _ h => h) (fun _ _ h => h)
        (fun _ h => h)

/-! ## Devices -/

/-- A range that passes the test and does not wrap around lies in a device. -/
theorem devRange_toNat {pa len : Word} (h : isDevRange pa len = true)
    (hwrap : pa.toNat + len.toNat < 2 ^ 32) :
    (0x10000000 ≤ pa.toNat ∧ pa.toNat + len.toNat ≤ 0x10000020) ∨
      (0x13000000 ≤ pa.toNat ∧ pa.toNat + len.toNat ≤ 0x13004200) ∨
      (0x15000000 ≤ pa.toNat ∧ pa.toNat + len.toNat ≤ 0x15000200) := by
  simp only [isDevRange, Bool.or_eq_true, decide_eq_true_eq, BitVec.le_def, BitVec.toNat_add,
    BitVec.ofNat_eq_ofNat, BitVec.toNat_ofNat] at h
  omega

/-- The addresses of a range of device registers that does not wrap around. -/
theorem device_addr {pa len : Word} (h : isDevRange pa len = true)
    (hwrap : pa.toNat + len.toNat < 2 ^ 32) {i : Nat} (hi : i < len.toNat) :
    (kseg0 ≤ pa + kseg1 + BitVec.ofNat 32 i ∧ pa + kseg1 + BitVec.ofNat 32 i < kseg2) ∧
      isDevice (physical (pa + kseg1 + BitVec.ofNat 32 i)) = true := by
  have hrange := devRange_toNat h hwrap
  have haddr : (pa + kseg1 + BitVec.ofNat 32 i).toNat = pa.toNat + 0xa0000000 + i := by
    have hk : kseg1.toNat = 0xa0000000 := by decide
    rw [BitVec.toNat_add, BitVec.toNat_add, BitVec.toNat_ofNat, hk]
    omega
  have hphys : (physical (pa + kseg1 + BitVec.ofNat 32 i)).toNat = pa.toNat + i := by
    have hmask : (0x1fffffff : Word).toNat = 2 ^ 29 - 1 := by decide
    unfold physical
    rw [BitVec.toNat_and, hmask, Nat.and_two_pow_sub_one_eq_mod, haddr]
    omega
  refine ⟨⟨?_, ?_⟩, ?_⟩
  · show kseg0.toNat ≤ (pa + kseg1 + BitVec.ofNat 32 i).toNat
    have hk : kseg0.toNat = 0x80000000 := by decide
    rw [haddr, hk]
    omega
  · show (pa + kseg1 + BitVec.ofNat 32 i).toNat < kseg2.toNat
    have hk : kseg2.toNat = 0xc0000000 := by decide
    rw [haddr, hk]
    omega
  · simp only [isDevice, Bool.or_eq_true, decide_eq_true_eq, BitVec.le_def, BitVec.lt_def, hphys,
      BitVec.ofNat_eq_ofNat, BitVec.toNat_ofNat]
    omega

theorem storeByte_device {d : Word} (hk : kseg0 ≤ d ∧ d < kseg2)
    (hd : isDevice (physical d) = true) (asid : Word) (b : Byte) (k : Kernel) :
    storeByte asid d b k = .ret () k := by
  unfold storeByte
  rw [if_pos hk, get_bind, if_pos hd]
  rfl

theorem loadByte_device (io : Io) {d : Word} (hk : kseg0 ≤ d ∧ d < kseg2)
    (hd : isDevice (physical d) = true) (asid : Word) (k : Kernel) :
    loadByte io asid d k = .ret (io.device (physical d)) k := by
  unfold loadByte
  rw [if_pos hk, get_bind, if_pos hd]
  rfl

/-- `memcpy` between user memory and a device does not wrap around. -/
theorem device_end {pa len : Word} (h : isDevRange pa len = true)
    (hwrap : pa.toNat + len.toNat < 2 ^ 32) : ¬pa + kseg1 + len < pa + kseg1 := by
  have hk : kseg1.toNat = 0xa0000000 := by decide
  intro hlt
  have hlt' : (pa + kseg1 + len).toNat < (pa + kseg1).toNat := hlt
  have hrange := devRange_toNat h hwrap
  rw [BitVec.toNat_add, BitVec.toNat_add, hk] at hlt'
  omega

theorem legalRange_word {va len : Word} (h : isIllegalVaRange va len = false) (h0 : len.toNat ≠ 0) :
    va.toNat + len.toNat ≤ utop.toNat := by
  refine legalRange len.isLt h0 ?_
  rw [BitVec.ofNat_toNat, BitVec.setWidth_eq, h]
  exact Bool.false_ne_true

theorem sysWriteDev_decides (io : Io) (h : k.Inv M) (hc : k.curenv = some c) {va pa len : Word}
    (hwrap : pa.toNat + len.toNat < 2 ^ 32)
    (hroom : 2 * (len.toNat / 4096 + 2) ≤ k.pageFreeList.length) :
    Decides (isIllegalVaRange va len = false → isDevRange pa len = true →
      ∀ i < len.toNat, k.Readable (va + BitVec.ofNat 32 i)) (sysWriteDev io va pa len) k := by
  unfold Decides sysWriteDev
  split
  next hbad => exact fun hgood => absurd (hgood.symm.trans hbad) nofun
  next hva =>
    split
    next hbad => exact fun _ hgood => absurd hbad (by rw [hgood]; simp)
    next hdev =>
      replace hva : isIllegalVaRange va len = false := by simpa using hva
      replace hdev : isDevRange pa len = true := by simpa using hdev
      rw [bind_ret (curenvPtr_eq hc), get_bind]
      unfold memcpy
      rw [if_neg (device_end hdev hwrap)]
      by_cases h0 : len.toNat = 0
      · rw [h0]
        exact fun _ _ i hi => absurd hi (Nat.not_lt_zero i)
      have hs := legalRange_word hva h0
      have hloop := sweep_bytes (C := fun k va => k.Readable va) (fun i => do
        let b ← loadByte io (k.envs c).envAsid (va + BitVec.ofNat 32 i)
        storeByte (k.envs c).envAsid (pa + kseg1 + BitVec.ofNat 32 i) b) h hc
        (fun k' m va hva hg => hg.readable h hc hva) ?_ hs hroom
      · exact sat_call hloop (fun _ _ h _ _ => h) (fun _ _ h _ _ => h)
          (fun _ h hall => h (hall hva hdev))
      · intro i k' hi h' hc'
        have hlt : va + BitVec.ofNat 32 i < utop := by
          show (va + BitVec.ofNat 32 i).toNat < utop.toNat
          have hutop := toNat_utop
          rw [toNat_byte (by omega)]
          omega
        obtain ⟨hk, hd⟩ := device_addr hdev hwrap hi
        refine sat_call (loadByte_accesses io h' hc' hlt _) ?_ (fun _ _ h => h) (fun _ h => h)
        intro b k₁ h₁
        rw [storeByte_device hk hd]
        exact h₁

theorem sysReadDev_decides (io : Io) (h : k.Inv M) (hc : k.curenv = some c) {va pa len : Word}
    (hwrap : pa.toNat + len.toNat < 2 ^ 32)
    (hroom : 2 * (len.toNat / 4096 + 2) ≤ k.pageFreeList.length) :
    Decides (isIllegalVaRange va len = false → isDevRange pa len = true →
      ∀ i < len.toNat, k.Writable c (va + BitVec.ofNat 32 i)) (sysReadDev io va pa len) k := by
  unfold Decides sysReadDev
  split
  next hbad => exact fun hgood => absurd (hgood.symm.trans hbad) nofun
  next hva =>
    split
    next hbad => exact fun _ hgood => absurd hbad (by rw [hgood]; simp)
    next hdev =>
      replace hva : isIllegalVaRange va len = false := by simpa using hva
      replace hdev : isDevRange pa len = true := by simpa using hdev
      rw [bind_ret (curenvPtr_eq hc), get_bind]
      unfold memcpy
      by_cases h0 : len.toNat = 0
      · rw [h0]
        split <;> exact fun _ _ i hi => absurd hi (Nat.not_lt_zero i)
      have hs := legalRange_word hva h0
      have hend : ¬va + len < va := by
        intro hlt
        have hlt' : (va + len).toNat < va.toNat := hlt
        have hutop := toNat_utop
        rw [BitVec.toNat_add] at hlt'
        omega
      rw [if_neg hend]
      have hloop := sweep_bytes (C := fun k va => k.Writable c va) (fun i => do
        let b ← loadByte io (k.envs c).envAsid (pa + kseg1 + BitVec.ofNat 32 i)
        storeByte (k.envs c).envAsid (va + BitVec.ofNat 32 i) b) h hc
        (fun k' m va _ hg => hg.writable) ?_ hs hroom
      · exact sat_call hloop (fun _ _ h _ _ => h) (fun _ _ h _ _ => h)
          (fun _ h hall => h (hall hva hdev))
      · intro i k' hi h' hc'
        have hlt : va + BitVec.ofNat 32 i < utop := by
          show (va + BitVec.ofNat 32 i).toNat < utop.toNat
          have hutop := toNat_utop
          rw [toNat_byte (by omega)]
          omega
        obtain ⟨hk, hd⟩ := device_addr hdev hwrap hi
        unfold Accesses
        rw [bind_ret (loadByte_device io hk hd _ k')]
        exact storeByte_accesses h' hc' hlt _ _

/-! ## Trap frames -/

theorem and_three_add {va : Word} (h : va &&& 3 = 0) (i : Nat) :
    (va + BitVec.ofNat 32 (4 * i)) &&& 3 = 0 := by
  have hmask : (3 : Word).toNat = 2 ^ 2 - 1 := by decide
  have h4 : va.toNat % 4 = 0 := by
    have := congrArg BitVec.toNat h
    rwa [BitVec.toNat_and, hmask, Nat.and_two_pow_sub_one_eq_mod] at this
  apply BitVec.eq_of_toNat_eq
  rw [BitVec.toNat_and, hmask, Nat.and_two_pow_sub_one_eq_mod, BitVec.toNat_add, BitVec.toNat_ofNat]
  show _ = 0
  omega

/-- **The words of a range** are read one after the other. -/
theorem loadUserWords_sweep (asid : Word) {lo hi : Nat} : ∀ {n : Nat} {k : Kernel} {va : Word}
    {q : Nat}, k.Inv M → k.curenv = some c → va &&& 3 = 0 → va.toNat + 4 * n ≤ utop.toNat →
    lo ≤ ppn va → ppn va ≤ q → (va.toNat + 4 * n + 4095) / 4096 ≤ hi → k.Stocked c lo q hi →
    Decides (∀ i < n, k.Readable (va + BitVec.ofNat 32 (4 * i))) (loadUserWords asid va n) k
  | 0, _, _, _, _, _, _, _, _, _, _, _ => fun i hi => absurd hi (Nat.not_lt_zero i)
  | n + 1, k, va, q, h, hc, halign, hva, hlo, hq, hhi, hst => by
    have hutop := toNat_utop
    have hlt : va < utop := show va.toNat < utop.toNat by omega
    have hpage := ppn_eq va
    have hnext : (va + 4).toNat = va.toNat + 4 := by
      rw [BitVec.toNat_add, show (4 : Word).toNat = 4 from rfl]
      omega
    have hsplit : (∀ i < n + 1, k.Readable (va + BitVec.ofNat 32 (4 * i))) ↔ k.Readable va ∧
        ∀ i < n, k.Readable (va + 4 + BitVec.ofNat 32 (4 * i)) := by
      have haddr : ∀ i, va + BitVec.ofNat 32 (4 * (i + 1)) = va + 4 + BitVec.ofNat 32 (4 * i) := by
        intro i
        apply BitVec.eq_of_toNat_eq
        simp only [BitVec.toNat_add, BitVec.toNat_ofNat, show (4 : Word).toNat = 4 from rfl]
        omega
      constructor
      · intro hall
        refine ⟨by simpa using hall 0 (Nat.succ_pos n), fun i hi => ?_⟩
        rw [← haddr]
        exact hall (i + 1) (by omega)
      · rintro ⟨h₀, hall⟩ i hi
        cases i with
        | zero => simpa using h₀
        | succ i =>
          rw [haddr]
          exact hall i (by omega)
    unfold Decides
    rw [hsplit]
    refine sat_call ((loadUser_accesses h hc hlt halign asid).next hst hlo hq (by omega)) ?_
      (fun _ _ h => h.elim) (fun _ h hall => h hall.1)
    rintro w k₁ ⟨hread, ⟨m, hg⟩, q', hq', hst'⟩
    have hpage' := ppn_eq (va + 4)
    rw [hnext] at hpage'
    have halign' : va + 4 &&& 3 = 0 := and_three_add halign 1
    have hrest := loadUserWords_sweep asid (n := n) (hg.inv h) (hg.frame.curenv.trans hc) halign'
      (by rw [hnext]; omega) (by omega) (by omega) (by rw [hnext]; omega) hst'
    have hiff : (∀ i < n, k₁.Readable (va + 4 + BitVec.ofNat 32 (4 * i))) ↔
        ∀ i < n, k.Readable (va + 4 + BitVec.ofNat 32 (4 * i)) := by
      refine forall₂_congr fun i hi => hg.readable h hc ?_
      show (va + 4 + BitVec.ofNat 32 (4 * i)).toNat < utop.toNat
      rw [toNat_byte (by rw [hnext]; omega), hnext]
      omega
    rw [hiff] at hrest
    exact sat_call hrest (fun _ _ hall => ⟨hread, hall⟩) (fun _ _ hall => ⟨hread, hall⟩)
      (fun _ hn hall => hn hall.2)

theorem loadUserWords_unaligned {asid va : Word} (h : ¬va &&& 3 = 0) (n : Nat) (k : Kernel) :
    loadUserWords asid va (n + 1) k = .halt .reserved := by
  have hload : loadUser va asid k = .halt .reserved := by
    unfold loadUser
    rw [if_pos h]
    rfl
  rw [loadUserWords, bind_halt hload]

theorem sysSetTrapframe_decides (h : k.Inv M) (hc : k.curenv = some c) {envid tf : Word}
    (hroom : 2 * (152 / 4096 + 2) ≤ k.pageFreeList.length) :
    Decides (isIllegalVaRange tf 152 = false → (∃ e, envid2env envid true k = .ret e k) →
      tf &&& 3 = 0 ∧ ∀ i < 38, k.Readable (tf + BitVec.ofNat 32 (4 * i)))
      (sysSetTrapframe envid tf) k := by
  unfold Decides sysSetTrapframe
  split
  next hbad => exact fun hgood => absurd (hgood.symm.trans hbad) nofun
  next hva =>
    have hva' : isIllegalVaRange tf 152 = false := by rwa [Bool.not_eq_true] at hva
    have hrange : tf.toNat + 4 * 38 ≤ utop.toNat := legalRange (by decide) (by decide) hva
    refine sat_call ((envid2env_completes hc envid true).and ((envid2env_eq envid true k).and
      (Outcome.sat_self _))) ?_ ?_ (fun _ h => h.elim)
    · rintro e _ ⟨⟨rfl, heq⟩, -⟩
      rw [bind_ret (curenvPtr_eq hc), get_bind]
      by_cases halign : tf &&& 3 = 0
      · have hst : k.Stocked c (ppn tf) (ppn tf) ((tf.toNat + 4 * 38 + 4095) / 4096) :=
          ⟨fun p h₁ h₂ => absurd h₂ (by omega), by rw [ppn_eq]; omega⟩
        have hload := loadUserWords_sweep (k.envs c).envAsid (n := 38) h hc halign hrange (le_refl _)
          (le_refl _) (le_refl _) hst
        refine sat_call hload ?_ (fun _ _ h _ _ => ⟨halign, h⟩)
          (fun _ hn hall => hn (hall hva' ⟨e, heq⟩).2)
        intro ws k₁ hall
        split <;> exact fun _ _ => ⟨halign, hall⟩
      · rw [bind_halt (loadUserWords_unaligned halign 37 k)]
        exact fun hall => halign (hall hva' ⟨e, heq⟩).1
    · rintro er k₁ ⟨-, herr⟩ _ ⟨e, heq⟩
      rw [heq] at herr
      cases herr

/-! ## The arguments on the stack -/

/-- Where the stack pointer may be: the fourth and the fifth argument lie below `UTOP`, or both in the
windows `UENVS` and `UPAGES`. From `UVPT` on the kernel reads page tables or its own memory. -/
def StackOk (sp : Word) : Prop :=
  sp.toNat + 24 ≤ utop.toNat ∨ utop.toNat ≤ sp.toNat + 16 ∧ sp.toNat + 24 ≤ uvpt.toNat

/-- Both words can be read. -/
def Kernel.StackReadable (k : Kernel) (sp : Word) : Prop :=
  sp &&& 3 = 0 ∧ k.Readable (sp + 16) ∧ k.Readable (sp + 20)

theorem readable_zone {va : Word} (h₁ : utop ≤ va) (h₂ : va < uvpt) :
    k.Readable va ↔ k.found va = true := or_iff_left (passiveCheck_zone h₁ h₂)

/-- A load from the windows `UENVS` and `UPAGES` finds a page, or the kernel panics. -/
theorem loadUser_zone {va : Word} (h₁ : utop ≤ va) (h₂ : va < uvpt) (halign : va &&& 3 = 0)
    (asid : Word) :
    (loadUser va asid k).Sat (fun _ k' => k.Readable va ∧ ∃ tlb, k' = { k with tlb := tlb })
      (fun _ _ => False) (fun _ => ¬k.Readable va) := by
  have hrefill : (doTlbRefill va asid k).Sat (fun _ k' => k.found va = true ∧ k' = k)
      (fun _ _ => False) (fun _ => ¬k.found va = true) := by
    have hspec := (pageLookup_state k.curPgdir va k).and (Outcome.sat_self _)
    rw [doTlbRefill, sat_bind, refillLoop, get_bind]
    refine sat_call hspec ?_ (fun _ _ h => h.1) ?_
    · rintro r k₁ ⟨rfl, hlook⟩
      cases r with
      | some r =>
        refine ⟨?_, rfl⟩
        unfold Kernel.found
        rw [hlook]
      | none =>
        refine sat_call (R := fun _ _ => False) (F := fun _ _ => False)
          (G := fun _ => ¬k₁.found va = true) ?_ (fun _ _ h => h.elim) (fun _ _ h => h)
          (fun _ h => h)
        unfold passiveAlloc
        cases hp : passiveCheck va with
        | none => exact absurd hp (passiveCheck_zone h₁ h₂)
        | some p =>
          show ¬k₁.found va = true
          unfold Kernel.found
          rw [hlook]
          simp
    · rintro p ⟨-, hlook⟩
      unfold Kernel.found
      rw [hlook]
      simp
  unfold loadUser
  rw [if_neg (not_not.mpr halign), readable_zone h₁ h₂]
  refine sat_call hrefill ?_ (fun _ _ h => h) (fun _ h => h)
  rintro pte _ ⟨hf, rfl⟩
  exact ⟨hf, _, rfl⟩

theorem loadWord_eq (io : Io) {asid va : Word} (hva : va < uvpt) :
    loadWord io asid va = loadUser va asid := by
  have hk : ¬(kseg0 ≤ va ∧ va < kseg2) := by
    rintro ⟨h₁, -⟩
    have h₁' : kseg0.toNat ≤ va.toNat := h₁
    have h₂ : va.toNat < uvpt.toNat := hva
    have h₃ : uvpt.toNat < kseg0.toNat := by decide
    omega
  unfold loadWord
  rw [if_neg hk]

/-- **The argument words** are read if both can be, and then the call goes on. -/
theorem fetch_decides (io : Io) {f : Word → Word → KernM α} {C : Prop} {asid sp : Word}
    (h : k.Inv M) (hc : k.curenv = some c) (hsp : StackOk sp) (hroom : 4 ≤ k.pageFreeList.length)
    (hf : ∀ a b m k', m ≤ 4 → k.Grown M c m k' → Decides C (f a b) k') :
    Decides (k.StackReadable sp ∧ C) (do
      let a ← loadWord io asid (sp + 16)
      let b ← loadWord io asid (sp + 20)
      f a b) k := by
  have hutop := toNat_utop
  have huvpt : uvpt.toNat = 0x7fc00000 := by decide
  have h16 : (sp + 16).toNat = sp.toNat + 16 := by
    have hlt : sp.toNat + 24 ≤ uvpt.toNat := by rcases hsp with hlow | hzone <;> omega
    rw [BitVec.toNat_add, show (16 : Word).toNat = 16 from rfl]
    omega
  have h20 : (sp + 20).toNat = sp.toNat + 20 := by
    have hlt : sp.toNat + 24 ≤ uvpt.toNat := by rcases hsp with hlow | hzone <;> omega
    rw [BitVec.toNat_add, show (20 : Word).toNat = 20 from rfl]
    omega
  have hv16 : sp + 16 < uvpt := by
    show (sp + 16).toNat < uvpt.toNat
    rcases hsp with hlow | hzone <;> omega
  have hv20 : sp + 20 < uvpt := by
    show (sp + 20).toNat < uvpt.toNat
    rcases hsp with hlow | hzone <;> omega
  rw [loadWord_eq io hv16, loadWord_eq io hv20]
  unfold Decides
  by_cases halign : sp &&& 3 = 0
  · have ha16 : sp + 16 &&& 3 = 0 := and_three_add halign 4
    have ha20 : sp + 20 &&& 3 = 0 := and_three_add halign 5
    rcases hsp with hlow | ⟨hlow, hhigh⟩
    · have hlt16 : sp + 16 < utop := show (sp + 16).toNat < utop.toNat by omega
      have hlt20 : sp + 20 < utop := show (sp + 20).toNat < utop.toNat by omega
      refine sat_call (loadUser_accesses h hc hlt16 ha16 asid) ?_ (fun _ _ h => h.elim) ?_
      · rintro a k₁ ⟨hr16, -, hg₁⟩
        have hm₁ : (if k.vm.leaf c (ppn (sp + 16)) = none then 2 else 0) ≤ 2 := by split <;> omega
        generalize (if k.vm.leaf c (ppn (sp + 16)) = none then 2 else 0) = m₁ at hg₁ hm₁
        have hroom₁ := hg₁.room
        have hr20 := hg₁.readable h hc hlt20
        refine sat_call (loadUser_accesses (hg₁.inv h) (hg₁.frame.curenv.trans hc) hlt20 ha20 asid) ?_
          (fun _ _ h => h.elim) ?_
        · rintro b k₂ ⟨hr20', -, hg₂⟩
          have hm₂ : (if k₁.vm.leaf c (ppn (sp + 20)) = none then 2 else 0) ≤ 2 := by
            split <;> omega
          generalize (if k₁.vm.leaf c (ppn (sp + 20)) = none then 2 else 0) = m₂ at hg₂ hm₂
          refine (hf a b (m₁ + m₂) k₂ (by omega) (hg₁.trans hg₂)).mono ?_ ?_ (fun _ hn hall => hn hall.2)
          · exact fun _ _ hC => ⟨⟨halign, hr16, hr20.mp hr20'⟩, hC⟩
          · exact fun _ _ hC => ⟨⟨halign, hr16, hr20.mp hr20'⟩, hC⟩
        · intro p hshort hall
          have := (hshort (hr20.mpr hall.1.2.2)).2
          omega
      · intro p hshort hall
        have := (hshort hall.1.2.1).2
        omega
    · have hz16 : utop ≤ sp + 16 := show utop.toNat ≤ (sp + 16).toNat by omega
      have hz20 : utop ≤ sp + 20 := show utop.toNat ≤ (sp + 20).toNat by omega
      refine sat_call (loadUser_zone hz16 hv16 ha16 asid) ?_ (fun _ _ h => h.elim)
        (fun _ hn hall => hn hall.1.2.1)
      rintro a _ ⟨hr16, tlb, rfl⟩
      refine sat_call (loadUser_zone hz20 hv20 ha20 asid) ?_ (fun _ _ h => h.elim)
        (fun _ hn hall => hn ?_)
      · rintro b _ ⟨hr20, tlb', rfl⟩
        have hr20' : k.Readable (sp + 20) := by
          rw [readable_zone hz20 hv20, found_eq] at hr20 ⊢
          exact hr20
        refine (hf a b 0 _ (by omega) ((Kernel.Grown.refl h.vm).tlb tlb')).mono ?_ ?_
          (fun _ hn hall => hn hall.2)
        · exact fun _ _ hC => ⟨⟨halign, hr16, hr20'⟩, hC⟩
        · exact fun _ _ hC => ⟨⟨halign, hr16, hr20'⟩, hC⟩
      · have hr20 := hall.1.2.2
        rw [readable_zone hz20 hv20, found_eq] at hr20 ⊢
        exact hr20
  · have ha16 : ¬sp + 16 &&& 3 = 0 := by
      intro hc16
      refine halign ?_
      have hback : sp = sp + 16 + BitVec.ofNat 32 (4 * 0x3ffffffc) := by
        apply BitVec.eq_of_toNat_eq
        rw [BitVec.toNat_add, h16, BitVec.toNat_ofNat]
        have := sp.isLt
        omega
      rw [hback]
      exact and_three_add hc16 _
    have hhalt : loadUser (sp + 16) asid k = .halt .reserved := by
      unfold loadUser
      rw [if_pos ha16]
      rfl
    rw [bind_halt hhalt]
    exact fun hall => halign hall.1.1

/-! ## Dispatch -/

/-- What a call asks of the memory of its caller `c`. -/
def Sysno.Ok (k : Kernel) (c : EnvPtr) (a₁ a₂ a₃ : Word) : Sysno → Prop
  | .printCons => consRange a₁ a₂ → ∀ i < a₂.toNat, k.Readable (a₁ + BitVec.ofNat 32 i)
  | .setTrapframe => isIllegalVaRange a₂ 152 = false → (∃ e, envid2env a₁ true k = .ret e k) →
    a₂ &&& 3 = 0 ∧ ∀ i < 38, k.Readable (a₂ + BitVec.ofNat 32 (4 * i))
  | .writeDev => isIllegalVaRange a₁ a₃ = false → isDevRange a₂ a₃ = true →
    ∀ i < a₃.toNat, k.Readable (a₁ + BitVec.ofNat 32 i)
  | .readDev => isIllegalVaRange a₁ a₃ = false → isDevRange a₂ a₃ = true →
    ∀ i < a₃.toNat, k.Writable c (a₁ + BitVec.ofNat 32 i)
  | _ => True

/-- What is taken for granted: where a call uses the queue, the queue holds the runnable envs and the
env that leaves it is there; the range of a device does not wrap around. -/
def Sysno.Sound (k : Kernel) (c : EnvPtr) (a₁ a₂ a₃ : Word) : Sysno → Prop
  | .yield => k.SchedInv
  | .envDestroy => k.SchedInv ∧
    ∀ e, envid2env a₁ true k = .ret e k → (k.envs e).envStatus = .runnable
  | .setEnvStatus => k.SchedInv
  | .ipcTrySend => k.SchedInv
  | .ipcRecv => k.SchedInv ∧
    (a₁ = 0 ∨ isIllegalVa a₁ = false → (k.envs c).envStatus = .runnable)
  | .writeDev => a₂.toNat + a₃.toNat < 2 ^ 32
  | .readDev => a₂.toNat + a₃.toNat < 2 ^ 32
  | _ => True

/-- The pages that a call can touch. -/
def Sysno.pages (a₂ a₃ : Word) : Sysno → Nat
  | .printCons => a₂.toNat / 4096 + 2
  | .setTrapframe => 152 / 4096 + 2
  | .writeDev => a₃.toNat / 4096 + 2
  | .readDev => a₃.toNat / 4096 + 2
  | _ => 0

/-- **Every system call** comes back if and only if it finds its memory as it needs it. -/
theorem syscallTable_decides (io : Io) {sysno : Sysno} {a₁ a₂ a₃ : Word} (a₄ a₅ : Word)
    (h : k.Inv M) (hc : k.curenv = some c) (hne : e ≠ c)
    (hrun : (k.envs e).envStatus = .runnable) (hpanic : sysno ≠ .panic)
    (hs : sysno.Sound k c a₁ a₂ a₃) (hroom : 2 * sysno.pages a₂ a₃ ≤ k.pageFreeList.length) :
    Decides (sysno.Ok k c a₁ a₂ a₃) (syscallTable io a₁ a₂ a₃ a₄ a₅ sysno) k := by
  cases sysno with
  | putchar => exact (completes_pure _ k).decides trivial
  | printCons => exact sysPrintCons_decides io h hc hroom
  | getenvid =>
    exact (sysGetenvid_completes hc).decides trivial
  | yield => exact (sysYield_completes hs hrun).decides trivial
  | envDestroy => exact (sysEnvDestroy_completes h hs.1 hc hs.2 hne hrun).decides trivial
  | setTlbModEntry => exact (sysSetTlbModEntry_completes h hc a₁ a₂).decides trivial
  | memAlloc => exact (sysMemAlloc_completes h hc a₁ a₂ a₃).decides trivial
  | memMap => exact (sysMemMap_completes h hc a₁ a₂ a₃ a₄ a₅).decides trivial
  | memUnmap => exact (sysMemUnmap_completes h hc a₁ a₂).decides trivial
  | exofork => exact (sysExofork_completes h hc).decides trivial
  | setEnvStatus => exact (sysSetEnvStatus_completes h hs hc a₁ a₂).decides trivial
  | setTrapframe => exact sysSetTrapframe_decides h hc hroom
  | panic => exact absurd rfl hpanic
  | ipcTrySend => exact (sysIpcTrySend_completes h hs hc a₁ a₂ a₃ a₄).decides trivial
  | ipcRecv => exact (sysIpcRecv_completes hs.1 hc hs.2 hne hrun).decides trivial
  | cgetc => exact (completes_pure _ k).decides trivial
  | writeDev => exact sysWriteDev_decides io h hc hs hroom
  | readDev => exact sysReadDev_decides io h hc hs hroom

/-! ## From the trap to the call -/

theorem envid2env_congr (henvs : k'.envs = k.envs) (hcur : k'.curenv = k.curenv) (envid : Word)
    (checkperm : Bool) (e : EnvPtr) :
    envid2env envid checkperm k' = .ret e k' ↔ envid2env envid checkperm k = .ret e k := by
  simp only [envid2env, get_bind, henvs, hcur]
  cases k.curenv with
  | none =>
    by_cases h0 : envid = 0
    · simp [h0]
    · simp only [h0, if_false]
      split
      · simp
      · cases checkperm <;> simp
  | some c =>
    by_cases h0 : envid = 0
    · simp [h0]
    · simp only [h0, if_false]
      split
      · simp
      · cases checkperm with
        | false => simp
        | true =>
          simp only [if_true]
          split <;> simp

/-- After the argument words are read, a call asks for the same as before. -/
theorem Sysno.ok_congr {sysno : Sysno} {a₁ a₂ a₃ : Word} (henvs : k'.envs = k.envs)
    (hcur : k'.curenv = k.curenv) (hread : ∀ va, va < utop → (k'.Readable va ↔ k.Readable va))
    (hwrite : ∀ va, k'.Writable c va ↔ k.Writable c va) :
    sysno.Ok k' c a₁ a₂ a₃ ↔ sysno.Ok k c a₁ a₂ a₃ := by
  have hutop := toNat_utop
  have hbyte : ∀ {s : Word} {n i : Nat}, s.toNat + n ≤ utop.toNat → i < n →
      s + BitVec.ofNat 32 i < utop := by
    intro s n i hs hi
    show (s + BitVec.ofNat 32 i).toNat < utop.toNat
    rw [toNat_byte (by omega)]
    omega
  cases sysno with
  | printCons =>
    refine forall_congr' fun hrange => forall₂_congr fun i hi => hread _ ?_
    exact hbyte (consRange_toNat hrange) hi
  | setTrapframe =>
    refine forall_congr' fun hva => ?_
    simp only [envid2env_congr henvs hcur a₁ true]
    refine forall_congr' fun _ => and_congr_right fun _ => forall₂_congr fun i hi => hread _ ?_
    have hrange : a₂.toNat + 4 * 38 ≤ utop.toNat :=
      legalRange (by decide) (by decide) (hva ▸ Bool.false_ne_true)
    exact hbyte hrange (by omega)
  | writeDev =>
    refine forall_congr' fun hva => forall_congr' fun _ => forall₂_congr fun i hi => hread _ ?_
    exact hbyte (legalRange_word hva (by omega)) hi
  | readDev =>
    exact forall_congr' fun _ => forall_congr' fun _ => forall₂_congr fun i _ => hwrite _
  | _ => exact Iff.rfl

theorem Sysno.Sound.quiet {sysno : Sysno} {a₁ a₂ a₃ : Word} (h : sysno.Sound k c a₁ a₂ a₃)
    (hq : k.Quiet k') (henvs : k'.envs = k.envs) : sysno.Sound k' c a₁ a₂ a₃ := by
  cases sysno with
  | yield => exact Kernel.SchedInv.quiet h hq
  | envDestroy =>
    refine ⟨h.1.quiet hq, fun e he => ?_⟩
    rw [hq.status]
    exact h.2 e ((envid2env_congr henvs hq.curenv a₁ true e).mp he)
  | setEnvStatus => exact Kernel.SchedInv.quiet h hq
  | ipcTrySend => exact Kernel.SchedInv.quiet h hq
  | ipcRecv =>
    refine ⟨h.1.quiet hq, fun hva => ?_⟩
    rw [hq.status]
    exact h.2 hva
  | writeDev => exact h
  | readDev => exact h
  | _ => trivial

/-- The kernel when the arguments are fetched. -/
def Kernel.advanced (k : Kernel) : Kernel :=
  { k with kstackTf := { k.kstackTf with cp0Epc := k.kstackTf.cp0Epc + 4 } }

theorem readable_advanced (k : Kernel) (va : Word) : k.advanced.Readable va ↔ k.Readable va := by
  unfold Kernel.Readable
  rw [found_eq, found_eq]
  exact Iff.rfl

/-- The request on the kernel stack is one that `Sysno.Sound` speaks about. -/
def Kernel.Sound (k : Kernel) (c : EnvPtr) : Prop :=
  ∀ sysno, sysnoOf (k.kstackTf.regs 4) = some sysno → StackOk (k.kstackTf.regs 29) ∧
    sysno.Sound k c (k.kstackTf.regs 5) (k.kstackTf.regs 6) (k.kstackTf.regs 7)

/-- The request on the kernel stack finds the user's memory as it needs it. -/
def Kernel.Servable (k : Kernel) (c : EnvPtr) : Prop :=
  ∀ sysno, sysnoOf (k.kstackTf.regs 4) = some sysno → k.StackReadable (k.kstackTf.regs 29) ∧
    sysno.Ok k c (k.kstackTf.regs 5) (k.kstackTf.regs 6) (k.kstackTf.regs 7)

/-- There are two frames for every page that the request can touch. -/
def Kernel.HasRoom (k : Kernel) : Prop :=
  ∀ sysno, sysnoOf (k.kstackTf.regs 4) = some sysno →
    4 + 2 * sysno.pages (k.kstackTf.regs 6) (k.kstackTf.regs 7) ≤ k.pageFreeList.length

theorem doSyscall_decides (io : Io) (h : k.Inv M) (hc : k.curenv = some c) (hne : e ≠ c)
    (hrun : (k.envs e).envStatus = .runnable)
    (hpanic : sysnoOf (k.kstackTf.regs 4) ≠ some .panic) (hs : k.Sound c) (hroom : k.HasRoom) :
    Decides (k.Servable c) (doSyscall io) k := by
  unfold Decides doSyscall
  rw [get_bind]
  cases hno : sysnoOf (k.kstackTf.regs 4) with
  | none => exact fun sysno hsome => nomatch hno.symm.trans hsome
  | some sysno =>
    obtain ⟨hsp, hsound⟩ := hs sysno hno
    have hroom := hroom sysno hno
    simp only [bind_ret (curenvPtr_eq hc), modify_bind]
    have hserv : k.Servable c ↔ k.advanced.StackReadable (k.kstackTf.regs 29) ∧
        sysno.Ok k c (k.kstackTf.regs 5) (k.kstackTf.regs 6) (k.kstackTf.regs 7) := by
      unfold Kernel.StackReadable
      rw [readable_advanced, readable_advanced]
      constructor
      · exact fun hall => hall sysno hno
      · intro hall sysno' hno'
        obtain rfl := Option.some.inj (hno.symm.trans hno')
        exact hall
    rw [hserv]
    have h₁ : k.advanced.Inv M := ⟨h.vm, h.cur, h.dstva, h.free_dead, h.free_nodup⟩
    refine fetch_decides io h₁ hc hsp (by show 4 ≤ k.pageFreeList.length; omega) ?_
    intro a₄ a₅ m k₂ hm hg
    have hq : k.Quiet k₂ :=
      Kernel.Quiet.trans k k.advanced k₂ ⟨rfl, fun _ => rfl, rfl, rfl⟩ (.of_frame hg.frame)
    have hlen : k.pageFreeList.length ≤ k₂.pageFreeList.length + m := hg.room
    have hcall := syscallTable_decides io a₄ a₅ (hg.inv h₁) (hq.curenv.trans hc) hne
      (by rw [hq.status]; exact hrun) (fun hcon => hpanic (hno.trans (congrArg some hcon)))
      (hsound.quiet hq hg.frame.envs) (by omega)
    have hok : sysno.Ok k₂ c (k.kstackTf.regs 5) (k.kstackTf.regs 6) (k.kstackTf.regs 7) ↔
        sysno.Ok k c (k.kstackTf.regs 5) (k.kstackTf.regs 6) (k.kstackTf.regs 7) :=
      Sysno.ok_congr (k := k) hg.frame.envs hq.curenv (fun va hva => (hg.readable h₁ hc hva).trans
        (readable_advanced k va)) (fun va => hg.writable)
    rw [hok] at hcall
    unfold Decides
    rw [sat_bind, sat_attempt]
    refine Outcome.Sat.mono hcall ?_ (fun _ _ hC => hC) (fun _ hn => hn)
    intro r k₃ hC
    cases r <;> exact hC

/-- **Which requests panic the kernel.** In every reachable state, with another env to run and with
memory for the pages that have to be mapped, `do_syscall` comes back if and only if the argument words
on the stack and what the call reads or writes lie in pages that are mapped or may be mapped, and are
aligned where they have to be. -/
theorem no_panic_iff (io : Io) (b : Boot) (k : Kernel) (c e : EnvPtr)
    (h : Reach (fun _ _ => True) b k) (hc : k.curenv = some c) (hne : e ≠ c)
    (hrun : (k.envs e).envStatus = .runnable)
    (hpanic : sysnoOf (k.kstackTf.regs 4) ≠ some .panic) (hs : k.Sound c) (hroom : k.HasRoom) :
    (¬∃ p, doSyscall io k = .halt p) ↔ k.Servable c := by
  obtain ⟨M, hgood⟩ := h.good
  exact (doSyscall_decides io hgood.inv hc hne hrun hpanic hs hroom).iff

/-- A user context with a system call number, three arguments and a stack pointer. -/
def request (sysno a₁ a₂ a₃ sp : Word) : Trapframe :=
  ((((Trapframe.zero.setReg 4 sysno).setReg 5 a₁).setReg 6 a₂).setReg 7 a₃).setReg 29 sp

/-- Two envs are there, and the second one makes a request. -/
def requestRun (tf : Trapframe) : List Op :=
  [.envCreate (some emptyImage) 1, .envCreate (some emptyImage) 1, .timer, .trap tf]

/-- The second env runs, the first one is runnable and 20 frames are free. -/
def requestTest (sysno a₁ a₂ a₃ sp : Word) (k : Kernel) : Bool :=
  k.curenv == some 1 && (k.envs 0).envStatus == .runnable && k.kstackTf.regs 4 == sysno &&
    k.kstackTf.regs 5 == a₁ && k.kstackTf.regs 6 == a₂ && k.kstackTf.regs 7 == a₃ &&
    k.kstackTf.regs 29 == sp && decide (20 ≤ k.pageFreeList.length)

/-- A short text at `UTEXT` is printed. -/
theorem no_panic_print : ∃ k, Reach (fun _ _ => True) smallBoot k ∧
    ¬∃ p, doSyscall ⟨0, fun _ => 0, 0⟩ k = .halt p := by
  obtain ⟨k, hr, htest⟩ := exists_reach_any smallBoot
    (requestRun (request 1 utext 5 0 0x7f3fdf00)) (requestTest 1 utext 5 0 0x7f3fdf00)
    (by decide +kernel)
  simp only [requestTest, Bool.and_eq_true, beq_iff_eq, decide_eq_true_eq] at htest
  obtain ⟨⟨⟨⟨⟨⟨⟨hc, hrun⟩, h4⟩, h5⟩, h6⟩, h7⟩, h29⟩, hfree⟩ := htest
  have hno : sysnoOf (k.kstackTf.regs 4) = some .printCons := by
    rw [h4]
    decide
  refine ⟨k, hr, (no_panic_iff _ smallBoot k 1 0 hr hc (by decide) hrun ?_ ?_ ?_).mpr ?_⟩
  · rw [hno]
    nofun
  · intro sysno hsome
    obtain rfl := Option.some.inj (hno.symm.trans hsome)
    exact ⟨.inl (by rw [h29]; decide), trivial⟩
  · intro sysno hsome
    obtain rfl := Option.some.inj (hno.symm.trans hsome)
    rw [h6, h7]
    exact le_trans (by decide) hfree
  · intro sysno hsome
    obtain rfl := Option.some.inj (hno.symm.trans hsome)
    have hbytes : ∀ i < (5 : Word).toNat, passiveCheck (utext + BitVec.ofNat 32 i) = none := by
      decide
    rw [h29, h5, h6, h7]
    exact ⟨⟨by decide, .inr (by decide), .inr (by decide)⟩, fun _ i hi => .inr (hbytes i hi)⟩

/-- With the stack pointer at 0, `sys_getenvid` panics: the kernel reads its fourth argument from
address 16. -/
theorem panic_on_stack : ¬∀ (io : Io) (b : Boot) (k : Kernel) (c e : EnvPtr),
    Reach (fun _ _ => True) b k → k.curenv = some c → e ≠ c →
    (k.envs e).envStatus = .runnable → sysnoOf (k.kstackTf.regs 4) ≠ some .panic → k.HasRoom →
    ¬∃ p, doSyscall io k = .halt p := by
  intro hall
  obtain ⟨k, hr, htest⟩ := exists_reach_any smallBoot (requestRun (request 2 0 0 0 0))
    (fun k => requestTest 2 0 0 0 0 k &&
      (doSyscall ⟨0, fun _ => 0, 0⟩ k).haltAnd fun p => p == .addressTooLow) (by decide +kernel)
  simp only [requestTest, Bool.and_eq_true, beq_iff_eq, decide_eq_true_eq] at htest
  obtain ⟨⟨⟨⟨⟨⟨⟨⟨hc, hrun⟩, h4⟩, -⟩, -⟩, -⟩, -⟩, hfree⟩, hhalt⟩ := htest
  have hno : sysnoOf (k.kstackTf.regs 4) = some .getenvid := by
    rw [h4]
    decide
  refine hall ⟨0, fun _ => 0, 0⟩ smallBoot k 1 0 hr hc (by decide) hrun ?_ ?_ ?_
  · rw [hno]
    exact fun h => Sysno.noConfusion (Option.some.inj h)
  · intro sysno hsome
    obtain rfl := Option.some.inj (hno.symm.trans hsome)
    have hneed : 4 + 2 * 0 ≤ k.pageFreeList.length := by omega
    exact hneed
  · obtain ⟨p, hp, -⟩ := Outcome.haltAnd_eq_true.mp hhalt
    exact ⟨p, hp⟩

end Mos
