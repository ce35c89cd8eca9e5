import Mos.Kern.PmapSpec
import Mos.Kern.Syscall

/-!
# What the env functions do to memory

`Kernel.Inv` adds to `Vm.Inv` what the kernel keeps about its envs: the current env is live and its
address space is the current one, the envs on the free list are dead and listed once, and a page is
only ever received below `UTOP`. Every function of `kern/env.c`, `kern/sched.c` and
`kern/syscall_all.c` keeps it.

`env_free` is the long one. Its inner loop unmaps the pages of one table, its outer loop takes the
tables out of the directory; after them nothing refers to the address space any more and the
directory can be freed.
-/

namespace Mos

open Lib Prog Function

/-- What the kernel keeps. -/
structure Kernel.Inv (M : List Nat) (k : Kernel) : Prop where
  vm : k.vm.Inv M
  cur : ∀ c, k.curenv = some c → k.vm.dir c = some k.curPgdir
  dstva : ∀ e, (k.envs e).envIpcDstva < utop
  free_dead : ∀ e ∈ k.envFreeList, ¬k.Live e
  free_nodup : k.envFreeList.Nodup

variable {M : List Nat} {k k' : Kernel} {e : EnvPtr} {d : Nat}

/-! ## Envs -/

theorem dir_eq_some : k.vm.dir e = some d ↔ k.Live e ∧ (k.envs e).envPgdir = d := by
  show k.dirOf e = some d ↔ _
  unfold Kernel.dirOf
  split <;> simp_all

theorem dir_eq_none : k.vm.dir e = none ↔ ¬k.Live e := by
  show k.dirOf e = none ↔ _
  unfold Kernel.dirOf
  split <;> simp_all

theorem dir_of_live (h : k.Live e) : k.vm.dir e = some (k.envs e).envPgdir := dir_eq_some.mpr ⟨h, rfl⟩

theorem setEnv_envs (k : Kernel) (e : EnvPtr) (f : Env → Env) :
    (k.setEnv e f).envs = update k.envs e (f (k.envs e)) := rfl

theorem live_setEnv {f : Env → Env} {e' : EnvPtr}
    (hst : (f (k.envs e)).envStatus ≠ .free ↔ (k.envs e).envStatus ≠ .free) :
    (k.setEnv e f).Live e' ↔ k.Live e' := by
  unfold Kernel.Live
  rw [setEnv_envs]
  by_cases he : e' = e
  · subst he
    rw [update_self]
    exact hst
  · rw [update_of_ne he]

/-- A change of other fields than the status and the page directory is none for the memory. -/
theorem vm_setEnv {f : Env → Env}
    (hst : (f (k.envs e)).envStatus ≠ .free ↔ (k.envs e).envStatus ≠ .free)
    (hpg : (f (k.envs e)).envPgdir = (k.envs e).envPgdir) : (k.setEnv e f).vm = k.vm := by
  have hdir : (k.setEnv e f).vm.dir = k.vm.dir := by
    funext e'
    have hpg' : ((k.setEnv e f).envs e').envPgdir = (k.envs e').envPgdir := by
      rw [setEnv_envs]
      by_cases he : e' = e
      · rw [he, update_self, hpg]
      · rw [update_of_ne he]
    by_cases hl : k.Live e'
    · rw [dir_of_live hl, dir_of_live ((live_setEnv hst).mpr hl), hpg']
    · rw [dir_eq_none.mpr hl, dir_eq_none.mpr fun hc => hl ((live_setEnv hst).mp hc)]
  show ({ k.vm with dir := (k.setEnv e f).vm.dir } : Vm) = k.vm
  rw [hdir]

namespace Kernel.Inv

theorem live_cur (h : k.Inv M) {c : EnvPtr} (hc : k.curenv = some c) : k.Live c :=
  (dir_eq_some.mp (h.cur c hc)).1

/-- Functions that change the memory only. -/
theorem frame (h : k.Inv M) (hf : k.Frame k') (hvm : k'.vm.Inv M) : k'.Inv M := by
  refine ⟨hvm, ?_, ?_, ?_, ?_⟩
  · rw [hf.curenv, hf.curPgdir, hf.dir]
    exact h.cur
  · rw [hf.envs]
    exact h.dstva
  · unfold Kernel.Live
    rw [hf.envFreeList, hf.envs]
    exact h.free_dead
  · rw [hf.envFreeList]
    exact h.free_nodup

theorem setEnv (h : k.Inv M) {f : Env → Env}
    (hst : (f (k.envs e)).envStatus ≠ .free ↔ (k.envs e).envStatus ≠ .free)
    (hpg : (f (k.envs e)).envPgdir = (k.envs e).envPgdir)
    (hdst : (f (k.envs e)).envIpcDstva < utop) : (k.setEnv e f).Inv M := by
  have hvm := vm_setEnv hst hpg
  refine ⟨by rw [hvm]; exact h.vm, ?_, ?_, ?_, h.free_nodup⟩
  · rw [hvm]
    exact h.cur
  · intro e'
    rw [setEnv_envs]
    by_cases he : e' = e
    · subst he
      rw [update_self]
      exact hdst
    · rw [update_of_ne he]
      exact h.dstva e'
  · intro e' he'
    rw [live_setEnv hst]
    exact h.free_dead e' he'

end Kernel.Inv

/-- `envid2env` finds a live env. -/
theorem envid2env_spec (h : ∀ c, k.curenv = some c → k.Live c) (envid : Word)
    (checkperm : Bool) :
    (envid2env envid checkperm k).Sat
      (fun e k' => k = k' ∧ k.Live e ∧ (checkperm = true → k.curenv ≠ none))
      (fun _ k' => k = k') (fun _ => True) := by
  simp only [envid2env, get_bind]
  split
  · cases hc : k.curenv with
    | none => trivial
    | some c => exact ⟨rfl, h c hc, by simp⟩
  · split
    · exact rfl
    · next hlive =>
      push Not at hlive
      cases checkperm with
      | false => exact ⟨rfl, hlive.1, by simp⟩
      | true =>
        cases hc : k.curenv with
        | none => trivial
        | some c =>
          simp only [if_true]
          split
          · exact ⟨rfl, hlive.1, by simp⟩
          · exact rfl

theorem envid2env_read (h : ∀ c, k.curenv = some c → k.Live c) (envid : Word) (checkperm : Bool) :
    (envid2env envid checkperm k).Sat
      (fun e k' => k = k' ∧ k.Live e ∧ (checkperm = true → k.curenv ≠ none) ∧
        envid2env envid checkperm k = .ret e k)
      (fun _ k' => k = k') (fun _ => True) := by
  refine ((envid2env_spec h envid checkperm).and (Outcome.sat_self _)).mono ?_ (fun _ _ h => h.1)
    (fun _ _ => trivial)
  rintro e _ ⟨⟨rfl, hl, hcur⟩, heq⟩
  exact ⟨rfl, hl, hcur, heq⟩

theorem curenvPtr_spec (k : Kernel) :
    (curenvPtr k).Sat (fun c k' => k = k' ∧ k.curenv = some c) (fun _ _ => False)
      (fun _ => True) := by
  rw [curenvPtr, get_bind]
  cases hc : k.curenv with
  | none => trivial
  | some c => exact ⟨rfl, rfl⟩

theorem statusArg_ne_free {status : Word} {st : Status} (h : statusArg status = some st) :
    st ≠ .free := by
  rintro rfl
  unfold statusArg at h
  split at h
  · cases h
  · split at h <;> cases h

/-! ## The queue -/

/-- What `env_sched_list` needs when it is not well formed: a stray null pointer is written through
the current address space. -/
def Kernel.NullSafe (k : Kernel) : Prop :=
  (∃ e, k.vm.dir e = some k.curPgdir) ∨ has (k.mem k.curPgdir 0) pteV = false

theorem Kernel.Inv.nullSafe (h : k.Inv M) {c : EnvPtr} (hc : k.curenv = some c) : k.NullSafe :=
  .inl ⟨c, h.cur c hc⟩

/-- Only the memory and the queue are different. -/
def Kernel.QFrame (k k' : Kernel) : Prop := ∃ q, Kernel.Frame { k with envSchedList := q } k'

theorem Kernel.QFrame.dir (h : k.QFrame k') : k'.vm.dir = k.vm.dir := by
  obtain ⟨_, _, _, _, _, _, rfl⟩ := h
  rfl

theorem Kernel.Inv.qframe (h : k.Inv M) (hf : k.QFrame k') (hvm : k'.vm.Inv M) : k'.Inv M := by
  obtain ⟨q, hf⟩ := hf
  have h' : Kernel.Inv M { k with envSchedList := q } :=
    ⟨h.vm, h.cur, h.dstva, h.free_dead, h.free_nodup⟩
  exact h'.frame hf hvm

theorem schedRemove_spec (h : k.vm.Inv M) (hn : k.NullSafe) (e : EnvPtr) :
    (schedRemove e k).Sat (fun _ k' => k'.vm.Inv M ∧ k.QFrame k') (fun _ _ => False)
      (fun _ => True) := by
  simp only [schedRemove, get_bind]
  cases k.envSchedList.remove e with
  | some q => exact ⟨h, q, Kernel.Frame.refl _⟩
  | none =>
    simp only [put_bind]
    refine ((storeNull_spec (k := { k with envSchedList := k.envSchedList.unlink e }) h hn _).and
      (framed_storeNull _ _)).mono ?_ (fun _ _ h => h.1) (fun _ _ => trivial)
    rintro _ k' ⟨hinv, hframe⟩
    exact ⟨hinv, _, hframe⟩

theorem schedInsertTail_spec (h : k.vm.Inv M) (hn : k.NullSafe) (e : EnvPtr) :
    (schedInsertTail e k).Sat (fun _ k' => k'.vm.Inv M ∧ k.QFrame k') (fun _ _ => False)
      (fun _ => True) := by
  simp only [schedInsertTail, get_bind]
  cases k.envSchedList.insertTail e with
  | some q => exact ⟨h, q, Kernel.Frame.refl _⟩
  | none =>
    simp only [put_bind]
    refine sat_call ((storeNull_spec (k := { k with envSchedList := k.envSchedList.linkTail e }) h
      hn _).and (framed_storeNull _ _)) ?_ (fun _ _ h => h.1) (fun _ _ => trivial)
    rintro _ k' ⟨hinv, _, _, _, _, _, rfl⟩
    exact ⟨hinv, _, _, _, _, _, _, rfl⟩

/-- A store through a null pointer does not touch the page tables. -/
theorem storeNull_slots (h : k.vm.Inv M) (hn : k.NullSafe) (w : Word) :
    (storeNull w k).Sat (fun _ k' => k'.vm.slotRef = k.vm.slotRef) (fun _ _ => True)
      (fun _ => True) := by
  rcases hn with ⟨e, hd⟩ | hinvalid
  · cases hl : k.vm.leaf e (ppn 0) with
    | none =>
      rw [storeNull, get_bind,
        bind_ret (pageLookup_unmapped h hd (show pdx 0 < npde by decide) hl)]
      trivial
    | some pte =>
      obtain ⟨t, _, _, hlook⟩ := pageLookup_mapped h hd hl
      rw [storeNull, get_bind, bind_ret hlook]
      simp only [readWord_bind]
      split
      · have hu := h.usable_of_leaf hl
        obtain ⟨htab, hleaf⟩ := Vm.view_setFrame (v := k.vm) (f := ppn pte) (fun _ => h.ne_dir hu)
          hu.not_table (update (k.mem (ppn pte)) 0 w)
        exact Vm.slotRef_congr htab hleaf
      · trivial
  · have hwalk : pgdirWalk k.curPgdir 0 false k = .ret none k := by
      have hp0 : pdx 0 = 0 := by decide
      simp only [pgdirWalk, readWord_bind, hp0, hinvalid, Bool.false_eq_true, if_false]
      rfl
    have hlook : pageLookup k.curPgdir 0 k = .ret none k := by
      rw [pageLookup, bind_ret hwalk]
      rfl
    rw [storeNull, get_bind, bind_ret hlook]
    trivial

theorem schedInsertTail_slots (h : k.vm.Inv M) (hn : k.NullSafe) (e : EnvPtr) :
    (schedInsertTail e k).Sat (fun _ k' => k'.vm.slotRef = k.vm.slotRef) (fun _ _ => True)
      (fun _ => True) := by
  simp only [schedInsertTail, get_bind]
  cases k.envSchedList.insertTail e with
  | some q => exact rfl
  | none =>
    simp only [put_bind]
    exact sat_call (storeNull_slots (k := { k with envSchedList := k.envSchedList.linkTail e }) h hn _)
      (fun _ _ hs => hs) (fun _ _ h => h) (fun _ h => h)

/-! ## Running -/

theorem envRun_spec (h : k.Inv M) (e : EnvPtr) :
    (envRun e k).Sat (fun _ k' => k'.Inv M) (fun _ _ => False) (fun _ => True) := by
  rw [envRun, get_bind, sat_bind, sat_assert]
  split
  next hrun =>
    -- the context of the env that ran before is saved first
    have hsave : ∀ k₁ : Kernel, k₁.Inv M → k₁.Live e →
        Kernel.Inv M { k₁.setEnv e fun v => { v with envRuns := v.envRuns + 1 } with
          curenv := some e, curPgdir := (k₁.envs e).envPgdir } := by
      intro k₁ h₁ hl
      have h₂ := h₁.setEnv (e := e) (f := fun v => { v with envRuns := v.envRuns + 1 }) Iff.rfl rfl
        (h₁.dstva e)
      refine ⟨h₂.vm, ?_, h₂.dstva, h₂.free_dead, h₂.free_nodup⟩
      intro c hc
      obtain rfl : e = c := Option.some.inj hc
      refine dir_eq_some.mpr ⟨?_, ?_⟩
      · exact (live_setEnv (f := fun v => { v with envRuns := v.envRuns + 1 }) Iff.rfl).mpr hl
      · show (update k₁.envs e _ e).envPgdir = _
        rw [update_self]
    have hlive : k.Live e := by
      unfold Kernel.Live
      rw [hrun]
      simp
    cases hc : k.curenv with
    | none => exact hsave k h hlive
    | some c =>
      have h₁ := h.setEnv (e := c) (f := fun v => { v with envTf := k.kstackTf }) Iff.rfl rfl
        (h.dstva c)
      exact hsave _ h₁ ((live_setEnv (f := fun v => { v with envTf := k.kstackTf }) Iff.rfl).mpr hlive)
  next => trivial

theorem schedulePick_spec (h : k.Inv M) :
    (schedulePick k).Sat (fun _ k' => k'.Inv M) (fun _ _ => False) (fun _ => True) := by
  rw [schedulePick, get_bind]
  cases k.envSchedList.first with
  | none => trivial
  | some e =>
    have h' : Kernel.Inv M { k with schedCount := (k.envs e).envPri.toInt } :=
      ⟨h.vm, h.cur, h.dstva, h.free_dead, h.free_nodup⟩
    exact envRun_spec h' e

theorem schedule_spec (h : k.Inv M) (yield : Bool) :
    (schedule yield k).Sat (fun _ k' => k'.Inv M) (fun _ _ => False) (fun _ => True) := by
  rw [schedule, modify_bind, get_bind]
  have h' : Kernel.Inv M { k with schedCount := k.schedCount - 1 } :=
    ⟨h.vm, h.cur, h.dstva, h.free_dead, h.free_nodup⟩
  generalize { k with schedCount := k.schedCount - 1 } = k₁ at h'
  cases hc : k₁.curenv with
  | none => exact schedulePick_spec h'
  | some e =>
    simp only
    split
    · exact schedulePick_spec h'
    · split
      · refine sat_call (schedRemove_spec h'.vm (h'.nullSafe hc) e) ?_ (fun _ _ h => h)
          (fun _ h => h)
        rintro _ k₂ ⟨hvm₂, hf₂⟩
        have h₂ := h'.qframe hf₂ hvm₂
        have hc₂ : k₂.curenv = some e := by
          obtain ⟨_, hf₂⟩ := hf₂
          exact hf₂.curenv.trans hc
        refine sat_call (schedInsertTail_spec h₂.vm (h₂.nullSafe hc₂) e) ?_ (fun _ _ h => h)
          (fun _ h => h)
        rintro _ k₃ ⟨hvm₃, hf₃⟩
        exact schedulePick_spec (h₂.qframe hf₃ hvm₃)
      · exact envRun_spec h' e

/-! ## New envs -/

/-- An env that `env_alloc` has set up and that is not live yet: its page directory is its own and
has no tables. -/
structure Kernel.NewEnv (k : Kernel) (e : EnvPtr) : Prop where
  dead : ¬k.Live e
  pgdir : (k.envs e).envPgdir ∈ k.pgdirs
  own : ∀ e', k.vm.dir e' ≠ some (k.envs e).envPgdir
  empty : ∀ i < npde, k.mem (k.envs e).envPgdir i = 0

theorem setupPgdir_user {p i : Nat} {old base : Nat → Word} (hi : i < npde) :
    setupPgdir p old base i = old i := by
  have h₁ := pdx_uvpt
  have h₂ := pdx_utop
  unfold npde at hi
  unfold setupPgdir
  rw [if_neg (by omega), if_neg (by omega)]

/-- The env comes to life. -/
theorem Kernel.Inv.wake (h : k.Inv M) (hn : k.NewEnv e) (hlisted : e ∉ k.envFreeList)
    {f : Env → Env}
    (hst : (f (k.envs e)).envStatus ≠ .free)
    (hpg : (f (k.envs e)).envPgdir = (k.envs e).envPgdir)
    (hdst : (f (k.envs e)).envIpcDstva < utop) :
    (k.setEnv e f).Inv M ∧ (k.setEnv e f).Live e ∧ (k.setEnv e f).vm.leaf = k.vm.leaf := by
  have henv : (k.setEnv e f).envs e = f (k.envs e) := by rw [setEnv_envs, update_self]
  have hother : ∀ e', e' ≠ e → (k.setEnv e f).envs e' = k.envs e' := fun e' he => by
    rw [setEnv_envs, update_of_ne he]
  have hlive : (k.setEnv e f).Live e := by
    unfold Kernel.Live
    rw [henv]
    exact hst
  have hlive' : ∀ e', e' ≠ e → ((k.setEnv e f).Live e' ↔ k.Live e') := fun e' he => by
    unfold Kernel.Live
    rw [hother e' he]
  have hdir : (k.setEnv e f).vm.dir = update k.vm.dir e (some (k.envs e).envPgdir) := by
    funext e'
    by_cases he : e' = e
    · rw [he, update_self, dir_of_live hlive, henv, hpg]
    · rw [update_of_ne he]
      by_cases hl : k.Live e'
      · rw [dir_of_live hl, dir_of_live ((hlive' e' he).mpr hl), hother e' he]
      · rw [dir_eq_none.mpr hl, dir_eq_none.mpr fun hc => hl ((hlive' e' he).mp hc)]
  have hvm : (k.setEnv e f).vm = { k.vm with dir := update k.vm.dir e (some (k.envs e).envPgdir) } := by
    rw [← hdir]
    rfl
  obtain ⟨hinv, hleaf⟩ := h.vm.addDir hn.pgdir (dir_eq_none.mpr hn.dead) hn.own hn.empty hvm
  refine ⟨⟨hinv, ?_, ?_, ?_, h.free_nodup⟩, hlive, hleaf⟩
  · intro c hc
    have hcd := h.cur c hc
    have hce : c ≠ e := fun hc' => hn.dead (hc' ▸ (dir_eq_some.mp hcd).1)
    rw [hdir, update_of_ne hce]
    exact hcd
  · intro e'
    by_cases he : e' = e
    · rw [he, henv]
      exact hdst
    · rw [hother e' he]
      exact h.dstva e'
  · intro e' he'
    have hne : e' ≠ e := fun hc => hlisted (hc ▸ he')
    rw [hlive' e' hne]
    exact h.free_dead e' he'

/-- `env_setup_vm` of a dead env. -/
theorem envSetupVm_spec (h : k.Inv M) (hdead : ¬k.Live e) :
    (envSetupVm e k).Sat
      (fun _ k' => k'.Inv M ∧ k'.NewEnv e)
      (fun _ k' => k'.Inv M) (fun _ => False) := by
  refine sat_call ((pageAlloc_spec h.vm).and (framed_pageAlloc k)) ?_ ?_ (fun _ h => h.1)
  · rintro p k₁ ⟨⟨hinv₁, hgrow₁, hfresh, hp⟩, hf₁⟩
    have h₁ := h.frame hf₁ hinv₁
    have hdead₁ : ¬k₁.Live e := by
      unfold Kernel.Live
      rw [hf₁.envs]
      exact hdead
    simp only [incref_bind]
    rw [modify_apply, Outcome.sat_ret]
    generalize hk₂ : ({ ((k₁.setRef p (k₁.ppRef p + 1)).setEnv e fun v => { v with envPgdir := p }).setFrame p
      (setupPgdir p ((k₁.setRef p (k₁.ppRef p + 1)).mem p)
        ((k₁.setRef p (k₁.ppRef p + 1)).mem (k₁.setRef p (k₁.ppRef p + 1)).basePgdir)) with
      pgdirs := p :: (k₁.setRef p (k₁.ppRef p + 1)).pgdirs } : Kernel) = k₂
    have henvs : k₂.envs = update k₁.envs e { k₁.envs e with envPgdir := p } := by rw [← hk₂]; rfl
    have hlive : ∀ e', k₂.Live e' ↔ k₁.Live e' := by
      intro e'
      unfold Kernel.Live
      rw [henvs]
      by_cases he : e' = e
      · rw [he, update_self]
      · rw [update_of_ne he]
    have hdir : k₂.vm.dir = k₁.vm.dir := by
      funext e'
      by_cases hl : k₁.Live e'
      · have he : e' ≠ e := fun hc => hdead₁ (hc ▸ hl)
        rw [dir_of_live hl, dir_of_live ((hlive e').mpr hl), henvs, update_of_ne he]
      · rw [dir_eq_none.mpr hl, dir_eq_none.mpr fun hc => hl ((hlive e').mp hc)]
    have hvm : k₂.vm = { k₁.vm.addRef p with
        mem := update k₁.vm.mem p (setupPgdir p (k₁.mem p) (k₁.mem k₁.basePgdir))
        pgdirs := p :: k₁.vm.pgdirs } := by
      show ({ k₂.vm with dir := k₂.vm.dir } : Vm) = _
      rw [hdir, ← hk₂]
      rfl
    have hinv₂ : k₂.vm.Inv M := by
      rw [hvm]
      exact hinv₁.newPgdir hfresh _
    have hpgdir : (k₂.envs e).envPgdir = p := by rw [henvs, update_self]
    have hrest : k₂.curenv = k₁.curenv ∧ k₂.curPgdir = k₁.curPgdir ∧
        k₂.envFreeList = k₁.envFreeList := by rw [← hk₂]; exact ⟨rfl, rfl, rfl⟩
    obtain ⟨hc₂, hcp₂, hfl₂⟩ := hrest
    refine ⟨⟨hinv₂, ?_, ?_, ?_, ?_⟩, fun hc => hdead₁ ((hlive e).mp hc), ?_, ?_, ?_⟩
    · rw [hc₂, hcp₂, hdir]
      exact h₁.cur
    · intro e'
      rw [henvs]
      by_cases he : e' = e
      · rw [he, update_self]
        exact h₁.dstva e
      · rw [update_of_ne he]
        exact h₁.dstva e'
    · intro e' he'
      rw [hfl₂] at he'
      rw [hlive e']
      exact h₁.free_dead e' he'
    · rw [hfl₂]
      exact h₁.free_nodup
    · rw [hpgdir, ← hk₂]
      exact List.mem_cons_self
    · intro e'
      rw [hpgdir, hdir]
      exact hinv₁.ne_dir hfresh.usable
    · intro i hi
      have hz : k₁.mem p i = 0 := hfresh.zero i
      have hmem : k₂.mem = update k₁.mem p (setupPgdir p (k₁.mem p) (k₁.mem k₁.basePgdir)) := by
        rw [← hk₂]
        rfl
      rw [hpgdir, hmem, update_self, setupPgdir_user hi, hz]
  · rintro _ k₁ ⟨⟨_, rfl⟩, _⟩
    exact h

/-- Other fields than the status, the page directory and the receive address may change. -/
theorem Kernel.NewEnv.setEnv (hn : k.Inv M ∧ k.NewEnv e) {f : Env → Env}
    (hst : (f (k.envs e)).envStatus = (k.envs e).envStatus)
    (hpg : (f (k.envs e)).envPgdir = (k.envs e).envPgdir)
    (hdst : (f (k.envs e)).envIpcDstva = (k.envs e).envIpcDstva) :
    (k.setEnv e f).Inv M ∧ (k.setEnv e f).NewEnv e := by
  obtain ⟨h, hn⟩ := hn
  have hst' : (f (k.envs e)).envStatus ≠ .free ↔ (k.envs e).envStatus ≠ .free := by rw [hst]
  have henv : ((k.setEnv e f).envs e).envPgdir = (k.envs e).envPgdir := by
    rw [setEnv_envs, update_self, hpg]
  refine ⟨h.setEnv hst' hpg (by rw [hdst]; exact h.dstva e),
    fun hc => hn.dead ((live_setEnv hst').mp hc), ?_, ?_, ?_⟩
  · rw [henv]
    exact hn.pgdir
  · rw [henv, vm_setEnv hst' hpg]
    exact hn.own
  · rw [henv]
    exact hn.empty

@[simp] theorem mkenvid_bind {α : Type} (e : EnvPtr) (g : Word → KernM α) (k : Kernel) :
    (mkenvid e >>= g) k = g ((k.mkenvidCount + 1) <<< 11 ||| BitVec.ofNat 32 e.val)
      { k with mkenvidCount := k.mkenvidCount + 1 } := rfl

theorem asidAlloc_spec (k : Kernel) :
    (asidAlloc k).Sat (fun _ k' => ∃ w, k' = { k with asidBitmap := w }) (fun _ k' => k' = k)
      (fun _ => False) := by
  rw [asidAlloc, get_bind]
  cases (List.range nasid).find? _ with
  | none => exact rfl
  | some i => exact ⟨_, rfl⟩

/-- **`env_alloc`**. An env that could not get an address space identifier keeps its page directory,
but stays on the free list. -/
theorem envAlloc_spec (h : k.Inv M) (parentId : Word) :
    (envAlloc parentId k).Sat
      (fun e k' => k'.Inv M ∧ k'.NewEnv e ∧ e ∉ k'.envFreeList) (fun _ k' => k'.Inv M)
      (fun _ => False) := by
  rw [envAlloc, get_bind]
  cases hl : k.envFreeList with
  | nil => exact h
  | cons e rest =>
    have hmem : e ∈ k.envFreeList := by rw [hl]; exact List.mem_cons_self
    refine sat_call (envSetupVm_spec h (h.free_dead e hmem)) ?_ (fun _ _ h => h) (fun _ h => h)
    rintro _ k₁ h₁
    simp only [modify_bind, mkenvid_bind]
    have h₂ := Kernel.NewEnv.setEnv h₁
      (f := fun v => { v with envUserTlbModEntry := 0, envRuns := 0 }) rfl rfl rfl
    generalize (k₁.setEnv e fun v => { v with envUserTlbModEntry := 0, envRuns := 0 }) = k₂ at h₂ ⊢
    generalize (k₂.mkenvidCount + 1) <<< 11 ||| BitVec.ofNat 32 e.val = id
    have h₃ : Kernel.Inv M { k₂ with mkenvidCount := k₂.mkenvidCount + 1 } ∧
        Kernel.NewEnv { k₂ with mkenvidCount := k₂.mkenvidCount + 1 } e := by
      obtain ⟨h₂, hn₂⟩ := h₂
      exact ⟨⟨h₂.vm, h₂.cur, h₂.dstva, h₂.free_dead, h₂.free_nodup⟩,
        hn₂.dead, hn₂.pgdir, hn₂.own, hn₂.empty⟩
    have h₄ := Kernel.NewEnv.setEnv h₃ (f := fun v => { v with envId := id }) rfl rfl rfl
    generalize (Kernel.setEnv _ e fun v => { v with envId := id }) = k₄ at h₄ ⊢
    refine sat_call (asidAlloc_spec k₄) ?_ ?_ (fun _ h => h)
    · rintro asid _ ⟨w, rfl⟩
      have h₅ : Kernel.Inv M { k₄ with asidBitmap := w } ∧
          Kernel.NewEnv { k₄ with asidBitmap := w } e := by
        obtain ⟨h₄, hn₄⟩ := h₄
        exact ⟨⟨h₄.vm, h₄.cur, h₄.dstva, h₄.free_dead, h₄.free_nodup⟩,
          hn₄.dead, hn₄.pgdir, hn₄.own, hn₄.empty⟩
      obtain ⟨h₆, hn₆⟩ := Kernel.NewEnv.setEnv h₅ (f := fun v => { v with
        envAsid := asid
        envParentId := parentId
        envTf := { (v.envTf.setReg 29 (ustacktop - 4 - 4)) with cp0Status := statusUser } })
        rfl rfl rfl
      refine ⟨⟨h₆.vm, h₆.cur, h₆.dstva, fun e' he' => h₆.free_dead e' (List.mem_of_mem_erase he'),
        h₆.free_nodup.erase e⟩, ⟨hn₆.dead, hn₆.pgdir, hn₆.own, hn₆.empty⟩, ?_⟩
      exact fun hc => (List.Nodup.mem_erase_iff h₆.free_nodup).mp hc |>.1 rfl
    · rintro _ _ rfl
      exact h₄.1

/-! ## Loading -/

/-- A segment that lies below `UTOP`, as every program that the kernel creates has them. -/
structure ElfPhdr.BelowUtop (ph : ElfPhdr) : Prop where
  vaddr : ph.pVaddr < utop
  filesz : ph.pVaddr.toNat + ph.pFilesz.toNat ≤ utop.toNat
  memsz : ph.pVaddr.toNat + ph.pMemsz.toNat ≤ utop.toNat

/-- The addresses that a segment can take up. -/
def ElfPhdr.Covers (ph : ElfPhdr) (va : Word) : Prop := ph.pVaddr ≤ va ∧ va < utop

theorem covers_add {ph : ElfPhdr} {size i : Word}
    (h : ph.pVaddr.toNat + size.toNat ≤ utop.toNat) (hi : i < size) : ph.Covers (ph.pVaddr + i) := by
  have hi' : i.toNat < size.toNat := hi
  have hu := utop.isLt
  have hsum : (ph.pVaddr + i).toNat = ph.pVaddr.toNat + i.toNat := by
    rw [BitVec.toNat_add, Nat.mod_eq_of_lt (by omega)]
  constructor
  · show ph.pVaddr.toNat ≤ (ph.pVaddr + i).toNat
    omega
  · show (ph.pVaddr + i).toNat < utop.toNat
    omega

/-- What `load_icode_mapper` writes into the new frame. -/
def newPage (offset len : Nat) : Option (Nat → BitVec 8) → Nat → Word
  | none => fun _ => 0
  | some src => copyBytes (fun _ => 0) offset len src

/-- **`load_icode_mapper`** maps a new frame, whatever was mapped there. -/
theorem loadIcodeMapper_maps (h : k.Inv M) (hl : k.Live e) {va perm : Word} (hva : va < utop)
    (hperm : perm < 4096) (offset : Word) (src : Option (Nat → BitVec 8)) (len : Word) :
    (loadIcodeMapper e va offset perm src len k).Sat
      (fun _ k' => k'.Inv M ∧ k'.Live e ∧ ∃ p < 2 ^ 20,
        k.vm.Remap M k'.vm e (ppn va) (some (pageEntry p perm)) ∧
        k'.mem p = newPage offset.toNat len.toNat src)
      (fun _ _ => True) (fun _ => True) := by
  refine sat_call ((pageAlloc_spec h.vm).and (framed_pageAlloc k)) ?_ (fun _ _ _ => trivial)
    (fun _ _ => trivial)
  rintro p k₁ ⟨⟨hinv₁, hgrow₁, hfresh, hfree⟩, hf₁⟩
  have h₁ := h.frame hf₁ hinv₁
  have hl₁ : k₁.Live e := by
    unfold Kernel.Live
    rw [hf₁.envs]
    exact hl
  have hp : p < 2 ^ 20 := lt_trans (hinv₁.managed p hfresh.managed) hinv₁.npage_lt
  have hzero : k₁.mem p = fun _ => 0 := funext hfresh.zero
  -- the contents are copied into a frame that is not mapped yet
  have hinsert : ∀ ws : Nat → Word, ((get >>= fun k : Kernel =>
      pageInsert (k.envs e).envPgdir (k.envs e).envAsid p va perm) (k₁.setFrame p ws)).Sat
        (fun _ k' => k'.Inv M ∧ k'.Live e ∧ ∃ p < 2 ^ 20,
          k.vm.Remap M k'.vm e (ppn va) (some (pageEntry p perm)) ∧ k'.mem p = ws)
        (fun _ _ => True) (fun _ => True) := by
    intro ws
    obtain ⟨htab, hleaf⟩ := Vm.view_setFrame (v := k₁.vm) (f := p)
      (fun _ => hinv₁.ne_dir hfresh.usable) hfresh.usable.not_table ws
    have hslot := Vm.slotRef_congr htab hleaf
    have h₂ : (k₁.setFrame p ws).Inv M :=
      h₁.frame ⟨_, _, _, _, _, rfl⟩ (hinv₁.congr rfl rfl rfl rfl rfl hslot)
    have husable : ∀ f, k₁.vm.Usable M f → (k₁.setFrame p ws).vm.Usable M f := fun f hu =>
      ⟨hu.managed, hu.not_free, hu.not_pgdir, htab ▸ hu.not_table⟩
    have hr₂ : (k₁.setFrame p ws).vm.refs p = 0 :=
      (congrArg (refCount · p) hslot).trans hfresh.refs
    rw [get_bind]
    refine ((pageInsert_spec h₂.vm (dir_of_live hl₁) (pdx_lt_of_lt_utop hva)
      (husable p hfresh.usable) hperm _).and (framed_pageInsert _ _ _ _ _ _)).mono ?_
      (fun _ _ _ => trivial) (fun _ _ => trivial)
    rintro _ k₃ ⟨⟨hmap, hinv₃⟩, hf₃⟩
    refine ⟨h₂.frame hf₃ (hinv₃ (.inl (by omega))), ?_, p, hp, ⟨?_, ?_, ?_⟩, ?_⟩
    · unfold Kernel.Live
      rw [hf₃.envs]
      exact hl₁
    · intro e' n'
      rw [hmap.leaf, ← hgrow₁.leaf]
      exact if_congr Iff.rfl rfl (congrFun (congrFun hleaf e') n')
    · exact hmap.dir.trans hgrow₁.dir
    · intro f hu
      obtain ⟨hu₁, hmem₁, -⟩ := hgrow₁.keep f hu
      have hne : f ≠ p := fun hc => hu.not_free (hc ▸ hfree)
      exact ((hmap.data f (husable f hu₁)).trans (update_of_ne hne _ _)).trans hmem₁
    · exact (hmap.data p (husable p hfresh.usable)).trans (update_self _ _ _)
  cases src with
  | none =>
    have hsame : k₁.setFrame p (fun _ => 0) = k₁ := by
      show { k₁ with mem := update k₁.mem p fun _ => 0 } = k₁
      rw [← hzero, update_eq_self]
    have hnone := hinsert fun _ => 0
    rw [hsame] at hnone
    exact hnone
  | some b =>
    have hsome := hinsert (copyBytes (k₁.mem p) offset.toNat len.toNat b)
    rw [hzero] at hsome
    show ((get >>= fun k : Kernel => pageInsert (k.envs e).envPgdir (k.envs e).envAsid p va perm)
      (k₁.setFrame p (copyBytes (k₁.mem p) offset.toNat len.toNat b))).Sat _ _ _
    rw [hzero]
    exact hsome

theorem loadIcodeMapper_spec (h : k.Inv M) (hl : k.Live e) {va perm : Word} (hva : va < utop)
    (hperm : perm < 4096) (offset : Word) (src : Option (Nat → BitVec 8)) (len : Word) :
    (loadIcodeMapper e va offset perm src len k).Sat (fun _ k' => k'.Inv M ∧ k'.Live e)
      (fun _ _ => True) (fun _ => True) :=
  (loadIcodeMapper_maps h hl hva hperm offset src len).mono (fun _ _ hq => ⟨hq.1, hq.2.1⟩)
    (fun _ _ hq => hq) (fun _ hq => hq)

section ElfLoad

variable {P : Kernel → Prop} {ph : ElfPhdr} {mapPage : ElfMapper} {perm : Word}

theorem elfLoadFile_spec (hph : ph.BelowUtop) (bin : Nat → BitVec 8)
    (hmap : ∀ {k va}, P k → ph.Covers va → ∀ off src len,
      (mapPage va off perm src len k).Sat (fun _ => P) (fun _ _ => True) (fun _ => True)) :
    ∀ (fuel : Nat) (i : Word) (k : Kernel), P k →
      (elfLoadFile ph bin mapPage perm fuel i k).Sat (fun _ => P) (fun _ _ => True)
        (fun _ => True) := by
  intro fuel
  induction fuel with
  | zero => exact fun i k hk => hk
  | succ fuel ih =>
    intro i k hk
    unfold elfLoadFile
    split
    · next hi =>
      refine sat_call (hmap hk (covers_add hph.filesz hi) _ _ _) ?_ (fun _ _ h => h)
        (fun _ h => h)
      exact fun _ k₁ hk₁ => ih _ k₁ hk₁
    · exact hk

theorem elfLoadZero_spec (hph : ph.BelowUtop)
    (hmap : ∀ {k va}, P k → ph.Covers va → ∀ off src len,
      (mapPage va off perm src len k).Sat (fun _ => P) (fun _ _ => True) (fun _ => True)) :
    ∀ (fuel : Nat) (i : Word) (k : Kernel), P k →
      (elfLoadZero ph mapPage perm fuel i k).Sat (fun _ => P) (fun _ _ => True)
        (fun _ => True) := by
  intro fuel
  induction fuel with
  | zero => exact fun i k hk => hk
  | succ fuel ih =>
    intro i k hk
    unfold elfLoadZero
    split
    · next hi =>
      refine sat_call (hmap hk (covers_add hph.memsz hi) _ _ _) ?_ (fun _ _ h => h)
        (fun _ h => h)
      exact fun _ k₁ hk₁ => ih _ k₁ hk₁
    · exact hk

/-- The permissions that the loader maps pages with. -/
def LoadPerm (perm : Word) : Prop := perm = pteV ∨ perm = pteV ||| pteD

theorem LoadPerm.lt {perm : Word} (h : LoadPerm perm) : perm < 4096 := by
  rcases h with rfl | rfl <;> decide

theorem elfLoadSeg_spec (hph : ph.BelowUtop) (bin : Nat → BitVec 8)
    (hmap : ∀ {k va perm}, P k → ph.Covers va → LoadPerm perm → ∀ off src len,
      (mapPage va off perm src len k).Sat (fun _ => P) (fun _ _ => True) (fun _ => True))
    (hk : P k) :
    (elfLoadSeg ph bin mapPage k).Sat (fun _ => P) (fun _ _ => True) (fun _ => True) := by
  have hperm : LoadPerm (if has ph.pFlags pfW then pteV ||| pteD else pteV) := by
    split
    · exact .inr rfl
    · exact .inl rfl
  simp only [elfLoadSeg]
  generalize (if has ph.pFlags pfW then pteV ||| pteD else pteV) = perm at hperm ⊢
  have hrest : ∀ (i : Word) (k : Kernel), P k →
      ((elfLoadFile ph bin mapPage perm ph.pFilesz.toNat i >>= fun j =>
        elfLoadZero ph mapPage perm ph.pMemsz.toNat j) k).Sat (fun _ => P) (fun _ _ => True)
        (fun _ => True) := by
    intro i k hk
    refine sat_call (elfLoadFile_spec hph bin (fun h hva => hmap h hva hperm) _ i k hk) ?_
      (fun _ _ h => h) (fun _ h => h)
    exact fun j k₁ hk₁ => elfLoadZero_spec hph (fun h hva => hmap h hva hperm) _ j k₁ hk₁
  split
  · refine sat_call (hmap hk ⟨Nat.le_refl _, hph.vaddr⟩ hperm _ _ _) ?_ (fun _ _ h => h)
      (fun _ h => h)
    exact fun _ k₁ hk₁ => hrest _ k₁ hk₁
  · exact hrest _ k hk

end ElfLoad

/-- What every mapping of a page keeps holds after the whole program is loaded. -/
theorem loadPhdrs_keeps {I : Kernel → Prop} (img : ElfImage) : ∀ (phs : List ElfPhdr) (k : Kernel),
    (∀ ph ∈ phs, ph.pType = ptLoad → ph.BelowUtop ∧
      ∀ {k va perm}, I k → ph.Covers va → LoadPerm perm → ∀ off src len,
        (loadIcodeMapper e va off perm src len k).Sat (fun _ => I) (fun _ _ => True)
          (fun _ => True)) →
    I k → (loadPhdrs e img phs k).Sat (fun _ => I) (fun _ _ => False) (fun _ => True)
  | [], _, _, hk => hk
  | ph :: rest, k, hphs, hk => by
    have hnext : ∀ k₁ : Kernel, I k₁ →
        (loadPhdrs e img rest k₁).Sat (fun _ => I) (fun _ _ => False) (fun _ => True) := fun k₁ hk₁ =>
      loadPhdrs_keeps img rest k₁ (fun p hp => hphs p (List.mem_cons_of_mem _ hp)) hk₁
    unfold loadPhdrs
    split
    · next hload =>
      obtain ⟨hph, hmap⟩ := hphs ph List.mem_cons_self hload
      exact sat_call (sat_panicOn (elfLoadSeg_spec (P := I) hph _ hmap hk))
        (fun _ k₁ hk₁ => hnext k₁ hk₁) (fun _ _ h => h) (fun _ h => h)
    · exact hnext k hk

theorem loadPhdrs_spec (img : ElfImage) (phs : List ElfPhdr) (k : Kernel)
    (hphs : ∀ ph ∈ phs, ph.pType = ptLoad → ph.BelowUtop) (hk : k.Inv M ∧ k.Live e) :
    (loadPhdrs e img phs k).Sat (fun _ k' => k'.Inv M ∧ k'.Live e) (fun _ _ => False)
      (fun _ => True) := by
  refine loadPhdrs_keeps (I := fun k => k.Inv M ∧ k.Live e) img phs k ?_ hk
  intro ph hph hload
  refine ⟨hphs ph hph hload, fun h hva hperm off src len => ?_⟩
  exact loadIcodeMapper_spec h.1 h.2 hva.2 hperm.lt off src len

/-- The programs that `env_create` is given. -/
def BinaryOk (binary : Option ElfImage) : Prop :=
  ∀ img, binary = some img → ∀ ph ∈ img.phdrs, ph.pType = ptLoad → ph.BelowUtop

theorem envCreate_spec (h : k.Inv M) {binary : Option ElfImage} (hb : BinaryOk binary)
    (priority : Word) :
    (envCreate binary priority k).Sat (fun _ k' => k'.Inv M) (fun _ _ => False) (fun _ => True) := by
  rw [envCreate, sat_bind, sat_attempt]
  refine (envAlloc_spec h 0).mono ?_ (fun _ _ _ => trivial) (fun _ h => h.elim)
  rintro e k₁ ⟨h₁, hn₁, hl₁⟩
  simp only [modify_bind]
  obtain ⟨h₂, hlive₂, _⟩ := h₁.wake hn₁ hl₁ (f := fun v => { v with
    envPri := priority, envStatus := .runnable }) (by simp) rfl (h₁.dstva e)
  generalize (k₁.setEnv e _) = k₂ at h₂ hlive₂ ⊢
  have hload : (loadIcode e binary k₂).Sat (fun _ k' => k'.Inv M) (fun _ _ => False)
      (fun _ => True) := by
    cases binary with
    | none => trivial
    | some img =>
      refine sat_call (loadPhdrs_spec img img.phdrs k₂ (hb img rfl) ⟨h₂, hlive₂⟩) ?_ (fun _ _ h => h)
        (fun _ h => h)
      rintro _ k₃ ⟨h₃, _⟩
      exact h₃.setEnv Iff.rfl rfl (h₃.dstva e)
  refine sat_call hload ?_ (fun _ _ h => h) (fun _ h => h)
  intro _ k₃ h₃
  exact ⟨h₃.vm, h₃.cur, h₃.dstva, h₃.free_dead, h₃.free_nodup⟩

/-! ## Release -/

/-- References have been taken out of the tables of `e`: nothing else was written, a frame is free
now if it was or if its last reference went, and a frame that nothing referred to is counted as
before. -/
structure Vm.Drained (e : EnvPtr) (v u : Vm) : Prop where
  dir : u.dir = v.dir
  pgdirs : u.pgdirs = v.pgdirs
  slots : ∀ s f, u.slotRef s = some f → v.slotRef s = some f
  mem : ∀ f, v.dir e ≠ some f → (∀ i, v.table e i ≠ some f) → u.mem f = v.mem f
  other : ∀ f, (∀ s, v.slotRef s ≠ some f) → u.ppRef f = v.ppRef f
  zero : ∀ f, v.ppRef f = 0 → u.ppRef f = 0
  free : ∀ f, f ∈ u.free ↔ f ∈ v.free ∨ v.ppRef f ≠ 0 ∧ u.ppRef f = 0

namespace Vm.Drained

variable {v u w : Vm}

theorem refl (e : EnvPtr) (v : Vm) : v.Drained e v :=
  ⟨rfl, rfl, fun _ _ h => h, fun _ _ _ => rfl, fun _ _ => rfl, fun _ h => h, fun f => by tauto⟩

theorem trans (h : v.Drained e u) (h' : u.Drained e w) : v.Drained e w := by
  refine ⟨h'.dir.trans h.dir, h'.pgdirs.trans h.pgdirs,
    fun s f hs => h.slots s f (h'.slots s f hs), ?_, ?_, fun f hf => h'.zero f (h.zero f hf), ?_⟩
  · intro f hd ht
    rw [h'.mem f (by rwa [h.dir]) fun i hi => ?_, h.mem f hd ht]
    exact ht i (h.slots _ _ (Vm.slotRef_table hi))
  · intro f hf
    rw [h'.other f fun s hs => hf s (h.slots s f hs), h.other f hf]
  · intro f
    have hzero := h.zero f
    have hzero' := h'.zero f
    rw [h'.free, h.free]
    tauto

/-- **One reference less.** An entry of the directory or of a table of `e` is cleared and the frame
it referred to is counted down. -/
theorem drop (h : v.Inv M) {g j pp : Nat} {s : Slot} (hs : v.slotRef s = some pp)
    (hg : v.dir e = some g ∨ ∃ i, v.table e i = some g)
    (hslot : (v.setWord g j 0).slotRef = update v.slotRef s none) :
    v.Drained e ((v.setWord g j 0).dropRef pp) := by
  have hpp : v.ppRef pp ≠ 0 := by
    intro h0
    have hcount := h.count pp (h.held s pp hs).1 (h.held s pp hs).2
    rw [h0] at hcount
    exact refCount_eq_zero.mp hcount.symm s hs
  refine ⟨rfl, rfl, ?_, ?_, ?_, ?_, ?_⟩
  · intro s' f hs'
    rw [Vm.slotRef_dropRef, hslot] at hs'
    by_cases hss : s' = s
    · rw [hss, update_self] at hs'
      cases hs'
    · rwa [update_of_ne hss] at hs'
  · intro f hd ht
    have hne : f ≠ g := by
      rintro rfl
      rcases hg with hg | ⟨i, hg⟩
      · exact hd hg
      · exact ht i hg
    exact update_of_ne hne _ _
  · intro f hf
    have hne : f ≠ pp := fun hc => hf s (hc ▸ hs)
    exact update_of_ne hne _ _
  · intro f hf
    have hne : f ≠ pp := fun hc => hpp (hc ▸ hf)
    exact (update_of_ne hne _ _).trans hf
  · intro f
    show f ∈ (if v.ppRef pp - 1 = 0 then pp :: v.free else v.free) ↔
      f ∈ v.free ∨ v.ppRef f ≠ 0 ∧ update v.ppRef pp (v.ppRef pp - 1) f = 0
    by_cases hf : f = pp
    · subst hf
      rw [update_self]
      split <;> simp_all
    · rw [update_of_ne hf]
      split <;> simp_all

end Vm.Drained

/-- The inner loop of `env_free` has emptied the first `j` entries of table `i`. -/
structure Emptying (M : List Nat) (k₀ : Kernel) (e : EnvPtr) (d i t j : Nat) (k : Kernel) :
    Prop where
  inv : k.vm.Inv M
  frame : k₀.Frame k
  dir : k.vm.dir e = some d
  table : k.vm.table = k₀.vm.table
  here : k.vm.table e i = some t
  empty : ∀ j' < j, k.vm.leaf e (i * 1024 + j') = none
  drained : k₀.vm.Drained e k.vm

variable {k₀ : Kernel} {i j t : Nat}

theorem envFreePte_spec (h : Emptying M k₀ e d i t j k) (hj : j < 1024) (asid : Word) :
    (envFreePte d asid t i j k).Sat (fun _ k' => Emptying M k₀ e d i t (j + 1) k')
      (fun _ _ => False) (fun _ => False) := by
  have hi : i < npde := Vm.table_lt h.here
  have hi' : i < 1024 := lt_trans hi (by decide)
  have hdiv : (i * 1024 + j) / 1024 = i := by omega
  have hmod : (i * 1024 + j) % 1024 = j := by omega
  have hleaf : k.vm.leaf e (i * 1024 + j)
      = if has (k.mem t j) pteV then some (k.mem t j) else none := by
    rw [Vm.leaf_of_table (by rw [hdiv]; exact h.here), hmod]
    rfl
  simp only [envFreePte, readWord_bind]
  split
  next hval =>
    have hpdx := pdx_index hi' hj
    have hppn : ppn (BitVec.ofNat 32 i <<< 22 ||| BitVec.ofNat 32 j <<< 12) = i * 1024 + j := by
      rw [ppn_split, hpdx, ptx_index hi' hj]
    rw [if_pos hval] at hleaf
    have hdrop : ∃ k₁, pageRemove d asid (BitVec.ofNat 32 i <<< 22 ||| BitVec.ofNat 32 j <<< 12) k
        = .ret () k₁ ∧ k₁.vm = (k.vm.setWord t j 0).dropRef (ppn (k.mem t j)) := by
      obtain ⟨k₁, heq, hvm, -⟩ := pageRemove_mapped h.inv h.dir (by rw [hpdx]; exact h.here)
        (by rw [hppn]; exact hleaf) asid
      rw [ptx_index hi' hj] at hvm
      exact ⟨k₁, heq, hvm⟩
    obtain ⟨k₁, heq, hvm⟩ := hdrop
    have hstep := Vm.Drained.drop h.inv (Vm.slotRef_page hleaf) (.inr ⟨i, h.here⟩)
      ((Vm.slotRef_setPte h.inv h.here hj (Vm.leaf_lt hleaf)).trans (by simp))
    refine ((pageRemove_spec h.inv h.dir (by rw [hpdx]; exact hi) asid).and
      ((framed_pageRemove _ _ _ k).and (Outcome.sat_self _))).mono ?_ (fun _ _ h => h.1)
      (fun _ h => h.1)
    rintro _ k₂ ⟨⟨hinv₁, hmap, htab⟩, hf₁, heq₂⟩
    obtain rfl : k₂ = k₁ := by
      rw [heq] at heq₂
      cases heq₂
      rfl
    rw [hppn] at hmap
    refine ⟨hinv₁, h.frame.trans _ _ _ hf₁, hmap.dir ▸ h.dir, htab.trans h.table, htab ▸ h.here, ?_,
      h.drained.trans (hvm ▸ hstep)⟩
    intro j' hj'
    rw [hmap.leaf]
    split
    next => rfl
    next hne =>
      refine h.empty j' ?_
      have : j' ≠ j := fun hc => hne ⟨rfl, by rw [hc]⟩
      omega
  next hval =>
    refine ⟨h.inv, h.frame, h.dir, h.table, h.here, fun j' hj' => ?_, h.drained⟩
    by_cases hjj : j' = j
    · rw [hjj, hleaf, if_neg hval]
    · exact h.empty j' (by omega)

/-- The outer loop of `env_free` has released the first `i` tables. -/
structure Releasing (M : List Nat) (k₀ : Kernel) (e : EnvPtr) (d i : Nat) (k : Kernel) :
    Prop where
  inv : k.vm.Inv M
  frame : k₀.Frame k
  dir : k.vm.dir e = some d
  empty : ∀ i' < i, k.vm.table e i' = none
  drained : k₀.vm.Drained e k.vm

theorem envFreePde_spec (h : Releasing M k₀ e d i k) (hi : i < npde) (asid : Word) :
    (envFreePde d asid i k).Sat (fun _ k' => Releasing M k₀ e d (i + 1) k')
      (fun _ _ => False) (fun _ => False) := by
  have htab : k.vm.table e i = if has (k.mem d i) pteV then some (ppn (k.mem d i)) else none :=
    Vm.table_of_dir h.dir hi
  simp only [envFreePde, readWord_bind]
  split
  next hval =>
    rw [if_pos hval] at htab
    generalize hpde : k.mem d i = pde at htab
    have hlt : ppn (pteAddr pde) < k.npage := by
      rw [ppn_pteAddr]
      exact h.inv.table_lt_npage htab
    rw [kaddr_bind hlt, ppn_pteAddr]
    have hstart : Emptying M k e d i (ppn pde) 0 k :=
      ⟨h.inv, Kernel.Frame.refl k, h.dir, rfl, htab, fun _ hj => absurd hj (Nat.not_lt_zero _),
        .refl e k.vm⟩
    refine sat_call (sat_loop (I := fun j k' => Emptying M k e d i (ppn pde) j k')
      (fun j k' _ hj hk' => envFreePte_spec hk' (by omega) asid) hstart) ?_ (fun _ _ h => h)
      (fun _ h => h)
    intro _ k₁ hk₁
    rw [Nat.zero_add] at hk₁
    have hempty : ∀ n, n / 1024 = i → k₁.vm.leaf e n = none := by
      intro n hn
      have := hk₁.empty (n % 1024) (Nat.mod_lt _ (by decide))
      rwa [show i * 1024 + n % 1024 = n by omega] at this
    have hslot := Vm.slotRef_table hk₁.here
    have hp : ppn pde ∉ k₁.pgdirs := (hk₁.inv.held _ _ hslot).2
    have hlt₁ : ppn (pteAddr pde) < k₁.npage := by
      rw [ppn_pteAddr]
      exact hk₁.inv.table_lt_npage hk₁.here
    rw [writeWord_bind, pa2page_bind (by exact hlt₁), ppn_pteAddr]
    have hdec : pageDecref (ppn pde) (k₁.setWord d i 0) =
        .ret () ((k₁.setWord d i 0).decref (ppn pde)) :=
      pageDecref_eq (ppRef_ne_zero (k := k₁) hk₁.inv hslot)
    have hvm : ((k₁.setWord d i 0).decref (ppn pde)).vm = (k₁.vm.setWord d i 0).dropRef (ppn pde) :=
      vm_decref hp
    have hf₂ : k₁.Frame ((k₁.setWord d i 0).decref (ppn pde)) := by
      have := (framed_pageDecref (ppn pde)).of_state? (s := k₁.setWord d i 0) (by rw [hdec]; rfl)
      exact Kernel.Frame.trans _ _ _ ⟨_, _, _, _, _, rfl⟩ this
    rw [bind_ret hdec]
    generalize (k₁.setWord d i 0).decref (ppn pde) = k₂ at hvm hf₂
    have hinv₂ : k₂.vm.Inv M := by
      rw [hvm]
      exact hk₁.inv.unlinkTable hk₁.dir hk₁.here hempty
    have hstep : k₁.vm.Drained e k₂.vm := by
      rw [hvm]
      exact Vm.Drained.drop hk₁.inv hslot (.inl hk₁.dir)
        ((Vm.slotRef_setPde hk₁.inv hk₁.dir hi hempty (by simp)).trans (by simp))
    refine ⟨hinv₂, ?_, ?_, ?_, (h.drained.trans hk₁.drained).trans hstep⟩
    · exact (h.frame.trans _ _ _ hk₁.frame).trans _ _ _ (hf₂.trans _ _ _ ⟨_, _, _, _, _, rfl⟩)
    · exact hf₂.dir ▸ hk₁.dir
    · intro i' hi'
      show k₂.vm.table e i' = none
      rw [hvm, Vm.table_dropRef, Vm.table_setPde hk₁.inv hk₁.dir hi]
      split
      next => simp
      next hne =>
        rw [hk₁.table]
        refine h.empty i' ?_
        have : i' ≠ i := fun hc => hne ⟨rfl, hc⟩
        omega
  next hval =>
    rw [if_neg hval] at htab
    refine ⟨h.inv, h.frame, h.dir, fun i' hi' => ?_, h.drained⟩
    by_cases hii : i' = i
    · rw [hii]
      exact htab
    · exact h.empty i' (by omega)

/-- The page directories after `e` has died. -/
theorem dir_of_dead {f : Env → Env} (henvs : k'.envs = update k.envs e (f (k.envs e)))
    (hst : (f (k.envs e)).envStatus = .free) : k'.vm.dir = update k.vm.dir e none := by
  funext e'
  by_cases he : e' = e
  · rw [he, update_self, dir_eq_none]
    unfold Kernel.Live
    rw [henvs, update_self, hst]
    exact fun hc => hc rfl
  · have henv : k'.envs e' = k.envs e' := by rw [henvs, update_of_ne he]
    have hlive : k'.Live e' ↔ k.Live e' := by
      unfold Kernel.Live
      rw [henv]
    rw [update_of_ne he]
    by_cases hl : k.Live e'
    · rw [dir_of_live hl, dir_of_live (hlive.mpr hl), henv]
    · rw [dir_eq_none.mpr hl, dir_eq_none.mpr fun hc => hl (hlive.mp hc)]

/-- The state of `env_free` when only the queue is left to update. -/
def Kernel.bury (k : Kernel) (e : EnvPtr) (d : Nat) (asid : Word) : Kernel :=
  let k₁ := { k.setRef d 0 with
    pageFreeList := d :: k.pageFreeList, pgdirs := k.pgdirs.filter (· ≠ d)
    asidBitmap := update k.asidBitmap (asidIndex asid.toNat)
      (k.asidBitmap (asidIndex asid.toNat) &&& ~~~(asidMask asid.toNat)) }
  { (k₁.flush asid (uvpt + BitVec.ofNat 32 (pdx uvpt) <<< 12)).setEnv e fun v =>
      { v with envStatus := .free } with envFreeList := e :: k.envFreeList }

/-- With the env dead and on the free list, the invariant holds again; if it was the current env,
then not before another is picked. -/
theorem Kernel.Inv.bury {k₂ : Kernel} (h : k.Inv M) (hl : k.Live e) {c : EnvPtr}
    (hc : k.curenv = some c) (hvm : k₂.vm.Inv M)
    (henvs : k₂.envs = update k.envs e { k.envs e with envStatus := .free })
    (hpg : k₂.curPgdir = k.curPgdir) (hfl : k₂.envFreeList = e :: k.envFreeList) :
    Kernel.Inv M { k₂ with curenv := if c = e then none else some c } := by
  have hdir := dir_of_dead (k := k) (f := fun v => { v with envStatus := .free }) henvs rfl
  have hlive : ∀ e', k₂.Live e' → k.Live e' ∧ e' ≠ e := by
    intro e' hl'
    have hd' := dir_of_live hl'
    rw [hdir] at hd'
    by_cases hee : e' = e
    · rw [hee, update_self] at hd'
      cases hd'
    · rw [update_of_ne hee] at hd'
      exact ⟨(dir_eq_some.mp hd').1, hee⟩
  refine ⟨hvm, ?_, ?_, ?_, ?_⟩
  · intro c' hc'
    show k₂.vm.dir c' = some k₂.curPgdir
    by_cases hce : c = e
    · simp [hce] at hc'
    · simp only [if_neg hce] at hc'
      obtain rfl : c = c' := Option.some.inj hc'
      rw [hdir, update_of_ne hce, hpg]
      exact h.cur c hc
  · intro e'
    show (k₂.envs e').envIpcDstva < utop
    rw [henvs]
    by_cases hee : e' = e
    · rw [hee, update_self]
      exact h.dstva e
    · rw [update_of_ne hee]
      exact h.dstva e'
  · intro e' he' hl'
    obtain ⟨hl', hee⟩ := hlive e' hl'
    replace he' : e' ∈ k₂.envFreeList := he'
    rw [hfl] at he'
    exact h.free_dead e' ((List.mem_cons.mp he').resolve_left hee) hl'
  · show k₂.envFreeList.Nodup
    rw [hfl]
    exact List.nodup_cons.mpr ⟨fun hmem => h.free_dead e hmem hl, h.free_nodup⟩

/-- After its loops, `env_free` gives the directory back and marks the env as free. -/
theorem Releasing.tail (h : Releasing M k₀ e d npde k) (asid : Word) :
    (do
      let pp ← pa2page (page2pa d)
      pageDecref pp
      asidFree asid
      tlbInvalidate asid (uvpt + BitVec.ofNat 32 (pdx uvpt) <<< 12)
      modify fun k => k.setEnv e fun v => { v with envStatus := .free }
      modify fun k => { k with envFreeList := e :: k.envFreeList }
      schedRemove e : KernM Unit) k = schedRemove e (k.bury e d asid) := by
  obtain ⟨hdM, hd1⟩ := h.inv.pgdirs_spec d (h.inv.dir_mem e d h.dir)
  have hlt : d < k.npage := h.inv.managed d hdM
  have hppn : ppn (page2pa d) = d := ppn_page2pa (lt_trans hlt h.inv.npage_lt)
  have hd1' : k.ppRef d = 1 := hd1
  rw [pa2page_bind (by rw [hppn]; exact hlt), hppn,
    bind_ret (pageDecref_eq (by rw [hd1']; decide)), Kernel.decref, hd1', if_pos (by decide)]
  simp only [asidFree, tlbInvalidate, tlbOut, modify_bind]
  rfl

theorem Releasing.no_table (h : Releasing M k₀ e d npde k) (i : Nat) : k.vm.table e i = none := by
  by_cases hi : i < npde
  · exact h.empty i hi
  · simp [Vm.table, h.dir, hi]

theorem dir_bury (k : Kernel) (e : EnvPtr) (d : Nat) (asid : Word) :
    (k.bury e d asid).vm.dir = update k.vm.dir e none :=
  dir_of_dead (k := k) (f := fun v => { v with envStatus := .free }) rfl rfl

/-- The invariant of memory holds again, and the queue may write through a null pointer: if the
current env has died, then its address space is empty. -/
theorem Releasing.bury (h : Releasing M k₀ e d npde k) (hinv : k.Inv M) {c : EnvPtr}
    (hc : k.curenv = some c) (asid : Word) :
    (k.bury e d asid).vm.Inv M ∧ (k.bury e d asid).NullSafe := by
  refine ⟨h.inv.dropDir h.dir h.no_table rfl rfl (dir_bury k e d asid) rfl rfl rfl, ?_⟩
  by_cases hce : c = e
  · refine .inr ?_
    have hcur := hinv.cur c hc
    rw [hce, h.dir] at hcur
    show has (k.mem k.curPgdir 0) pteV = false
    rw [← Option.some.inj hcur]
    have h0 := h.no_table 0
    rw [Vm.table_of_dir h.dir (by decide)] at h0
    by_contra hval
    have hval' : has (k.vm.mem d 0) pteV = true := Bool.not_eq_false _ ▸ hval
    rw [if_pos hval'] at h0
    cases h0
  · refine .inl ⟨c, ?_⟩
    rw [dir_bury, update_of_ne hce]
    exact hinv.cur c hc

/-- The loops of `env_free` come to their end, and all that is left is to take the env off the
queue. -/
theorem envFree_eq (h : k.vm.Inv M) (hl : k.Live e) :
    ∃ k₁, Releasing M k e (k.envs e).envPgdir npde k₁ ∧ envFree e k =
      schedRemove e (k₁.bury e (k.envs e).envPgdir (k.envs e).envAsid) := by
  have hstart : Releasing M k e (k.envs e).envPgdir 0 k :=
    ⟨h, Kernel.Frame.refl k, dir_of_live hl, fun _ hi => absurd hi (Nat.not_lt_zero _),
      .refl e k.vm⟩
  have hloop := sat_loop (I := fun i k' => Releasing M k e (k.envs e).envPgdir i k')
    (fun i k' _ hi hk' => envFreePde_spec hk' (by rw [pdx_utop] at hi; unfold npde; omega)
      (k.envs e).envAsid) hstart (n := pdx utop)
  rw [envFree, get_bind]
  cases hend : loop (envFreePde (k.envs e).envPgdir (k.envs e).envAsid) 0 (pdx utop) k with
  | ret u k₁ =>
    rw [hend, Outcome.sat_ret, pdx_utop, Nat.zero_add] at hloop
    exact ⟨k₁, hloop, (bind_ret hend).trans (hloop.tail _)⟩
  | err er k₁ =>
    rw [hend] at hloop
    exact hloop.elim
  | halt p =>
    rw [hend] at hloop
    exact hloop.elim

/-- **`env_free`** of a live env. -/
theorem envFree_spec (h : k.Inv M) (hl : k.Live e) {c : EnvPtr} (hc : k.curenv = some c) :
    (envFree e k).Sat
      (fun _ k' => k'.curenv = some c ∧
        Kernel.Inv M { k' with curenv := if c = e then none else some c })
      (fun _ _ => False) (fun _ => True) := by
  obtain ⟨k₁, hk₁, heq⟩ := envFree_eq h.vm hl
  generalize (k.envs e).envPgdir = d at hk₁ heq
  generalize (k.envs e).envAsid = asid at heq
  have h₁ : k₁.Inv M := h.frame hk₁.frame hk₁.inv
  have hc₁ : k₁.curenv = some c := hk₁.frame.curenv.trans hc
  have hl₁ : k₁.Live e := (dir_eq_some.mp hk₁.dir).1
  obtain ⟨hvm₂, hnull⟩ := hk₁.bury h₁ hc₁ asid
  have hinv₂ := h₁.bury hl₁ hc₁ hvm₂ rfl rfl rfl
  have hc₂ : (k₁.bury e d asid).curenv = some c := hc₁
  rw [heq]
  generalize k₁.bury e d asid = k₂ at hvm₂ hinv₂ hnull hc₂ ⊢
  refine (schedRemove_spec hvm₂ hnull e).mono ?_ (fun _ _ h => h) (fun _ h => h)
  rintro _ k₃ ⟨hinv₃, q, hf₃⟩
  refine ⟨hf₃.curenv.trans hc₂, hinv₂.qframe ⟨q, ?_⟩ hinv₃⟩
  obtain ⟨_, _, _, _, _, rfl⟩ := hf₃
  exact ⟨_, _, _, _, _, rfl⟩

theorem envDestroy_spec (h : k.Inv M) (hl : k.Live e) {c : EnvPtr} (hc : k.curenv = some c) :
    (envDestroy e k).Sat (fun _ k' => k'.Inv M) (fun _ _ => False) (fun _ => True) := by
  refine sat_call (envFree_spec h hl hc) ?_ (fun _ _ h => h) (fun _ h => h)
  rintro _ k₁ ⟨hc₁, hinv₁⟩
  simp only [get_bind]
  by_cases hce : c = e
  · rw [if_pos hce] at hinv₁
    rw [if_pos (by rw [hc₁, hce]), put_bind]
    exact sat_call (schedule_spec hinv₁ true) (fun _ _ h => h) (fun _ _ h => h) (fun _ h => h)
  · rw [if_neg hce] at hinv₁
    rw [if_neg (by rw [hc₁]; simpa using hce)]
    have heq : { k₁ with curenv := some c } = k₁ := by
      rw [← hc₁]
    rw [heq] at hinv₁
    exact hinv₁

end Mos
