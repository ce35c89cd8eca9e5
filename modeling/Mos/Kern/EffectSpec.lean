import Mos.Kern.Effect

/-!
# Every operation is a chain of elementary changes

One lemma per kernel function, from the queue up to `exec_via`. Scheduling changes nothing that
matters to address spaces; `env_free` unmaps one page after the other before the env dies; a refill
maps a fresh page at most and then fills the TLB. `Op.Places` collects what an operation needs of
`P`, the condition on the entries that pages get.
-/

namespace Mos

open Lib Prog Function

variable {M : List Nat} {k k' k₁ k₂ : Kernel} {e : EnvPtr} {α : Type}
  {P : EnvPtr → Nat → Option Word → Prop} {d : Nat}

/-! ## Scheduling -/

/-- Writing a mapped frame is no change. -/
theorem still_setWord (h : k.vm.Inv M) (hb : k.basePgdir ∉ M) {f : Nat} (hu : k.vm.Usable M f)
    (i : Nat) (w : Word) : k.Still (k.setWord f i w) :=
  .of_frame ⟨_, _, _, _, _, rfl⟩
    (.frame (ne_of_managed hb hu.managed) hu.not_pgdir rfl fun _ hg => update_of_ne hg _ _)
    (inv_setWord_usable h hu i w).2 (List.Subset.refl _)

theorem storeNull_still (h : k.vm.Inv M) (hb : k.basePgdir ∉ M) (hn : k.NullSafe) (w : Word) :
    (storeNull w k).Sat (fun _ k' => k.Still k') (fun _ _ => False) (fun _ => True) := by
  have hp0 : pdx 0 = 0 := by decide
  have hnone : pageLookup k.curPgdir 0 k = .ret none k → (storeNull w k).Sat
      (fun _ k' => k.Still k') (fun _ _ => False) (fun _ => True) := by
    intro hlook
    rw [storeNull, get_bind, bind_ret hlook]
    trivial
  rcases hn with ⟨e, hd⟩ | hinvalid
  · cases hl : k.vm.leaf e (ppn 0) with
    | none => exact hnone (pageLookup_unmapped h hd (by rw [hp0]; decide) hl)
    | some pte =>
      obtain ⟨t, _, _, hlook⟩ := pageLookup_mapped h hd hl
      rw [storeNull, get_bind, bind_ret hlook]
      simp only [readWord_bind]
      split
      · exact still_setWord h hb (h.usable_of_leaf hl) 0 w
      · trivial
  · refine hnone ?_
    have hwalk : pgdirWalk k.curPgdir 0 false k = .ret none k := by
      simp only [pgdirWalk, readWord_bind, hp0, hinvalid, Bool.false_eq_true, if_false]
      rfl
    rw [pageLookup, bind_ret hwalk]
    rfl

/-- The queue is not looked at. -/
theorem still_queue (k : Kernel) (q : TailQ EnvPtr) : k.Still { k with envSchedList := q } :=
  .of_vm rfl rfl (fun _ _ => rfl) rfl rfl

theorem schedRemove_still (h : k.vm.Inv M) (hb : k.basePgdir ∉ M) (hn : k.NullSafe) (e : EnvPtr) :
    (schedRemove e k).Sat (fun _ k' => k.Still k') (fun _ _ => False) (fun _ => True) := by
  simp only [schedRemove, get_bind]
  cases k.envSchedList.remove e with
  | some q => exact still_queue k q
  | none =>
    simp only [put_bind]
    exact (storeNull_still (k := { k with envSchedList := k.envSchedList.unlink e }) h hb hn _).mono
      (fun _ _ hs => (still_queue k _).trans hs) (fun _ _ h => h) (fun _ h => h)

theorem schedInsertTail_still (h : k.vm.Inv M) (hb : k.basePgdir ∉ M) (hn : k.NullSafe)
    (e : EnvPtr) :
    (schedInsertTail e k).Sat (fun _ k' => k.Still k') (fun _ _ => False) (fun _ => True) := by
  simp only [schedInsertTail, get_bind]
  cases k.envSchedList.insertTail e with
  | some q => exact still_queue k q
  | none =>
    simp only [put_bind]
    refine sat_call (storeNull_still (k := { k with envSchedList := k.envSchedList.linkTail e }) h hb
      hn _) ?_ (fun _ _ h => h) (fun _ h => h)
    intro _ k' hs
    exact ((still_queue k _).trans hs).trans (still_queue k' _)

theorem envRun_still (k : Kernel) (e : EnvPtr) :
    (envRun e k).Sat (fun _ k' => k.Still k') (fun _ _ => False) (fun _ => True) := by
  rw [envRun, get_bind, sat_bind, sat_assert]
  split
  next hrun =>
    have hsave : ∀ k₁ : Kernel, k.Still k₁ → k.Still
        { k₁.setEnv e fun v => { v with envRuns := v.envRuns + 1 } with
          curenv := some e, curPgdir := (k₁.envs e).envPgdir } := by
      intro k₁ h₁
      have h₂ := h₁.trans (Kernel.Still.setEnv k₁ e
        (f := fun v => { v with envRuns := v.envRuns + 1 }) Iff.rfl rfl rfl)
      exact ⟨h₂.writes, h₂.leaf, h₂.tlb, h₂.live, h₂.asid, h₂.bitmap, h₂.base⟩
    cases k.curenv with
    | none => exact hsave k (.refl k)
    | some c => exact hsave _ (Kernel.Still.setEnv k c Iff.rfl rfl rfl)
  next => trivial

theorem schedulePick_still (k : Kernel) :
    (schedulePick k).Sat (fun _ k' => k.Still k') (fun _ _ => False) (fun _ => True) := by
  rw [schedulePick, get_bind]
  cases k.envSchedList.first with
  | none => trivial
  | some e =>
    have h₁ : k.Still { k with schedCount := (k.envs e).envPri.toInt } :=
      .of_vm rfl rfl (fun _ _ => rfl) rfl rfl
    exact (envRun_still _ e).mono (fun _ _ h => h₁.trans h) (fun _ _ h => h) (fun _ h => h)

/-- **`schedule`** changes nothing that matters to address spaces. -/
theorem schedule_still (h : k.Inv M) (hb : k.basePgdir ∉ M) (yield : Bool) :
    (schedule yield k).Sat (fun _ k' => k.Still k') (fun _ _ => False) (fun _ => True) := by
  rw [schedule, modify_bind, get_bind]
  have h' : Kernel.Inv M { k with schedCount := k.schedCount - 1 } :=
    ⟨h.vm, h.cur, h.dstva, h.free_dead, h.free_nodup⟩
  have h₀ : k.Still { k with schedCount := k.schedCount - 1 } :=
    .of_vm rfl rfl (fun _ _ => rfl) rfl rfl
  have hb' : ({ k with schedCount := k.schedCount - 1 } : Kernel).basePgdir ∉ M := hb
  generalize { k with schedCount := k.schedCount - 1 } = k₁ at h' h₀ hb'
  have hpick : ∀ k₂, k.Still k₂ → (schedulePick k₂).Sat (fun _ k' => k.Still k')
      (fun _ _ => False) (fun _ => True) := fun k₂ h₂ =>
    (schedulePick_still k₂).mono (fun _ _ h => h₂.trans h) (fun _ _ h => h) (fun _ h => h)
  cases hc : k₁.curenv with
  | none => exact hpick k₁ h₀
  | some e =>
    simp only
    split
    · exact hpick k₁ h₀
    · split
      · refine sat_call ((schedRemove_spec h'.vm (h'.nullSafe hc) e).and
          (schedRemove_still h'.vm hb' (h'.nullSafe hc) e)) ?_ (fun _ _ h => h.1) (fun _ _ => trivial)
        rintro _ k₂ ⟨⟨hvm₂, hf₂⟩, hs₂⟩
        have h₂ := h'.qframe hf₂ hvm₂
        have hc₂ : k₂.curenv = some e := by
          obtain ⟨_, hf₂⟩ := hf₂
          exact hf₂.curenv.trans hc
        refine sat_call (schedInsertTail_still h₂.vm (hs₂.base ▸ hb') (h₂.nullSafe hc₂) e) ?_
          (fun _ _ h => h) (fun _ h => h)
        intro _ k₃ hs₃
        exact hpick k₃ ((h₀.trans hs₂).trans hs₃)
      · exact (envRun_still k₁ e).mono (fun _ _ h => h₀.trans h) (fun _ _ h => h) (fun _ h => h)

/-! ## Mapping and unmapping -/

/-- `page_insert` as an elementary change. -/
theorem pageInsert_makes (h : k.vm.Inv M) (hb : k.basePgdir ∉ M) (hl : k.Live e) {va perm : Word}
    {pp : Nat} (hva : pdx va < npde) (hu : k.vm.Usable M pp) (hperm : perm < 4096)
    (hP : P e (ppn va) (some (pageEntry pp perm))) :
    Makes P (pageInsert (k.envs e).envPgdir (k.envs e).envAsid pp va perm) k := by
  have hd := dir_of_live hl
  refine (((pageInsert_spec h hd hva hu hperm _).and
    (pageInsert_effect h hb hd hva (k.envs e).envAsid pp perm)).and
    (framed_pageInsert _ _ _ _ _ k)).mono ?_ ?_ (fun _ _ => trivial)
  · rintro _ k₁ ⟨⟨⟨hremap, _⟩, hw, htlb, _⟩, hf⟩
    exact .single (.remap e va _ hl hP hf hw hremap.leaf htlb)
  · rintro _ k₁ ⟨⟨_, _, _, rfl⟩, hf⟩
    exact .of_still (.of_frame hf (.refl _ _) rfl (List.filter_subset_self _))

/-- `page_remove` as an elementary change. -/
theorem pageRemove_makes (h : k.vm.Inv M) (hb : k.basePgdir ∉ M) (hl : k.Live e) {va : Word}
    (hva : pdx va < npde) (hP : P e (ppn va) none) :
    Makes P (pageRemove (k.envs e).envPgdir (k.envs e).envAsid va) k := by
  have hd := dir_of_live hl
  refine (((pageRemove_spec h hd hva _).and
    (pageRemove_effect h hb hd hva (k.envs e).envAsid)).and
    (framed_pageRemove _ _ _ k)).mono ?_ (fun _ _ h => h.1.1.elim) (fun _ _ => trivial)
  rintro _ k₁ ⟨⟨⟨_, hremap, _⟩, hw, heq | htlb⟩, hf⟩
  · rw [heq]
  · exact .single (.remap e va none hl hP hf hw hremap.leaf htlb)

theorem pageAlloc_makes (h : k.vm.Inv M) (hb : k.basePgdir ∉ M) : Makes P pageAlloc k := by
  refine makes_of_still (E := fun _ k' => k' = k) (H := fun _ => True) ?_
    fun _ k' hk' => hk' ▸ .refl k
  refine (((pageAlloc_spec h).and (pageAlloc_writes h hb)).and (framed_pageAlloc k)).mono ?_
    (fun _ _ h => h.1.2) (fun _ _ => trivial)
  rintro pp k₁ ⟨⟨⟨_, hgrow, _⟩, hw, htlb⟩, hf⟩
  exact .of_frame hf hw hgrow.leaf (by rw [htlb]; exact List.Subset.refl _)

theorem makes_panicOn {m : KernM α} (h : Makes P m k) : Makes P (panicOn m) k := by
  refine makes_call (makes_attempt h) (Outcome.sat_self _) fun r k₁ _ _ => ?_
  split
  · exact makes_pure _
  · exact makes_halt _

/-! ## Refills -/

/-- The pages that are mapped on demand. -/
def Demand (P : EnvPtr → Nat → Option Word → Prop) (k : Kernel) : Prop :=
  ∀ c n pp, k.curenv = some c → ppn utemp ≤ n → P c n (some (pageEntry pp pteD))

theorem utemp_le_of_passiveCheck {va : Word} (h : passiveCheck va = none) : ppn utemp ≤ ppn va := by
  unfold passiveCheck at h
  split at h
  · cases h
  next hlow =>
    have hlow' : ¬va.toNat < utemp.toNat := hlow
    rw [ppn_eq, ppn_eq]
    omega

theorem passiveAlloc_makes (h : k.Inv M) (hb : k.basePgdir ∉ M) {c : EnvPtr} {va : Word}
    (hc : k.curenv = some c) (hva : va < utop) (hP : Demand P k) :
    Makes P (passiveAlloc va k.curPgdir (k.envs c).envAsid) k := by
  unfold passiveAlloc
  cases hcheck : passiveCheck va with
  | some p => exact makes_halt p
  | none =>
    refine makes_call (makes_panicOn (pageAlloc_makes h.vm hb))
      (sat_panicOn ((pageAlloc_spec h.vm).and (framed_pageAlloc k))) ?_
    rintro pp k₁ hbase ⟨⟨hinv₁, _, hfresh, _⟩, hf₁⟩
    have h₁ := h.frame hf₁ hinv₁
    have hc₁ : k₁.curenv = some c := hf₁.curenv.trans hc
    have hb₁ : k₁.basePgdir ∉ M := hbase ▸ hb
    have hpg : k.curPgdir = (k₁.envs c).envPgdir := by
      have := (dir_eq_some.mp (h₁.cur c hc₁)).2
      rw [this, hf₁.curPgdir]
    have has : (k.envs c).envAsid = (k₁.envs c).envAsid := by rw [hf₁.envs]
    rw [hpg, has]
    refine makes_panicOn (pageInsert_makes hinv₁ hb₁ (h₁.live_cur hc₁) ?_ hfresh.usable (by decide) ?_)
    · rw [pdx_pteAddr]
      exact pdx_lt_of_lt_utop hva
    · rw [ppn_pteAddr]
      exact hP c _ pp hc (utemp_le_of_passiveCheck hcheck)

theorem doTlbRefill_makes (h : k.Inv M) (hb : k.basePgdir ∉ M) {c : EnvPtr} {va : Word}
    (hc : k.curenv = some c) (hva : va < utop) (hP : Demand P k) :
    Makes P (doTlbRefill va (k.envs c).envAsid) k := by
  have hd := h.cur c hc
  unfold doTlbRefill
  have hfound : ∀ {k₁ : Kernel} {n : Nat} {w : Word}, k₁.vm.Inv M →
      k₁.vm.dir c = some k₁.curPgdir → k₁.vm.leaf c (ppn va) = some w →
      Makes P (refillLoop va (k.envs c).envAsid (n + 1)) k₁ := by
    intro k₁ n w hinv₁ hd₁ hl₁
    obtain ⟨t, _, _, hlook⟩ := pageLookup_mapped hinv₁ hd₁ hl₁
    unfold Makes
    rw [refillLoop, get_bind, bind_ret hlook]
    exact .refl
  refine makes_call (Q := fun _ _ => True) (E := fun _ _ => True) (H := fun _ => True) ?_
    (by cases refillLoop va (k.envs c).envAsid 2 k <;> trivial) fun _ _ _ _ => .refl
  cases hl : k.vm.leaf c (ppn va) with
  | some w => exact hfound h.vm hd hl
  | none =>
    unfold Makes
    rw [refillLoop, get_bind,
      bind_ret (pageLookup_unmapped h.vm hd (pdx_lt_of_lt_utop hva) hl)]
    refine makes_call (passiveAlloc_makes h hb hc hva hP)
      ((passiveAlloc_spec h.vm hd hva _).and (framed_passiveAlloc va k.curPgdir _ k)) ?_
    rintro _ k₁ - ⟨⟨hinv₁, pp, _, _, hmap⟩, hf₁⟩
    have hl₁ : k₁.vm.leaf c (ppn va) = some (pageEntry pp pteD) := by
      rw [hmap.leaf, if_pos ⟨rfl, rfl⟩]
    exact hfound hinv₁ (by rw [hf₁.dir, hf₁.curPgdir]; exact hd) hl₁

/-! ## Refills above `UTOP` -/

section High

variable {c : EnvPtr} {va asid : Word} {p : Nat} {rest : List Nat}

theorem pageLookup_state (d : Nat) (va : Word) (k : Kernel) :
    (pageLookup d va k).Sat (fun _ k' => k' = k) (fun _ _ => False) (fun _ => True) := by
  have hwalk : (pgdirWalk d va false k).Sat (fun _ k' => k' = k) (fun _ _ => False)
      (fun _ => True) := by
    simp only [pgdirWalk, readWord_bind]
    split
    · rw [sat_bind, kaddr_eq]
      split <;> trivial
    · rfl
  refine sat_call hwalk ?_ (fun _ _ h => h) (fun _ h => h)
  rintro r _ rfl
  split
  · rfl
  · simp only [readWord_bind]
    split
    · rw [sat_bind, pa2page_eq]
      split <;> trivial
    · rfl

/-- The tables of `pages` and `envs` are there or not; nothing is mapped on demand. -/
theorem passiveCheck_zone (h₁ : utop ≤ va) (h₂ : va < uvpt) : passiveCheck va ≠ none := by
  have h₁' : utop.toNat ≤ va.toNat := h₁
  have h₂' : va.toNat < uvpt.toNat := h₂
  have h₃ : uenvs.toNat = utop.toNat := rfl
  unfold passiveCheck
  split
  · simp
  · split
    · simp
    · split
      · simp
      next henvs =>
        have henvs' : ¬(uenvs.toNat ≤ va.toNat ∧ va.toNat < upages.toNat) := henvs
        rw [if_pos]
        · simp
        · exact ⟨show upages.toNat ≤ va.toNat by omega, h₂⟩

theorem doTlbRefill_zone (h₁ : utop ≤ va) (h₂ : va < uvpt) (asid : Word) (k : Kernel) :
    (doTlbRefill va asid k).Sat (fun _ k' => k' = k) (fun _ _ => False) (fun _ => True) := by
  have hcheck := passiveCheck_zone h₁ h₂
  unfold doTlbRefill
  rw [sat_bind, refillLoop, get_bind]
  refine sat_call (pageLookup_state k.curPgdir va k) ?_ (fun _ _ h => h) (fun _ h => h)
  rintro r _ rfl
  cases r with
  | some r => rfl
  | none =>
    refine sat_call (R := fun _ _ => False) (F := fun _ _ => False) (G := fun _ => True) ?_
      (fun _ _ h => h.elim) (fun _ _ h => h) (fun _ h => h)
    unfold passiveAlloc
    cases hp : passiveCheck va with
    | none => exact absurd hp hcheck
    | some p => trivial

/-- The entry with which a page directory maps itself. -/
theorem selfEntry (hd : d < 2 ^ 20) :
    has (page2pa d ||| pteV) pteV = true ∧ ppn (page2pa d ||| pteV) = d := by
  constructor
  · rw [has_or]
    simp [show has pteV pteV = true by decide]
  · rw [ppn_eq, page2pa_or_toNat hd (by decide), show pteV.toNat = 512 from rfl]
    omega

/-- The directory is its own page table for the addresses from `UVPT` on. -/
theorem pgdirWalk_self (hd : d < k.npage) (hnp : k.npage < 2 ^ 20) (hva : pdx va = pdx uvpt)
    (hself : k.mem d (pdx uvpt) = page2pa d ||| pteV) (create : Bool) :
    pgdirWalk d va create k = .ret (some (d, ptx va)) k := by
  obtain ⟨hval, hppn⟩ := selfEntry (lt_trans hd hnp)
  simp only [pgdirWalk, readWord_bind, hva, hself, hval, if_true, ppn_pteAddr, hppn]
  rw [kaddr_bind hd]
  rfl

theorem pageEntry_dirty (p : Nat) : pageEntry p pteD = page2pa p ||| pteV ||| pteD := by
  unfold pageEntry
  rw [BitVec.or_assoc, BitVec.or_comm pteD pteV, ← BitVec.or_assoc]

/-- The state after `passive_alloc` has put the fresh frame `p` into a page directory. -/
def Kernel.adopt (k : Kernel) (d : Nat) (va asid : Word) (p : Nat) (rest : List Nat) : Kernel :=
  (k.flush asid (pteAddr va)).newTable d (ptx va) p rest

theorem mem_adopt (hdp : p ≠ d) : (k.adopt d va asid p rest).mem d =
    update (k.mem d) (ptx va) (page2pa p ||| pteV ||| pteD) := by
  show update (update k.mem p _) d (update (update k.mem p _ d) _ _) d = _
  rw [update_self, update_of_ne hdp.symm]

/-- The directory maps itself, and is not among the free frames. -/
structure Kernel.SelfMapped (k : Kernel) (d : Nat) : Prop where
  npage_lt : k.npage < 2 ^ 20
  lt : d < k.npage
  self : k.mem d (pdx uvpt) = page2pa d ||| pteV
  free : ∀ p ∈ k.pageFreeList, p ≠ d ∧ p < k.npage

theorem Kernel.DirsOk.selfMapped (hok : k.DirsOk) (h : k.vm.Inv M) (hd : k.vm.dir c = some d) :
    k.SelfMapped d where
  npage_lt := h.npage_lt
  lt := h.apart.dir_lt c d hd
  self := hok.self d (h.dir_mem c d hd)
  free p hp := ⟨fun hc => h.free_not_dir hp (hc ▸ hd), h.apart.free_lt p hp⟩

/-- `passive_alloc` at an address from `UVPT` on: a fresh frame becomes what the entry of the
directory names. -/
theorem passiveAlloc_uvpt (h : k.SelfMapped d) (hva : pdx va = pdx uvpt)
    (hnone : has (k.mem d (ptx va)) pteV = false) (asid : Word) :
    (passiveAlloc va d asid k).Sat
      (fun _ k' => ∃ p rest, k.pageFreeList = p :: rest ∧ k' = k.adopt d va asid p rest)
      (fun _ _ => False) (fun _ => passiveCheck va ≠ none ∨ k.pageFreeList = []) := by
  unfold passiveAlloc
  cases passiveCheck va with
  | some p => exact .inl nofun
  | none =>
    cases hf : k.pageFreeList with
    | nil =>
      rw [sat_bind, panicOn, sat_bind, sat_attempt, pageAlloc_nil hf]
      exact .inr rfl
    | cons p rest =>
      obtain ⟨hdp, hplt⟩ := h.free p (by rw [hf]; exact List.mem_cons_self)
      have halloc : panicOn pageAlloc k = .ret p (k.takeFrame p rest) := by
        rw [panicOn, bind_apply, attempt, pageAlloc_cons hf, if_pos hplt]
        rfl
      have hmemd : (k.takeFrame p rest).mem d = k.mem d := update_of_ne hdp.symm _ _
      have hwalk : ∀ create, pgdirWalk d (pteAddr va) create (k.takeFrame p rest) =
          .ret (some (d, ptx va)) (k.takeFrame p rest) := by
        intro create
        rw [pgdirWalk_self (k := k.takeFrame p rest) h.lt h.npage_lt (by rw [pdx_pteAddr]; exact hva)
          (by rw [hmemd]; exact h.self), ptx_pteAddr]
      have hwalk' : pgdirWalk d (pteAddr va) true ((k.takeFrame p rest).flush asid (pteAddr va)) =
          .ret (some (d, ptx va)) ((k.takeFrame p rest).flush asid (pteAddr va)) := by
        rw [pgdirWalk_self (k := (k.takeFrame p rest).flush asid (pteAddr va)) h.lt h.npage_lt
          (by rw [pdx_pteAddr]; exact hva)
          (by show (k.takeFrame p rest).mem d _ = _; rw [hmemd]; exact h.self), ptx_pteAddr]
      have hflush : tlbInvalidate asid (pteAddr va) (k.takeFrame p rest) =
          .ret () ((k.takeFrame p rest).flush asid (pteAddr va)) := rfl
      have hins : pageInsert d asid p (pteAddr va) pteD (k.takeFrame p rest) =
          .ret () (k.adopt d va asid p rest) := by
        rw [pageInsert, bind_ret (hwalk false)]
        simp only [readWord_bind, hmemd, hnone, Bool.false_eq_true, if_false]
        rw [pageInsertNew, bind_ret hflush, bind_ret hwalk']
        simp only [writeWord_bind]
        rw [show page2pa p ||| pteD ||| pteV = page2pa p ||| pteV ||| pteD from pageEntry_dirty p]
        rfl
      simp only
      rw [bind_ret halloc, panicOn, bind_apply, attempt, hins]
      exact ⟨p, rest, rfl, rfl⟩

/-- **`_do_tlb_refill`** from `UVPT` on returns the entry of the page directory, which it fills with a
fresh frame where it was empty. -/
theorem doTlbRefill_uvpt (h : k.SelfMapped k.curPgdir) (hva : pdx va = pdx uvpt) (asid : Word) :
    (doTlbRefill va asid k).Sat
      (fun pte k' => (pte = k.mem k.curPgdir (ptx va) ∧ has pte pteV = true ∧ k' = k) ∨
        has (k.mem k.curPgdir (ptx va)) pteV = false ∧ ∃ p rest, k.pageFreeList = p :: rest ∧
          pte = page2pa p ||| pteV ||| pteD ∧ k' = k.adopt k.curPgdir va asid p rest)
      (fun _ _ => False)
      (fun _ => has (k.mem k.curPgdir (ptx va)) pteV = false ∧
          (passiveCheck va ≠ none ∨ k.pageFreeList = []) ∨
        has (k.mem k.curPgdir (ptx va)) pteV = true ∧
          k.npage ≤ ppn (k.mem k.curPgdir (ptx va))) := by
  have hwalk := pgdirWalk_self h.lt h.npage_lt hva h.self false
  unfold doTlbRefill
  rw [sat_bind, refillLoop, get_bind]
  by_cases hval : has (k.mem k.curPgdir (ptx va)) pteV = true
  · have hlook : (pageLookup k.curPgdir va k).Sat
        (fun r k' => k' = k ∧ ∃ pp, r = some (pp, k.curPgdir, ptx va)) (fun _ _ => False)
        (fun _ => k.npage ≤ ppn (k.mem k.curPgdir (ptx va))) := by
      rw [pageLookup, bind_ret hwalk]
      simp only [readWord_bind, hval, if_true]
      rw [sat_bind, pa2page_eq]
      split
      next => exact ⟨rfl, _, rfl⟩
      next hle => exact Nat.le_of_not_lt hle
    refine sat_call hlook ?_ (fun _ _ h => h) (fun _ h => .inr ⟨hval, h⟩)
    rintro r _ ⟨rfl, pp, rfl⟩
    exact .inl ⟨rfl, hval, rfl⟩
  · rw [Bool.not_eq_true] at hval
    have hlook : pageLookup k.curPgdir va k = .ret none k := by
      rw [pageLookup, bind_ret hwalk]
      simp only [readWord_bind, hval, Bool.false_eq_true, if_false]
      rfl
    rw [bind_ret hlook]
    refine sat_call (passiveAlloc_uvpt h hva hval asid) ?_ (fun _ _ h => h)
      (fun _ h => .inl ⟨hval, h⟩)
    rintro _ k₁ ⟨p, rest, hf, hk₁⟩
    obtain ⟨hdp, hplt⟩ := h.free p (by rw [hf]; exact List.mem_cons_self)
    have hj : ptx va ≠ pdx uvpt := by
      intro hc
      rw [hc, h.self, has_or] at hval
      simp [show has pteV pteV = true by decide] at hval
    have hmem₁ : k₁.mem k.curPgdir = update (k.mem k.curPgdir) (ptx va)
        (page2pa p ||| pteV ||| pteD) := by rw [hk₁]; exact mem_adopt hdp
    have hrest : k₁.npage = k.npage ∧ k₁.curPgdir = k.curPgdir := by rw [hk₁]; exact ⟨rfl, rfl⟩
    have hwalk₁ : pgdirWalk k.curPgdir va false k₁ = .ret (some (k.curPgdir, ptx va)) k₁ := by
      refine pgdirWalk_self (by rw [hrest.1]; exact h.lt) (by rw [hrest.1]; exact h.npage_lt) hva ?_ _
      rw [hmem₁, update_of_ne hj.symm]
      exact h.self
    have hppn : ppn (page2pa p ||| pteV ||| pteD) = p := ppn_tableEntry (lt_trans hplt h.npage_lt)
    have hlook₁ : pageLookup k.curPgdir va k₁ = .ret (some (p, k.curPgdir, ptx va)) k₁ := by
      rw [pageLookup, bind_ret hwalk₁]
      simp only [readWord_bind, hmem₁, update_self, has_tableEntry_valid, if_true]
      rw [pa2page_bind (by rw [hppn, hrest.1]; exact hplt), hppn]
      rfl
    rw [refillLoop, get_bind, hrest.2, bind_ret hlook₁]
    refine .inr ⟨hval, p, rest, hf, ?_, hk₁⟩
    show k₁.mem k.curPgdir (ptx va) = _
    rw [hmem₁, update_self]

/-- The frame becomes a page table of the env, or it is lost in an entry that is not the user's. -/
theorem adopt_spec (h : k.vm.Inv M) (hb : k.basePgdir ∉ M) (hd : k.vm.dir c = some d)
    (hok : k.DirsOk) (hnone : has (k.mem d (ptx va)) pteV = false)
    (hf : k.pageFreeList = p :: rest) (asid : Word) :
    k.Still (k.adopt d va asid p rest) ∧
      ∃ M', M' ⊆ M ∧ (k.adopt d va asid p rest).vm.Inv M' := by
  have hdpg : d ∈ k.pgdirs := h.dir_mem c d hd
  have hdM : d ∈ M := (h.pgdirs_spec d hdpg).1
  have hj : ptx va ≠ pdx uvpt := by
    intro hc
    rw [hc, hok.self _ hdpg, has_or] at hnone
    simp [show has pteV pteV = true by decide] at hnone
  obtain ⟨hinv₁, hgrow₁, hfresh, hslot₁⟩ := h.alloc (u := (k.takeFrame p rest).vm) hf rfl
  have hentry : (k.takeFrame p rest).vm.Writes k.basePgdir (k.adopt d va asid p rest).vm :=
    .entry (ne_of_managed hb hdM) hj (.inr (has_tableEntry_dirty p)) rfl rfl
  have hw : k.vm.Writes k.basePgdir (k.adopt d va asid p rest).vm :=
    (writes_takeFrame h hb hf).trans hentry
  have hstill : (k.adopt d va asid p rest).vm.leaf = k.vm.leaf →
      k.Still (k.adopt d va asid p rest) := fun hleaf =>
    .of_frame ⟨_, _, _, _, _, rfl⟩ hw hleaf (List.filter_subset_self _)
  by_cases hlt : ptx va < npde
  · have ht : k.vm.table c (ptx va) = none := by
      have hnone' : ¬has (k.vm.mem d (ptx va)) pteV = true := by
        show ¬has (k.mem d (ptx va)) pteV = true
        rw [hnone]
        simp
      rw [Vm.table_of_dir hd hlt, if_neg hnone']
    have ht₁ : (k.takeFrame p rest).vm.table c (ptx va) = none :=
      (congrFun hslot₁ (.table c ⟨ptx va, hlt⟩)).trans ht
    obtain ⟨hinv₂, _, hleaf₂, _⟩ := hinv₁.linkTable (u := (k.adopt d va asid p rest).vm) hd hlt ht₁
      hfresh rfl
    exact ⟨hstill (hleaf₂.trans hgrow₁.leaf), M, List.Subset.refl M, hinv₂⟩
  · obtain ⟨htab, hleaf⟩ := hinv₁.view_setHigh (w := page2pa p ||| pteV ||| pteD) hd
      (Nat.le_of_not_lt hlt)
    obtain ⟨h₁, h₂, h₃⟩ := Vm.view_of_mem (u := (k.adopt d va asid p rest).vm)
      (v := (k.takeFrame p rest).vm.setWord d (ptx va) (page2pa p ||| pteV ||| pteD)) rfl rfl
    refine ⟨hstill ((h₂.trans hleaf).trans hgrow₁.leaf), M.filter (· ≠ p),
      List.filter_subset_self _, hinv₁.forget hfresh rfl rfl rfl rfl ?_ ?_⟩
    · exact fun f hne => update_of_ne hne _ _
    · exact h₃.trans (Vm.slotRef_congr htab hleaf)

/-- **`_do_tlb_refill`** at any user address: at most one page is mapped, or one page directory entry
is filled. -/
theorem refill_spec (h : k.Inv M) (hb : k.basePgdir ∉ M) (hok : k.DirsOk)
    (hc : k.curenv = some c) (hva : va < ulim) (hP : Demand P k) :
    (doTlbRefill va (k.envs c).envAsid k).Sat
      (fun pte k' => Via P k k' ∧ (∃ M', M' ⊆ M ∧ k'.vm.Inv M') ∧
        (va < utop → k'.vm.leaf c (ppn va) = some pte))
      (fun _ _ => False) (fun _ => True) := by
  have hd := h.cur c hc
  by_cases hlow : va < utop
  · refine ((doTlbRefill_spec h.vm hd hlow _).and (doTlbRefill_makes h hb hc hlow hP)).mono ?_
      (fun _ _ h => h.1) (fun _ _ => trivial)
    rintro pte k₁ ⟨⟨hinv₁, hl₁, _⟩, hvia⟩
    exact ⟨hvia, ⟨M, List.Subset.refl M, hinv₁⟩, fun _ => hl₁⟩
  · have hlow' : ¬va.toNat < utop.toNat := hlow
    by_cases hzone : va < uvpt
    · refine (doTlbRefill_zone (show utop.toNat ≤ va.toNat by omega) hzone _ k).mono ?_
        (fun _ _ h => h) (fun _ h => h)
      rintro pte _ rfl
      exact ⟨.refl, ⟨M, List.Subset.refl M, h.vm⟩, fun hc => absurd hc hlow⟩
    · have hzone' : ¬va.toNat < uvpt.toNat := hzone
      have hva' : va.toNat < ulim.toNat := hva
      have hpdx : pdx va = pdx uvpt := by
        have h₁ : uvpt.toNat = 0x7fc00000 := by decide
        have h₂ : ulim.toNat = 0x80000000 := by decide
        rw [pdx_uvpt, pdx_eq]
        omega
      refine (doTlbRefill_uvpt (hok.selfMapped h.vm hd) hpdx _).mono ?_ (fun _ _ h => h)
        (fun _ _ => trivial)
      rintro pte k₁ (⟨_, _, rfl⟩ | ⟨hnone, p, rest, hf, _, rfl⟩)
      · exact ⟨.refl, ⟨M, List.Subset.refl M, h.vm⟩, fun hc => absurd hc hlow⟩
      · obtain ⟨hstill, hinv⟩ := adopt_spec h.vm hb hd hok hnone hf (k.envs c).envAsid
        exact ⟨.of_still hstill, hinv, fun hc => absurd hc hlow⟩

end High

/-! ## Loads of the kernel -/

theorem Demand.frame (h : Demand P k) (hf : k.Frame k') : Demand P k' :=
  fun c n pp hc => h c n pp (hf.curenv ▸ hc)

theorem loadUser_makes (h : k.Inv M) (hb : k.basePgdir ∉ M) {c : EnvPtr} {va : Word}
    (hc : k.curenv = some c) (hva : va < utop) (hP : Demand P k) :
    Makes P (loadUser va (k.envs c).envAsid) k := by
  unfold loadUser
  split
  · exact makes_halt _
  · refine makes_call (doTlbRefill_makes h hb hc hva hP)
      ((doTlbRefill_spec h.vm (h.cur c hc) hva _).and (framed_doTlbRefill va _ k)) ?_
    rintro pte k₁ - ⟨⟨_, hl₁, _⟩, hf₁⟩
    have hasid : (k.envs c).envAsid = (k₁.envs c).envAsid := by rw [hf₁.envs]
    rw [hasid]
    exact .single (.refill c va pte (hf₁.curenv.trans hc) fun _ => hl₁)

theorem loadUserWords_makes {c : EnvPtr} {asid : Word} : ∀ {n : Nat} {k : Kernel} {va : Word},
    k.Inv M → k.basePgdir ∉ M → k.curenv = some c → asid = (k.envs c).envAsid →
    va.toNat + 4 * n ≤ utop.toNat → Demand P k → Makes P (loadUserWords asid va n) k
  | 0, _, _, _, _, _, _, _, _ => .refl
  | n + 1, k, va, h, hb, hc, hasid, hva, hP => by
    have hlt : va < utop := show va.toNat < utop.toNat by omega
    subst hasid
    refine makes_call (loadUser_makes h hb hc hlt hP)
      ((loadUser_spec h.vm (h.cur c hc) hlt _).and (framed_loadUser va _ k)) ?_
    rintro w k₁ - ⟨hinv₁, hf₁⟩
    have hnext : (va + 4).toNat = va.toNat + 4 := by
      have := toNat_utop
      rw [BitVec.toNat_add, show (4 : Word).toNat = 4 from rfl]
      omega
    refine makes_call (Q := fun _ _ => True) (E := fun _ _ => True) (H := fun _ => True)
      (loadUserWords_makes (h.frame hf₁ hinv₁) (hf₁.basePgdir ▸ hb) (hf₁.curenv.trans hc)
        (by rw [hf₁.envs]) (by rw [hnext]; omega) (hP.frame hf₁)) ?_ fun _ _ _ _ => .refl
    cases loadUserWords (k.envs c).envAsid (va + 4) n k₁ <;> trivial

end Mos
