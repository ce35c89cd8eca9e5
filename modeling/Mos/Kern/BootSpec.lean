import Mos.Kern.EnvSpec

/-!
# The booted kernel

`page_init` puts the frames behind the kernel image on the free list, and `env_init` builds the
template page directory, which maps `pages` and `envs` at `UPAGES` and `UENVS`. Those frames belong
to the kernel image, so the free list only loses the frames of the template itself, and what is left
on it is free: the booted kernel satisfies `Kernel.Inv`.
-/

namespace Mos

open Lib Prog Function

/-! ## The free list of `page_init` -/

theorem mem_pageInitLoop {freemem n f : Nat} : f ∈ pageInitLoop freemem n ↔ freemem ≤ f ∧ f < n := by
  induction n with
  | zero => simp [pageInitLoop]
  | succ n ih =>
    unfold pageInitLoop
    split
    · rw [ih]
      omega
    · rw [List.mem_cons, ih]
      omega

theorem nodup_pageInitLoop (freemem n : Nat) : (pageInitLoop freemem n).Nodup := by
  induction n with
  | zero => exact List.nodup_nil
  | succ n ih =>
    unfold pageInitLoop
    split
    · exact ih
    · refine List.nodup_cons.mpr ⟨fun hmem => ?_, ih⟩
      have := (mem_pageInitLoop.mp hmem).2
      omega

/-! ## The template -/

/-- While `env_init` fills the template directory `p`: the free list is as `page_init` made it but
for the frames taken, the tables of the template are not on it, only the pages in `S` are mapped, and
the TLB is still empty. -/
structure Template (freemem p : Nat) (S : Nat → Prop) (k : Kernel) : Prop where
  npage_lt : k.npage < 2 ^ 20
  pgdirs : k.pgdirs = []
  nodup : k.pageFreeList.Nodup
  free : ∀ f ∈ k.pageFreeList, freemem ≤ f ∧ f < k.npage ∧ k.ppRef f = 0
  not_free : p ∉ k.pageFreeList
  table : ∀ i, has (k.mem p i) pteV → ppn (k.mem p i) < k.npage ∧
    ppn (k.mem p i) ∉ k.pageFreeList ∧ ppn (k.mem p i) ≠ p
  inj : ∀ i i', has (k.mem p i) pteV → has (k.mem p i') pteV →
    ppn (k.mem p i) = ppn (k.mem p i') → i = i'
  mapped : ∀ i j, j < 1024 → has (k.mem p i) pteV → has (k.mem (ppn (k.mem p i)) j) pteV →
    S (i * 1024 + j)
  dirty : ∀ i, has (k.mem p i) pteV → has (k.mem p i) pteD
  tlb : k.tlb = []

variable {freemem p pp : Nat} {S : Nat → Prop} {k : Kernel}

/-- One entry of the template is written, and its frame, which is part of the kernel image, is
counted. -/
theorem Template.insert (h : Template freemem p S k) (va : Word) {t j : Nat} {w : Word}
    (hval : has (k.mem p (pdx va)) pteV) (ht : ppn (k.mem p (pdx va)) = t) (hj : j = ptx va)
    (hpp : pp < freemem) :
    Template freemem p (fun n => S n ∨ n = ppn va)
      ((k.setWord t j w).setRef pp (k.ppRef pp + 1)) := by
  obtain ⟨htn, htf, htp⟩ := h.table (pdx va) hval
  rw [ht] at htn htf htp
  have hmem : ∀ f, f ≠ t → ((k.setWord t j w).setRef pp (k.ppRef pp + 1)).mem f = k.mem f :=
    fun f hf => update_of_ne hf _ _
  have hp : ((k.setWord t j w).setRef pp (k.ppRef pp + 1)).mem p = k.mem p := hmem p htp.symm
  refine ⟨h.npage_lt, h.pgdirs, h.nodup, fun f hf => ?_, h.not_free, ?_, ?_, ?_, ?_, h.tlb⟩
  · obtain ⟨h₁, h₂, h₃⟩ := h.free f hf
    refine ⟨h₁, h₂, ?_⟩
    show update k.ppRef pp (k.ppRef pp + 1) f = 0
    rw [update_of_ne (by omega), h₃]
  · rw [hp]
    exact h.table
  · rw [hp]
    exact h.inj
  · rw [hp]
    intro i j' hj' hi hv
    by_cases hit : ppn (k.mem p i) = t
    · have hii : i = pdx va := h.inj i (pdx va) hi hval (hit.trans ht.symm)
      by_cases hjj : j' = j
      · right
        rw [hii, hjj, hj, ppn_split]
      · left
        refine h.mapped i j' hj' hi ?_
        rw [hit] at hv ⊢
        simpa [Kernel.setRef, Kernel.setWord, update_of_ne hjj] using hv
    · left
      rw [hmem _ hit] at hv
      exact h.mapped i j' hj' hi hv
  · rw [hp]
    exact h.dirty

/-- A new table in the template. -/
theorem Template.newTable (h : Template freemem p S k) (va : Word) {rest : List Nat}
    (hf : k.pageFreeList = pp :: rest) :
    Template freemem p S (((k.takeFrame pp rest).setWord p (pdx va)
      (page2pa pp ||| pteV ||| pteD)).setRef pp ((k.takeFrame pp rest).ppRef pp + 1)) ∧
    ppn (page2pa pp ||| pteV ||| pteD) = pp ∧ pp < k.npage := by
  have hmem : pp ∈ k.pageFreeList := by rw [hf]; exact List.mem_cons_self
  obtain ⟨hfm, hlt, h0⟩ := h.free pp hmem
  have hnd := h.nodup
  rw [hf] at hnd
  obtain ⟨hrest, hnd⟩ := List.nodup_cons.mp hnd
  have hsub : ∀ f ∈ rest, f ∈ k.pageFreeList := fun f hf' => by
    rw [hf]
    exact List.mem_cons_of_mem _ hf'
  have hne : p ≠ pp := fun hc => h.not_free (hc ▸ hmem)
  have hppn : ppn (page2pa pp ||| pteV ||| pteD) = pp := ppn_tableEntry (lt_trans hlt h.npage_lt)
  have hval := has_tableEntry_valid pp
  have hdirty := has_tableEntry_dirty pp
  generalize hw : page2pa pp ||| pteV ||| pteD = w at hppn hval hdirty ⊢
  generalize hk' : ((k.takeFrame pp rest).setWord p (pdx va) w).setRef pp
    ((k.takeFrame pp rest).ppRef pp + 1) = k'
  have hp : k'.mem p = update (k.mem p) (pdx va) w := by
    rw [← hk']
    show update (update k.mem pp _) p (update (update k.mem pp _ p) (pdx va) w) p = _
    rw [update_self, update_of_ne hne]
  have hpp : ∀ j, k'.mem pp j = 0 := by
    intro j
    rw [← hk']
    show update (update k.mem pp _) p _ pp j = _
    rw [update_of_ne hne.symm, update_self]
  have hother : ∀ f, f ≠ p → f ≠ pp → k'.mem f = k.mem f := by
    intro f h₁ h₂
    rw [← hk']
    show update (update k.mem pp _) p _ f = _
    rw [update_of_ne h₁, update_of_ne h₂]
  have hold : ∀ i, i ≠ pdx va → k'.mem p i = k.mem p i := fun i hi => by rw [hp, update_of_ne hi]
  have hnew : k'.mem p (pdx va) = w := by rw [hp, update_self]
  have hrest' : k'.npage = k.npage ∧ k'.pageFreeList = rest ∧
      k'.ppRef = update k.ppRef pp (k.ppRef pp + 1) := by rw [← hk']; exact ⟨rfl, rfl, rfl⟩
  obtain ⟨hnp, hfree, href⟩ := hrest'
  -- an old table is not the frame just taken
  have htab : ∀ i, has (k.mem p i) pteV → ppn (k.mem p i) ≠ pp := fun i hi hc =>
    (h.table i hi).2.1 (hc ▸ hmem)
  refine ⟨⟨by rw [hnp]; exact h.npage_lt, by rw [← hk']; exact h.pgdirs,
    by rw [hfree]; exact hnd, ?_, ?_, ?_, ?_, ?_, ?_, by rw [← hk']; exact h.tlb⟩, hppn, hlt⟩
  · intro f hf'
    rw [hfree] at hf'
    obtain ⟨h₁, h₂, h₃⟩ := h.free f (hsub f hf')
    rw [hnp, href, update_of_ne (fun hc : f = pp => hrest (hc ▸ hf'))]
    exact ⟨h₁, h₂, h₃⟩
  · rw [hfree]
    exact fun hc => h.not_free (hsub p hc)
  · intro i hi
    rw [hnp, hfree]
    by_cases hii : i = pdx va
    · rw [hii, hnew, hppn]
      exact ⟨hlt, hrest, hne.symm⟩
    · rw [hold i hii] at hi ⊢
      obtain ⟨h₁, h₂, h₃⟩ := h.table i hi
      exact ⟨h₁, fun hc => h₂ (hsub _ hc), h₃⟩
  · intro i i' hi hi' heq
    by_cases hii : i = pdx va <;> by_cases hii' : i' = pdx va
    · rw [hii, hii']
    · rw [hii, hnew, hppn, hold i' hii'] at heq
      rw [hold i' hii'] at hi'
      exact absurd heq.symm (htab i' hi')
    · rw [hii', hnew, hppn, hold i hii] at heq
      rw [hold i hii] at hi
      exact absurd heq (htab i hi)
    · rw [hold i hii] at hi heq
      rw [hold i' hii'] at hi' heq
      exact h.inj i i' hi hi' heq
  · intro i j hj hi hv
    by_cases hii : i = pdx va
    · rw [hii, hnew, hppn, hpp] at hv
      simp at hv
    · rw [hold i hii] at hi hv
      rw [hother _ (h.table i hi).2.2 (htab i hi)] at hv
      exact h.mapped i j hj hi hv
  · intro i hi
    by_cases hii : i = pdx va
    · rw [hii, hnew]
      exact hdirty
    · rw [hold i hii] at hi ⊢
      exact h.dirty i hi

/-- `page_insert` into the template, at a page that is not mapped yet. -/
theorem Template.pageInsert (h : Template freemem p S k) (hpp : pp < freemem)
    (asid va perm : Word) (hS : ¬S (ppn va)) :
    (pageInsert p asid pp va perm k).Sat
      (fun _ k' => Template freemem p (fun n => S n ∨ n = ppn va) k')
      (fun _ k' => Template freemem p (fun n => S n ∨ n = ppn va) k') (fun _ => True) := by
  have hweak : ∀ {k : Kernel}, Template freemem p S k →
      Template freemem p (fun n => S n ∨ n = ppn va) k := fun h =>
    ⟨h.npage_lt, h.pgdirs, h.nodup, h.free, h.not_free, h.table, h.inj,
      fun i j hj hi hv => .inl (h.mapped i j hj hi hv), h.dirty, h.tlb⟩
  have hflush : ∀ k : Kernel, tlbInvalidate asid va k = .ret () (k.flush asid va) := fun _ => rfl
  have hf : Template freemem p S (k.flush asid va) :=
    ⟨h.npage_lt, h.pgdirs, h.nodup, h.free, h.not_free, h.table, h.inj, h.mapped, h.dirty,
      by simp [Kernel.flush, h.tlb]⟩
  by_cases hval : has (k.mem p (pdx va)) pteV = true
  · obtain ⟨htn, _, _⟩ := h.table (pdx va) hval
    have hwalk : ∀ (k₁ : Kernel) (create : Bool), k₁.mem = k.mem → k₁.npage = k.npage →
        pgdirWalk p va create k₁ = .ret (some (ppn (k.mem p (pdx va)), ptx va)) k₁ := by
      intro k₁ create hm hnp
      simp only [pgdirWalk, readWord_bind, hm, hval, if_true, ppn_pteAddr]
      rw [kaddr_bind (by rw [hnp]; exact htn)]
      rfl
    have hentry : has (k.mem (ppn (k.mem p (pdx va))) (ptx va)) pteV = false := by
      by_contra hc
      refine hS ?_
      rw [ppn_split]
      exact h.mapped _ _ (ptx_lt va) hval (Bool.not_eq_false _ ▸ hc)
    rw [Mos.pageInsert, bind_ret (hwalk k false rfl rfl)]
    simp only [readWord_bind, hentry, Bool.false_eq_true, if_false]
    rw [pageInsertNew, bind_ret (hflush k), bind_ret (hwalk (k.flush asid va) true rfl rfl)]
    exact hf.insert va hval rfl rfl hpp
  · rw [Bool.not_eq_true] at hval
    have hwalk : pgdirWalk p va false k = .ret none k := by
      simp only [pgdirWalk, readWord_bind, hval, Bool.false_eq_true, if_false]
      rfl
    rw [Mos.pageInsert, bind_ret hwalk]
    simp only [pageInsertNew]
    rw [bind_ret (hflush k)]
    have hval' : has ((k.flush asid va).mem p (pdx va)) pteV = false := hval
    generalize k.flush asid va = k₁ at hf hval'
    cases hl : k₁.pageFreeList with
    | nil =>
      have hwalk' : pgdirWalk p va true k₁ = .err .noMem k₁ := by
        simp only [pgdirWalk, readWord_bind, hval', Bool.false_eq_true, if_false, if_true]
        rw [bind_err (pageAlloc_nil hl)]
      rw [bind_err hwalk']
      exact hweak hf
    | cons pp' rest =>
      obtain ⟨hf₂, hppn, hlt⟩ := hf.newTable va hl
      have hwalk' : pgdirWalk p va true k₁ = .ret (some (pp', ptx va))
          (((k₁.takeFrame pp' rest).setWord p (pdx va) (page2pa pp' ||| pteV ||| pteD)).setRef pp'
            ((k₁.takeFrame pp' rest).ppRef pp' + 1)) := by
        simp only [pgdirWalk, readWord_bind, hval', Bool.false_eq_true, if_false, if_true]
        rw [bind_ret ((pageAlloc_cons hl).trans (if_pos hlt))]
        simp only [writeWord_bind, incref_bind, ppn_pteAddr, hppn]
        rw [kaddr_bind (by exact hlt)]
        rfl
      rw [bind_ret hwalk']
      have hmem : (((k₁.takeFrame pp' rest).setWord p (pdx va)
          (page2pa pp' ||| pteV ||| pteD)).setRef pp' ((k₁.takeFrame pp' rest).ppRef pp' + 1)).mem p
            (pdx va) = page2pa pp' ||| pteV ||| pteD := by
        simp [Kernel.setRef, Kernel.setWord]
      generalize ((k₁.takeFrame pp' rest).setWord p (pdx va) (page2pa pp' ||| pteV ||| pteD)).setRef
        pp' ((k₁.takeFrame pp' rest).ppRef pp' + 1) = k₂ at hf₂ hmem
      exact hf₂.insert va (by rw [hmem]; exact has_tableEntry_valid pp') (by rw [hmem]; exact hppn)
        rfl hpp

/-- `map_segment` on the pages from `va` on, none of which is mapped yet. -/
theorem Template.mapSegment {pa size : Nat} (h : Template freemem p S k) (va : Word)
    (hfit : pa + size ≤ freemem) (hlt : freemem < 2 ^ 20)
    (hva : va.toNat + 4096 * size < 2 ^ 32)
    (hS : ∀ i < size, ¬S (ppn va + i)) (asid perm : Word) :
    (mapSegment p asid pa va size perm k).Sat
      (fun _ k' => Template freemem p (fun n => S n ∨ ppn va ≤ n ∧ n < ppn va + size) k')
      (fun _ _ => False) (fun _ => True) := by
  have hstart : Template freemem p (fun n => S n ∨ ppn va ≤ n ∧ n < ppn va + 0) k := by
    refine ⟨h.npage_lt, h.pgdirs, h.nodup, h.free, h.not_free, h.table, h.inj, ?_, h.dirty, h.tlb⟩
    exact fun i j hj hi hv => .inl (h.mapped i j hj hi hv)
  rw [show ppn va + size = ppn va + (0 + size) by omega]
  refine sat_loop (I := fun i k' => Template freemem p (fun n => S n ∨ ppn va ≤ n ∧ n < ppn va + i) k')
    ?_ hstart
  · intro i k₁ _ hi hk₁
    have hppn : ppn (page2pa (pa + i)) = pa + i := ppn_page2pa (by omega)
    have hn : ppn (va + BitVec.ofNat 32 (4096 * i)) = ppn va + i := by
      rw [ppn_eq, ppn_eq, BitVec.toNat_add, BitVec.toNat_ofNat]
      omega
    rw [sat_bind, pa2page_eq, hppn]
    split
    · rw [Outcome.sat_ret, sat_bind, sat_attempt]
      have hins := hk₁.pageInsert (by omega : pa + i < freemem) asid
        (va + BitVec.ofNat 32 (4096 * i)) perm
        (by rw [hn]; exact fun hc => hc.elim (hS i (by omega)) (by omega))
      have hgrow : ∀ k₂ : Kernel,
          Template freemem p (fun n => (S n ∨ ppn va ≤ n ∧ n < ppn va + i) ∨
            n = ppn (va + BitVec.ofNat 32 (4096 * i))) k₂ →
          Template freemem p (fun n => S n ∨ ppn va ≤ n ∧ n < ppn va + (i + 1)) k₂ := by
        intro k₂ h₂
        refine ⟨h₂.npage_lt, h₂.pgdirs, h₂.nodup, h₂.free, h₂.not_free, h₂.table, h₂.inj, ?_,
          h₂.dirty, h₂.tlb⟩
        intro i' j hj hi' hv
        have := h₂.mapped i' j hj hi' hv
        rw [hn] at this
        rcases this with (hs | hr) | he
        · exact .inl hs
        · exact .inr (by omega)
        · exact .inr (by omega)
      exact hins.mono (fun _ k₂ h₂ => hgrow k₂ h₂) (fun _ k₂ h₂ => hgrow k₂ h₂) (fun _ h => h)
    · trivial

/-! ## Boot -/

/-- With no live env nothing is mapped. -/
theorem vm_inv_of_dead {k : Kernel} (hnp : k.npage < 2 ^ 20) (hnodup : k.pageFreeList.Nodup)
    (hfree : ∀ f ∈ k.pageFreeList, f < k.npage ∧ k.ppRef f = 0) (hdead : ∀ e, ¬k.Live e)
    (hpg : k.pgdirs = []) : k.vm.Inv k.pageFreeList := by
  have hdir : ∀ e, k.vm.dir e = none := fun e => dir_eq_none.mpr (hdead e)
  have htab : ∀ e i, k.vm.table e i = none := fun e i => by simp [Vm.table, hdir]
  have hslot : ∀ s, k.vm.slotRef s = none := by
    intro s
    cases s with
    | table e i => exact htab e i
    | page e n =>
      show (k.vm.leaf e n).map ppn = none
      rw [Vm.leaf_of_no_table (htab _ _)]
      rfl
  have hpg' : k.vm.pgdirs = [] := hpg
  refine ⟨hnp, fun f hf => (hfree f hf).1, hnodup, fun f hf => ⟨hf, by rw [hpg']; simp, (hfree f hf).2⟩,
    by rw [hpg']; simp, ?_, ?_, ?_, ?_, fun f hf _ => ?_⟩
  · exact fun e d hd => by simp [hdir] at hd
  · exact fun e e' d hd => by simp [hdir] at hd
  · exact fun s f hs => by simp [hslot] at hs
  · exact fun e i s t ht => by simp [hslot] at ht
  have h0 : k.vm.refs f = 0 := refCount_eq_zero.mpr fun s => by rw [hslot]; simp
  rw [h0, show k.vm.ppRef f = 0 from (hfree f hf).2]
  rfl

/-- What boot leaves behind: no env is live, all are on the free list, and none is queued. -/
structure Kernel.Booted (k : Kernel) : Prop where
  inv : k.Inv k.pageFreeList
  dead : ∀ e, ¬k.Live e
  curenv : k.curenv = none
  queue : k.envSchedList = TailQ.empty
  pgdirs : k.pgdirs = []
  tlb : k.tlb = []
  asids : k.asidBitmap = fun _ => 0
  base : k.basePgdir ∉ k.pageFreeList
  /-- The page tables of the template are writable. -/
  template : ∀ i, has (k.mem k.basePgdir i) pteV → has (k.mem k.basePgdir i) pteD
  dstva : ∀ e, (k.envs e).envIpcDstva = 0

theorem framed_mapSegment (p : Nat) (asid : Word) (pa : Nat) (va : Word) (size : Nat)
    (perm : Word) : Framed (mapSegment p asid pa va size perm) :=
  keeps_loop Kernel.Frame.refl Kernel.Frame.trans (fun _ => framed_bind (framed_pa2page _) fun _ =>
    framed_bind (keeps_attempt (framed_pageInsert _ _ _ _ _)) fun _ => framed_pure _) size 0

/-- The template directory right after `env_init` has taken its frame. -/
theorem Template.start {rest : List Nat} (hnp : k.npage < 2 ^ 20) (hpg : k.pgdirs = [])
    (hnodup : k.pageFreeList.Nodup)
    (hfree : ∀ f ∈ k.pageFreeList, freemem ≤ f ∧ f < k.npage ∧ k.ppRef f = 0)
    (hl : k.pageFreeList = p :: rest) (htlb : k.tlb = []) :
    Template freemem p (fun _ => False)
      { (k.takeFrame p rest).setRef p ((k.takeFrame p rest).ppRef p + 1) with basePgdir := p } := by
  rw [hl] at hnodup
  obtain ⟨hrest, hnd⟩ := List.nodup_cons.mp hnodup
  have hz : ∀ i, ¬has (({ (k.takeFrame p rest).setRef p ((k.takeFrame p rest).ppRef p + 1) with
      basePgdir := p } : Kernel).mem p i) pteV := by
    intro i
    show ¬has (update k.mem p (fun _ => 0) p i) pteV
    rw [update_self]
    simp
  refine ⟨hnp, hpg, hnd, fun f hf => ?_, hrest, ?_, ?_, ?_, fun i hi => (hz i hi).elim, htlb⟩
  · obtain ⟨h₁, h₂, h₃⟩ := hfree f (by rw [hl]; exact List.mem_cons_of_mem _ hf)
    refine ⟨h₁, h₂, ?_⟩
    show update k.ppRef p _ f = 0
    rw [update_of_ne (fun hc : f = p => hrest (hc ▸ hf)), h₃]
  · exact fun i hi => (hz i hi).elim
  · exact fun i i' hi => (hz i hi).elim
  · exact fun i j _ hi => (hz i hi).elim

/-- **The booted kernel** satisfies the invariant. -/
theorem boot_spec (b : Boot) :
    (boot b).Sat (fun _ k => k.Booted) (fun _ _ => False) (fun _ => True) := by
  have hnp := b.npage_lt
  have hpages := b.pages_fit
  have henvs := b.envs_fit
  rw [boot, envInit, modify_bind]
  generalize hk₀ : ({ pageInit b with
    envFreeList := List.finRange nenv
    envSchedList := { (pageInit b).envSchedList with first := none, last := .head }
    envs := fun e => { (pageInit b).envs e with envStatus := .free } } : Kernel) = k₀
  have hfl : k₀.pageFreeList = pageInitLoop b.freemem b.npage := by rw [← hk₀]; rfl
  have hk₀' : k₀.npage = b.npage ∧ k₀.pgdirs = [] ∧
      (∀ f, k₀.ppRef f = if f < b.freemem then 1 else 0) ∧ k₀.curenv = none ∧
      k₀.envFreeList = List.finRange nenv ∧ k₀.envSchedList = TailQ.empty ∧
      (∀ e, (k₀.envs e).envStatus = .free) ∧ (∀ e, (k₀.envs e).envIpcDstva = 0) ∧ k₀.tlb = [] ∧
      k₀.asidBitmap = fun _ => 0 := by
    subst hk₀
    refine ⟨rfl, rfl, fun _ => rfl, rfl, ?_, rfl, fun _ => rfl, fun _ => rfl, rfl, rfl⟩
    generalize List.finRange nenv = l
    rfl
  obtain ⟨hnp₀, hpg₀, href₀, hcur₀, hef₀, hq₀, hst₀, hdst₀, htlb₀, has₀⟩ := hk₀'
  have hfree₀ : ∀ f ∈ k₀.pageFreeList, b.freemem ≤ f ∧ f < k₀.npage ∧ k₀.ppRef f = 0 := by
    intro f hf
    rw [hfl, mem_pageInitLoop] at hf
    rw [hnp₀, href₀, if_neg (by omega)]
    exact ⟨hf.1, hf.2, rfl⟩
  have hnodup₀ : k₀.pageFreeList.Nodup := by rw [hfl]; exact nodup_pageInitLoop _ _
  cases hl : k₀.pageFreeList with
  | nil =>
    rw [sat_bind, panicOn, sat_bind, sat_attempt, pageAlloc_nil hl]
    trivial
  | cons p rest =>
    obtain ⟨hfm, hplt, _⟩ := hfree₀ p (by rw [hl]; exact List.mem_cons_self)
    have halloc : panicOn pageAlloc k₀ = .ret p (k₀.takeFrame p rest) := by
      rw [panicOn, bind_apply, attempt, pageAlloc_cons hl, if_pos hplt]
      rfl
    rw [bind_ret halloc, incref_bind, modify_bind]
    have ht₁ := Template.start (by rw [hnp₀]; exact hnp) hpg₀ hnodup₀ hfree₀ hl htlb₀
    have hf₁ : Kernel.Frame { k₀ with basePgdir := p }
        { (k₀.takeFrame p rest).setRef p ((k₀.takeFrame p rest).ppRef p + 1) with
          basePgdir := p } := ⟨_, _, _, _, _, rfl⟩
    generalize ({ (k₀.takeFrame p rest).setRef p ((k₀.takeFrame p rest).ppRef p + 1) with
      basePgdir := p } : Kernel) = k₁ at ht₁ hf₁ ⊢
    have hup : upages.toNat = 0x7f800000 := by decide
    have hue : uenvs.toNat = 0x7f400000 := by decide
    refine sat_call ((ht₁.mapSegment upages hpages (by omega) (by omega)
      (fun _ _ h => h) 0 pteG).and (framed_mapSegment _ _ _ _ _ _ k₁)) ?_ (fun _ _ h => h.1)
      (fun _ _ => trivial)
    rintro _ k₂ ⟨ht₂, hf₂⟩
    refine ((ht₂.mapSegment uenvs henvs (by omega) (by unfold nenv; omega) ?_ 0 pteG).and
      (framed_mapSegment _ _ _ _ _ _ k₂)).mono ?_ (fun _ _ h => h.1) (fun _ _ => trivial)
    · rintro i hi (hfalse | ⟨hge, _⟩)
      · exact hfalse
      · rw [ppn_eq, ppn_eq, hup, hue] at hge
        unfold nenv at hi
        omega
    · rintro _ k₃ ⟨ht₃, hf₃⟩
      have hf : Kernel.Frame { k₀ with basePgdir := p } k₃ :=
        (hf₁.trans _ _ _ hf₂).trans _ _ _ hf₃
      have hdead : ∀ e, ¬k₃.Live e := by
        intro e hl'
        unfold Kernel.Live at hl'
        rw [hf.envs] at hl'
        exact hl' (hst₀ e)
      have hbase : k₃.basePgdir = p := hf.basePgdir
      have hdst : ∀ e, (k₃.envs e).envIpcDstva = 0 := by
        intro e
        rw [hf.envs]
        exact hdst₀ e
      refine ⟨⟨?_, ?_, ?_, fun e _ => hdead e, ?_⟩, hdead, hf.curenv.trans hcur₀,
        hf.envSchedList.trans hq₀, ht₃.pgdirs, ht₃.tlb, hf.asidBitmap.trans has₀,
        by rw [hbase]; exact ht₃.not_free, by rw [hbase]; exact ht₃.dirty, hdst⟩
      · exact vm_inv_of_dead ht₃.npage_lt ht₃.nodup
          (fun f hf' => ⟨(ht₃.free f hf').2.1, (ht₃.free f hf').2.2⟩) hdead ht₃.pgdirs
      · intro c hc
        rw [hf.curenv.trans hcur₀] at hc
        cases hc
      · intro e
        rw [hdst e]
        decide
      · rw [hf.envFreeList]
        show k₀.envFreeList.Nodup
        rw [hef₀]
        exact List.nodup_finRange nenv

theorem booted_of_boot {b : Boot} {k₀ : Kernel} (h : boot b = .ret () k₀) : k₀.Booted := by
  have hb := boot_spec b
  rw [h] at hb
  exact hb

/-- A boot that leads to a state has returned. -/
theorem boot_of_state? {b : Boot} {k₀ : Kernel} (h : (boot b).state? = some k₀) :
    boot b = .ret () k₀ := by
  have hb := boot_spec b
  cases hboot : boot b with
  | halt p => rw [hboot] at h; cases h
  | err er k₁ => rw [hboot] at hb; exact hb.elim
  | ret u k₁ =>
    rw [hboot] at h
    rw [Option.some.inj h]

/-- A run from boot that can be carried out and ends as tested. -/
theorem exists_run (b : Boot) (ops : List Op) (test : Kernel → Bool)
    (h : ((boot b).state?.bind (runOps ops)).any test = true) :
    ∃ k₀ k, boot b = .ret () k₀ ∧ runOps ops k₀ = some k ∧ test k = true := by
  obtain ⟨k, hk, htest⟩ := (Option.any_eq_true _ _).mp h
  obtain ⟨k₀, ho, hk⟩ := Option.bind_eq_some_iff.mp hk
  exact ⟨k₀, k, boot_of_state? ho, hk, htest⟩

end Mos
