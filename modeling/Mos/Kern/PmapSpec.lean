import Mos.Kern.AddressSpace
import Mos.Kern.Tlbex

/-!
# What the memory functions of the kernel do

Two things are said about each function of `kern/pmap.c` and `kern/tlbex.c`. First, without any
assumption, it leaves everything but the memory alone (`Kernel.Frame`). Second, where `Vm.Inv`
holds, none of its checks fails, it keeps `Vm.Inv`, and it changes the mapping of one page at most
(`Vm.Remap`); everything that is not a page table keeps its contents.
-/

namespace Mos

open Lib Prog Function

/-! ## What is left alone -/

/-- `k'` differs from `k` in the memory, the counts, the free list and the TLB at most. -/
def Kernel.Frame (k k' : Kernel) : Prop :=
  ∃ mem ref free tlb dirs, k' = { k with
    mem := mem, ppRef := ref, pageFreeList := free, tlb := tlb, pgdirs := dirs }

namespace Kernel.Frame

theorem refl (k : Kernel) : k.Frame k := ⟨_, _, _, _, _, rfl⟩

theorem trans (k₁ k₂ k₃ : Kernel) : k₁.Frame k₂ → k₂.Frame k₃ → k₁.Frame k₃ := by
  rintro ⟨_, _, _, _, _, rfl⟩ ⟨_, _, _, _, _, rfl⟩
  exact ⟨_, _, _, _, _, rfl⟩

variable {k k' : Kernel}

theorem envs (h : k.Frame k') : k'.envs = k.envs := by
  obtain ⟨_, _, _, _, _, rfl⟩ := h; rfl

theorem envFreeList (h : k.Frame k') : k'.envFreeList = k.envFreeList := by
  obtain ⟨_, _, _, _, _, rfl⟩ := h; rfl

theorem envSchedList (h : k.Frame k') : k'.envSchedList = k.envSchedList := by
  obtain ⟨_, _, _, _, _, rfl⟩ := h; rfl

theorem curenv (h : k.Frame k') : k'.curenv = k.curenv := by
  obtain ⟨_, _, _, _, _, rfl⟩ := h; rfl

theorem curPgdir (h : k.Frame k') : k'.curPgdir = k.curPgdir := by
  obtain ⟨_, _, _, _, _, rfl⟩ := h; rfl

theorem npage (h : k.Frame k') : k'.npage = k.npage := by
  obtain ⟨_, _, _, _, _, rfl⟩ := h; rfl

theorem basePgdir (h : k.Frame k') : k'.basePgdir = k.basePgdir := by
  obtain ⟨_, _, _, _, _, rfl⟩ := h; rfl

theorem asidBitmap (h : k.Frame k') : k'.asidBitmap = k.asidBitmap := by
  obtain ⟨_, _, _, _, _, rfl⟩ := h; rfl

theorem dir (h : k.Frame k') : k'.vm.dir = k.vm.dir := by
  obtain ⟨_, _, _, _, _, rfl⟩ := h; rfl

end Kernel.Frame

section Frame

variable {α β : Type}

/-- A function that only changes the memory. -/
abbrev Framed (m : KernM α) : Prop := Keeps Kernel.Frame m

theorem framed_pure (a : α) : Framed (pure a) := keeps_pure Kernel.Frame.refl a

theorem framed_fail (e : Err) : Framed (fail e : KernM α) := keeps_fail Kernel.Frame.refl e

theorem framed_bind {m : KernM α} {f : α → KernM β} (hm : Framed m) (hf : ∀ a, Framed (f a)) :
    Framed (m >>= f) := keeps_bind Kernel.Frame.trans hm hf

theorem framed_readWord (f i : Nat) : Framed (readWord f i) := fun k => Kernel.Frame.refl k

theorem framed_writeWord (f i : Nat) (w : Word) : Framed (writeWord f i w) :=
  keeps_modify fun _ => ⟨_, _, _, _, _, rfl⟩

theorem framed_incref (pp : Nat) : Framed (incref pp) :=
  keeps_modify fun _ => ⟨_, _, _, _, _, rfl⟩

theorem kaddr_eq (f : Nat) (k : Kernel) :
    kaddr f k = if f < k.npage then .ret f k else .halt .kaddr := by
  simp only [kaddr, get_bind]
  split <;> rfl

theorem pa2page_eq (pa : Word) (k : Kernel) :
    pa2page pa k = if ppn pa < k.npage then .ret (ppn pa) k else .halt .pa2page := by
  simp only [pa2page, get_bind]
  split <;> rfl

theorem kaddr_bind {f : Nat} {k : Kernel} (h : f < k.npage) (g : Nat → KernM α) :
    (kaddr f >>= g) k = g f k := bind_ret ((kaddr_eq f k).trans (if_pos h))

theorem pa2page_bind {pa : Word} {k : Kernel} (h : ppn pa < k.npage) (g : Nat → KernM α) :
    (pa2page pa >>= g) k = g (ppn pa) k := bind_ret ((pa2page_eq pa k).trans (if_pos h))

theorem framed_kaddr (f : Nat) : Framed (kaddr f) := by
  intro k
  rw [kaddr_eq]
  split
  · exact Kernel.Frame.refl k
  · trivial

theorem framed_pa2page (pa : Word) : Framed (pa2page pa) := by
  intro k
  rw [pa2page_eq]
  split
  · exact Kernel.Frame.refl k
  · trivial

theorem framed_tlbInvalidate (asid va : Word) : Framed (tlbInvalidate asid va) :=
  keeps_modify fun _ => ⟨_, _, _, _, _, rfl⟩

@[simp] theorem readWord_bind (f i : Nat) (g : Word → KernM α) (k : Kernel) :
    (readWord f i >>= g) k = g (k.mem f i) k := rfl

@[simp] theorem writeWord_bind (f i : Nat) (w : Word) (g : Unit → KernM α) (k : Kernel) :
    (writeWord f i w >>= g) k = g () (k.setWord f i w) := rfl

@[simp] theorem incref_bind (pp : Nat) (g : Unit → KernM α) (k : Kernel) :
    (incref pp >>= g) k = g () (k.setRef pp (k.ppRef pp + 1)) := rfl

/-- The state after `page_alloc` has taken `pp` off the free list. -/
def Kernel.takeFrame (k : Kernel) (pp : Nat) (rest : List Nat) : Kernel :=
  { k with pageFreeList := rest }.setFrame pp fun _ => 0

theorem pageAlloc_nil {k : Kernel} (h : k.pageFreeList = []) : pageAlloc k = .err .noMem k := by
  simp [pageAlloc, h]

theorem pageAlloc_cons {k : Kernel} {pp : Nat} {rest : List Nat}
    (h : k.pageFreeList = pp :: rest) :
    pageAlloc k = if pp < k.npage then .ret pp (k.takeFrame pp rest) else .halt .kaddr := by
  simp only [pageAlloc, get_bind, h]
  by_cases hlt : pp < k.npage
  · rw [if_pos hlt, bind_ret (by rw [kaddr_eq, if_pos hlt])]
    rfl
  · rw [if_neg hlt, bind_halt (by rw [kaddr_eq, if_neg hlt])]

theorem framed_pageAlloc : Framed pageAlloc := by
  intro k
  cases hfree : k.pageFreeList with
  | nil =>
    rw [pageAlloc_nil hfree]
    exact Kernel.Frame.refl k
  | cons pp rest =>
    rw [pageAlloc_cons hfree]
    split
    · exact ⟨_, _, _, _, _, rfl⟩
    · trivial

theorem framed_pageFree (pp : Nat) : Framed (pageFree pp) := by
  intro k
  simp only [pageFree, get_bind, sat_bind, sat_assert]
  split
  · exact ⟨_, _, _, _, _, rfl⟩
  · trivial

theorem framed_pageDecref (pp : Nat) : Framed (pageDecref pp) := by
  intro k
  simp only [pageDecref, get_bind, sat_bind, sat_assert]
  split
  · have hput : k.Frame (k.setRef pp (k.ppRef pp - 1)) := ⟨_, _, _, _, _, rfl⟩
    simp only [put_apply, Outcome.sat_ret]
    split
    · exact (framed_pageFree pp _).mono (fun _ _ => Kernel.Frame.trans _ _ _ hput)
        (fun _ _ => Kernel.Frame.trans _ _ _ hput) (fun _ h => h)
    · exact hput
  · trivial

theorem framed_pgdirWalk (pgdir : Nat) (va : Word) (create : Bool) :
    Framed (pgdirWalk pgdir va create) := by
  refine framed_bind (framed_readWord _ _) fun pde => ?_
  split
  · exact framed_bind (framed_kaddr _) fun _ => framed_pure _
  · split
    · refine framed_bind framed_pageAlloc fun pp => ?_
      refine framed_bind (framed_writeWord _ _ _) fun _ => ?_
      refine framed_bind (framed_incref _) fun _ => ?_
      exact framed_bind (framed_kaddr _) fun _ => framed_pure _
    · exact framed_pure _

theorem framed_pageLookup (pgdir : Nat) (va : Word) : Framed (pageLookup pgdir va) := by
  refine framed_bind (framed_pgdirWalk _ _ _) fun r => ?_
  split
  · exact framed_pure _
  · refine framed_bind (framed_readWord _ _) fun pte => ?_
    split
    · exact framed_bind (framed_pa2page _) fun _ => framed_pure _
    · exact framed_pure _

theorem framed_pageRemove (pgdir : Nat) (asid va : Word) : Framed (pageRemove pgdir asid va) := by
  refine framed_bind (framed_pageLookup _ _) fun r => ?_
  split
  · exact framed_pure _
  · refine framed_bind (framed_pageDecref _) fun _ => ?_
    exact framed_bind (framed_writeWord _ _ _) fun _ => framed_tlbInvalidate _ _

theorem framed_pageInsertNew (pgdir : Nat) (asid : Word) (pp : Nat) (va perm : Word) :
    Framed (pageInsertNew pgdir asid pp va perm) := by
  refine framed_bind (framed_tlbInvalidate _ _) fun _ => ?_
  refine framed_bind (framed_pgdirWalk _ _ _) fun r => ?_
  split
  · exact framed_pure _
  · exact framed_bind (framed_writeWord _ _ _) fun _ => framed_incref _

theorem framed_pageInsert (pgdir : Nat) (asid : Word) (pp : Nat) (va perm : Word) :
    Framed (pageInsert pgdir asid pp va perm) := by
  refine framed_bind (framed_pgdirWalk _ _ _) fun r => ?_
  split
  · exact framed_pageInsertNew _ _ _ _ _
  · refine framed_bind (framed_readWord _ _) fun pte => ?_
    split
    · refine framed_bind (framed_pa2page _) fun old => ?_
      split
      · exact framed_bind (framed_pageRemove _ _ _) fun _ => framed_pageInsertNew _ _ _ _ _
      · exact framed_bind (framed_tlbInvalidate _ _) fun _ => framed_writeWord _ _ _
    · exact framed_pageInsertNew _ _ _ _ _

theorem framed_panicOn {m : KernM α} (h : Framed m) : Framed (panicOn m) := by
  refine framed_bind (keeps_attempt h) fun r => ?_
  split
  · exact framed_pure _
  · exact keeps_halt _

theorem framed_passiveAlloc (va : Word) (pgdir : Nat) (asid : Word) :
    Framed (passiveAlloc va pgdir asid) := by
  unfold passiveAlloc
  split
  · exact keeps_halt _
  · exact framed_bind (framed_panicOn framed_pageAlloc) fun _ =>
      framed_panicOn (framed_pageInsert _ _ _ _ _)

theorem framed_refillLoop (va asid : Word) : ∀ n, Framed (refillLoop va asid n)
  | 0 => keeps_halt _
  | n + 1 => by
    refine keeps_get fun k => framed_bind (framed_pageLookup _ _) fun r => ?_
    split
    · exact framed_pure _
    · exact framed_bind (framed_passiveAlloc _ _ _) fun _ => framed_refillLoop va asid n

theorem framed_doTlbRefill (va asid : Word) : Framed (doTlbRefill va asid) :=
  framed_bind (framed_refillLoop va asid 2) fun _ => framed_readWord _ _

theorem framed_tlbRefill (va asid : Word) : Framed (tlbRefill va asid) :=
  framed_bind (framed_doTlbRefill va asid) fun _ => keeps_modify fun _ => ⟨_, _, _, _, _, rfl⟩

theorem framed_loadUser (va asid : Word) : Framed (loadUser va asid) := by
  unfold loadUser
  split
  · exact keeps_halt _
  · refine framed_bind (framed_doTlbRefill va asid) fun pte => ?_
    exact framed_bind (keeps_modify fun _ => ⟨_, _, _, _, _, rfl⟩) fun _ => framed_readWord _ _

theorem framed_loadUserWords (asid : Word) : ∀ (va : Word) (n : Nat),
    Framed (loadUserWords asid va n)
  | _, 0 => framed_pure _
  | va, n + 1 => framed_bind (framed_loadUser va asid) fun _ =>
    framed_bind (framed_loadUserWords asid (va + 4) n) fun _ => framed_pure _

theorem framed_storeNull (w : Word) : Framed (storeNull w) := by
  refine keeps_get fun k => framed_bind (framed_pageLookup _ _) fun r => ?_
  split
  · exact keeps_halt _
  · refine framed_bind (framed_readWord _ _) fun pte => ?_
    split
    · exact framed_writeWord _ _ _
    · exact keeps_halt _

end Frame

/-! ## What is done -/

/-- The page table entry that `page_insert` writes. -/
def pageEntry (pp : Nat) (perm : Word) : Word := page2pa pp ||| perm ||| pteV

theorem has_pageEntry_valid (pp : Nat) (perm : Word) : has (pageEntry pp perm) pteV = true :=
  has_entry_valid pp perm

/-- No frame is referred to more often than its 16-bit count can say. -/
def Vm.Bounded (v : Vm) : Prop := ∀ f, v.refs f ≤ 65535

/-- The state after `page_decref`. -/
def Kernel.decref (k : Kernel) (pp : Nat) : Kernel :=
  if k.ppRef pp - 1 = 0 then
    { k.setRef pp (k.ppRef pp - 1) with
      pageFreeList := pp :: k.pageFreeList
      pgdirs := k.pgdirs.filter (· ≠ pp) }
  else k.setRef pp (k.ppRef pp - 1)

/-- The state after `tlb_invalidate`. -/
def Kernel.flush (k : Kernel) (asid va : Word) : Kernel :=
  { k with tlb := k.tlb.filter fun t => !t.matches (pteAddr va ||| asid <<< 6) }

section Spec

variable {M : List Nat} {k : Kernel} {e : EnvPtr} {d t pp : Nat} {va perm asid w : Word}

theorem vm_setWord (k : Kernel) (f i : Nat) (w : Word) :
    (k.setWord f i w).vm = k.vm.setWord f i w := rfl

theorem pgdirWalk_present (hpde : has (k.mem d (pdx va)) pteV = true)
    (ht : ppn (k.mem d (pdx va)) = t) (hlt : t < k.npage) (create : Bool) :
    pgdirWalk d va create k = .ret (some (t, ptx va)) k := by
  simp only [pgdirWalk, readWord_bind, hpde, if_true, ppn_pteAddr, ht]
  rw [kaddr_bind hlt]
  rfl

theorem pgdirWalk_missing (hpde : has (k.mem d (pdx va)) pteV = false) :
    pgdirWalk d va false k = .ret none k := by
  simp only [pgdirWalk, readWord_bind, hpde, Bool.false_eq_true, if_false]
  rfl

theorem pgdirWalk_table (h : k.vm.Inv M) (hd : k.vm.dir e = some d)
    (ht : k.vm.table e (pdx va) = some t) (create : Bool) :
    pgdirWalk d va create k = .ret (some (t, ptx va)) k := by
  obtain ⟨d', hd', _, hval, hppn⟩ := Vm.table_eq_some.mp ht
  obtain rfl : d' = d := Option.some.inj (hd'.symm.trans hd)
  exact pgdirWalk_present hval hppn (h.table_lt_npage ht) create

theorem mem_invalid_of_table_none (hd : k.vm.dir e = some d) (hva : pdx va < npde)
    (ht : k.vm.table e (pdx va) = none) : has (k.mem d (pdx va)) pteV = false := by
  rw [Vm.table_of_dir hd hva] at ht
  by_contra hval
  rw [if_pos (Bool.not_eq_false _ ▸ hval)] at ht
  cases ht

theorem pgdirWalk_absent (hd : k.vm.dir e = some d) (hva : pdx va < npde)
    (ht : k.vm.table e (pdx va) = none) : pgdirWalk d va false k = .ret none k :=
  pgdirWalk_missing (mem_invalid_of_table_none hd hva ht)

/-- The state after `pgdir_walk` has made the frame `pp` a page table. -/
def Kernel.newTable (k : Kernel) (d i pp : Nat) (rest : List Nat) : Kernel :=
  ((k.takeFrame pp rest).setWord d i (page2pa pp ||| pteV ||| pteD)).setRef pp (k.ppRef pp + 1)

theorem pgdirWalk_fresh (hpde : has (k.mem d (pdx va)) pteV = false) {rest : List Nat}
    (hf : k.pageFreeList = t :: rest) (hlt : t < k.npage) (hnp : k.npage < 2 ^ 20) :
    pgdirWalk d va true k = .ret (some (t, ptx va)) (k.newTable d (pdx va) t rest) := by
  have hppn : ppn (page2pa t ||| pteV ||| pteD) = t := ppn_tableEntry (lt_trans hlt hnp)
  simp only [pgdirWalk, readWord_bind, hpde, Bool.false_eq_true, if_false, if_true]
  rw [bind_ret ((pageAlloc_cons hf).trans (if_pos hlt))]
  simp only [writeWord_bind, incref_bind, ppn_pteAddr, hppn]
  rw [kaddr_bind (by exact hlt)]
  rfl

theorem pgdirWalk_create_eq (h : k.vm.Inv M) (hd : k.vm.dir e = some d) (hva : pdx va < npde)
    (ht : k.vm.table e (pdx va) = none) {rest : List Nat} (hf : k.pageFreeList = pp :: rest) :
    pgdirWalk d va true k = .ret (some (pp, ptx va)) (k.newTable d (pdx va) pp rest) := by
  have hmem : pp ∈ k.vm.free := by
    show pp ∈ k.pageFreeList
    rw [hf]
    exact List.mem_cons_self
  exact pgdirWalk_fresh (mem_invalid_of_table_none hd hva ht) hf
    (h.managed pp (h.free_spec pp hmem).1) h.npage_lt

theorem pgdirWalk_full (hpde : has (k.mem d (pdx va)) pteV = false) (hf : k.pageFreeList = []) :
    pgdirWalk d va true k = .err .noMem k := by
  simp only [pgdirWalk, readWord_bind, hpde, Bool.false_eq_true, if_false, if_true]
  rw [bind_err (pageAlloc_nil hf)]

theorem pgdirWalk_create_nil (hd : k.vm.dir e = some d) (hva : pdx va < npde)
    (ht : k.vm.table e (pdx va) = none) (hf : k.pageFreeList = []) :
    pgdirWalk d va true k = .err .noMem k :=
  pgdirWalk_full (mem_invalid_of_table_none hd hva ht) hf

/-- `pgdir_walk` with `create`, where the table is missing: a fresh frame becomes the table. -/
theorem pgdirWalk_create (h : k.vm.Inv M) (hd : k.vm.dir e = some d) (hva : pdx va < npde)
    (ht : k.vm.table e (pdx va) = none) :
    (pgdirWalk d va true k).Sat
      (fun r k' => ∃ t, r = some (t, ptx va) ∧ k'.vm.table e (pdx va) = some t ∧ k'.vm.Inv M ∧
        k.vm.Grow M k'.vm)
      (fun er k' => er = .noMem ∧ k' = k) (fun _ => False) := by
  cases hf : k.pageFreeList with
  | nil =>
    rw [pgdirWalk_create_nil hd hva ht hf]
    exact ⟨rfl, rfl⟩
  | cons pp rest =>
    rw [pgdirWalk_create_eq h hd hva ht hf]
    have hmem : pp ∈ k.vm.free := by
      show pp ∈ k.pageFreeList
      rw [hf]
      exact List.mem_cons_self
    obtain ⟨hinv₁, hgrow₁, hfresh, hslot₁⟩ := h.alloc (u := (k.takeFrame pp rest).vm) hf rfl
    have ht₁ : (k.takeFrame pp rest).vm.table e (pdx va) = none :=
      (congrFun hslot₁ (.table e ⟨pdx va, hva⟩)).trans ht
    obtain ⟨hinv₂, htab₂, hleaf₂, hkeep₂⟩ := hinv₁.linkTable
      (u := (k.newTable d (pdx va) pp rest).vm) hd hva ht₁ hfresh rfl
    refine ⟨pp, rfl, htab₂, hinv₂, hleaf₂.trans hgrow₁.leaf, hgrow₁.dir, fun f hf' => ?_⟩
    obtain ⟨hu₁, hm₁, hr₁⟩ := hgrow₁.keep f hf'
    obtain ⟨hu₂, hm₂, hr₂⟩ := hkeep₂ f (fun hc => hf'.not_free (hc ▸ hmem)) hu₁
    exact ⟨hu₂, hm₂.trans hm₁, hr₂.trans hr₁⟩

theorem table_of_leaf (hl : k.vm.leaf e (ppn va) = some w) :
    ∃ t, k.vm.table e (pdx va) = some t ∧ has (k.mem t (ptx va)) pteV = true ∧
      k.mem t (ptx va) = w := by
  obtain ⟨t, ht, hv, hw⟩ := Vm.leaf_eq_some.mp hl
  rw [ppn_div] at ht
  rw [ppn_mod] at hv hw
  exact ⟨t, ht, hv, hw⟩

theorem mem_invalid_of_leaf_none (ht : k.vm.table e (pdx va) = some t)
    (hl : k.vm.leaf e (ppn va) = none) : has (k.mem t (ptx va)) pteV = false := by
  rw [Vm.leaf_of_table (by rw [ppn_div]; exact ht), ppn_mod] at hl
  by_contra hval
  rw [if_pos (Bool.not_eq_false _ ▸ hval)] at hl
  cases hl

/-- `page_lookup` finds what is mapped. -/
theorem pageLookup_mapped (h : k.vm.Inv M) (hd : k.vm.dir e = some d)
    (hl : k.vm.leaf e (ppn va) = some w) :
    ∃ t, k.vm.table e (pdx va) = some t ∧ k.mem t (ptx va) = w ∧
      pageLookup d va k = .ret (some (ppn w, t, ptx va)) k := by
  obtain ⟨t, ht, hv, hw⟩ := table_of_leaf hl
  refine ⟨t, ht, hw, ?_⟩
  have hlt : ppn w < k.npage := h.leaf_lt_npage hl
  rw [pageLookup, bind_ret (pgdirWalk_table h hd ht false)]
  subst hw
  simp only [readWord_bind, hv, if_true]
  rw [pa2page_bind hlt]
  rfl

/-- `page_lookup` finds nothing where nothing is mapped. -/
theorem pageLookup_unmapped (h : k.vm.Inv M) (hd : k.vm.dir e = some d) (hva : pdx va < npde)
    (hl : k.vm.leaf e (ppn va) = none) : pageLookup d va k = .ret none k := by
  cases ht : k.vm.table e (pdx va) with
  | none =>
    rw [pageLookup, bind_ret (pgdirWalk_absent hd hva ht)]
    rfl
  | some t =>
    rw [pageLookup, bind_ret (pgdirWalk_table h hd ht false)]
    simp only [readWord_bind, mem_invalid_of_leaf_none ht hl, Bool.false_eq_true, if_false]
    rfl

theorem pageDecref_eq (h0 : k.ppRef pp ≠ 0) : pageDecref pp k = .ret () (k.decref pp) := by
  simp only [pageDecref, get_bind]
  rw [bind_ret (assert_pos h0), put_bind]
  by_cases h1 : k.ppRef pp - 1 = 0
  · rw [if_pos h1, pageFree, get_bind, bind_ret (assert_pos (by simpa [Kernel.setRef] using h1)),
      Kernel.decref, if_pos h1]
    rfl
  · rw [if_neg h1, Kernel.decref, if_neg h1]
    rfl

theorem vm_decref (hp : pp ∉ k.pgdirs) : (k.decref pp).vm = k.vm.dropRef pp := by
  have hfilter : k.pgdirs.filter (· ≠ pp) = k.pgdirs := by
    rw [List.filter_eq_self]
    intro p hmem
    simpa using fun hc : p = pp => hp (hc ▸ hmem)
  unfold Kernel.decref
  by_cases h1 : k.ppRef pp - 1 = 0
  · have h1' : k.vm.ppRef pp - 1 = 0 := h1
    rw [if_pos h1, hfilter, Vm.dropRef, if_pos h1']
    rfl
  · have h1' : ¬k.vm.ppRef pp - 1 = 0 := h1
    rw [if_neg h1, Vm.dropRef, if_neg h1']
    rfl

theorem tlb_decref (k : Kernel) (pp : Nat) : (k.decref pp).tlb = k.tlb := by
  unfold Kernel.decref
  split <;> rfl

/-- A frame that something refers to is counted. -/
theorem ppRef_ne_zero (h : k.vm.Inv M) {s : Slot} (hs : k.vm.slotRef s = some pp) :
    k.ppRef pp ≠ 0 := by
  intro h0
  obtain ⟨hM, hp⟩ := h.held s pp hs
  have hc := h.count pp hM hp
  have hpos := refCount_pos hs
  rw [show k.vm.ppRef pp = 0 from h0] at hc
  simp only [Vm.refs] at hc
  simp at hc
  omega

/-- **`page_remove`** where a page is mapped. -/
theorem pageRemove_mapped (h : k.vm.Inv M) (hd : k.vm.dir e = some d)
    (ht : k.vm.table e (pdx va) = some t) (hl : k.vm.leaf e (ppn va) = some w) (asid : Word) :
    ∃ k', pageRemove d asid va k = .ret () k' ∧
      k'.vm = (k.vm.setWord t (ptx va) 0).dropRef (ppn w) ∧ k'.tlb = (k.flush asid va).tlb := by
  obtain ⟨t', ht', _, hlook⟩ := pageLookup_mapped h hd hl
  obtain rfl : t' = t := Option.some.inj (ht'.symm.trans ht)
  have hslot := Vm.slotRef_page hl
  have hp : ppn w ∉ k.pgdirs := (h.held _ _ hslot).2
  refine ⟨((k.decref (ppn w)).setWord t' (ptx va) 0).flush asid va, ?_, ?_, ?_⟩
  · rw [pageRemove, bind_ret hlook]
    simp only
    rw [bind_ret (pageDecref_eq (ppRef_ne_zero h hslot)), writeWord_bind]
    rfl
  · show ((k.decref (ppn w)).vm.setWord t' (ptx va) 0) = _
    rw [vm_decref hp]
    rfl
  · show List.filter _ (k.decref (ppn w)).tlb = _
    rw [tlb_decref]
    rfl

/-- **`page_remove`** keeps the invariant and unmaps the page. -/
theorem pageRemove_spec (h : k.vm.Inv M) (hd : k.vm.dir e = some d) (hva : pdx va < npde)
    (asid : Word) :
    (pageRemove d asid va k).Sat
      (fun _ k' => k'.vm.Inv M ∧ k.vm.Remap M k'.vm e (ppn va) none ∧ k'.vm.table = k.vm.table)
      (fun _ _ => False) (fun _ => False) := by
  cases hl : k.vm.leaf e (ppn va) with
  | none =>
    rw [pageRemove, bind_ret (pageLookup_unmapped h hd hva hl)]
    refine ⟨h, ⟨fun e' n' => ?_, rfl, fun _ _ => rfl⟩, rfl⟩
    split
    next hc => rw [hc.1, hc.2]; exact hl
    next => rfl
  | some w =>
    obtain ⟨t, ht, _⟩ := table_of_leaf hl
    obtain ⟨k', heq, hvm, _⟩ := pageRemove_mapped h hd ht hl asid
    have hlt := ptx_lt va
    rw [ppn_split] at hl ⊢
    rw [heq, Outcome.sat_ret, hvm]
    refine ⟨h.unlinkPage ht hlt hl, ?_, ?_⟩
    · have := h.remap_setPte (w := 0) (u := (k.vm.setWord t (ptx va) 0).dropRef (ppn w)) ht hlt rfl rfl
      rwa [if_neg (by simp)] at this
    · rw [Vm.table_dropRef, Vm.table_setPte h ht]

/-- **`page_alloc`** hands out a frame that nothing refers to. -/
theorem pageAlloc_spec (h : k.vm.Inv M) :
    (pageAlloc k).Sat
      (fun pp k' => k'.vm.Inv M ∧ k.vm.Grow M k'.vm ∧ k'.vm.Fresh M pp ∧ pp ∈ k.vm.free)
      (fun er k' => er = .noMem ∧ k' = k) (fun _ => False) := by
  cases hf : k.pageFreeList with
  | nil =>
    rw [pageAlloc_nil hf]
    exact ⟨rfl, rfl⟩
  | cons pp rest =>
    have hmem : pp ∈ k.vm.free := by
      show pp ∈ k.pageFreeList
      rw [hf]
      exact List.mem_cons_self
    have hlt : pp < k.npage := h.managed pp (h.free_spec pp hmem).1
    obtain ⟨hinv, hgrow, hfresh, _⟩ := h.alloc (u := (k.takeFrame pp rest).vm) hf rfl
    rw [pageAlloc_cons hf, if_pos hlt]
    exact ⟨hinv, hgrow, hfresh, hmem⟩

/-- The write of `page_insert` to an empty page table entry. The count is right unless it
overflows. -/
theorem Vm.Inv.insertPage {v u : Vm} (h : v.Inv M) (ht : v.table e (pdx va) = some t)
    (hl : v.leaf e (ppn va) = none) (hu : v.Usable M pp) (hperm : perm < 4096)
    (hv : u = (v.setWord t (ptx va) (pageEntry pp perm)).addRef pp) :
    v.Remap M u e (ppn va) (some (pageEntry pp perm)) ∧
      (v.refs pp < 65535 ∨ u.Bounded → u.Inv M) := by
  have hlt := ptx_lt va
  have hval : has (pageEntry pp perm) pteV = true := has_entry_valid pp perm
  have hppn : ppn (pageEntry pp perm) = pp :=
    ppn_entry (lt_trans (h.managed pp hu.managed) h.npage_lt) hperm
  rw [ppn_split] at hl ⊢
  refine ⟨?_, fun hcap => ?_⟩
  · have := h.remap_setPte (w := pageEntry pp perm) (u := u) ht hlt (by rw [hv]; rfl)
      (by rw [hv]; rfl)
    rwa [if_pos hval] at this
  · have hcap' : v.refs pp < 65535 := by
      rcases hcap with hcap | hbound
      · exact hcap
      · have hr := h.refs_linkPage (w := pageEntry pp perm) ht hlt hl hval
        have hb := hbound pp
        rw [hppn, Vm.refs] at hr
        rw [hv, Vm.refs, Vm.slotRef_addRef] at hb
        omega
    have := h.linkPage (w := pageEntry pp perm) ht hlt hl (by rw [hppn]; exact hu) hval
      (by rw [hppn]; exact hcap')
    rwa [hppn, ← hv] at this

/-- `page_insert` where nothing is mapped and the page table is there. -/
theorem pageInsertNew_present (hpde : has (k.mem d (pdx va)) pteV = true)
    (ht : ppn (k.mem d (pdx va)) = t) (hlt : t < k.npage) (asid : Word) (pp : Nat) (perm : Word) :
    pageInsertNew d asid pp va perm k = .ret ()
      (((k.flush asid va).setWord t (ptx va) (pageEntry pp perm)).setRef pp (k.ppRef pp + 1)) := by
  have hflush : tlbInvalidate asid va k = .ret () (k.flush asid va) := rfl
  rw [pageInsertNew, bind_ret hflush,
    bind_ret (pgdirWalk_present (k := k.flush asid va) hpde ht hlt true)]
  rfl

/-- `page_insert` where the page table is missing: the first free frame becomes one. -/
theorem pageInsertNew_fresh (hpde : has (k.mem d (pdx va)) pteV = false) {rest : List Nat}
    (hf : k.pageFreeList = t :: rest) (hlt : t < k.npage) (hnp : k.npage < 2 ^ 20) (asid : Word)
    (pp : Nat) (perm : Word) :
    pageInsertNew d asid pp va perm k = .ret ()
      ((((k.flush asid va).newTable d (pdx va) t rest).setWord t (ptx va)
        (pageEntry pp perm)).setRef pp
          (((k.flush asid va).newTable d (pdx va) t rest).ppRef pp + 1)) := by
  have hflush : tlbInvalidate asid va k = .ret () (k.flush asid va) := rfl
  rw [pageInsertNew, bind_ret hflush,
    bind_ret (pgdirWalk_fresh (k := k.flush asid va) hpde hf hlt hnp)]
  rfl

/-- `page_insert` where there is no frame for the page table. -/
theorem pageInsertNew_full (hpde : has (k.mem d (pdx va)) pteV = false)
    (hf : k.pageFreeList = []) (asid : Word) (pp : Nat) (perm : Word) :
    pageInsertNew d asid pp va perm k = .err .noMem (k.flush asid va) := by
  have hflush : tlbInvalidate asid va k = .ret () (k.flush asid va) := rfl
  rw [pageInsertNew, bind_ret hflush, bind_err (pgdirWalk_full (k := k.flush asid va) hpde hf)]

theorem pageInsertNew_table (h : k.vm.Inv M) (hd : k.vm.dir e = some d)
    (ht : k.vm.table e (pdx va) = some t) (asid : Word) (pp : Nat) (perm : Word) :
    ∃ k', pageInsertNew d asid pp va perm k = .ret () k' ∧
      k'.vm = (k.vm.setWord t (ptx va) (pageEntry pp perm)).addRef pp ∧
      k'.tlb = (k.flush asid va).tlb := by
  obtain ⟨d', hd', _, hval, hppn⟩ := Vm.table_eq_some.mp ht
  obtain rfl : d' = d := Option.some.inj (hd'.symm.trans hd)
  exact ⟨_, pageInsertNew_present hval hppn (h.table_lt_npage ht) asid pp perm, rfl, rfl⟩

/-- `page_insert` where nothing is mapped. -/
theorem pageInsertNew_spec (h : k.vm.Inv M) (hd : k.vm.dir e = some d) (hva : pdx va < npde)
    (hl : k.vm.leaf e (ppn va) = none) (hu : k.vm.Usable M pp) (hperm : perm < 4096)
    (asid : Word) :
    (pageInsertNew d asid pp va perm k).Sat
      (fun _ k' => k.vm.Remap M k'.vm e (ppn va) (some (pageEntry pp perm)) ∧
        (k.vm.refs pp < 65535 ∨ k'.vm.Bounded → k'.vm.Inv M))
      (fun er k' => er = .noMem ∧ k'.vm = k.vm) (fun _ => False) := by
  cases ht : k.vm.table e (pdx va) with
  | some t =>
    obtain ⟨k', heq, hvm, _⟩ := pageInsertNew_table h hd ht asid pp perm
    rw [heq]
    exact h.insertPage ht hl hu hperm hvm
  | none =>
    have hflush : tlbInvalidate asid va k = .ret () (k.flush asid va) := rfl
    rw [pageInsertNew, bind_ret hflush]
    refine sat_call (pgdirWalk_create (k := k.flush asid va) h hd hva ht) ?_ ?_ (fun _ h => h)
    · rintro r k₁ ⟨t, rfl, ht₁, hinv₁, hgrow⟩
      have hvm : (k.flush asid va).vm = k.vm := rfl
      rw [hvm] at hgrow
      obtain ⟨hu₁, _, hr₁⟩ := hgrow.keep pp hu
      have hl₁ : k₁.vm.leaf e (ppn va) = none := by rw [hgrow.leaf]; exact hl
      obtain ⟨hmap, hinv⟩ := hinv₁.insertPage (u := ((k₁.setWord t (ptx va) (pageEntry pp perm)).setRef
        pp (k₁.ppRef pp + 1)).vm) ht₁ hl₁ hu₁ hperm rfl
      refine ⟨⟨fun e' n' => ?_, hmap.dir.trans hgrow.dir, fun f hf => ?_⟩, ?_⟩
      · rw [← hgrow.leaf]
        exact hmap.leaf e' n'
      · obtain ⟨huf, hmf, _⟩ := hgrow.keep f hf
        exact (hmap.data f huf).trans hmf
      · rw [hr₁] at hinv
        exact hinv
    · rintro er k' ⟨her, rfl⟩
      exact ⟨her, rfl⟩

/-- `page_insert` of the frame that is there already changes the permissions only. -/
theorem pageInsert_same (h : k.vm.Inv M) (hd : k.vm.dir e = some d)
    (hl : k.vm.leaf e (ppn va) = some w) (hpp : ppn w = pp) (hperm : perm < 4096) (asid : Word) :
    (pageInsert d asid pp va perm k).Sat
      (fun _ k' => k.vm.Remap M k'.vm e (ppn va) (some (pageEntry pp perm)) ∧ k'.vm.Inv M)
      (fun _ _ => False) (fun _ => False) := by
  obtain ⟨t, ht, hval, rfl⟩ := table_of_leaf hl
  have hlt := ptx_lt va
  rw [pageInsert, bind_ret (pgdirWalk_table h hd ht false)]
  simp only [readWord_bind, hval, if_true]
  rw [pa2page_bind (h.leaf_lt_npage hl), if_neg (not_not.mpr hpp)]
  have hppn : ppn (pageEntry pp perm) = pp :=
    ppn_entry (hpp ▸ lt_trans (h.leaf_lt_npage hl) h.npage_lt) hperm
  have hval' : has (pageEntry pp perm) pteV = true := has_entry_valid pp perm
  rw [ppn_split] at hl ⊢
  refine ⟨?_, h.relink ht hlt hl hval' (hppn.trans hpp.symm)⟩
  have := h.remap_setPte (w := pageEntry pp perm) (u := k.vm.setWord t (ptx va) (pageEntry pp perm)) ht
    hlt rfl rfl
  rwa [if_pos hval'] at this

/-- **`page_insert`** maps `pp` at `va`, whatever was mapped there, or runs out of memory and
changes nothing. It keeps the invariant as long as the count of `pp` does not overflow. -/
theorem pageInsert_spec (h : k.vm.Inv M) (hd : k.vm.dir e = some d) (hva : pdx va < npde)
    (hu : k.vm.Usable M pp) (hperm : perm < 4096) (asid : Word) :
    (pageInsert d asid pp va perm k).Sat
      (fun _ k' => k.vm.Remap M k'.vm e (ppn va) (some (pageEntry pp perm)) ∧
        (k.vm.refs pp < 65535 ∨ k'.vm.Bounded → k'.vm.Inv M))
      (fun er k' => er = .noMem ∧ k'.vm = k.vm) (fun _ => False) := by
  by_cases hsame : ∃ w, k.vm.leaf e (ppn va) = some w ∧ ppn w = pp
  · obtain ⟨w, hl, hpp⟩ := hsame
    exact (pageInsert_same h hd hl hpp hperm asid).mono (fun _ _ hq => ⟨hq.1, fun _ => hq.2⟩)
      (fun _ _ hq => hq.elim) (fun _ hq => hq)
  have hnew := fun hl => pageInsertNew_spec h hd hva hl hu hperm asid
  have hlt := ptx_lt va
  cases ht : k.vm.table e (pdx va) with
  | none =>
    rw [pageInsert, bind_ret (pgdirWalk_absent hd hva ht)]
    exact hnew (Vm.leaf_of_no_table (by rw [ppn_div]; exact ht))
  | some t =>
    rw [pageInsert, bind_ret (pgdirWalk_table h hd ht false)]
    simp only [readWord_bind]
    cases hl : k.vm.leaf e (ppn va) with
    | none =>
      simp only [mem_invalid_of_leaf_none ht hl, Bool.false_eq_true, if_false]
      exact hnew hl
    | some w =>
      obtain ⟨t', ht', hval, rfl⟩ := table_of_leaf hl
      obtain rfl : t' = t := Option.some.inj (ht'.symm.trans ht)
      have hold : ppn (k.mem t' (ptx va)) ≠ pp := fun hc => hsame ⟨_, hl, hc⟩
      simp only [hval, if_true]
      rw [pa2page_bind (h.leaf_lt_npage hl), if_pos hold]
      obtain ⟨k₁, heq₁, hvm₁, _⟩ := pageRemove_mapped h hd ht hl asid
      rw [bind_ret heq₁]
      have hl' := hl
      rw [ppn_split] at hl'
      have hinv₁ : k₁.vm.Inv M := by rw [hvm₁]; exact h.unlinkPage ht hlt hl'
      obtain ⟨ht₁, hl₁, hkeep⟩ := h.after_unlinkPage ht hlt hl' hvm₁
      obtain ⟨hu₁, hr₁⟩ := hkeep pp (fun hc => hold hc.symm) hu
      rw [← ppn_split] at hl₁
      have hd₁ : k₁.vm.dir e = some d := by rw [hvm₁]; exact hd
      obtain ⟨k₂, heq₂, hvm₂, _⟩ := pageInsertNew_table hinv₁ hd₁ (by rw [ht₁]; exact ht) asid pp perm
      obtain ⟨_, hinv₂⟩ := hinv₁.insertPage (by rw [ht₁]; exact ht) hl₁ hu₁ hperm hvm₂
      rw [heq₂, Outcome.sat_ret, ← hr₁]
      refine ⟨?_, hinv₂⟩
      have hval' : has (pageEntry pp perm) pteV = true := has_entry_valid pp perm
      have := h.remap_setPte (w := pageEntry pp perm) (u := k₂.vm) ht hlt
        (by rw [hvm₂, hvm₁]; simp [Vm.addRef, Vm.dropRef, Vm.setWord]) (by rw [hvm₂, hvm₁]; rfl)
      rwa [if_pos hval', ← ppn_split] at this

theorem sat_panicOn {α : Type} {m : KernM α} {Q : α → Kernel → Prop} {E : Err → Kernel → Prop}
    {H : Panic → Prop} (h : (m k).Sat Q E H) :
    (panicOn m k).Sat Q (fun _ _ => False) (fun _ => True) := by
  rw [panicOn, sat_bind, sat_attempt]
  exact h.mono (fun _ _ hq => hq) (fun _ _ _ => trivial) (fun _ _ => trivial)

/-- `passive_alloc` maps a fresh page, cleared and writable. -/
theorem passiveAlloc_spec (h : k.vm.Inv M) (hd : k.vm.dir e = some d) (hva : va < utop)
    (asid : Word) :
    (passiveAlloc va d asid k).Sat
      (fun _ k' => k'.vm.Inv M ∧ ∃ pp ∈ k.vm.free, (∀ i, k'.mem pp i = 0) ∧
        k.vm.Remap M k'.vm e (ppn va) (some (pageEntry pp pteD)))
      (fun _ _ => False) (fun _ => True) := by
  unfold passiveAlloc
  cases passiveCheck va with
  | some p => trivial
  | none =>
    refine sat_call (sat_panicOn (pageAlloc_spec h)) ?_ (fun _ _ h => h) (fun _ _ => trivial)
    rintro pp k₁ ⟨hinv₁, hgrow₁, hfresh, hmem⟩
    have hd₁ : k₁.vm.dir e = some d := by rw [hgrow₁.dir]; exact hd
    have hva₁ : pdx (pteAddr va) < npde := by rw [pdx_pteAddr]; exact pdx_lt_of_lt_utop hva
    refine (sat_panicOn (pageInsert_spec hinv₁ hd₁ hva₁ hfresh.usable (by decide) asid)).mono ?_
      (fun _ _ h => h) (fun _ _ => trivial)
    rintro _ k₂ ⟨hmap, hinv₂⟩
    refine ⟨hinv₂ (Or.inl (by rw [hfresh.refs]; decide)), pp, hmem, fun i => ?_, ?_⟩
    · have := congrFun (hmap.data pp hfresh.usable) i
      exact this.trans (hfresh.zero i)
    · rw [ppn_pteAddr] at hmap
      exact ⟨by rw [← hgrow₁.leaf]; exact hmap.leaf, hmap.dir.trans hgrow₁.dir,
        fun f hf => (hmap.data f (hgrow₁.keep f hf).1).trans (hgrow₁.keep f hf).2.1⟩

/-- **`_do_tlb_refill`** returns the entry of the page, after mapping a fresh one where there was
none. -/
theorem doTlbRefill_spec (h : k.vm.Inv M) (hd : k.vm.dir e = some k.curPgdir) (hva : va < utop)
    (asid : Word) :
    (doTlbRefill va asid k).Sat
      (fun pte k' => k'.vm.Inv M ∧ k'.vm.leaf e (ppn va) = some pte ∧
        (k' = k ∨ k.vm.leaf e (ppn va) = none ∧ ∃ pp ∈ k.vm.free, (∀ i, k'.mem pp i = 0) ∧
          k.vm.Remap M k'.vm e (ppn va) (some (pageEntry pp pteD))))
      (fun _ _ => False) (fun _ => True) := by
  have hpdx := pdx_lt_of_lt_utop hva
  have hfound : ∀ {k₁ : Kernel} {n : Nat} {w : Word}, k₁.vm.Inv M →
      k₁.vm.dir e = some k₁.curPgdir → k₁.vm.leaf e (ppn va) = some w →
      ∃ t, k₁.mem t (ptx va) = w ∧ refillLoop va asid (n + 1) k₁ = .ret (t, ptx va) k₁ := by
    intro k₁ n w hinv₁ hd₁ hl₁
    obtain ⟨t, _, hw, hlook⟩ := pageLookup_mapped hinv₁ hd₁ hl₁
    refine ⟨t, hw, ?_⟩
    rw [refillLoop, get_bind, bind_ret hlook]
    rfl
  unfold doTlbRefill
  cases hl : k.vm.leaf e (ppn va) with
  | some w =>
    obtain ⟨t, hw, heq⟩ := hfound (n := 1) h hd hl
    rw [bind_ret heq]
    exact ⟨h, by rw [hl, hw], Or.inl rfl⟩
  | none =>
    rw [sat_bind, refillLoop, get_bind, bind_ret (pageLookup_unmapped h hd hpdx hl)]
    have hpost := (passiveAlloc_spec h hd hva asid).and (framed_passiveAlloc va k.curPgdir asid k)
    refine sat_call hpost ?_ (fun _ _ h => h.1.elim) (fun _ _ => trivial)
    rintro _ k₁ ⟨⟨hinv₁, pp, hpp, hzero, hmap⟩, hframe⟩
    have hl₁ : k₁.vm.leaf e (ppn va) = some (pageEntry pp pteD) := by
      rw [hmap.leaf, if_pos ⟨rfl, rfl⟩]
    obtain ⟨t, hw, heq⟩ := hfound (n := 0) hinv₁ (by rw [hframe.dir, hframe.curPgdir]; exact hd) hl₁
    rw [heq]
    exact ⟨hinv₁, by rw [hl₁, hw], Or.inr ⟨rfl, pp, hpp, hzero, hmap⟩⟩

theorem tlbRefill_spec (h : k.vm.Inv M) (hd : k.vm.dir e = some k.curPgdir) (hva : va < utop)
    (asid : Word) :
    (tlbRefill va asid k).Sat (fun _ k' => k'.vm.Inv M) (fun _ _ => False) (fun _ => True) := by
  refine sat_call (doTlbRefill_spec h hd hva asid) ?_ (fun _ _ h => h) (fun _ h => h)
  rintro pte k₁ ⟨hinv₁, _⟩
  exact hinv₁

theorem loadUser_spec (h : k.vm.Inv M) (hd : k.vm.dir e = some k.curPgdir) (hva : va < utop)
    (asid : Word) :
    (loadUser va asid k).Sat (fun _ k' => k'.vm.Inv M) (fun _ _ => False) (fun _ => True) := by
  unfold loadUser
  split
  · trivial
  · refine sat_call (doTlbRefill_spec h hd hva asid) ?_ (fun _ _ h => h) (fun _ h => h)
    rintro pte k₁ ⟨hinv₁, _⟩
    exact hinv₁

/-- The kernel reads from user memory, page by page. -/
theorem loadUserWords_spec (asid : Word) : ∀ {n : Nat} {k : Kernel} {va : Word}, k.vm.Inv M →
    k.vm.dir e = some k.curPgdir → va.toNat + 4 * n ≤ utop.toNat →
    (loadUserWords asid va n k).Sat (fun ws k' => k'.vm.Inv M ∧ ws.length = n) (fun _ _ => False)
      (fun _ => True)
  | 0, _, _, h, _, _ => ⟨h, rfl⟩
  | n + 1, k, va, h, hd, hva => by
    have hlt : va < utop := show va.toNat < utop.toNat by omega
    refine sat_call ((loadUser_spec h hd hlt asid).and (framed_loadUser va asid k)) ?_
      (fun _ _ h => h.1) (fun _ _ => trivial)
    rintro w k₁ ⟨hinv₁, hf₁⟩
    have hd₁ : k₁.vm.dir e = some k₁.curPgdir := by
      rw [hf₁.dir, hf₁.curPgdir]
      exact hd
    have hnext : (va + 4).toNat = va.toNat + 4 := by
      have := toNat_utop
      rw [BitVec.toNat_add, show (4 : Word).toNat = 4 from rfl]
      omega
    refine sat_call (loadUserWords_spec asid hinv₁ hd₁ (by rw [hnext]; omega)) ?_ (fun _ _ h => h)
      (fun _ h => h)
    rintro ws k₂ ⟨hinv₂, hlen⟩
    exact ⟨hinv₂, by simp [hlen]⟩

/-- Writing a mapped frame changes no mapping. -/
theorem inv_setWord_usable (h : k.vm.Inv M) {f : Nat} (hu : k.vm.Usable M f) (i : Nat) (w : Word) :
    (k.setWord f i w).vm.Inv M ∧ (k.setWord f i w).vm.leaf = k.vm.leaf := by
  obtain ⟨htab, hleaf⟩ := Vm.view_setFrame (v := k.vm) (f := f) (fun _ => h.ne_dir hu) hu.not_table
    (update (k.mem f) i w)
  exact ⟨h.congr rfl rfl rfl rfl rfl (Vm.slotRef_congr htab hleaf), hleaf⟩

/-- A store through a null pointer hits a mapped page, or nothing is mapped and it panics. -/
theorem storeNull_spec (h : k.vm.Inv M)
    (hcur : (∃ e, k.vm.dir e = some k.curPgdir) ∨ has (k.mem k.curPgdir 0) pteV = false) (w : Word) :
    (storeNull w k).Sat (fun _ k' => k'.vm.Inv M) (fun _ _ => False) (fun _ => True) := by
  have hp0 : pdx 0 = 0 := by decide
  have hnone : pageLookup k.curPgdir 0 k = .ret none k → (storeNull w k).Sat
      (fun _ k' => k'.vm.Inv M) (fun _ _ => False) (fun _ => True) := by
    intro hlook
    rw [storeNull, get_bind, bind_ret hlook]
    trivial
  rcases hcur with ⟨e, hd⟩ | hinvalid
  · cases hl : k.vm.leaf e (ppn 0) with
    | none => exact hnone (pageLookup_unmapped h hd (by rw [hp0]; decide) hl)
    | some pte =>
      obtain ⟨t, _, hw, hlook⟩ := pageLookup_mapped h hd hl
      rw [storeNull, get_bind, bind_ret hlook]
      simp only [readWord_bind]
      split
      · exact (inv_setWord_usable h (h.usable_of_leaf hl) 0 w).1
      · trivial
  · refine hnone ?_
    have hwalk : pgdirWalk k.curPgdir 0 false k = .ret none k := by
      simp only [pgdirWalk, readWord_bind, hp0, hinvalid, Bool.false_eq_true, if_false]
      rfl
    rw [pageLookup, bind_ret hwalk]
    rfl

end Spec

end Mos
