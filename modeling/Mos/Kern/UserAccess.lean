import Mos.Kern.DoSyscall
import Mos.Kern.Reach

/-!
# Accesses of the kernel to user memory

An access to a page that is mapped goes through; a page that is not is mapped on demand, unless its
address is in a zone that `passive_alloc` refuses, and then the kernel panics. The lemmas say both
sides at once: what is known when an access comes back, and what is known when it does not
(`Accesses`). A page costs at most two frames, so a range of pages can be read or written as long as
there are two frames for each of its pages (`sweep`).
-/

namespace Mos

open Lib Prog Function

variable {M : List Nat} {k k' : Kernel} {c e : EnvPtr} {α : Type} {va asid : Word}

/-! ## What can be read and written -/

/-- `page_lookup` finds a page in the current address space. -/
def Kernel.found (k : Kernel) (va : Word) : Bool :=
  match pageLookup k.curPgdir va k with
  | .ret (some _) _ => true
  | _ => false

/-- A load from `va` finds a page, or gets one. -/
def Kernel.Readable (k : Kernel) (va : Word) : Prop := k.found va = true ∨ passiveCheck va = none

/-- A store to `va` below `UTOP` finds a page with `PTE_D`, or gets one. -/
def Kernel.Writable (k : Kernel) (c : EnvPtr) (va : Word) : Prop :=
  (∃ pte, k.vm.leaf c (ppn va) = some pte ∧ has pte pteD = true) ∨
    k.vm.leaf c (ppn va) = none ∧ passiveCheck va = none

theorem found_eq (k : Kernel) (va : Word) : k.found va =
    (has (k.mem k.curPgdir (pdx va)) pteV && decide (ppn (k.mem k.curPgdir (pdx va)) < k.npage) &&
      has (k.mem (ppn (k.mem k.curPgdir (pdx va))) (ptx va)) pteV &&
      decide (ppn (k.mem (ppn (k.mem k.curPgdir (pdx va))) (ptx va)) < k.npage)) := by
  unfold Kernel.found pageLookup pgdirWalk
  by_cases h₁ : has (k.mem k.curPgdir (pdx va)) pteV = true
  · by_cases h₂ : ppn (k.mem k.curPgdir (pdx va)) < k.npage
    · by_cases h₃ : has (k.mem (ppn (k.mem k.curPgdir (pdx va))) (ptx va)) pteV = true
      · by_cases h₄ : ppn (k.mem (ppn (k.mem k.curPgdir (pdx va))) (ptx va)) < k.npage
        · simp [bind_apply, readWord, kaddr_eq, pa2page_eq, h₁, h₂, h₃, h₄]
        · simp [bind_apply, readWord, kaddr_eq, pa2page_eq, h₁, h₂, h₃, h₄]
      · simp [bind_apply, readWord, kaddr_eq, h₁, h₂, h₃]
    · simp [bind_apply, readWord, kaddr_eq, h₁, h₂]
  · simp [bind_apply, readWord, h₁]

theorem found_iff (h : k.vm.Inv M) (hd : k.vm.dir c = some k.curPgdir) (hva : va < utop) :
    k.found va = true ↔ k.vm.leaf c (ppn va) ≠ none := by
  unfold Kernel.found
  cases hl : k.vm.leaf c (ppn va) with
  | none =>
    rw [pageLookup_unmapped h hd (pdx_lt_of_lt_utop hva) hl]
    simp
  | some w =>
    obtain ⟨t, -, -, heq⟩ := pageLookup_mapped h hd hl
    rw [heq]
    simp

/-- The zones of `passive_alloc` consist of whole pages. -/
theorem passiveCheck_page {va va' : Word} (hpage : ppn va = ppn va') :
    passiveCheck va = none ↔ passiveCheck va' = none := by
  have hnone : ∀ va : Word, passiveCheck va = none ↔ ¬va < utemp ∧
      ¬(ustacktop ≤ va ∧ va < ustacktop + by2pg) ∧ ¬(uenvs ≤ va ∧ va < upages) ∧
      ¬(upages ≤ va ∧ va < uvpt) ∧ ¬ulim ≤ va := by
    intro va
    unfold passiveCheck
    constructor
    · intro h
      split at h
      · cases h
      · split at h
        · cases h
        · split at h
          · cases h
          · split at h
            · cases h
            · split at h
              · cases h
              · exact ⟨‹_›, ‹_›, ‹_›, ‹_›, ‹_›⟩
    · rintro ⟨h₁, h₂, h₃, h₄, h₅⟩
      rw [if_neg h₁, if_neg h₂, if_neg h₃, if_neg h₄, if_neg h₅]
  have hlt : ∀ w : Word, w.toNat % 4096 = 0 → ((va < w ↔ va' < w) ∧ (w ≤ va ↔ w ≤ va')) := by
    intro w hw
    rw [ppn_eq, ppn_eq] at hpage
    constructor
    · show va.toNat < w.toNat ↔ va'.toNat < w.toNat
      omega
    · show w.toNat ≤ va.toNat ↔ w.toNat ≤ va'.toNat
      omega
  rw [hnone, hnone, (hlt utemp (by decide)).1, (hlt ustacktop (by decide)).2,
    (hlt (ustacktop + by2pg) (by decide)).1, (hlt uenvs (by decide)).2,
    (hlt upages (by decide)).1, (hlt upages (by decide)).2, (hlt uvpt (by decide)).1,
    (hlt ulim (by decide)).2]

/-! ## Room -/

theorem pageInsert_eq_new (h : k.vm.Inv M) {d : Nat} (hd : k.vm.dir e = some d)
    (hva : pdx va < npde) (hl : k.vm.leaf e (ppn va) = none) (asid : Word) (pp : Nat)
    (perm : Word) : pageInsert d asid pp va perm k = pageInsertNew d asid pp va perm k := by
  cases ht : k.vm.table e (pdx va) with
  | none => rw [pageInsert, bind_ret (pgdirWalk_absent hd hva ht)]
  | some t =>
    rw [pageInsert, bind_ret (pgdirWalk_table h hd ht false)]
    simp only [readWord_bind, mem_invalid_of_leaf_none ht hl, Bool.false_eq_true, if_false]

/-- Mapping a page takes at most one frame, for the page table. -/
theorem pageInsertNew_room (h : k.vm.Inv M) {d : Nat} (hd : k.vm.dir e = some d)
    (hva : pdx va < npde) (asid : Word) (pp : Nat) (perm : Word) :
    (pageInsertNew d asid pp va perm k).Sat
      (fun _ k' => k.pageFreeList.length ≤ k'.pageFreeList.length + 1)
      (fun _ _ => k.pageFreeList = []) (fun _ => False) := by
  cases ht : k.vm.table e (pdx va) with
  | some t =>
    obtain ⟨k', heq, hvm, -⟩ := pageInsertNew_table h hd ht asid pp perm
    rw [heq, Outcome.sat_ret]
    have hfree : k'.vm.free = k.vm.free := by rw [hvm]; rfl
    show k.vm.free.length ≤ k'.vm.free.length + 1
    rw [hfree]
    omega
  | none =>
    have hflush : tlbInvalidate asid va k = .ret () (k.flush asid va) := rfl
    rw [pageInsertNew, bind_ret hflush]
    cases hf : k.pageFreeList with
    | nil =>
      rw [bind_err (pgdirWalk_create_nil (k := k.flush asid va) hd hva ht hf)]
      exact rfl
    | cons p rest =>
      rw [bind_ret (pgdirWalk_create_eq (k := k.flush asid va) h hd hva ht hf)]
      exact le_refl _

theorem sat_panicOn_of {m : KernM α} {Q : α → Kernel → Prop} {X : Prop}
    (h : (m k).Sat Q (fun _ _ => X) (fun _ => X)) :
    (panicOn m k).Sat Q (fun _ _ => False) (fun _ => X) := by
  rw [panicOn, sat_bind, sat_attempt]
  exact h.mono (fun _ _ hq => hq) (fun _ _ hx => hx) (fun _ hx => hx)

/-- `passive_alloc` refuses an address, or takes at most two frames; it fails if there are none. -/
theorem passiveAlloc_room (h : k.vm.Inv M) {d : Nat} (hd : k.vm.dir e = some d) (hva : va < utop)
    (hl : k.vm.leaf e (ppn va) = none) (asid : Word) :
    (passiveAlloc va d asid k).Sat
      (fun _ k' => passiveCheck va = none ∧ k.pageFreeList.length ≤ k'.pageFreeList.length + 2)
      (fun _ _ => False) (fun _ => passiveCheck va = none → k.pageFreeList.length < 2) := by
  unfold passiveAlloc
  cases hp : passiveCheck va with
  | some p => exact nofun
  | none =>
    have halloc : (pageAlloc k).Sat
        (fun _ k' => k'.vm.Inv M ∧ k.vm.Grow M k'.vm ∧
          k.pageFreeList.length = k'.pageFreeList.length + 1)
        (fun _ _ => passiveCheck va = none → k.pageFreeList.length < 2)
        (fun _ => passiveCheck va = none → k.pageFreeList.length < 2) := by
      cases hf : k.pageFreeList with
      | nil =>
        rw [pageAlloc_nil hf]
        exact fun _ => by simp
      | cons p rest =>
        have hmem : p ∈ k.vm.free := by
          show p ∈ k.pageFreeList
          rw [hf]
          exact List.mem_cons_self
        have hlt : p < k.npage := h.managed p (h.free_spec p hmem).1
        obtain ⟨hinv, hgrow, -⟩ := h.alloc (u := (k.takeFrame p rest).vm) hf rfl
        rw [pageAlloc_cons hf, if_pos hlt]
        exact ⟨hinv, hgrow, rfl⟩
    rw [hp] at halloc
    refine sat_call (sat_panicOn_of halloc) ?_ (fun _ _ h => h) (fun _ h => h)
    rintro pp k₁ ⟨hinv₁, hgrow₁, hlen₁⟩
    have hd₁ : k₁.vm.dir e = some d := by rw [hgrow₁.dir]; exact hd
    have hva₁ : pdx (pteAddr va) < npde := by rw [pdx_pteAddr]; exact pdx_lt_of_lt_utop hva
    have hl₁ : k₁.vm.leaf e (ppn (pteAddr va)) = none := by
      rw [ppn_pteAddr, hgrow₁.leaf]
      exact hl
    refine sat_panicOn_of ?_
    rw [pageInsert_eq_new hinv₁ hd₁ hva₁ hl₁]
    refine (pageInsertNew_room hinv₁ hd₁ hva₁ asid pp pteD).mono ?_ ?_ (fun _ h => h.elim)
    · intro _ k₂ hlen₂
      exact ⟨rfl, by omega⟩
    · intro _ _ hnil _
      rw [hnil] at hlen₁
      simp only [List.length_nil] at hlen₁
      omega

/-! ## One access -/

/-- What accesses of the kernel may have done to the address space of the current env `c`: pages have
been mapped on demand, where that is allowed, and at most `m` frames were used. -/
structure Kernel.Grown (M : List Nat) (c : EnvPtr) (m : Nat) (k k' : Kernel) : Prop where
  vm : k'.vm.Inv M
  frame : k.Frame k'
  keep : ∀ n w, k.vm.leaf c n = some w → k'.vm.leaf c n = some w
  fresh : ∀ n w, k.vm.leaf c n = none → k'.vm.leaf c n = some w → has w pteD = true
  refused : ∀ va, passiveCheck va ≠ none → k'.vm.leaf c (ppn va) = k.vm.leaf c (ppn va)
  room : k.pageFreeList.length ≤ k'.pageFreeList.length + m

namespace Kernel.Grown

theorem refl (h : k.vm.Inv M) : k.Grown M c 0 k :=
  ⟨h, Kernel.Frame.refl k, fun _ _ h => h, fun _ _ hn hw => (nomatch hn.symm.trans hw),
    fun _ _ => rfl, le_refl _⟩

theorem trans {m m' : Nat} {k₁ : Kernel} (h : k.Grown M c m k₁) (h' : k₁.Grown M c m' k') :
    k.Grown M c (m + m') k' := by
  refine ⟨h'.vm, h.frame.trans _ _ _ h'.frame, fun n w hl => h'.keep n w (h.keep n w hl),
    fun n w hn hw => ?_, fun va hp => (h'.refused va hp).trans (h.refused va hp), ?_⟩
  · cases hl : k₁.vm.leaf c n with
    | none => exact h'.fresh n w hl hw
    | some w' =>
      have heq := h'.keep n w' hl
      rw [hw] at heq
      obtain rfl := Option.some.inj heq
      exact h.fresh n _ hn hl
  · have h₁ := h.room
    have h₂ := h'.room
    omega

theorem inv {m : Nat} (h : k.Grown M c m k') (hk : k.Inv M) : k'.Inv M := hk.frame h.frame h.vm

theorem readable {m : Nat} (h : k.Grown M c m k') (hk : k.Inv M) (hc : k.curenv = some c)
    (hva : va < utop) : k'.Readable va ↔ k.Readable va := by
  have hc' : k'.curenv = some c := h.frame.curenv.trans hc
  unfold Kernel.Readable
  by_cases hp : passiveCheck va = none
  · exact iff_of_true (.inr hp) (.inr hp)
  · rw [found_iff h.vm ((h.inv hk).cur c hc') hva, found_iff hk.vm (hk.cur c hc) hva,
      h.refused va hp]

theorem writable {m : Nat} (h : k.Grown M c m k') : k'.Writable c va ↔ k.Writable c va := by
  unfold Kernel.Writable
  by_cases hp : passiveCheck va = none
  · cases hl : k.vm.leaf c (ppn va) with
    | some w => rw [h.keep _ w hl]
    | none =>
      refine iff_of_true ?_ (.inr ⟨rfl, hp⟩)
      cases hl' : k'.vm.leaf c (ppn va) with
      | none => exact .inr ⟨rfl, hp⟩
      | some w => exact .inl ⟨w, rfl, h.fresh _ w hl hl'⟩
  · rw [h.refused va hp]

end Kernel.Grown

/-- `m` is an access to `va`: it comes back if and only if `C` holds, unless it needs memory that
there is not. -/
def Accesses (M : List Nat) (c : EnvPtr) (va : Word) (C : Prop) (m : KernM α) (k : Kernel) : Prop :=
  (m k).Sat
    (fun _ k' => C ∧ k'.vm.leaf c (ppn va) ≠ none ∧
      k.Grown M c (if k.vm.leaf c (ppn va) = none then 2 else 0) k')
    (fun _ _ => False)
    (fun _ => C → k.vm.leaf c (ppn va) = none ∧ k.pageFreeList.length < 2)

/-- **`_do_tlb_refill`**, from both sides. -/
theorem doTlbRefill_accesses (h : k.Inv M) (hc : k.curenv = some c) (hva : va < utop)
    (asid : Word) :
    (doTlbRefill va asid k).Sat
      (fun pte k' => k.Readable va ∧ k'.vm.leaf c (ppn va) = some pte ∧
        k.Grown M c (if k.vm.leaf c (ppn va) = none then 2 else 0) k')
      (fun _ _ => False)
      (fun _ => k.Readable va → k.vm.leaf c (ppn va) = none ∧ k.pageFreeList.length < 2) := by
  have hd := h.cur c hc
  have hfound := found_iff h.vm hd hva
  have hspec := (doTlbRefill_spec h.vm hd hva asid).and (framed_doTlbRefill va asid k)
  cases hl : k.vm.leaf c (ppn va) with
  | some w =>
    obtain ⟨t, -, hw, hlook⟩ := pageLookup_mapped h.vm hd hl
    have heq : doTlbRefill va asid k = .ret w k := by
      rw [doTlbRefill, refillLoop]
      simp only [bind_apply, get_apply, hlook, pure_apply, readWord, hw]
    rw [heq, Outcome.sat_ret]
    rw [hl] at hfound
    refine ⟨.inl (hfound.mpr (Option.some_ne_none w)), hl, ?_⟩
    rw [if_neg (Option.some_ne_none w)]
    exact .refl h.vm
  | none =>
    have hroom := passiveAlloc_room h.vm hd hva hl asid
    have hready : (doTlbRefill va asid k).Sat
        (fun _ k' => passiveCheck va = none ∧
          k.pageFreeList.length ≤ k'.pageFreeList.length + 2)
        (fun _ _ => False) (fun _ => passiveCheck va = none → k.pageFreeList.length < 2) := by
      unfold doTlbRefill
      rw [sat_bind, refillLoop, get_bind,
        bind_ret (pageLookup_unmapped h.vm hd (pdx_lt_of_lt_utop hva) hl)]
      have hpost := (hroom.and (passiveAlloc_spec h.vm hd hva asid)).and
        (framed_passiveAlloc va k.curPgdir asid k)
      refine sat_call hpost ?_ (fun _ _ h => h.1.1) (fun _ h => h.1.1)
      rintro _ k₁ ⟨⟨⟨hp, hlen⟩, hinv₁, pp, -, -, hmap⟩, hf₁⟩
      have hl₁ : k₁.vm.leaf c (ppn va) = some (pageEntry pp pteD) := by
        rw [hmap.leaf, if_pos ⟨rfl, rfl⟩]
      have hd₁ : k₁.vm.dir c = some k₁.curPgdir := by rw [hf₁.dir, hf₁.curPgdir]; exact hd
      obtain ⟨t, -, -, hlook⟩ := pageLookup_mapped hinv₁ hd₁ hl₁
      rw [refillLoop, get_bind, bind_ret hlook]
      exact ⟨hp, hlen⟩
    refine (hready.and hspec).mono ?_ (fun _ _ h => h.1) ?_
    · rintro pte k₁ ⟨⟨hp, hlen⟩, ⟨hinv₁, hl₁, rfl | ⟨-, pp, hpp, -, hmap⟩⟩, hf₁⟩
      · rw [hl] at hl₁
        cases hl₁
      · have hlt : pp < 2 ^ 20 := lt_trans (h.vm.managed pp (h.vm.free_spec pp hpp).1) h.vm.npage_lt
        refine ⟨.inr hp, hl₁, hinv₁, hf₁, ?_, ?_, ?_, by rw [if_pos rfl]; exact hlen⟩
        · intro n w hw
          rw [hmap.leaf, if_neg, hw]
          rintro ⟨-, rfl⟩
          rw [hl] at hw
          cases hw
        · intro n w hn hw
          rw [hmap.leaf] at hw
          split at hw
          · obtain rfl := Option.some.inj hw
            exact (has_entry (by decide)).trans (by decide)
          · rw [hn] at hw
            cases hw
        · intro va' hp'
          rw [hmap.leaf, if_neg]
          rintro ⟨-, hpage⟩
          exact hp' ((passiveCheck_page hpage).mpr hp)
    · rintro p ⟨hshort, -⟩ hread
      have hp : passiveCheck va = none := by
        rcases hread with hf | hp
        · exact absurd hl (hfound.mp hf)
        · exact hp
      exact ⟨rfl, hshort hp⟩

/-- The TLB is not part of an address space. -/
theorem Kernel.Grown.tlb {m : Nat} (h : k.Grown M c m k') (tlb : List TlbEntry) :
    k.Grown M c m { k' with tlb := tlb } := by
  refine ⟨h.vm, h.frame.trans _ _ _ ⟨_, _, _, _, _, rfl⟩, h.keep, h.fresh, h.refused, h.room⟩

/-- Nor is the contents of a page. -/
theorem Kernel.Grown.setWord {m : Nat} (h : k.Grown M c m k') {n : Nat} {pte : Word}
    (hl : k'.vm.leaf c n = some pte) (i : Nat) (w : Word) :
    k.Grown M c m (k'.setWord (ppn pte) i w) ∧
      (k'.setWord (ppn pte) i w).vm.leaf = k'.vm.leaf := by
  obtain ⟨hinv, hleaf⟩ := inv_setWord_usable h.vm (h.vm.usable_of_leaf hl) i w
  refine ⟨⟨hinv, h.frame.trans _ _ _ ⟨_, _, _, _, _, rfl⟩, ?_, ?_, ?_, h.room⟩, hleaf⟩
  · rw [hleaf]
    exact h.keep
  · rw [hleaf]
    exact h.fresh
  · rw [hleaf]
    exact h.refused

theorem touchUser_accesses (h : k.Inv M) (hc : k.curenv = some c) (hva : va < utop) (asid : Word) :
    (touchUser va asid k).Sat
      (fun pte k' => k.Readable va ∧ k'.vm.leaf c (ppn va) = some pte ∧
        k.Grown M c (if k.vm.leaf c (ppn va) = none then 2 else 0) k')
      (fun _ _ => False)
      (fun _ => k.Readable va → k.vm.leaf c (ppn va) = none ∧ k.pageFreeList.length < 2) := by
  refine sat_call (doTlbRefill_accesses h hc hva asid) ?_ (fun _ _ h => h) (fun _ h => h)
  rintro pte k₁ ⟨hread, hl₁, hg₁⟩
  exact ⟨hread, hl₁, hg₁.tlb _⟩

theorem not_kseg (hva : va < utop) : ¬(kseg0 ≤ va ∧ va < kseg2) := by
  rintro ⟨h₁, -⟩
  have h₁' : kseg0.toNat ≤ va.toNat := h₁
  have h₂ : va.toNat < utop.toNat := hva
  have h₃ : utop.toNat < kseg0.toNat := by decide
  omega

theorem loadByte_accesses (io : Io) (h : k.Inv M) (hc : k.curenv = some c) (hva : va < utop)
    (asid : Word) : Accesses M c va (k.Readable va) (loadByte io asid va) k := by
  unfold Accesses loadByte
  rw [if_neg (not_kseg hva)]
  refine sat_call (touchUser_accesses h hc hva asid) ?_ (fun _ _ h => h) (fun _ h => h)
  rintro pte k₁ ⟨hread, hl₁, hg₁⟩
  exact ⟨hread, by rw [hl₁]; simp, hg₁⟩

theorem loadUser_accesses (h : k.Inv M) (hc : k.curenv = some c) (hva : va < utop)
    (halign : va &&& 3 = 0) (asid : Word) :
    Accesses M c va (k.Readable va) (loadUser va asid) k := by
  unfold Accesses loadUser
  rw [if_neg (not_not.mpr halign)]
  refine sat_call (doTlbRefill_accesses h hc hva asid) ?_ (fun _ _ h => h) (fun _ h => h)
  rintro pte k₁ ⟨hread, hl₁, hg₁⟩
  refine ⟨hread, ?_, hg₁.tlb _⟩
  show k₁.vm.leaf c (ppn va) ≠ none
  rw [hl₁]
  simp

theorem storeByte_accesses (h : k.Inv M) (hc : k.curenv = some c) (hva : va < utop)
    (asid : Word) (b : Byte) : Accesses M c va (k.Writable c va) (storeByte asid va b) k := by
  have hfound := found_iff h.vm (h.cur c hc) hva
  have hread : k.Writable c va → k.Readable va := by
    rintro (⟨pte, hl, -⟩ | ⟨-, hp⟩)
    · exact .inl (hfound.mpr (by rw [hl]; simp))
    · exact .inr hp
  unfold Accesses storeByte
  rw [if_neg (not_kseg hva)]
  refine sat_call (touchUser_accesses h hc hva asid) ?_ (fun _ _ h => h)
    (fun _ hshort hw => hshort (hread hw))
  rintro pte k₁ ⟨hr, hl₁, hg₁⟩
  have hw₁ : k₁.Writable c va ↔ has pte pteD = true := by
    constructor
    · rintro (⟨pte', hl', hd⟩ | ⟨hl', -⟩)
      · rw [hl₁] at hl'
        exact Option.some.inj hl' ▸ hd
      · rw [hl₁] at hl'
        cases hl'
    · exact fun hd => .inl ⟨pte, hl₁, hd⟩
  split
  next hd =>
    obtain ⟨hg₂, hleaf₂⟩ := hg₁.setWord hl₁ (wordIndex va)
      (setByte (k₁.mem (ppn pte) (wordIndex va)) (byteIndex va) b)
    refine ⟨hg₁.writable.mp (hw₁.mpr hd), ?_, hg₂⟩
    show (k₁.setWord _ _ _).vm.leaf c (ppn va) ≠ none
    rw [hleaf₂, hl₁]
    simp
  next hd => exact fun hw => absurd (hw₁.mp (hg₁.writable.mpr hw)) hd

/-! ## Ranges -/

/-- The pages from `lo` to `q` are mapped, and there are two frames for each page from `q` to `hi`. -/
def Kernel.Stocked (k : Kernel) (c : EnvPtr) (lo q hi : Nat) : Prop :=
  (∀ p, lo ≤ p → p < q → k.vm.leaf c p ≠ none) ∧ 2 * (hi - q) ≤ k.pageFreeList.length

/-- An access to the next page of a range, or to one before it. -/
theorem Accesses.next {C : Prop} {m : KernM α} {lo q hi : Nat} (h : Accesses M c va C m k)
    (hk : k.Stocked c lo q hi) (hlo : lo ≤ ppn va) (hq : ppn va ≤ q) (hhi : ppn va < hi) :
    (m k).Sat
      (fun _ k' => C ∧ (∃ n, k.Grown M c n k') ∧ ∃ q', ppn va < q' ∧ k'.Stocked c lo q' hi)
      (fun _ _ => False) (fun _ => ¬C) := by
  obtain ⟨hmapped, hroom⟩ := hk
  refine Outcome.Sat.mono h ?_ (fun _ _ h => h) ?_
  · rintro _ k' ⟨hC, hl, hg⟩
    refine ⟨hC, ⟨_, hg⟩, max q (ppn va + 1), by omega, fun p hp hpq => ?_, ?_⟩
    · by_cases hpva : p = ppn va
      · rw [hpva]
        exact hl
      · obtain ⟨w, hw⟩ := Option.ne_none_iff_exists'.mp (hmapped p hp (by omega))
        rw [hg.keep p w hw]
        simp
    · have hlen := hg.room
      by_cases hpq : ppn va < q
      · rw [if_neg (hmapped _ hlo hpq)] at hlen
        omega
      · split at hlen <;> omega
  · intro p hshort hC
    obtain ⟨hl, hlen⟩ := hshort hC
    by_cases hpq : ppn va < q
    · exact hmapped _ hlo hpq hl
    · omega

/-- **A loop over consecutive addresses** comes to its end if and only if all of them are in order.
The next address is on the same page or on the next one. -/
theorem sweep (va : Nat → Word) (hi : Nat) {body : Nat → KernM Unit} {C : Kernel → Word → Prop} {n : Nat}
    (h : k.Inv M) (hc : k.curenv = some c)
    (hC : ∀ i k' m, i < n → k.Grown M c m k' → (C k' (va i) ↔ C k (va i)))
    (hbody : ∀ i k', i < n → k'.Inv M → k'.curenv = some c →
      Accesses M c (va i) (C k' (va i)) (body i) k')
    (hlo : ∀ i < n, ppn (va 0) ≤ ppn (va i)) (hnext : ∀ i, ppn (va (i + 1)) ≤ ppn (va i) + 1)
    (hhi : ∀ i < n, ppn (va i) < hi)
    (hroom : 2 * (hi - ppn (va 0)) ≤ k.pageFreeList.length) :
    (loop body 0 n k).Sat (fun _ _ => ∀ i < n, C k (va i)) (fun _ _ => False)
      (fun _ => ¬∀ i < n, C k (va i)) := by
  have hloop := sat_loop (m := body) (i := 0) (n := n) (s := k)
    (E := fun _ _ => False) (H := fun _ => ¬∀ i < n, C k (va i))
    (I := fun i k' => (∀ j < i, C k (va j)) ∧ (∃ m, k.Grown M c m k') ∧
      ∃ q, ppn (va i) ≤ q ∧ k'.Stocked c (ppn (va 0)) q hi)
    ?_ ⟨fun j hj => absurd hj (Nat.not_lt_zero j), ⟨0, .refl h.vm⟩, ppn (va 0), le_refl _,
      fun p h₁ h₂ => absurd h₂ (by omega), hroom⟩
  · rw [Nat.zero_add] at hloop
    exact hloop.mono (fun _ _ h => h.1) (fun _ _ h => h) (fun _ h => h)
  · rintro i k₁ - hi' ⟨hdone, ⟨m, hg⟩, q, hq, hst⟩
    have hin : i < n := by omega
    have hacc := (hbody i k₁ hin (hg.inv h) (hg.frame.curenv.trans hc)).next hst (hlo i hin) hq
      (hhi i hin)
    refine hacc.mono ?_ (fun _ _ h => h) ?_
    · rintro _ k₂ ⟨hCi, ⟨m', hg'⟩, q', hq', hst'⟩
      refine ⟨fun j hj => ?_, ⟨_, hg.trans hg'⟩, q', ?_, hst'⟩
      · by_cases hji : j = i
        · rw [hji]
          exact (hC i k₁ m hin hg).mp hCi
        · exact hdone j (by omega)
      · have := hnext i
        omega
    · intro p hn hall
      exact hn ((hC i k₁ m hin hg).mpr (hall i hin))

end Mos
