import Mos.Kern.Reach

/-!
# The two-level page table as a finite map

`page_lookup`, `page_insert` and `page_remove` work on a page directory and its page tables. Read
through `page_lookup` they are a map from pages to frames with their entries: an insertion changes
what is found at one page, and a removal takes it away (`page_map`).

The directory of an env maps itself at `UVPT`, and what `page_lookup` finds there are the page tables:
where an insertion makes a new one, it shows at `UVPT` too.
-/

namespace Mos

open Lib Prog Function

variable {k k' : Kernel} {d f pp t i j : Nat} {va va' perm asid w : Word}

/-! ## What a lookup yields -/

/-- What `page_lookup` yields: the frame and the entry, or nothing, or a panic. -/
def Kernel.look (k : Kernel) (d : Nat) (va : Word) : Except Panic (Option (Nat × Word)) :=
  match pageLookup d va k with
  | .ret none _ => .ok none
  | .ret (some (pp, pt, i)) k' => .ok (some (pp, k'.mem pt i))
  | .err _ _ => .ok none
  | .halt p => .error p

/-- The entry of a page table, as `page_lookup` reads it. -/
def Kernel.lookEntry (k : Kernel) (w : Word) : Except Panic (Option (Nat × Word)) :=
  if has w pteV then if ppn w < k.npage then .ok (some (ppn w, w)) else .error .pa2page
  else .ok none

theorem look_eq (k : Kernel) (d : Nat) (va : Word) : k.look d va =
    if has (k.mem d (pdx va)) pteV then
      if ppn (k.mem d (pdx va)) < k.npage then
        k.lookEntry (k.mem (ppn (k.mem d (pdx va))) (ptx va))
      else .error .kaddr
    else .ok none := by
  unfold Kernel.look Kernel.lookEntry
  by_cases hpde : has (k.mem d (pdx va)) pteV = true
  · rw [if_pos hpde]
    by_cases hlt : ppn (k.mem d (pdx va)) < k.npage
    · rw [if_pos hlt, pageLookup, bind_ret (pgdirWalk_present hpde rfl hlt false)]
      simp only [readWord_bind]
      by_cases hpte : has (k.mem (ppn (k.mem d (pdx va))) (ptx va)) pteV = true
      · rw [if_pos hpte, if_pos hpte]
        by_cases hpp : ppn (k.mem (ppn (k.mem d (pdx va))) (ptx va)) < k.npage
        · rw [if_pos hpp, pa2page_bind hpp]
          rfl
        · rw [if_neg hpp, bind_halt (by rw [pa2page_eq, if_neg hpp])]
      · rw [if_neg hpte, if_neg hpte]
        rfl
    · rw [if_neg hlt, pageLookup, bind_halt]
      simp only [pgdirWalk, readWord_bind, hpde, if_true, ppn_pteAddr]
      rw [bind_halt (by rw [kaddr_eq, if_neg hlt])]
  · rw [if_neg hpde, pageLookup, bind_ret (pgdirWalk_missing (by simpa using hpde))]
    rfl

/-! ## What the operations write -/

/-- One word of the page table `t` is written. -/
structure Kernel.Wrote (k : Kernel) (t j : Nat) (w : Word) (k' : Kernel) : Prop where
  npage : k'.npage = k.npage
  mem : k'.mem = (k.setWord t j w).mem

/-- The frame `t`, which was free, becomes the page table number `i` of `d`, with one entry. -/
structure Kernel.Tabled (k : Kernel) (d i t j : Nat) (w : Word) (k' : Kernel) : Prop where
  npage : k'.npage = k.npage
  free : t ∈ k.pageFreeList
  lt : t < k.npage
  mem : k'.mem = (((k.setFrame t fun _ => 0).setWord d i (page2pa t ||| pteV ||| pteD)).setWord
    t j w).mem

theorem pageDecref_mem (pp : Nat) (k : Kernel) :
    (pageDecref pp k).Sat (fun _ k' => k'.npage = k.npage ∧ k'.mem = k.mem) (fun _ _ => False)
      (fun _ => True) := by
  by_cases h0 : k.ppRef pp = 0
  · rw [pageDecref, get_bind, bind_halt (assert_neg (not_not.mpr h0))]
    trivial
  · rw [pageDecref_eq h0]
    unfold Kernel.decref
    split <;> exact ⟨rfl, rfl⟩

/-- The page of `va` is mapped by the entry at `(t, j)`. -/
structure Kernel.MapsAt (k : Kernel) (d : Nat) (va : Word) (t j pp : Nat) : Prop where
  pde : has (k.mem d (pdx va)) pteV = true
  table : ppn (k.mem d (pdx va)) = t
  table_lt : t < k.npage
  index : ptx va = j
  pte : has (k.mem t j) pteV = true
  frame : ppn (k.mem t j) = pp

theorem pageLookup_found (d : Nat) (va : Word) (k : Kernel) :
    (pageLookup d va k).Sat
      (fun r k' => k' = k ∧ ((r = none ∧ k.look d va = .ok none) ∨
        ∃ pp t j, r = some (pp, t, j) ∧ k.MapsAt d va t j pp))
      (fun _ _ => False) (fun _ => True) := by
  have hlook := look_eq k d va
  by_cases hpde : has (k.mem d (pdx va)) pteV = true
  · by_cases hlt : ppn (k.mem d (pdx va)) < k.npage
    · rw [pageLookup, bind_ret (pgdirWalk_present hpde rfl hlt false)]
      simp only [readWord_bind]
      rw [if_pos hpde, if_pos hlt, Kernel.lookEntry] at hlook
      split
      next hpte =>
        refine sat_call (Outcome.sat_self _) ?_ ?_ (fun _ _ => trivial)
        · intro pp k' heq
          rw [pa2page_eq] at heq
          split at heq
          · injection heq with hpp hk
            exact ⟨hk.symm, .inr ⟨pp, _, _, rfl, hpde, rfl, hlt, rfl, hpte, hpp⟩⟩
          · cases heq
        · intro er k' heq
          rw [pa2page_eq] at heq
          split at heq <;> cases heq
      next hpte =>
        rw [if_neg hpte] at hlook
        exact ⟨rfl, .inl ⟨rfl, hlook⟩⟩
    · have hwalk : pgdirWalk d va false k = .halt .kaddr := by
        simp only [pgdirWalk, readWord_bind, hpde, if_true, ppn_pteAddr]
        rw [bind_halt (by rw [kaddr_eq, if_neg hlt])]
      rw [pageLookup, bind_halt hwalk]
      trivial
  · rw [if_neg hpde] at hlook
    rw [pageLookup, bind_ret (pgdirWalk_missing (by simpa using hpde))]
    exact ⟨rfl, .inl ⟨rfl, hlook⟩⟩

/-- `page_remove` clears the entry of a page that is mapped. -/
theorem pageRemove_wrote (d : Nat) (asid va : Word) (k : Kernel) :
    (pageRemove d asid va k).Sat
      (fun _ k' => k' = k ∧ k.look d va = .ok none ∨
        ∃ t j pp, k.MapsAt d va t j pp ∧ k.Wrote t j 0 k')
      (fun _ _ => False) (fun _ => True) := by
  rw [pageRemove]
  refine sat_call (pageLookup_found d va k) ?_ (fun _ _ h => h) (fun _ h => h)
  rintro _ k₁ ⟨hk, ⟨rfl, hlook⟩ | ⟨pp, t, j, rfl, hmaps⟩⟩
  · exact .inl ⟨hk, hlook⟩
  · rw [hk]
    refine sat_call (pageDecref_mem pp k) ?_ (fun _ _ h => h) (fun _ h => h)
    rintro _ k₂ ⟨hnp, hmem⟩
    rw [writeWord_bind]
    refine .inr ⟨t, j, pp, hmaps, hnp, ?_⟩
    show update k₂.mem t (update (k₂.mem t) j 0) = update k.mem t (update (k.mem t) j 0)
    rw [hmem]

theorem pageInsertNew_wrote (d : Nat) (asid : Word) (pp : Nat) (va perm : Word) (k : Kernel)
    (hnp : k.npage < 2 ^ 20) :
    (pageInsertNew d asid pp va perm k).Sat
      (fun _ k' => (has (k.mem d (pdx va)) pteV = true ∧ ppn (k.mem d (pdx va)) < k.npage ∧
          k.Wrote (ppn (k.mem d (pdx va))) (ptx va) (pageEntry pp perm) k') ∨
        (has (k.mem d (pdx va)) pteV = false ∧
          ∃ t, k.Tabled d (pdx va) t (ptx va) (pageEntry pp perm) k'))
      (fun er k' => er = .noMem ∧ has (k.mem d (pdx va)) pteV = false ∧ k' = k.flush asid va)
      (fun _ => True) := by
  by_cases hpde : has (k.mem d (pdx va)) pteV = true
  · by_cases hlt : ppn (k.mem d (pdx va)) < k.npage
    · rw [pageInsertNew_present hpde rfl hlt]
      exact .inl ⟨hpde, hlt, rfl, rfl⟩
    · have hwalk : pgdirWalk d va true (k.flush asid va) = .halt .kaddr := by
        have hpde' : has ((k.flush asid va).mem d (pdx va)) pteV = true := hpde
        simp only [pgdirWalk, readWord_bind, hpde', if_true, ppn_pteAddr]
        rw [bind_halt (by rw [kaddr_eq]; exact if_neg hlt)]
      have hflush : tlbInvalidate asid va k = .ret () (k.flush asid va) := rfl
      rw [pageInsertNew, bind_ret hflush, bind_halt hwalk]
      trivial
  · rw [Bool.not_eq_true] at hpde
    cases hf : k.pageFreeList with
    | nil =>
      rw [pageInsertNew_full hpde hf]
      exact ⟨rfl, hpde, rfl⟩
    | cons t rest =>
      by_cases hlt : t < k.npage
      · rw [pageInsertNew_fresh hpde hf hlt hnp]
        exact .inr ⟨hpde, t, rfl, by rw [hf]; exact List.mem_cons_self, hlt, rfl⟩
      · have hwalk : pgdirWalk d va true (k.flush asid va) = .halt .kaddr := by
          have hpde' : has ((k.flush asid va).mem d (pdx va)) pteV = false := hpde
          simp only [pgdirWalk, readWord_bind, hpde', Bool.false_eq_true, if_false, if_true]
          rw [bind_halt ((pageAlloc_cons (k := k.flush asid va) hf).trans (if_neg hlt))]
        have hflush : tlbInvalidate asid va k = .ret () (k.flush asid va) := rfl
        rw [pageInsertNew, bind_ret hflush, bind_halt hwalk]
        trivial

/-- The directory `d` does not map itself as the page table of `va`. -/
def Kernel.NotSelf (k : Kernel) (d : Nat) (va : Word) : Prop :=
  has (k.mem d (pdx va)) pteV = true → ppn (k.mem d (pdx va)) ≠ d

/-- **`page_insert`** writes one entry, in the page table that is there or in a new one. -/
theorem pageInsert_wrote (hself : k.NotSelf d va) (hnp : k.npage < 2 ^ 20) (asid : Word) (pp : Nat)
    (perm : Word) :
    (pageInsert d asid pp va perm k).Sat
      (fun _ k' => (has (k.mem d (pdx va)) pteV = true ∧ ppn (k.mem d (pdx va)) < k.npage ∧
          k.Wrote (ppn (k.mem d (pdx va))) (ptx va) (pageEntry pp perm) k') ∨
        (has (k.mem d (pdx va)) pteV = false ∧
          ∃ t, k.Tabled d (pdx va) t (ptx va) (pageEntry pp perm) k'))
      (fun er k' => er = .noMem ∧ has (k.mem d (pdx va)) pteV = false ∧ k' = k.flush asid va)
      (fun _ => True) := by
  have hnew := pageInsertNew_wrote d asid pp va perm k hnp
  by_cases hpde : has (k.mem d (pdx va)) pteV = true
  · have hne := hself hpde
    by_cases hlt : ppn (k.mem d (pdx va)) < k.npage
    · rw [pageInsert, bind_ret (pgdirWalk_present hpde rfl hlt false)]
      simp only [readWord_bind]
      split
      next hpte =>
        refine sat_call (Outcome.sat_self _) ?_ ?_ (fun _ _ => trivial)
        · intro old k₀ heq
          rw [pa2page_eq] at heq
          split at heq
          · injection heq with hold hk
            subst hk
            split
            · -- another frame: `page_remove` first
              refine sat_call (pageRemove_wrote d asid va k) ?_ (fun _ _ h => h.elim) (fun _ h => h)
              rintro _ k₁ (⟨rfl, -⟩ | ⟨t, j, pp', hmaps, hwrote⟩)
              · exact hnew
              · obtain ⟨-, rfl, -, rfl, -, -⟩ := hmaps
                have hmemd : k₁.mem d = k.mem d := by
                  rw [hwrote.mem]
                  exact update_of_ne hne.symm _ _
                refine (pageInsertNew_wrote d asid pp va perm k₁ (hwrote.npage ▸ hnp)).mono ?_ ?_
                  (fun _ h => h)
                · rintro _ k₂ (⟨-, -, h₂⟩ | ⟨hno, -⟩)
                  · refine .inl ⟨hpde, hlt, h₂.npage.trans hwrote.npage, ?_⟩
                    have hmem := h₂.mem
                    rw [hmemd] at hmem
                    rw [hmem]
                    simp [Kernel.setWord, hwrote.mem]
                  · rw [hmemd, hpde] at hno
                    cases hno
                · rintro er k₂ ⟨-, hno, -⟩
                  rw [hmemd, hpde] at hno
                  cases hno
            · exact .inl ⟨hpde, hlt, rfl, rfl⟩
          · cases heq
        · intro er k₀ heq
          rw [pa2page_eq] at heq
          split at heq <;> cases heq
      next => exact hnew
    · have hwalk : pgdirWalk d va false k = .halt .kaddr := by
        simp only [pgdirWalk, readWord_bind, hpde, if_true, ppn_pteAddr]
        rw [bind_halt (by rw [kaddr_eq, if_neg hlt])]
      rw [pageInsert, bind_halt hwalk]
      trivial
  · rw [pageInsert, bind_ret (pgdirWalk_missing (by simpa using hpde))]
    exact hnew

/-! ## Well-formed directories -/

/-- The page tables of `d` are different frames, and neither they nor `d` itself are free. -/
structure Kernel.WellFormed (k : Kernel) (d : Nat) : Prop where
  distinct : ∀ i < 1024, ∀ j < 1024, has (k.mem d i) pteV = true → has (k.mem d j) pteV = true →
    ppn (k.mem d i) = ppn (k.mem d j) → i = j
  tables : ∀ i < 1024, has (k.mem d i) pteV = true → ppn (k.mem d i) ∉ k.pageFreeList
  dir : d ∉ k.pageFreeList

theorem pdx_lt (va : Word) : pdx va < 1024 := by
  have := va.isLt
  rw [pdx_eq]
  omega

theorem ptx_ne (h : ppn va' ≠ ppn va) (hdir : pdx va' = pdx va) : ptx va' ≠ ptx va := by
  intro hc
  rw [ppn_split, ppn_split, hdir, hc] at h
  exact h rfl

/-- A word of a page table is written: the other pages stay. -/
theorem look_other (h : k.WellFormed d) (hself : k.NotSelf d va)
    (hpde : has (k.mem d (pdx va)) pteV = true)
    (hw : k.Wrote (ppn (k.mem d (pdx va))) (ptx va) w k') (hne : ppn va' ≠ ppn va) :
    k'.look d va' = k.look d va' := by
  have hmem : k'.mem = update k.mem (ppn (k.mem d (pdx va)))
      (update (k.mem (ppn (k.mem d (pdx va)))) (ptx va) w) := hw.mem
  have hmemd : k'.mem d = k.mem d := by
    rw [hmem]
    exact update_of_ne (hself hpde).symm _ _
  rw [look_eq, look_eq, hmemd, hw.npage]
  by_cases hpde' : has (k.mem d (pdx va')) pteV = true
  · have hword : k'.mem (ppn (k.mem d (pdx va'))) (ptx va') =
        k.mem (ppn (k.mem d (pdx va'))) (ptx va') := by
      rw [hmem]
      by_cases ht : ppn (k.mem d (pdx va')) = ppn (k.mem d (pdx va))
      · have hdir := h.distinct _ (pdx_lt va') _ (pdx_lt va) hpde' hpde ht
        rw [ht, update_self, update_of_ne (ptx_ne hne hdir)]
      · rw [update_of_ne ht]
    rw [hword]
    unfold Kernel.lookEntry
    rw [hw.npage]
  · rw [if_neg hpde', if_neg hpde']

/-- The page itself has the new entry. -/
theorem look_wrote (hself : k.NotSelf d va) (hpde : has (k.mem d (pdx va)) pteV = true)
    (hlt : ppn (k.mem d (pdx va)) < k.npage)
    (hw : k.Wrote (ppn (k.mem d (pdx va))) (ptx va) w k') (heq : ppn va' = ppn va) :
    k'.look d va' = k'.lookEntry w := by
  have hdir : pdx va' = pdx va := by rw [← ppn_div, ← ppn_div va, heq]
  have hidx : ptx va' = ptx va := by rw [← ppn_mod, ← ppn_mod va, heq]
  have hmem : k'.mem = update k.mem (ppn (k.mem d (pdx va)))
      (update (k.mem (ppn (k.mem d (pdx va)))) (ptx va) w) := hw.mem
  have hmemd : k'.mem d = k.mem d := by
    rw [hmem]
    exact update_of_ne (hself hpde).symm _ _
  rw [look_eq, hmemd, hdir, hidx, if_pos hpde, hw.npage, if_pos hlt, hmem, update_self, update_self]

/-- A new page table: the page itself has the new entry. -/
theorem look_tabled (hnp : k.npage < 2 ^ 20) (hd : d ∉ k.pageFreeList)
    (ht : k.Tabled d (pdx va) t (ptx va) w k') (heq : ppn va' = ppn va) :
    k'.look d va' = k'.lookEntry w := by
  have hdir : pdx va' = pdx va := by rw [← ppn_div, ← ppn_div va, heq]
  have hidx : ptx va' = ptx va := by rw [← ppn_mod, ← ppn_mod va, heq]
  have htd : d ≠ t := fun hc => hd (hc ▸ ht.free)
  have hpde : k'.mem d (pdx va) = page2pa t ||| pteV ||| pteD := by
    rw [ht.mem]
    simp [Kernel.setWord, Kernel.setFrame, update_of_ne htd]
  have hpte : k'.mem t (ptx va) = w := by
    rw [ht.mem]
    simp [Kernel.setWord]
  rw [look_eq, hdir, hidx, hpde, if_pos (has_tableEntry_valid t), ppn_tableEntry (lt_trans ht.lt hnp),
    ht.npage, if_pos ht.lt, hpte]

/-- A new page table: the other pages stay, except for the page that shows the new table where the
directory maps itself. -/
theorem look_tabled_other (h : k.WellFormed d) (hnp : k.npage < 2 ^ 20)
    (hpde : has (k.mem d (pdx va)) pteV = false)
    (ht : k.Tabled d (pdx va) t (ptx va) w k') (hne : ppn va' ≠ ppn va)
    (hshow : k.NotSelf d va' ∨ ptx va' ≠ pdx va) : k'.look d va' = k.look d va' := by
  have htd : d ≠ t := fun hc => h.dir (hc ▸ ht.free)
  have hmemd : k'.mem d = update (k.mem d) (pdx va) (page2pa t ||| pteV ||| pteD) := by
    rw [ht.mem]
    simp [Kernel.setWord, Kernel.setFrame, update_of_ne htd]
  have hentry : k'.lookEntry = k.lookEntry := by
    funext w
    unfold Kernel.lookEntry
    rw [ht.npage]
  rw [look_eq, look_eq, hmemd, ht.npage, hentry]
  by_cases hdir : pdx va' = pdx va
  · have hpte : k'.mem t (ptx va') = 0 := by
      rw [ht.mem]
      simp [Kernel.setWord, Kernel.setFrame, update_of_ne (ptx_ne hne hdir), htd.symm]
    rw [hdir, update_self, if_pos (has_tableEntry_valid t), ppn_tableEntry (lt_trans ht.lt hnp),
      if_pos ht.lt, hpte, hpde]
    simp [Kernel.lookEntry]
  · rw [update_of_ne hdir]
    by_cases hpde' : has (k.mem d (pdx va')) pteV = true
    · have hnt : ppn (k.mem d (pdx va')) ≠ t := fun hc =>
        h.tables _ (pdx_lt va') hpde' (hc ▸ ht.free)
      have hword : k'.mem (ppn (k.mem d (pdx va'))) (ptx va') =
          k.mem (ppn (k.mem d (pdx va'))) (ptx va') := by
        by_cases hd' : ppn (k.mem d (pdx va')) = d
        · rw [hd', hmemd, update_of_ne]
          rcases hshow with hself | hidx
          · exact absurd hd' (hself hpde')
          · exact hidx
        · rw [ht.mem]
          simp [Kernel.setWord, Kernel.setFrame, update_of_ne hnt, update_of_ne hd']
      rw [hword]
    · rw [if_neg hpde', if_neg hpde']

/-! ## The map -/

theorem look_congr (heq : ppn va' = ppn va) : k.look d va' = k.look d va := by
  have hdir : pdx va' = pdx va := by rw [← ppn_div, ← ppn_div va, heq]
  have hidx : ptx va' = ptx va := by rw [← ppn_mod, ← ppn_mod va, heq]
  rw [look_eq, look_eq, hdir, hidx]

theorem lookEntry_pageEntry (hnp : k.npage < 2 ^ 20) (hpp : pp < k.npage) (hperm : perm < 4096) :
    k.lookEntry (pageEntry pp perm) = .ok (some (pp, pageEntry pp perm)) := by
  have hppn : ppn (pageEntry pp perm) = pp := ppn_entry (lt_trans hpp hnp) hperm
  rw [Kernel.lookEntry, if_pos (has_pageEntry_valid pp perm), hppn, if_pos hpp]

/-- **A page directory is a finite map.** An insertion maps the page of `va` and leaves all other
pages, except that where the directory maps itself the new page table appears; a removal unmaps the
page and leaves all others; an insertion that fails leaves everything. -/
theorem page_map (h : k.WellFormed d) (hself : k.NotSelf d va) (hnp : k.npage < 2 ^ 20)
    (hpp : pp < k.npage) (hperm : perm < 4096) (asid : Word) :
    (∀ k', pageInsert d asid pp va perm k = .ret () k' →
      (∀ va', ppn va' = ppn va → k'.look d va' = .ok (some (pp, pageEntry pp perm))) ∧
      (∀ va', ppn va' ≠ ppn va →
        (k.NotSelf d va' ∨ ptx va' ≠ pdx va ∨ has (k.mem d (pdx va)) pteV = true) →
        k'.look d va' = k.look d va')) ∧
    (∀ k', pageRemove d asid va k = .ret () k' →
      (∀ va', ppn va' = ppn va → k'.look d va' = .ok none) ∧
      (∀ va', ppn va' ≠ ppn va → k'.look d va' = k.look d va')) ∧
    (∀ er k', pageInsert d asid pp va perm k = .err er k' → er = .noMem ∧
      (∀ va', k'.look d va' = k.look d va') ∧ k'.ppRef = k.ppRef ∧
      k'.pageFreeList = k.pageFreeList) := by
  have hinsert := pageInsert_wrote hself hnp asid pp perm
  refine ⟨fun k' hret => ?_, fun k' hret => ?_, fun er k' herr => ?_⟩
  · rw [hret] at hinsert
    rcases hinsert with ⟨hpde, hlt, hw⟩ | ⟨hpde, t, ht⟩
    · have hentry := lookEntry_pageEntry (k := k') (hw.npage ▸ hnp) (hw.npage ▸ hpp) hperm
      refine ⟨fun va' heq => ?_, fun va' hne _ => look_other h hself hpde hw hne⟩
      rw [look_wrote hself hpde hlt hw heq, hentry]
    · have hentry := lookEntry_pageEntry (k := k') (ht.npage ▸ hnp) (ht.npage ▸ hpp) hperm
      refine ⟨fun va' heq => ?_, fun va' hne hshow => ?_⟩
      · rw [look_tabled hnp h.dir ht heq, hentry]
      · refine look_tabled_other h hnp hpde ht hne ?_
        rcases hshow with hself' | hidx | hpde'
        · exact .inl hself'
        · exact .inr hidx
        · rw [hpde] at hpde'
          cases hpde'
  · have hremove := pageRemove_wrote d asid va k
    rw [hret] at hremove
    rcases hremove with ⟨rfl, hlook⟩ | ⟨t, j, pp', hmaps, hw⟩
    · exact ⟨fun va' heq => (look_congr heq).trans hlook, fun _ _ => rfl⟩
    · obtain ⟨hpde, rfl, hlt, rfl, -, -⟩ := hmaps
      refine ⟨fun va' heq => ?_, fun va' hne => look_other h hself hpde hw hne⟩
      rw [look_wrote hself hpde hlt hw heq]
      simp [Kernel.lookEntry]
  · rw [herr] at hinsert
    obtain ⟨rfl, -, rfl⟩ := hinsert
    exact ⟨rfl, fun va' => by rw [look_eq, look_eq]; rfl, rfl, rfl⟩

/-- A test for `WellFormed`. -/
def Kernel.wellFormed (k : Kernel) (d : Nat) : Bool :=
  let tables := (List.range 1024).filter fun i => has (k.mem d i) pteV
  decide (tables.map fun i => ppn (k.mem d i)).Nodup &&
    (tables.all fun i => decide (ppn (k.mem d i) ∉ k.pageFreeList)) && decide (d ∉ k.pageFreeList)

theorem wellFormed_of_test (h : k.wellFormed d = true) : k.WellFormed d := by
  simp only [Kernel.wellFormed, Bool.and_eq_true, decide_eq_true_eq, List.all_eq_true] at h
  obtain ⟨⟨hnodup, htables⟩, hdir⟩ := h
  have hmem : ∀ i < 1024, has (k.mem d i) pteV = true →
      i ∈ (List.range 1024).filter fun i => has (k.mem d i) pteV := fun i hi hv =>
    List.mem_filter.mpr ⟨List.mem_range.mpr hi, hv⟩
  refine ⟨fun i hi j hj hvi hvj heq => ?_, fun i hi hv => htables i (hmem i hi hv), hdir⟩
  exact List.inj_on_of_nodup_map hnodup (hmem i hi hvi) (hmem j hj hvj) heq

/-- A process without pages. -/
def mapSetup : List Op := [.envCreate (some emptyImage) 1, .timer]

/-- The directory of the process is well formed and has no page table for `UTEXT`, and frame 60 can
be mapped there, with an effect that is tested. -/
def mapTest (test : Kernel → Kernel → Bool) (k : Kernel) : Bool :=
  k.wellFormed k.curPgdir && !has (k.mem k.curPgdir (pdx utext)) pteV && decide (60 < k.npage) &&
    decide (k.npage < 2 ^ 20) &&
    match pageInsert k.curPgdir 0 60 utext pteD k with
    | .ret _ k' => test k k'
    | _ => false

theorem exists_map (test : Kernel → Kernel → Bool)
    (h : ((Mos.boot smallBoot).state?.bind (testOps (fun _ _ => true) mapSetup)).any
      (mapTest test) = true) :
    ∃ k k', Reach (fun _ _ => True) smallBoot k ∧ k.WellFormed k.curPgdir ∧
      has (k.mem k.curPgdir (pdx utext)) pteV = false ∧ 60 < k.npage ∧ k.npage < 2 ^ 20 ∧
      pageInsert k.curPgdir 0 60 utext pteD k = .ret () k' ∧ test k k' = true := by
  obtain ⟨k, hr, htest⟩ := exists_reach_any smallBoot mapSetup (mapTest test) h
  simp only [mapTest, Bool.and_eq_true, decide_eq_true_eq, Bool.not_eq_true'] at htest
  obtain ⟨⟨⟨⟨hwf, hpde⟩, hpp⟩, hnp⟩, htest⟩ := htest
  split at htest
  next u k' hret => exact ⟨k, k', hr, wellFormed_of_test hwf, hpde, hpp, hnp, hret, htest⟩
  next => cases htest

theorem page_map_fresh : ∃ k k', k.WellFormed k.curPgdir ∧
    pageInsert k.curPgdir 0 60 utext pteD k = .ret () k' ∧
    k'.look k.curPgdir utext = .ok (some (60, pageEntry 60 pteD)) := by
  obtain ⟨k, k', -, hwf, hpde, hpp, hnp, hret, -⟩ := exists_map (fun _ _ => true)
    (by decide +kernel)
  have hself : k.NotSelf k.curPgdir utext := fun hc => by
    rw [hpde] at hc
    cases hc
  exact ⟨k, k', hwf, hret,
    ((page_map hwf hself hnp hpp (by decide) 0).1 k' hret).1 utext rfl⟩

/-- **A new page table shows at `UVPT`**: the insertion at `UTEXT` maps another page too. -/
theorem page_map_window : ∃ k k' d pp va va' perm, Reach (fun _ _ => True) smallBoot k ∧
    k.WellFormed d ∧ perm < (4096 : Word) ∧ pageInsert d 0 pp va perm k = .ret () k' ∧
    ppn va' ≠ ppn va ∧ k'.look d va' ≠ k.look d va' := by
  obtain ⟨k, k', hr, hwf, -, -, -, hret, htest⟩ := exists_map
    (fun k k' => (k.look k.curPgdir (uvpt + 4096)).toOption == some none &&
      (k'.look k.curPgdir (uvpt + 4096)).toOption != some none) (by decide +kernel)
  rw [Bool.and_eq_true, beq_iff_eq, bne_iff_ne] at htest
  refine ⟨k, k', k.curPgdir, 60, utext, uvpt + 4096, pteD, hr, hwf, by decide, hret, by decide, ?_⟩
  intro heq
  rw [heq] at htest
  exact htest.2 htest.1

end Mos
