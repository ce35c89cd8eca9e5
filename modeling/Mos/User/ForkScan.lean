import Mos.User.Fork
import Mos.Kern.NoPanic
import Mos.Kern.UserMode
import Mos.Kern.Counter

/-!
# The pages that `fork` looks at

`fork` reads the page table entry of every page below `USTACKTOP` in the window at `UVPT`, and asks
only then whether the page table is there. A read in the window that finds no page table is a TLB
miss like any other: `_do_tlb_refill` calls `passive_alloc`, which maps a fresh page there, and a
page in the window is a page table. So `fork` gives its caller all the page tables that it did not
have (`fork_scan_keeps_tables_iff`).

The scan adds tables and writes entries, and takes nothing away, so no count matters here: what is
needed is that the frames of the tables are different ones (`Vm.Apart`).
-/

namespace Mos

open Lib Prog Function

/-! ## The scan -/

/-- `vpt[i]`, read by the current env, whose ASID is `asid`. -/
def vpt (asid : Word) (i : Nat) : KernM Word := loadUser (uvpt + 4 * BitVec.ofNat 32 i) asid

/-- `vpd[i]`. -/
def vpd (asid : Word) (i : Nat) : KernM Word :=
  loadUser (uvpt + BitVec.ofNat 32 (pdx uvpt) <<< 12 + 4 * BitVec.ofNat 32 i) asid

/-- `duppage(envid, vpn)`. It does not look at what its calls return. -/
def duppage (asid envid : Word) (vpn : Nat) : KernM Unit := do
  let addr := BitVec.ofNat 32 vpn <<< 12
  let pte ← vpt asid vpn
  let perm := ptePerm pte
  if dupCow perm then
    let _ ← attempt (sysMemMap 0 addr envid addr (cowPerm perm))
    let _ ← attempt (sysMemMap 0 addr 0 addr (cowPerm perm))
  else
    let _ ← attempt (sysMemMap 0 addr envid addr perm)

/-- One round of the loop of `fork`. -/
def forkPage (asid child : Word) (i : Nat) : KernM Unit := do
  let pte ← vpt asid i
  if has pte pteV then
    let pde ← vpd asid (i / 1024)
    if has pde pteV then duppage asid child i else pure ()
  else pure ()

/-- The loop of `fork` over the pages below `USTACKTOP`. -/
def forkScan (asid child : Word) : KernM Unit := loop (forkPage asid child) 0 (ppn ustacktop)

variable {k k' k₀ : Kernel} {c ch e dst : EnvPtr} {M : List Nat} {d n pp t : Nat}
  {va perm asid w child : Word}

/-! ## Tables that are only added to -/

namespace Vm

variable {v u x : Vm} {o : Option Word} {i : Nat}

/-- How many page tables `e` has. -/
def tables (v : Vm) (e : EnvPtr) : Nat :=
  (Finset.univ.filter fun i : Fin npde => v.table e i ≠ none).card

theorem tables_le (v : Vm) (e : EnvPtr) : v.tables e ≤ npde :=
  le_trans (Finset.card_le_univ _) (le_of_eq (Fintype.card_fin npde))

theorem tables_congr (h : ∀ i, u.table e i = v.table e i) : u.tables e = v.tables e := by
  unfold tables
  simp only [h]

theorem tables_link (hi : i < npde) (ht : v.table e i = none)
    (hu : ∀ i', u.table e i' = if i' = i then some pp else v.table e i') :
    u.tables e = v.tables e + 1 := by
  have hset : (Finset.univ.filter fun i : Fin npde => u.table e i ≠ none)
      = insert ⟨i, hi⟩ (Finset.univ.filter fun i : Fin npde => v.table e i ≠ none) := by
    ext i'
    simp only [Finset.mem_filter, Finset.mem_univ, true_and, Finset.mem_insert, hu, Fin.ext_iff]
    by_cases hii : (i' : Nat) = i <;> simp [hii]
  unfold tables
  rw [hset, Finset.card_insert_of_notMem]
  simp [ht]

/-- The entry of page `n` of `e` is `o` now, and all that can have happened besides is that `e` has
got another page table, empty but for that entry. -/
structure Placed (v u : Vm) (e : EnvPtr) (n : Nat) (o : Option Word) : Prop where
  apart : u.Apart
  npage : u.npage = v.npage
  dir : u.dir = v.dir
  leaf : ∀ e' n', u.leaf e' n' = if e' = e ∧ n' = n then o else v.leaf e' n'
  keep : ∀ e' i t, v.table e' i = some t → u.table e' i = some t
  other : ∀ e' i, e' ≠ e → u.table e' i = v.table e' i
  /-- The entries of the page directories from `UTOP` on. -/
  high : ∀ e' d, v.dir e' = some d → ∀ i, npde ≤ i → u.mem d i = v.mem d i
  frames : u.free.length + u.tables e = v.free.length + v.tables e

/-- Writing an entry of a page table. -/
theorem Apart.placePte (h : Apart v) (ht : v.table e (n / 1024) = some t) (hw : has w pteV)
    (hnp : u.npage = v.npage) (hdir : u.dir = v.dir) (hfree : u.free = v.free)
    (hmem : u.mem = (v.setWord t (n % 1024) w).mem) : v.Placed u e n (some w) := by
  have hmod : n % 1024 < 1024 := Nat.mod_lt _ (by decide)
  have hn : n / 1024 * 1024 + n % 1024 = n := by omega
  obtain ⟨htab, hleaf, -⟩ := view_of_mem (u := u) (v := v.setWord t (n % 1024) w) hmem hdir
  rw [h.table_setPte ht] at htab
  refine ⟨h.congr hnp hfree hdir htab, hnp, hdir, ?_, ?_, ?_, ?_, ?_⟩
  · intro e' n'
    rw [hleaf, h.leaf_setPte ht hmod, hn, if_pos hw]
  · exact fun e' i t' ht' => htab ▸ ht'
  · exact fun e' i _ => by rw [htab]
  · intro e' d hd i _
    have hne : d ≠ t := fun hc => h.dir_not_table e' d e _ hd (hc ▸ ht)
    rw [hmem]
    exact congrFun (update_of_ne hne _ _) i
  · have hsame : u.tables e = v.tables e := tables_congr fun i => by rw [htab]
    rw [hfree, hsame]

/-- A free frame becomes a page table, and nothing is mapped. -/
theorem Apart.placeTable (h : Apart v) (hd : v.dir e = some d) (hi : i < npde)
    (ht : v.table e i = none) {rest : List Nat} (hf : v.free = pp :: rest) (hw : has w pteV)
    (hpp : ppn w = pp) (hnp : u.npage = v.npage) (hfree : u.free = rest) (hdir : u.dir = v.dir)
    (hmem : u.mem = (Vm.setWord { v with mem := update v.mem pp fun _ => 0 } d i w).mem) :
    v.Placed u e n (v.leaf e n) ∧ u.table e i = some pp := by
  obtain ⟨hapart, htab, hleaf⟩ := h.linkTable hd hi ht hf hw hpp hnp hfree hdir hmem
  have hfr : pp ∈ v.free := by
    rw [hf]
    exact List.mem_cons_self
  refine ⟨⟨hapart, hnp, hdir, ?_, ?_, ?_, ?_, ?_⟩, ?_⟩
  · intro e' n'
    rw [hleaf]
    split
    next hc => rw [hc.1, hc.2]
    next => rfl
  · intro e' i' t' ht'
    rw [htab, if_neg, ht']
    rintro ⟨rfl, rfl⟩
    rw [ht] at ht'
    cases ht'
  · intro e' i' hne
    rw [htab, if_neg fun hc => hne hc.1]
  · intro e' d' hd' i' hi'
    have hne : d' ≠ pp := fun hc => h.free_not_dir pp hfr e' (hc ▸ hd')
    rw [hmem]
    show update (update v.mem pp fun _ => 0) d (update (update v.mem pp (fun _ => 0) d) i w) d' i' = _
    by_cases hdd : d' = d
    · rw [hdd, update_self, update_of_ne (by omega), update_of_ne (hdd ▸ hne)]
    · rw [update_of_ne hdd, update_of_ne hne]
  · have htab' : ∀ i', u.table e i' = if i' = i then some pp else v.table e i' := fun i' => by
      simp [htab]
    have hmore := tables_link hi ht htab'
    rw [hfree, hf, hmore, List.length_cons]
    omega
  · rw [htab, if_pos ⟨rfl, rfl⟩]

theorem Placed.trans {o' : Option Word} (h : v.Placed u e n o) (h' : u.Placed x e n o') :
    v.Placed x e n o' := by
  refine ⟨h'.apart, h'.npage.trans h.npage, h'.dir.trans h.dir, ?_, ?_, ?_, ?_,
    h'.frames.trans h.frames⟩
  · intro e' n'
    rw [h'.leaf]
    split
    next => rfl
    next hne => rw [h.leaf, if_neg hne]
  · exact fun e' i t ht => h'.keep e' i t (h.keep e' i t ht)
  · exact fun e' i hne => (h'.other e' i hne).trans (h.other e' i hne)
  · exact fun e' d hd i hi => (h'.high e' d (h.dir ▸ hd) i hi).trans (h.high e' d hd i hi)

theorem Placed.leaf_eq (h : v.Placed u e n (v.leaf e n)) : u.leaf = v.leaf := by
  funext e' n'
  rw [h.leaf]
  split
  next hc => rw [hc.1, hc.2]
  next => rfl

theorem Placed.refl (h : Apart v) : v.Placed v e n (v.leaf e n) := by
  refine ⟨h, rfl, rfl, ?_, fun _ _ _ ht => ht, fun _ _ _ => rfl, fun _ _ _ _ _ => rfl, rfl⟩
  intro e' n'
  split
  next hc => rw [hc.1, hc.2]
  next => rfl

end Vm

/-! ## `page_insert` -/

/-- `page_insert` where nothing is mapped. -/
theorem pageInsert_placed (h : k.vm.Apart) (hd : k.vm.dir e = some d) (hva : pdx va < npde)
    (hl : k.vm.leaf e (ppn va) = none) (pp : Nat) (perm asid : Word) :
    (pageInsert d asid pp va perm k).Sat
      (fun _ k' => k.vm.Placed k'.vm e (ppn va) (some (pageEntry pp perm)))
      (fun _ k' => k'.vm = k.vm) (fun _ => False) := by
  have hval : has (pageEntry pp perm) pteV = true := has_entry_valid pp perm
  cases ht : k.vm.table e (pdx va) with
  | some t =>
    obtain ⟨d', hd', _, hpde, hppn⟩ := Vm.table_eq_some.mp ht
    obtain rfl : d' = d := Option.some.inj (hd'.symm.trans hd)
    have hlt : t < k.npage := h.table_lt e _ t ht
    rw [pageInsert, bind_ret (pgdirWalk_present hpde hppn hlt false)]
    simp only [readWord_bind, mem_invalid_of_leaf_none ht hl, Bool.false_eq_true, if_false]
    rw [pageInsertNew_present hpde hppn hlt]
    exact h.placePte (by rw [ppn_div]; exact ht) hval rfl rfl rfl (by rw [ppn_mod]; rfl)
  | none =>
    have hpde := mem_invalid_of_table_none hd hva ht
    rw [pageInsert, bind_ret (pgdirWalk_absent hd hva ht)]
    show (pageInsertNew d asid pp va perm k).Sat _ _ _
    cases hf : k.pageFreeList with
    | nil =>
      rw [pageInsertNew_full hpde hf]
      rfl
    | cons p rest =>
      have hmem : p ∈ k.vm.free := show p ∈ k.pageFreeList by rw [hf]; exact List.mem_cons_self
      have hlt : p < k.npage := h.free_lt p hmem
      rw [pageInsertNew_fresh hpde hf hlt h.npage_lt]
      obtain ⟨hplaced, htab⟩ := h.placeTable (n := ppn va)
        (u := ((k.flush asid va).newTable d (pdx va) p rest).vm) hd hva ht hf
        (has_tableEntry_valid p) (ppn_tableEntry (lt_trans hlt h.npage_lt)) rfl rfl rfl rfl
      refine hplaced.trans (hplaced.apart.placePte (by rw [ppn_div]; exact htab) hval rfl rfl rfl ?_)
      rw [ppn_mod]
      rfl

/-- `page_insert` of the frame that is there already. -/
theorem pageInsert_replaced (h : k.vm.Apart) (hd : k.vm.dir e = some d)
    (hl : k.vm.leaf e (ppn va) = some w) (hlt : ppn w < k.npage) (perm asid : Word) :
    (pageInsert d asid (ppn w) va perm k).Sat
      (fun _ k' => k.vm.Placed k'.vm e (ppn va) (some (pageEntry (ppn w) perm)))
      (fun _ _ => False) (fun _ => False) := by
  obtain ⟨t, ht, hval, rfl⟩ := table_of_leaf hl
  obtain ⟨d', hd', _, hpde, hppn⟩ := Vm.table_eq_some.mp ht
  obtain rfl : d' = d := Option.some.inj (hd'.symm.trans hd)
  rw [pageInsert, bind_ret (pgdirWalk_present hpde hppn (h.table_lt e _ t ht) false)]
  simp only [readWord_bind, hval, if_true]
  rw [pa2page_bind hlt, if_neg (not_not.mpr rfl)]
  exact h.placePte (by rw [ppn_div]; exact ht) (has_entry_valid _ perm) rfl rfl rfl
    (by rw [ppn_mod]; rfl)

/-- What `page_lookup` finds below `UTOP`. -/
theorem pageLookup_leaf (h : k.vm.Apart) (hd : k.vm.dir e = some d) (hva : pdx va < npde)
    (hframes : ∀ w, k.vm.leaf e (ppn va) = some w → ppn w < k.npage) :
    (pageLookup d va k).Sat
      (fun r k' => k' = k ∧ r.map Prod.fst = (k.vm.leaf e (ppn va)).map ppn)
      (fun _ _ => False) (fun _ => False) := by
  cases ht : k.vm.table e (pdx va) with
  | none =>
    rw [pageLookup, bind_ret (pgdirWalk_absent hd hva ht),
      Vm.leaf_of_no_table (by rw [ppn_div]; exact ht)]
    exact ⟨rfl, rfl⟩
  | some t =>
    obtain ⟨d', hd', _, hpde, hppn⟩ := Vm.table_eq_some.mp ht
    obtain rfl : d' = d := Option.some.inj (hd'.symm.trans hd)
    rw [pageLookup, bind_ret (pgdirWalk_present hpde hppn (h.table_lt e _ t ht) false)]
    simp only [readWord_bind]
    have hleaf : k.vm.leaf e (ppn va) =
        if has (k.mem t (ptx va)) pteV then some (k.mem t (ptx va)) else none := by
      rw [Vm.leaf_of_table (by rw [ppn_div]; exact ht), ppn_mod]
      rfl
    split
    next hval =>
      rw [if_pos hval] at hleaf
      rw [pa2page_bind (hframes _ hleaf), hleaf]
      exact ⟨rfl, rfl⟩
    next hval =>
      rw [if_neg hval] at hleaf
      rw [hleaf]
      exact ⟨rfl, rfl⟩

/-! ## Reads in the window -/

/-- What the scan needs of the env that performs it. -/
structure Kernel.Scans (k : Kernel) (c : EnvPtr) : Prop where
  apart : k.vm.Apart
  cur : k.vm.dir c = some k.curPgdir
  self : k.mem k.curPgdir (pdx uvpt) = page2pa k.curPgdir ||| pteV
  frames : ∀ n w, k.vm.leaf c n = some w → ppn w < k.npage

theorem Kernel.Scans.selfMapped (h : k.Scans c) : k.SelfMapped k.curPgdir where
  npage_lt := h.apart.npage_lt
  lt := h.apart.dir_lt c _ h.cur
  self := h.self
  free p hp := ⟨fun hc => h.apart.free_not_dir p hp c (hc ▸ h.cur), h.apart.free_lt p hp⟩

theorem toNat_vpt {i : Nat} (hi : i < 2 ^ 20) :
    (uvpt + 4 * BitVec.ofNat 32 i).toNat = 0x7fc00000 + 4 * i := by
  have hu : uvpt.toNat = 0x7fc00000 := by decide
  have h4 : (4 * BitVec.ofNat 32 i).toNat = 4 * i := by
    rw [BitVec.toNat_mul, BitVec.toNat_ofNat, Nat.mod_eq_of_lt (a := i) (by omega)]
    exact Nat.mod_eq_of_lt (by show 4 * i < 2 ^ 32; omega)
  rw [BitVec.toNat_add, hu, h4, Nat.mod_eq_of_lt (by omega)]

theorem wordIndex_eq (va : Word) : wordIndex va = va.toNat / 4 % 1024 := by
  have hmask : (0x3ff : Word).toNat = 2 ^ 10 - 1 := rfl
  rw [wordIndex, BitVec.toNat_and, hmask, Nat.and_two_pow_sub_one_eq_mod,
    BitVec.toNat_ushiftRight, Nat.shiftRight_eq_div_pow]

/-- Where the entry `i` of the window is. -/
theorem vpt_address {i : Nat} (hi : i < 2 ^ 20) :
    uvpt + 4 * BitVec.ofNat 32 i &&& 3 = 0 ∧ pdx (uvpt + 4 * BitVec.ofNat 32 i) = pdx uvpt ∧
      ptx (uvpt + 4 * BitVec.ofNat 32 i) = i / 1024 ∧
      wordIndex (uvpt + 4 * BitVec.ofNat 32 i) = i % 1024 ∧
      passiveCheck (uvpt + 4 * BitVec.ofNat 32 i) = none := by
  have hnat := toNat_vpt hi
  generalize uvpt + 4 * BitVec.ofNat 32 i = va at hnat ⊢
  refine ⟨?_, ?_, ?_, ?_, ?_⟩
  · apply BitVec.eq_of_toNat_eq
    have hmask : (3 : Word).toNat = 2 ^ 2 - 1 := rfl
    rw [BitVec.toNat_and, hmask, Nat.and_two_pow_sub_one_eq_mod]
    show va.toNat % 4 = 0
    omega
  · rw [pdx_eq, pdx_uvpt]
    omega
  · rw [ptx_eq]
    omega
  · rw [wordIndex_eq]
    omega
  · have hge : ∀ b : Word, b.toNat ≤ 0x7fc00000 → ¬va < b := fun b hb hc => by
      have hc' : va.toNat < b.toNat := hc
      omega
    have hulim : ¬ulim ≤ va := fun hc => by
      have hc' : ulim.toNat ≤ va.toNat := hc
      have hu : ulim.toNat = 0x80000000 := by decide
      omega
    unfold passiveCheck
    rw [if_neg (hge _ (by decide)), if_neg fun hc => hge _ (by decide) hc.2,
      if_neg fun hc => hge _ (by decide) hc.2, if_neg fun hc => hge _ (by decide) hc.2,
      if_neg hulim]

/-- **Reading `vpt[i]`** gives the entry of page `i`. Its page table is there afterwards, whether it
was before or not. -/
theorem vpt_spec (h : k.Scans c) {i : Nat} (hi : i < npte) (asid : Word) :
    (vpt asid i k).Sat
      (fun w k' => k.Frame k' ∧ k.vm.Placed k'.vm c i (k.vm.leaf c i) ∧
        k'.vm.table c (i / 1024) ≠ none ∧ (if has w pteV then some w else none) = k.vm.leaf c i)
      (fun _ _ => False) (fun _ => k.pageFreeList = []) := by
  have hi' : i < 2 ^ 20 := by
    unfold npte at hi
    omega
  have hi₁ : i / 1024 < npde := by
    unfold npte at hi
    unfold npde
    omega
  obtain ⟨halign, hpdx, hptx, hword, hcheck⟩ := vpt_address hi'
  rw [vpt, loadUser, if_neg (not_not.mpr halign)]
  have htab : k.vm.table c (i / 1024) = if has (k.mem k.curPgdir (i / 1024)) pteV then
      some (ppn (k.mem k.curPgdir (i / 1024))) else none := Vm.table_of_dir h.cur hi₁
  refine sat_call (doTlbRefill_uvpt h.selfMapped hpdx asid) ?_ (fun _ _ h => h) ?_
  · rw [hptx]
    rintro pte k₁ (⟨rfl, hval, rfl⟩ | ⟨hval, p, rest, hf, rfl, rfl⟩)
    · simp only [modify_bind]
      rw [if_pos hval] at htab
      refine ⟨⟨_, _, _, _, _, rfl⟩, .refl h.apart, ?_, ?_⟩
      · show k₁.vm.table c (i / 1024) ≠ none
        rw [htab]
        nofun
      · rw [Vm.leaf_of_table htab, hword]
        rfl
    · simp only [modify_bind]
      rw [if_neg (by rw [hval]; exact nofun)] at htab
      have hmem : p ∈ k.vm.free := show p ∈ k.pageFreeList by rw [hf]; exact List.mem_cons_self
      have hlt : p < k.npage := h.apart.free_lt p hmem
      have hppn := ppn_tableEntry (lt_trans hlt h.apart.npage_lt)
      have hne : p ≠ k.curPgdir := fun hc => h.apart.free_not_dir p hmem c (hc ▸ h.cur)
      obtain ⟨hplaced, htab₁⟩ := h.apart.placeTable (n := i)
        (u := (k.adopt k.curPgdir (uvpt + 4 * BitVec.ofNat 32 i) asid p rest).vm) h.cur hi₁ htab hf
        (has_tableEntry_valid p) hppn rfl rfl rfl (by rw [← hptx]; rfl)
      refine ⟨⟨_, _, _, _, _, rfl⟩, hplaced, fun hc => ?_, ?_⟩
      · exact nomatch htab₁.symm.trans hc
      · have hzero : (k.adopt k.curPgdir (uvpt + 4 * BitVec.ofNat 32 i) asid p rest).mem p
            = fun _ => 0 := (update_of_ne hne _ _).trans (update_self _ _ _)
        rw [hppn, Vm.leaf_of_no_table htab]
        show (if has ((k.adopt k.curPgdir (uvpt + 4 * BitVec.ofNat 32 i) asid p rest).mem p _) pteV
          then _ else _) = _
        rw [hzero, if_neg (by simp [has])]
  · rw [hptx]
    rintro _ (⟨-, hc | hc⟩ | ⟨hval, hc⟩)
    · exact absurd hcheck hc
    · exact hc
    · rw [if_pos hval] at htab
      exact absurd (h.apart.table_lt c _ _ htab) (Nat.not_lt.mpr hc)

/-- Reading `vpd[i]` gives the entry of the page directory. -/
theorem vpd_spec (h : k.Scans c) {i : Nat} (hi : i < 1024) (asid : Word) :
    (vpd asid i k).Sat
      (fun w k' => k.Frame k' ∧ k'.vm = k.vm ∧ w = k.mem k.curPgdir i)
      (fun _ _ => False) (fun _ => False) := by
  have haddr : uvpt + BitVec.ofNat 32 (pdx uvpt) <<< 12 + 4 * BitVec.ofNat 32 i
      = uvpt + 4 * BitVec.ofNat 32 (511 * 1024 + i) := by
    have hwin : BitVec.ofNat 32 (pdx uvpt) <<< 12 = 4 * BitVec.ofNat 32 (511 * 1024) := by decide
    rw [hwin, BitVec.ofNat_add, BitVec.mul_add, BitVec.add_assoc]
  obtain ⟨halign, hpdx, hptx, hword, hcheck⟩ := vpt_address (i := 511 * 1024 + i) (by omega)
  have hdiv : (511 * 1024 + i) / 1024 = pdx uvpt := by
    rw [pdx_uvpt]
    omega
  have hmod : (511 * 1024 + i) % 1024 = i := by omega
  rw [hdiv] at hptx
  rw [hmod] at hword
  have hlt := h.apart.dir_lt c _ h.cur
  obtain ⟨hval, hppn⟩ := selfEntry (lt_trans hlt h.apart.npage_lt)
  rw [vpd, haddr, loadUser, if_neg (not_not.mpr halign)]
  refine sat_call (doTlbRefill_uvpt h.selfMapped hpdx asid) ?_ (fun _ _ h => h) ?_
  · rw [hptx, h.self]
    rintro pte k₁ (⟨rfl, -, rfl⟩ | ⟨hnone, -⟩)
    · simp only [modify_bind]
      refine ⟨⟨_, _, _, _, _, rfl⟩, rfl, ?_⟩
      rw [hppn, hword]
    · rw [hval] at hnone
      cases hnone
  · rw [hptx, h.self, hppn, hval]
    rintro _ (⟨hc, -⟩ | ⟨-, hc⟩)
    · cases hc
    · exact absurd hlt (Nat.not_lt.mpr hc)

/-! ## Mapping a page -/

/-- `sys_mem_map` of a page of the current env, at the same address. -/
theorem sysMemMap_placed (h : k.Scans c) (hc : k.curenv = some c) {dstid : Word}
    (hdst : envid2env dstid true k = .ret dst k) (hd : k.vm.dir dst = some (k.envs dst).envPgdir)
    (va perm : Word) (hroom : k.vm.leaf dst (ppn va) = none ∨ dst = c) :
    (sysMemMap 0 va dstid va perm k).Sat
      (fun _ k' => k.Frame k' ∧ ∃ w, k.vm.leaf c (ppn va) = some w ∧
        k.vm.Placed k'.vm dst (ppn va) (some (pageEntry (ppn w) perm)))
      (fun _ k' => k.Frame k' ∧ k'.vm = k.vm) (fun _ => False) := by
  have hframe := framed_sysMemMap 0 va dstid va perm k
  suffices hspec : (sysMemMap 0 va dstid va perm k).Sat
      (fun _ k' => ∃ w, k.vm.leaf c (ppn va) = some w ∧
        k.vm.Placed k'.vm dst (ppn va) (some (pageEntry (ppn w) perm)))
      (fun _ k' => k'.vm = k.vm) (fun _ => False) from
    (hframe.and hspec).mono (fun _ _ hq => hq) (fun _ _ hq => hq) (fun _ hq => hq.2)
  have hsrc : envid2env 0 true k = .ret c k := by
    simp [envid2env, get_bind, hc]
  have hdc : k.vm.dir c = some (k.envs c).envPgdir := dir_of_live (dir_eq_some.mp h.cur).1
  unfold sysMemMap
  split
  · exact rfl
  next hlegal =>
    have hva : pdx va < npde := by
      rw [Bool.or_self] at hlegal
      exact pdx_lt_of_lt_utop (legal_of_not_illegal hlegal)
    rw [bind_ret hsrc, bind_ret hdst, get_bind]
    refine sat_call (pageLookup_leaf h.apart hdc hva fun w hw => h.frames _ w hw) ?_
      (fun _ _ h => h.elim) (fun _ h => h)
    rintro r k₁ ⟨hk₁, hr⟩
    rw [hk₁]
    cases r with
    | none => exact rfl
    | some r =>
      obtain ⟨pp, t, j⟩ := r
      obtain ⟨w, hw, hpp⟩ := Option.map_eq_some_iff.mp hr.symm
      obtain rfl : ppn w = pp := hpp
      have hinsert : (pageInsert (k.envs dst).envPgdir (k.envs dst).envAsid (ppn w) va perm k).Sat
          (fun _ k' => k.vm.Placed k'.vm dst (ppn va) (some (pageEntry (ppn w) perm)))
          (fun _ k' => k'.vm = k.vm) (fun _ => False) := by
        rcases hroom with hnone | rfl
        · exact pageInsert_placed h.apart hd hva hnone _ perm _
        · exact (pageInsert_replaced h.apart hd hw (h.frames _ w hw) perm _).mono
            (fun _ _ hq => hq) (fun _ _ hq => hq.elim) (fun _ hq => hq)
      refine sat_call hinsert ?_ (fun _ _ h => h) (fun _ h => h)
      exact fun _ k₁ hplaced => ⟨w, hw, hplaced⟩

/-! ## The run -/

/-- `PTE_D` replaced by `PTE_COW`. -/
def cowEntry (w : Word) : Word := (w ||| pteCow) &&& ~~~pteD

theorem pageEntry_cowPerm (h : has w pteV = true) :
    pageEntry (ppn w) (cowPerm (ptePerm w)) = cowEntry w := by
  have hpage : page2pa (ppn w) = w &&& ~~~0xfff := by
    apply BitVec.eq_of_toNat_eq
    rw [page2pa_toNat (ppn_lt w), ppn_eq]
    exact (pteAddr_toNat w).symm
  -- bit by bit: only the bits of the flags can differ, and `PTE_V` is set anyway
  have hbits : ∀ (i : Fin 32) (b : Bool), (i = 9 → b = true) →
      (b && (~~~0xfff : Word).getLsbD i ||
        (b && (0xfff : Word).getLsbD i || pteCow.getLsbD i) && (~~~pteD : Word).getLsbD i ||
        pteV.getLsbD i) = ((b || pteCow.getLsbD i) && (~~~pteD : Word).getLsbD i) := by decide
  unfold pageEntry cowPerm ptePerm cowEntry
  rw [hpage]
  apply BitVec.eq_of_getLsbD_eq
  intro i hi
  simp only [BitVec.getLsbD_or, BitVec.getLsbD_and]
  refine hbits ⟨i, hi⟩ (w.getLsbD i) fun h9 => ?_
  obtain rfl : i = 9 := congrArg Fin.val h9
  exact (has_bit w 9 hi).symm.trans h

/-- The entry of a page is as it was, or it has `PTE_COW` for `PTE_D` and was writable and not
shared. -/
def CowOf (o o' : Option Word) : Prop :=
  o' = o ∨ ∃ w, o = some w ∧ dupCow (ptePerm w) = true ∧ o' = some (cowEntry w)

/-- What happens to the memory during the scan by `c`: `c` and its child `ch` get page tables. -/
structure Grown (c ch : EnvPtr) (k₀ k : Kernel) : Prop where
  frame : k₀.Frame k
  scans : k.Scans c
  keep : ∀ i t, k₀.vm.table c i = some t → k.vm.table c i = some t
  high : ∀ i, npde ≤ i → k.mem k₀.curPgdir i = k₀.mem k₀.curPgdir i
  frames : k.pageFreeList.length + k.vm.tables c + k.vm.tables ch
    = k₀.pageFreeList.length + k₀.vm.tables c + k₀.vm.tables ch

theorem Grown.refl (h : k.Scans c) : Grown c ch k k :=
  ⟨.refl k, h, fun _ _ ht => ht, fun _ _ => rfl, rfl⟩

theorem Grown.same (h : Grown c ch k₀ k) (hf : k.Frame k') (hvm : k'.vm = k.vm) :
    Grown c ch k₀ k' := by
  have hmem : k'.mem = k.mem := congrArg Vm.mem hvm
  have hfree : k'.pageFreeList = k.pageFreeList := congrArg Vm.free hvm
  refine ⟨h.frame.trans _ _ _ hf, ⟨?_, ?_, ?_, ?_⟩, ?_, ?_, ?_⟩
  · rw [hvm]
    exact h.scans.apart
  · rw [hvm, hf.curPgdir]
    exact h.scans.cur
  · rw [hmem, hf.curPgdir]
    exact h.scans.self
  · rw [hvm, hf.npage]
    exact h.scans.frames
  · rw [hvm]
    exact h.keep
  · rw [hmem]
    exact h.high
  · rw [hvm, hfree]
    exact h.frames

theorem Grown.placed (h : Grown c ch k₀ k) (hne : ch ≠ c) (hf : k.Frame k') {o : Option Word}
    (hp : k.vm.Placed k'.vm e n o) (he : e = c ∨ e = ch)
    (ho : e = c → ∀ w, o = some w → ppn w < k.npage) : Grown c ch k₀ k' := by
  have hcur := h.scans.cur
  have hhigh : ∀ i, npde ≤ i → k'.mem k.curPgdir i = k.mem k.curPgdir i :=
    fun i hi => hp.high c _ hcur i hi
  have hcur₀ : k.curPgdir = k₀.curPgdir := h.frame.curPgdir
  refine ⟨h.frame.trans _ _ _ hf, ⟨hp.apart, ?_, ?_, ?_⟩, ?_, ?_, ?_⟩
  · rw [hp.dir, hf.curPgdir]
    exact hcur
  · rw [hf.curPgdir, hhigh _ (by decide)]
    exact h.scans.self
  · intro m w hw
    rw [hp.leaf] at hw
    rw [hf.npage]
    split at hw
    next hc => exact ho hc.1.symm w hw
    next => exact h.scans.frames m w hw
  · exact fun i t ht => hp.keep c i t (h.keep i t ht)
  · intro i hi
    rw [← hcur₀, hhigh i hi, hcur₀]
    exact h.high i hi
  · have hcount : k'.pageFreeList.length + k'.vm.tables e = k.pageFreeList.length + k.vm.tables e :=
      hp.frames
    have hconst := h.frames
    rcases he with rfl | rfl
    · have hother : k'.vm.tables ch = k.vm.tables ch :=
        Vm.tables_congr fun i => hp.other ch i hne
      omega
    · have hother : k'.vm.tables c = k.vm.tables c :=
        Vm.tables_congr fun i => hp.other c i hne.symm
      omega

/-- The scan by `c`, for its child `ch`, has come to page `n`. -/
structure Scanned (c ch : EnvPtr) (k₀ : Kernel) (n : Nat) (k : Kernel) : Prop where
  grown : Grown c ch k₀ k
  child : ∀ m, n ≤ m → k.vm.leaf ch m = none
  ahead : ∀ m, n ≤ m → k.vm.leaf c m = k₀.vm.leaf c m
  behind : ∀ m, CowOf (k₀.vm.leaf c m) (k.vm.leaf c m)
  done : ∀ i, i * 1024 < n → k.vm.table c i ≠ none

/-- The scan is performed by `c`, for its child `ch`. -/
structure Forking (c ch : EnvPtr) (child : Word) (k : Kernel) : Prop where
  cur : k.curenv = some c
  child : envid2env child true k = .ret ch k
  ne : ch ≠ c
  live : k.Live ch

theorem Forking.frame (h : Forking c ch child k) (hf : k.Frame k') : Forking c ch child k' := by
  refine ⟨hf.curenv.trans h.cur, ?_, h.ne, ?_⟩
  · exact (envid2env_congr hf.envs hf.curenv child true ch).mpr h.child
  · unfold Kernel.Live
    rw [hf.envs]
    exact h.live

theorem Vm.Placed.table_ne_none {v u : Vm} {o : Option Word} (h : v.Placed u e n o) {e' : EnvPtr}
    {i : Nat} (ht : v.table e' i ≠ none) : u.table e' i ≠ none := by
  obtain ⟨t, ht'⟩ := Option.ne_none_iff_exists'.mp ht
  rw [h.keep e' i t ht']
  nofun

/-- What a round of the loop does to the mappings. -/
structure PageStep (c ch : EnvPtr) (n : Nat) (k k' : Kernel) : Prop where
  child : ∀ m, m ≠ n → k'.vm.leaf ch m = k.vm.leaf ch m
  others : ∀ m, m ≠ n → k'.vm.leaf c m = k.vm.leaf c m
  here : CowOf (k.vm.leaf c n) (k'.vm.leaf c n)
  keep : ∀ i, k.vm.table c i ≠ none → k'.vm.table c i ≠ none

theorem PageStep.refl (k : Kernel) : PageStep c ch n k k :=
  ⟨fun _ _ => rfl, fun _ _ => rfl, .inl rfl, fun _ ht => ht⟩

theorem ppn_shift {n : Nat} (hn : n < 2 ^ 20) : ppn (BitVec.ofNat 32 n <<< 12) = n := by
  exact ppn_page2pa hn

/-- A call of `duppage` that maps page `n` into the child. -/
theorem dupChild_spec (h : Grown c ch k₀ k) (hfk : Forking c ch child k₀) (hn : n < 2 ^ 20)
    (hl : k.vm.leaf ch n = none) (perm : Word) :
    (attempt (sysMemMap 0 (BitVec.ofNat 32 n <<< 12) child (BitVec.ofNat 32 n <<< 12) perm) k).Sat
      (fun _ k' => Grown c ch k₀ k' ∧ (∀ m, m ≠ n → k'.vm.leaf ch m = k.vm.leaf ch m) ∧
        k'.vm.leaf c = k.vm.leaf c ∧ ∀ i, k.vm.table c i ≠ none → k'.vm.table c i ≠ none)
      (fun _ _ => False) (fun _ => False) := by
  have hfk' := hfk.frame h.frame
  have hppn := ppn_shift hn
  rw [sat_attempt]
  refine (sysMemMap_placed h.scans hfk'.cur hfk'.child (dir_of_live hfk'.live)
    (BitVec.ofNat 32 n <<< 12) perm (.inl (by rw [hppn]; exact hl))).mono ?_ ?_ (fun _ hq => hq)
  · rw [hppn]
    rintro _ k' ⟨hf, w, -, hp⟩
    refine ⟨h.placed hfk.ne hf hp (.inr rfl) fun hc => absurd hc hfk.ne, ?_, ?_, ?_⟩
    · intro m hm
      rw [hp.leaf, if_neg fun hc => hm hc.2]
    · funext m
      rw [hp.leaf, if_neg fun hc => hfk.ne hc.1.symm]
    · exact fun i => hp.table_ne_none
  · rintro _ k' ⟨hf, hvm⟩
    exact ⟨h.same hf hvm, fun m _ => by rw [hvm], by rw [hvm], fun i ht => by rw [hvm]; exact ht⟩

/-- A call of `duppage` that gives page `n` of the caller other permissions. -/
theorem dupSelf_spec (h : Grown c ch k₀ k) (hfk : Forking c ch child k₀) (hn : n < 2 ^ 20)
    (hl : k.vm.leaf c n = some w) (hperm : perm < 4096) :
    (attempt (sysMemMap 0 (BitVec.ofNat 32 n <<< 12) 0 (BitVec.ofNat 32 n <<< 12) perm) k).Sat
      (fun _ k' => Grown c ch k₀ k' ∧ k'.vm.leaf ch = k.vm.leaf ch ∧
        (∀ m, m ≠ n → k'.vm.leaf c m = k.vm.leaf c m) ∧
        (k'.vm.leaf c n = some w ∨ k'.vm.leaf c n = some (pageEntry (ppn w) perm)) ∧
        ∀ i, k.vm.table c i ≠ none → k'.vm.table c i ≠ none)
      (fun _ _ => False) (fun _ => False) := by
  have hfk' := hfk.frame h.frame
  have hppn := ppn_shift hn
  have hself : envid2env 0 true k = .ret c k := by
    simp [envid2env, get_bind, hfk'.cur]
  have hlive : k.Live c := (dir_eq_some.mp h.scans.cur).1
  have hframe := h.scans.frames n w hl
  rw [sat_attempt]
  refine (sysMemMap_placed h.scans hfk'.cur hself (dir_of_live hlive)
    (BitVec.ofNat 32 n <<< 12) perm (.inr rfl)).mono ?_ ?_ (fun _ hq => hq)
  · rw [hppn]
    rintro _ k' ⟨hf, w', hw', hp⟩
    obtain rfl : w' = w := Option.some.inj (hw'.symm.trans hl)
    have hentry : ppn (pageEntry (ppn w') perm) = ppn w' := ppn_entry (ppn_lt w') hperm
    refine ⟨h.placed hfk.ne hf hp (.inl rfl) fun _ x hx => ?_, ?_, ?_, .inr ?_, ?_⟩
    · rw [← Option.some.inj hx, hentry]
      exact hframe
    · funext m
      rw [hp.leaf, if_neg fun hc => hfk.ne hc.1]
    · intro m hm
      rw [hp.leaf, if_neg fun hc => hm hc.2]
    · rw [hp.leaf, if_pos ⟨rfl, rfl⟩]
    · exact fun i => hp.table_ne_none
  · rintro _ k' ⟨hf, hvm⟩
    refine ⟨h.same hf hvm, by rw [hvm], fun m _ => by rw [hvm], .inl ?_, fun i ht => ?_⟩
    · rw [hvm, hl]
    · rw [hvm]
      exact ht

/-- **`duppage`** of a mapped page. -/
theorem duppage_spec (h : Grown c ch k₀ k) (hfk : Forking c ch child k₀) (hn : n < npte)
    (hw : k.vm.leaf c n = some w) (hl : k.vm.leaf ch n = none) (asid : Word) :
    (duppage asid child n k).Sat (fun _ k' => Grown c ch k₀ k' ∧ PageStep c ch n k k')
      (fun _ _ => False) (fun _ => ∃ k₁, Grown c ch k₀ k₁ ∧ k₁.pageFreeList = []) := by
  have hn' : n < 2 ^ 20 := by
    unfold npte at hn
    omega
  have hperm := ptePerm_lt w
  unfold duppage
  refine sat_call (vpt_spec h.scans hn asid) ?_ (fun _ _ h => h) (fun _ hf => ⟨k, h, hf⟩)
  rintro w₁ k₁ ⟨hf₁, hp₁, -, hread⟩
  have h₁ := h.placed hfk.ne hf₁ hp₁ (.inl rfl) fun _ x hx => h.scans.frames n x hx
  have hleaf₁ := hp₁.leaf_eq
  obtain rfl : w₁ = w := by
    rw [hw] at hread
    split at hread
    next => exact Option.some.inj hread
    next => cases hread
  have hval := Vm.leaf_valid hw
  simp only
  split
  next hcow =>
    refine sat_call (dupChild_spec h₁ hfk hn' (by rw [hleaf₁]; exact hl) _) ?_ (fun _ _ h => h)
      (fun _ h => h.elim)
    rintro _ k₂ ⟨h₂, hchild₂, hleaf₂, hkeep₂⟩
    have hw₂ : k₂.vm.leaf c n = some w₁ := by rw [hleaf₂, hleaf₁, hw]
    refine sat_call (dupSelf_spec h₂ hfk hn' hw₂ (cowPerm_lt hperm)) ?_ (fun _ _ h => h)
      (fun _ h => h.elim)
    rintro _ k₃ ⟨h₃, hchild₃, hothers₃, hhere₃, hkeep₃⟩
    refine ⟨h₃, ?_, ?_, ?_, ?_⟩
    · intro m hm
      rw [hchild₃, hchild₂ m hm, hleaf₁]
    · intro m hm
      rw [hothers₃ m hm, hleaf₂, hleaf₁]
    · rw [hw]
      rcases hhere₃ with hsame | hnew
      · exact .inl hsame
      · exact .inr ⟨w₁, rfl, hcow, by rw [hnew, pageEntry_cowPerm hval]⟩
    · exact fun i ht => hkeep₃ i (hkeep₂ i (hp₁.table_ne_none ht))
  next =>
    refine sat_call (dupChild_spec h₁ hfk hn' (by rw [hleaf₁]; exact hl) _) ?_ (fun _ _ h => h)
      (fun _ h => h.elim)
    rintro _ k₂ ⟨h₂, hchild₂, hleaf₂, hkeep₂⟩
    refine ⟨h₂, ?_, ?_, .inl ?_, ?_⟩
    · intro m hm
      rw [hchild₂ m hm, hleaf₁]
    · intro m hm
      rw [hleaf₂, hleaf₁]
    · rw [hleaf₂, hleaf₁]
    · exact fun i ht => hkeep₂ i (hp₁.table_ne_none ht)

theorem Scanned.step (h : Scanned c ch k₀ n k) (hg : Grown c ch k₀ k') (hs : PageStep c ch n k k')
    (ht : k'.vm.table c (n / 1024) ≠ none) : Scanned c ch k₀ (n + 1) k' := by
  refine ⟨hg, ?_, ?_, ?_, ?_⟩
  · intro m hm
    rw [hs.child m (by omega)]
    exact h.child m (by omega)
  · intro m hm
    rw [hs.others m (by omega)]
    exact h.ahead m (by omega)
  · intro m
    by_cases hm : m = n
    · rw [hm, ← h.ahead n (le_refl n)]
      exact hs.here
    · rw [hs.others m hm]
      exact h.behind m
  · intro i hi
    by_cases hin : i * 1024 < n
    · exact hs.keep i (h.done i hin)
    · rwa [show n / 1024 = i by omega] at ht

/-- **One round of the loop.** -/
theorem forkPage_spec (h : Scanned c ch k₀ n k) (hfk : Forking c ch child k₀) (hn : n < npte)
    (asid : Word) :
    (forkPage asid child n k).Sat (fun _ k' => Scanned c ch k₀ (n + 1) k') (fun _ _ => False)
      (fun _ => ∃ k₁, Grown c ch k₀ k₁ ∧ k₁.pageFreeList = []) := by
  unfold forkPage
  refine sat_call (vpt_spec h.grown.scans hn asid) ?_ (fun _ _ h => h)
    (fun _ hf => ⟨k, h.grown, hf⟩)
  rintro w k₁ ⟨hf₁, hp₁, htab₁, hread⟩
  have h₁ := h.grown.placed hfk.ne hf₁ hp₁ (.inl rfl) fun _ x hx => h.grown.scans.frames n x hx
  have hleaf₁ := hp₁.leaf_eq
  have hstep₁ : PageStep c ch n k k₁ :=
    ⟨fun m _ => by rw [hleaf₁], fun m _ => by rw [hleaf₁], .inl (by rw [hleaf₁]),
      fun i => hp₁.table_ne_none⟩
  split
  next hval =>
    rw [if_pos hval] at hread
    have hi : n / 1024 < 1024 := by
      unfold npte at hn
      omega
    refine sat_call (vpd_spec h₁.scans hi asid) ?_ (fun _ _ h => h.elim) (fun _ h => h.elim)
    rintro pde k₂ ⟨hf₂, hvm₂, -⟩
    have h₂ := h₁.same hf₂ hvm₂
    split
    · refine (duppage_spec h₂ hfk hn (w := w) ?_ ?_ asid).mono ?_ (fun _ _ h => h) (fun _ h => h)
      · rw [hvm₂, hleaf₁, ← hread]
      · rw [hvm₂, hleaf₁]
        exact h.child n (le_refl n)
      · rintro _ k₃ ⟨h₃, hs₃⟩
        refine h.step h₃ ⟨?_, ?_, ?_, ?_⟩ (hs₃.keep _ (by rw [hvm₂]; exact htab₁))
        · intro m hm
          rw [hs₃.child m hm, hvm₂, hleaf₁]
        · intro m hm
          rw [hs₃.others m hm, hvm₂, hleaf₁]
        · have hhere := hs₃.here
          rw [hvm₂, hleaf₁] at hhere
          exact hhere
        · exact fun i ht => hs₃.keep i (by rw [hvm₂]; exact hp₁.table_ne_none ht)
    · refine h.step h₂ ⟨?_, ?_, ?_, ?_⟩ (by rw [hvm₂]; exact htab₁)
      · exact fun m hm => by rw [hvm₂, hleaf₁]
      · exact fun m hm => by rw [hvm₂, hleaf₁]
      · exact .inl (by rw [hvm₂, hleaf₁])
      · exact fun i ht => by rw [hvm₂]; exact hp₁.table_ne_none ht
  next => exact h.step h₁ hstep₁ htab₁

/-- **The whole scan.** It only fails for want of memory. -/
theorem forkScan_spec (h : k.Scans c) (hfk : Forking c ch child k)
    (hempty : ∀ i, k.vm.table ch i = none) (asid : Word) :
    (forkScan asid child k).Sat (fun _ k' => Scanned c ch k (ppn ustacktop) k') (fun _ _ => False)
      (fun _ => ∃ k₁, Grown c ch k k₁ ∧ k₁.pageFreeList = []) := by
  have hstart : Scanned c ch k 0 k :=
    ⟨.refl h, fun m _ => Vm.leaf_of_no_table (hempty _), fun _ _ => rfl, fun _ => .inl rfl,
      fun i hi => absurd hi (Nat.not_lt_zero _)⟩
  have hloop := sat_loop (I := fun n k' => Scanned c ch k n k') (n := ppn ustacktop)
    (fun n k' _ hn hk' => forkPage_spec hk' hfk (by
      have hmax : ppn ustacktop < npte := by decide
      omega) asid) hstart
  rwa [Nat.zero_add] at hloop

theorem forkScan_returns (h : k.Scans c) (hfk : Forking c ch child k)
    (hempty : ∀ i, k.vm.table ch i = none) (hroom : 2 * npde < k.pageFreeList.length)
    (asid : Word) : ∃ k', forkScan asid child k = .ret () k' := by
  have hspec := forkScan_spec h hfk hempty asid
  cases hend : forkScan asid child k with
  | ret u k' => exact ⟨k', rfl⟩
  | err er k' =>
    rw [hend] at hspec
    exact hspec.elim
  | halt p =>
    rw [hend] at hspec
    obtain ⟨k₁, hg, hnil⟩ := hspec
    have hframes := hg.frames
    have hc := k₁.vm.tables_le c
    have hch := k₁.vm.tables_le ch
    rw [hnil, List.length_nil] at hframes
    omega

/-! ## When the tables stay -/

/-- The page directory of `c`, the current env in `k`, has the same valid entries in `k'`, and its
mappings are as they were but for `PTE_COW` in the place of `PTE_D`. -/
structure Kernel.ForkKeeps (k : Kernel) (c : EnvPtr) (k' : Kernel) : Prop where
  pdes : ∀ i < 1024, has (k'.mem k.curPgdir i) pteV = has (k.mem k.curPgdir i) pteV
  leaves : ∀ n, CowOf (k.vm.leaf c n) (k'.vm.leaf c n)

theorem valid_iff_table (h : k.vm.dir c = some d) {i : Nat} (hi : i < npde) :
    has (k.mem d i) pteV = true ↔ k.vm.table c i ≠ none := by
  rw [Vm.table_of_dir h hi]
  show has (k.mem d i) pteV = true ↔ (if has (k.mem d i) pteV then _ else _) ≠ none
  split
  next hv => simp [hv]
  next hv => simp [hv]

/-- After the scan all tables are there, so nothing has changed only if they were all there
before. -/
theorem Scanned.keeps_iff (h : Scanned c ch k (ppn ustacktop) k') (hcur : k.vm.dir c = some k.curPgdir) :
    k.ForkKeeps c k' ↔ ∀ i < npde, k.vm.table c i ≠ none := by
  have hcur' : k'.vm.dir c = some k.curPgdir := by
    rw [h.grown.frame.dir]
    exact hcur
  have hdone : ∀ i < npde, has (k'.mem k.curPgdir i) pteV = true := by
    intro i hi
    refine (valid_iff_table hcur' hi).mpr (h.done i ?_)
    have hmax : ppn ustacktop = 521214 := by decide
    unfold npde at hi
    omega
  constructor
  · intro hk i hi
    have hsame := hk.pdes i (by unfold npde at hi; omega)
    rw [hdone i hi] at hsame
    exact (valid_iff_table hcur hi).mp hsame.symm
  · intro hall
    refine ⟨fun i _ => ?_, h.behind⟩
    by_cases hi : i < npde
    · rw [hdone i hi, (valid_iff_table hcur hi).mpr (hall i hi)]
    · rw [h.grown.high i (Nat.le_of_not_lt hi)]

/-- **`fork` leaves the page tables of its caller in place only if there are all of them.** Every
page table that is missing below `UTOP` is there after the scan. -/
theorem fork_scan_keeps_tables_iff (h : k.Scans c) (hfk : Forking c ch child k)
    (hempty : ∀ i, k.vm.table ch i = none) (hret : forkScan asid child k = .ret () k') :
    k.ForkKeeps c k' ↔ ∀ i < npde, k.vm.table c i ≠ none := by
  have hspec := forkScan_spec h hfk hempty asid
  rw [hret] at hspec
  exact Scanned.keeps_iff hspec h.cur

/-- In every state that is in order, the current env can perform the scan. -/
theorem Kernel.Good.scans (h : k.Good M) (hc : k.curenv = some c) : k.Scans c where
  apart := h.inv.vm.apart
  cur := h.inv.cur c hc
  self := h.dirs.self _ (h.inv.vm.dir_mem c _ (h.inv.cur c hc))
  frames _ _ hw := h.inv.vm.leaf_lt_npage hw

/-- A machine with more than a thousand free frames. -/
def roomyBoot : Boot :=
  { npage := 1300, freemem := 61, pagesPa := 57, envsPa := 1, mem := fun _ _ => 0
    npage_lt := by decide, pages_fit := by decide, envs_fit := by decide }

/-- A process without pages and its new child (id 4097). -/
theorem exists_forking : ∃ k k', k.Scans 0 ∧ Forking 0 1 4097 k ∧ (∀ i, k.vm.table 1 i = none) ∧
    forkScan 0 4097 k = .ret () k' ∧ k.vm.table 0 0 = none := by
  obtain ⟨k, hk, htest⟩ := exists_fitting roomyBoot
    [.envCreate (some emptyImage) 1, .timer, .exofork]
    (fun k => (envid2env 4097 true k).retAnd fun e _ =>
      decide (e = 1) && k.curenv == some 0 && k.vm.table 0 0 == none &&
        decide (2 * npde < k.pageFreeList.length) &&
        (List.range npde).all fun i => k.vm.table 1 i == none) (by decide +kernel)
  obtain ⟨M, hgood⟩ := hk.reach.good
  have hread := envid2env_read (fun _ => hgood.inv.live_cur) 4097 true
  obtain ⟨e, k₁, hret, htest⟩ := Outcome.retAnd_eq_true.mp htest
  rw [hret] at hread
  obtain ⟨rfl, hlive, -, -⟩ := hread
  simp only [Bool.and_eq_true, decide_eq_true_eq, beq_iff_eq, List.all_eq_true,
    List.mem_range] at htest
  obtain ⟨⟨⟨⟨rfl, hcur⟩, htab⟩, hroom⟩, hnone⟩ := htest
  have hscans := hgood.scans hcur
  have hfk : Forking 0 1 4097 k := ⟨hcur, hret, by decide, hlive⟩
  have hempty : ∀ i, k.vm.table 1 i = none := by
    intro i
    by_cases hi : i < npde
    · exact hnone i hi
    · unfold Vm.table
      split
      · rfl
      · rw [if_neg fun hc => hi hc.1]
  obtain ⟨k', hk'⟩ := forkScan_returns hscans hfk hempty hroom 0
  exact ⟨k, k', hscans, hfk, hempty, hk', htab⟩

theorem fork_scan_keeps_tables_small : ∃ k k', k.Scans 0 ∧ Forking 0 1 4097 k ∧
    (∀ i, k.vm.table 1 i = none) ∧ forkScan 0 4097 k = .ret () k' ∧ ¬k.ForkKeeps 0 k' := by
  obtain ⟨k, k', hscans, hfk, hempty, hret, htab⟩ := exists_forking
  refine ⟨k, k', hscans, hfk, hempty, hret, fun hkeeps => ?_⟩
  exact (fork_scan_keeps_tables_iff hscans hfk hempty hret).mp hkeeps 0 (by decide) htab

/-- **A process without pages gets 509 page tables from `fork`.** -/
theorem fork_scan_adds_tables : ¬∀ (k k' : Kernel) (c ch : EnvPtr) (child asid : Word),
    k.Scans c → Forking c ch child k → (∀ i, k.vm.table ch i = none) →
      forkScan asid child k = .ret () k' → k.ForkKeeps c k' := by
  intro hall
  obtain ⟨k, k', hscans, hfk, hempty, hret, htab⟩ := exists_forking
  have hspec := forkScan_spec hscans hfk hempty 0
  rw [hret] at hspec
  have hkeeps := hall k k' 0 1 4097 0 hscans hfk hempty hret
  exact (Scanned.keeps_iff hspec hscans.cur).mp hkeeps 0 (by decide) htab

end Mos
