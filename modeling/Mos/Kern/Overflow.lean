import Mos.Kern.Coherence

/-!
# A count that wraps

`pp_ref` is a `u_short`, and `page_insert` adds one to it without a look. An env that maps one of its
frames at 65537 pages brings the count back to 1. The state after any number of such calls is given
by `Kernel.flooded`: `flood_map` says that one call leads from one of them to the next. From then on
the frame is freed with its first mapping, becomes a page table, is freed once more and is cleared
under the eyes of the TLB (`tlb_stale`).
-/

namespace Mos

open Lib Prog Function

variable {k : Kernel} {d f p n t : Nat} {c : EnvPtr} {va asid perm w : Word}

/-! ## `page_insert`, whatever the rest of the memory holds -/

/-- `page_insert` at a free place of a page table. -/
theorem pageInsert_present (hpde : has (k.mem d (pdx va)) pteV = true)
    (ht : ppn (k.mem d (pdx va)) = t) (hlt : t < k.npage)
    (hpte : has (k.mem t (ptx va)) pteV = false) (asid : Word) (f : Nat) (perm : Word) :
    pageInsert d asid f va perm k = .ret ()
      (((k.flush asid va).setWord t (ptx va) (pageEntry f perm)).setRef f (k.ppRef f + 1)) := by
  rw [pageInsert, bind_ret (pgdirWalk_present hpde ht hlt false)]
  simp only [readWord_bind, hpte, Bool.false_eq_true, if_false]
  exact pageInsertNew_present hpde ht hlt asid f perm

/-- `page_insert` where the page table is missing. -/
theorem pageInsert_fresh (hpde : has (k.mem d (pdx va)) pteV = false) {rest : List Nat}
    (hf : k.pageFreeList = t :: rest) (hlt : t < k.npage) (hnp : k.npage < 2 ^ 20)
    (asid : Word) (hft : f ≠ t) (perm : Word) :
    pageInsert d asid f va perm k = .ret ()
      ((((k.flush asid va).newTable d (pdx va) t rest).setWord t (ptx va)
        (pageEntry f perm)).setRef f (k.ppRef f + 1)) := by
  have href : ((k.flush asid va).newTable d (pdx va) t rest).ppRef f = k.ppRef f :=
    update_of_ne hft _ _
  rw [pageInsert, bind_ret (pgdirWalk_missing hpde), ← href]
  exact pageInsertNew_fresh hpde hf hlt hnp asid f perm

/-! ## One frame at many pages -/

/-- The number of page tables for `n` pages. -/
def tables (n : Nat) : Nat := (n + 1023) / 1024

/-- `k` after the frame `f` is mapped at `n` pages, from the page table number `p` of the page
directory `d` on, with the entry `w`. The page tables are the first free frames. -/
def Kernel.flooded (k : Kernel) (d f p : Nat) (w : Word) (n : Nat) : Kernel :=
  { k with
    mem := fun g x =>
      if g = d ∧ p ≤ x ∧ x < p + tables n then
        page2pa (k.pageFreeList.getD (x - p) 0) ||| pteV ||| pteD
      else if k.pageFreeList.idxOf g < tables n then
        if x < 1024 ∧ k.pageFreeList.idxOf g * 1024 + x < n then w else 0
      else k.mem g x
    ppRef := fun g =>
      if g = f then k.ppRef f + BitVec.ofNat 16 n
      else if k.pageFreeList.idxOf g < tables n then 1 else k.ppRef g
    pageFreeList := k.pageFreeList.drop (tables n)
    tlb := [] }

/-- The address of page `n` from the page table number `p` on. -/
def floodVa (p n : Nat) : Word := page2pa (p * 1024 + n)

/-- The current env maps `f` at `va` with the entry `w`, by the page table `t`, and has no page table
from number `p` on. -/
structure Kernel.Floodable (k : Kernel) (c : EnvPtr) (d f p t : Nat) (va perm : Word) : Prop where
  curenv : k.curenv = some c
  pgdir : (k.envs c).envPgdir = d
  tlb : k.tlb = []
  npage : k.npage < 2 ^ 20
  legal : isIllegalVa va = false
  pdx : pdx va < p
  pde : has (k.mem d (Mos.pdx va)) pteV = true
  table : ppn (k.mem d (Mos.pdx va)) = t
  table_lt : t < k.npage
  pte : k.mem t (ptx va) = pageEntry f perm
  perm : perm < 4096
  frame_lt : f < k.npage
  empty : ∀ i, p ≤ i → i < 509 → has (k.mem d i) pteV = false
  nodup : k.pageFreeList.Nodup
  free_lt : ∀ g ∈ k.pageFreeList, g < k.npage ∧ k.ppRef g = 0
  used : d ∉ k.pageFreeList ∧ t ∉ k.pageFreeList ∧ f ∉ k.pageFreeList
  ne : t ≠ d

theorem Kernel.eq_flooded {k' : Kernel}
    (hk : k' = { k with
      mem := k'.mem, ppRef := k'.ppRef, pageFreeList := k'.pageFreeList, tlb := k'.tlb })
    (hmem : k'.mem = (k.flooded d f p w n).mem) (href : k'.ppRef = (k.flooded d f p w n).ppRef)
    (hfree : k'.pageFreeList = k.pageFreeList.drop (tables n)) (htlb : k'.tlb = []) :
    k' = k.flooded d f p w n := by
  rw [hk, hmem, href, hfree, htlb]
  rfl

theorem floodVa_toNat (h : p * 1024 + n < 2 ^ 20) : (floodVa p n).toNat = (p * 1024 + n) * 4096 :=
  page2pa_toNat h

theorem pdx_floodVa (h : p * 1024 + n < 2 ^ 20) : pdx (floodVa p n) = p + n / 1024 := by
  rw [pdx_eq, floodVa_toNat h]
  omega

theorem ptx_floodVa (h : p * 1024 + n < 2 ^ 20) : ptx (floodVa p n) = n % 1024 := by
  rw [ptx_eq, floodVa_toNat h]
  omega

/-- One more page leaves all frames alone but the last page table. -/
theorem flood_mem_succ {g : Nat} (hd : g ≠ d) (hidx : k.pageFreeList.idxOf g ≠ n / 1024) (x : Nat) :
    (k.flooded d f p w n).mem g x = (k.flooded d f p w (n + 1)).mem g x := by
  have htab : k.pageFreeList.idxOf g < tables n ↔ k.pageFreeList.idxOf g < tables (n + 1) := by
    unfold tables
    omega
  simp only [Kernel.flooded, hd, false_and, if_false, htab]
  split
  next hlt =>
    unfold tables at hlt
    refine if_congr ?_ rfl rfl
    omega
  next => rfl

theorem flood_ref_succ {g : Nat} (hf : g ≠ f) (hidx : k.pageFreeList.idxOf g ≠ n / 1024) :
    (k.flooded d f p w n).ppRef g = (k.flooded d f p w (n + 1)).ppRef g := by
  have htab : k.pageFreeList.idxOf g < tables n ↔ k.pageFreeList.idxOf g < tables (n + 1) := by
    unfold tables
    omega
  simp only [Kernel.flooded, hf, if_false, htab]

theorem flood_ref_frame :
    (k.flooded d f p w (n + 1)).ppRef f = (k.flooded d f p w n).ppRef f + 1 := by
  simp only [Kernel.flooded, if_true]
  rw [BitVec.add_assoc, BitVec.ofNat_add]
  rfl

section Flood

variable (h : k.Floodable c d f p t va perm)

include h

theorem flood_zero : k.flooded d f p (pageEntry f perm) 0 = k := by
  have hmem : (k.flooded d f p (pageEntry f perm) 0).mem = k.mem := by
    funext g x
    simp [Kernel.flooded, tables, show ¬(p ≤ x ∧ x < p) by omega]
  have href : (k.flooded d f p (pageEntry f perm) 0).ppRef = k.ppRef := by
    funext g
    by_cases hg : g = f <;> simp [Kernel.flooded, tables, hg]
  show { k with
    mem := (k.flooded d f p (pageEntry f perm) 0).mem
    ppRef := (k.flooded d f p (pageEntry f perm) 0).ppRef
    pageFreeList := k.pageFreeList.drop 0
    tlb := [] } = k
  rw [hmem, href, ← h.tlb]
  rfl

theorem flood_dir_below {i : Nat} (hi : i < p) (hn : tables n ≤ k.pageFreeList.length) :
    (k.flooded d f p (pageEntry f perm) n).mem d i = k.mem d i := by
  have hidx : ¬k.pageFreeList.idxOf d < tables n := by
    rw [List.idxOf_eq_length h.used.1]
    omega
  simp [Kernel.flooded, hidx, show ¬p ≤ i by omega]

theorem flood_table_mem (i : Nat) (hn : tables n ≤ k.pageFreeList.length) :
    (k.flooded d f p (pageEntry f perm) n).mem t i = k.mem t i := by
  have hidx : ¬k.pageFreeList.idxOf t < tables n := by
    rw [List.idxOf_eq_length h.used.2.1]
    omega
  simp [Kernel.flooded, hidx, h.ne]

/-- The frame is still found at `va`. -/
theorem flood_lookup (hn : tables n ≤ k.pageFreeList.length) :
    pageLookup d va (k.flooded d f p (pageEntry f perm) n) =
      .ret (some (f, t, ptx va)) (k.flooded d f p (pageEntry f perm) n) := by
  have hdir := flood_dir_below h h.pdx hn
  have hpde : has ((k.flooded d f p (pageEntry f perm) n).mem d (pdx va)) pteV = true := by
    rw [hdir]
    exact h.pde
  have htab : ppn ((k.flooded d f p (pageEntry f perm) n).mem d (pdx va)) = t := by
    rw [hdir]
    exact h.table
  have hwalk := pgdirWalk_present hpde htab h.table_lt false
  have hppn : ppn (pageEntry f perm) = f := ppn_entry (lt_trans h.frame_lt h.npage) h.perm
  rw [pageLookup, bind_ret hwalk]
  simp only [readWord_bind, flood_table_mem h _ hn, h.pte, has_pageEntry_valid, if_true]
  rw [pa2page_bind (by rw [hppn]; exact h.frame_lt), hppn]
  rfl

/-- The first frames of the free list are the page tables, in order. -/
theorem flood_frame {j : Nat} (hj : j < k.pageFreeList.length) : ∃ g, k.pageFreeList[j] = g ∧
    g ∈ k.pageFreeList ∧ k.pageFreeList.idxOf g = j ∧ g ≠ d ∧ f ≠ g ∧
      ∀ g', g' ≠ g → k.pageFreeList.idxOf g' ≠ j := by
  have hmem : k.pageFreeList[j] ∈ k.pageFreeList := List.getElem_mem hj
  refine ⟨_, rfl, hmem, h.nodup.idxOf_getElem _ hj, fun hc => h.used.1 (hc ▸ hmem),
    fun hc => h.used.2.2 (hc ▸ hmem), ?_⟩
  intro g' hne hc
  have hlt : k.pageFreeList.idxOf g' < k.pageFreeList.length := by omega
  have hget := List.getElem_idxOf hlt
  simp only [hc] at hget
  exact hne hget.symm

theorem flood_dir_mem (x : Nat) (hn : tables n ≤ k.pageFreeList.length) :
    (k.flooded d f p (pageEntry f perm) n).mem d x =
      if p ≤ x ∧ x < p + tables n then page2pa (k.pageFreeList.getD (x - p) 0) ||| pteV ||| pteD
      else k.mem d x := by
  have hidx : ¬k.pageFreeList.idxOf d < tables n := by
    rw [List.idxOf_eq_length h.used.1]
    omega
  simp only [Kernel.flooded, true_and, hidx, if_false]

/-- A page table is full: the next page takes another one. -/
theorem flood_insert_fresh (hj : n % 1024 = 0) (hp : p + n / 1024 < 509)
    (hn : n / 1024 < k.pageFreeList.length) (asid : Word) :
    pageInsert d asid f (floodVa p n) perm (k.flooded d f p (pageEntry f perm) n) =
      .ret () (k.flooded d f p (pageEntry f perm) (n + 1)) := by
  have hlt : p * 1024 + n < 2 ^ 20 := by omega
  have htab : tables n = n / 1024 := by unfold tables; omega
  have htab' : tables (n + 1) = n / 1024 + 1 := by unfold tables; omega
  obtain ⟨g, hg, hmemg, hidxg, hgd, hgf, hidx⟩ := flood_frame h hn
  have hpde : (k.flooded d f p (pageEntry f perm) n).mem d (p + n / 1024) =
      k.mem d (p + n / 1024) := by
    rw [flood_dir_mem h _ (by omega), if_neg (by omega)]
  have hfree : (k.flooded d f p (pageEntry f perm) n).pageFreeList =
      g :: k.pageFreeList.drop (n / 1024 + 1) := by
    show k.pageFreeList.drop (tables n) = _
    rw [htab, List.drop_eq_getElem_cons hn, hg]
  rw [pageInsert_fresh (by rw [pdx_floodVa hlt, hpde]; exact h.empty _ (by omega) hp) hfree
    (h.free_lt g hmemg).1 h.npage asid hgf perm, pdx_floodVa hlt, ptx_floodVa hlt, hj]
  refine congrArg (Outcome.ret ()) (Kernel.eq_flooded rfl ?_ ?_ ?_ rfl)
  · funext g' x
    simp only [Kernel.setRef, Kernel.setWord, Kernel.newTable, Kernel.takeFrame, Kernel.setFrame,
      Kernel.flush]
    by_cases hg' : g' = g
    · -- the new page table
      rw [hg', update_self, update_of_ne hgd, update_self]
      simp only [Kernel.flooded, hgd, false_and, if_false, hidxg, htab', lt_add_one, if_true,
        update_apply]
      split <;> split <;> first | rfl | omega
    · rw [update_of_ne hg']
      by_cases hd' : g' = d
      · rw [hd', update_self, update_of_ne hgd.symm, flood_dir_mem h _ (by omega), htab']
        by_cases hx : x = p + n / 1024
        · rw [hx, update_self, if_pos (by omega), Nat.add_sub_cancel_left,
            List.getD_eq_getElem?_getD, List.getElem?_eq_getElem hn, hg, Option.getD_some]
        · rw [update_of_ne hx, flood_dir_mem h _ (by omega), htab]
          split <;> split <;> first | rfl | omega
      · rw [update_of_ne hd', update_of_ne hg']
        exact flood_mem_succ hd' (hidx g' hg') x
  · funext g'
    simp only [Kernel.setRef, Kernel.setWord, Kernel.newTable, Kernel.takeFrame, Kernel.setFrame,
      Kernel.flush]
    by_cases hf' : g' = f
    · rw [hf', update_self]
      exact flood_ref_frame.symm
    · rw [update_of_ne hf']
      by_cases hg' : g' = g
      · rw [hg', update_self]
        simp [Kernel.flooded, htab, htab', hgf.symm, hidxg, (h.free_lt g hmemg).2]
      · rw [update_of_ne hg']
        exact flood_ref_succ hf' (hidx g' hg')
  · rw [htab']
    rfl

/-- The page table has room for another page. -/
theorem flood_insert_present (hj : n % 1024 ≠ 0) (hp : p + n / 1024 < 509)
    (hn : n / 1024 < k.pageFreeList.length) (asid : Word) :
    pageInsert d asid f (floodVa p n) perm (k.flooded d f p (pageEntry f perm) n) =
      .ret () (k.flooded d f p (pageEntry f perm) (n + 1)) := by
  have hlt : p * 1024 + n < 2 ^ 20 := by omega
  have htab : tables n = n / 1024 + 1 := by unfold tables; omega
  have htab' : tables (n + 1) = n / 1024 + 1 := by unfold tables; omega
  obtain ⟨g, hg, hmemg, hidxg, hgd, hgf, hidx⟩ := flood_frame h hn
  have hglt : g < k.npage := (h.free_lt g hmemg).1
  have hpde : (k.flooded d f p (pageEntry f perm) n).mem d (p + n / 1024) =
      page2pa g ||| pteV ||| pteD := by
    rw [flood_dir_mem h _ (by omega), if_pos (by omega), Nat.add_sub_cancel_left,
      List.getD_eq_getElem?_getD, List.getElem?_eq_getElem hn, hg, Option.getD_some]
  have hpte : ∀ m x, (k.flooded d f p (pageEntry f perm) m).mem g x =
      if n / 1024 < tables m then if x < 1024 ∧ n / 1024 * 1024 + x < m then pageEntry f perm else 0
      else k.mem g x := by
    intro m x
    simp only [Kernel.flooded, hgd, false_and, if_false, hidxg]
  rw [pageInsert_present (k := k.flooded d f p (pageEntry f perm) n) (t := g)
    (by rw [pdx_floodVa hlt, hpde]; exact has_tableEntry_valid g)
    (by rw [pdx_floodVa hlt, hpde]; exact ppn_tableEntry (lt_trans hglt h.npage)) hglt
    (by rw [ptx_floodVa hlt, hpte, if_pos (by omega), if_neg (by omega)]; simp), ptx_floodVa hlt]
  refine congrArg (Outcome.ret ()) (Kernel.eq_flooded rfl ?_ ?_ ?_ rfl)
  · funext g' x
    simp only [Kernel.setRef, Kernel.setWord, Kernel.flush]
    by_cases hg' : g' = g
    · rw [hg', update_self, hpte, if_pos (by omega)]
      by_cases hx : x = n % 1024
      · rw [hx, update_self, if_pos (by omega)]
      · rw [update_of_ne hx, hpte, if_pos (by omega)]
        refine if_congr ?_ rfl rfl
        omega
    · rw [update_of_ne hg']
      by_cases hd' : g' = d
      · rw [hd', flood_dir_mem h _ (by omega), flood_dir_mem h _ (by omega), htab, htab']
      · exact flood_mem_succ hd' (hidx g' hg') x
  · funext g'
    simp only [Kernel.setRef, Kernel.setWord, Kernel.flush]
    by_cases hf' : g' = f
    · rw [hf', update_self]
      exact flood_ref_frame.symm
    · rw [update_of_ne hf']
      simp only [Kernel.flooded, hf', if_false, htab, htab']
  · show k.pageFreeList.drop (tables n) = _
    rw [htab, htab']

/-- **One more `sys_mem_map`.** -/
theorem flood_map (hp : p + n / 1024 < 509) (hn : n / 1024 < k.pageFreeList.length) :
    sysMemMap 0 va 0 (floodVa p n) perm (k.flooded d f p (pageEntry f perm) n) =
      .ret (.value 0) (k.flooded d f p (pageEntry f perm) (n + 1)) := by
  have hlt : p * 1024 + n < 2 ^ 20 := by omega
  have htab : tables n ≤ k.pageFreeList.length := by unfold tables; omega
  have hlegal : isIllegalVa (floodVa p n) = false := by
    have hva := floodVa_toNat hlt
    have hpdx := h.pdx
    have hlow : ¬floodVa p n < utemp := by
      show ¬(floodVa p n).toNat < utemp.toNat
      rw [toNat_utemp]
      omega
    have hhigh : ¬utop ≤ floodVa p n := by
      show ¬utop.toNat ≤ (floodVa p n).toNat
      rw [toNat_utop]
      omega
    simp [isIllegalVa, hlow, hhigh]
  have henv : envid2env 0 true (k.flooded d f p (pageEntry f perm) n) =
      .ret c (k.flooded d f p (pageEntry f perm) n) := by
    have hc : (k.flooded d f p (pageEntry f perm) n).curenv = some c := h.curenv
    simp only [envid2env, get_bind, if_true, hc]
    rfl
  have hdir : ((k.flooded d f p (pageEntry f perm) n).envs c).envPgdir = d := h.pgdir
  have hinsert : ∀ asid, pageInsert d asid f (floodVa p n) perm
      (k.flooded d f p (pageEntry f perm) n) =
        .ret () (k.flooded d f p (pageEntry f perm) (n + 1)) := by
    intro asid
    by_cases hj : n % 1024 = 0
    · exact flood_insert_fresh h hj hp hn asid
    · exact flood_insert_present h hj hp hn asid
  unfold sysMemMap
  simp only [h.legal, hlegal, Bool.or_self, Bool.false_eq_true, if_false]
  rw [bind_ret henv, bind_ret henv, get_bind, hdir, bind_ret (flood_lookup h htab)]
  simp only
  rw [bind_ret (hinsert _)]
  rfl

end Flood

/-! ## The run -/

/-- A step of a run without a bound on how often a frame is mapped. -/
def Kernel.Next (k k' : Kernel) : Prop := ∃ op : Op, op.Sane k ∧ op.NoGlobal ∧ Step op k k'

/-- **The frame can be mapped as often as there is room for page tables.** -/
theorem flood_run (h : k.Floodable c d f p t va perm) (hG : has perm pteG = false) :
    ∀ n, p + tables n ≤ 509 → tables n ≤ k.pageFreeList.length →
      Relation.ReflTransGen Kernel.Next k (k.flooded d f p (pageEntry f perm) n)
  | 0, _, _ => by
    rw [flood_zero h]
  | n + 1, hp, hn => by
    have htab : tables n ≤ tables (n + 1) ∧ n / 1024 < tables (n + 1) := by
      unfold tables
      omega
    refine .tail (flood_run h hG n (by omega) (by omega)) ⟨.memMap 0 va 0 (floodVa p n) perm,
      h.perm, hG, ?_⟩
    have hmap := flood_map h (n := n) (by omega) (by omega)
    show ((sysMemMap 0 va 0 (floodVa p n) perm >>= fun _ => pure ()) _).state? = _
    rw [bind_ret hmap]
    rfl

/-- Performs operations one after the other, with the tests. -/
def nextOps : List Op → Kernel → Option Kernel
  | [], k => some k
  | op :: ops, k =>
    if op.saneb k && op.noGlobal then (exec op k).state?.bind (nextOps ops) else none

theorem next_of_nextOps : ∀ {ops : List Op} {k k' : Kernel}, nextOps ops k = some k' →
    Relation.ReflTransGen Kernel.Next k k'
  | [], k, k', h => by
    cases h
    exact .refl
  | op :: ops, k, k', h => by
    unfold nextOps at h
    split at h
    next htest =>
      rw [Bool.and_eq_true] at htest
      obtain ⟨k₁, hstep, h⟩ := Option.bind_eq_some_iff.mp h
      exact .head ⟨op, Op.sane_of_saneb htest.1, Op.noGlobal_of_test k op htest.2, hstep⟩
        (next_of_nextOps h)
    next => cases h

/-- A test for `Floodable`. -/
def Kernel.floodable (k : Kernel) (c : EnvPtr) (d f p t : Nat) (va perm : Word) : Bool :=
  k.curenv == some c && (k.envs c).envPgdir == d && k.tlb == [] && decide (k.npage < 2 ^ 20) &&
    !isIllegalVa va && decide (pdx va < p) && has (k.mem d (pdx va)) pteV &&
    ppn (k.mem d (pdx va)) == t && decide (t < k.npage) && k.mem t (ptx va) == pageEntry f perm &&
    decide (perm < 4096) && decide (f < k.npage) &&
    ((List.range 509).all fun i => decide (i < p) || !has (k.mem d i) pteV) &&
    decide k.pageFreeList.Nodup &&
    (k.pageFreeList.all fun g => decide (g < k.npage) && k.ppRef g == 0) &&
    decide (d ∉ k.pageFreeList ∧ t ∉ k.pageFreeList ∧ f ∉ k.pageFreeList) && t != d

theorem floodable_of_test (h : k.floodable c d f p t va perm = true) :
    k.Floodable c d f p t va perm := by
  simp only [Kernel.floodable, Bool.and_eq_true, beq_iff_eq, decide_eq_true_eq, bne_iff_ne,
    Bool.not_eq_true', List.all_eq_true, List.mem_range, Bool.or_eq_true] at h
  obtain ⟨⟨⟨⟨⟨⟨⟨⟨⟨⟨⟨⟨⟨⟨⟨⟨hcur, hpg⟩, htlb⟩, hnp⟩, hleg⟩, hpdx⟩, hpde⟩, htab⟩, htlt⟩, hpte⟩, hperm⟩,
    hflt⟩, hempty⟩, hnodup⟩, hfree⟩, hused⟩, hne⟩ := h
  exact ⟨hcur, hpg, htlb, hnp, hleg, hpdx, hpde, htab, htlt, hpte, hperm, hflt,
    fun i hp hi => (hempty i hi).resolve_left (by omega), hnodup, hfree, hused, hne⟩

/-- A process with two pages. -/
def floodSetup : List Op :=
  [.envCreate (some emptyImage) 1, .timer, .memAlloc 0 utext pteD,
    .memAlloc 0 (utext + 4096) pteD]

/-- An address that needs a page table of its own. -/
def staleVa : Word := 0x19000000

/-- The first page is mapped 65537 times and counted once. Its frame is freed, becomes the page table
for `staleVa`, which is used, and is freed and taken again. -/
def floodEnd : List Op :=
  [.memUnmap 0 (floodVa 2 0), .memMap 0 (utext + 4096) 0 staleVa pteD, .tlbRefill staleVa 0,
    .memUnmap 0 (floodVa 2 1), .memAlloc 0 (floodVa 2 0) pteD]

/-- The TLB has an entry for `staleVa` and the live env 0, and the page table has not. -/
def staleTest (k : Kernel) : Bool :=
  decide (k.Live 0) && k.entry 0 staleVa == 0 &&
    k.tlb.any fun t => t.matches (pteAddr staleVa ||| (k.envs 0).envAsid <<< 6)

theorem not_coherent_of_test (h : staleTest k = true) : ¬k.TlbCoherent := by
  simp only [staleTest, Bool.and_eq_true, decide_eq_true_eq, beq_iff_eq, List.any_eq_true] at h
  obtain ⟨⟨hl, hentry⟩, t, ht, hmatch⟩ := h
  intro hc
  obtain ⟨heq, hval⟩ := hc.hit t ht 0 hl staleVa (by decide) hmatch
  rw [heq, hentry] at hval
  exact absurd hval (by decide)

/-- **After 65537 mappings of one frame** the TLB answers with an entry that is gone. -/
theorem tlb_stale : ∃ k₀ k, boot smallBoot = .ret () k₀ ∧
    Relation.ReflTransGen Kernel.Next k₀ k ∧ ¬k.TlbCoherent := by
  have htest : ((boot smallBoot).state?.bind (nextOps floodSetup)).any (fun k =>
      k.floodable 0 196 195 2 194 utext pteD && decide (64 ≤ k.pageFreeList.length) &&
      (nextOps floodEnd (k.flooded 196 195 2 (pageEntry 195 pteD) 65536)).any staleTest) = true := by
    decide +kernel
  obtain ⟨k₁, hk₁, htest⟩ := (Option.any_eq_true _ _).mp htest
  obtain ⟨k₀, hk₀, hk₁⟩ := Option.bind_eq_some_iff.mp hk₁
  rw [Bool.and_eq_true, Bool.and_eq_true, decide_eq_true_eq] at htest
  obtain ⟨⟨hflood, hroom⟩, htest⟩ := htest
  obtain ⟨k₂, hk₂, hstale⟩ := (Option.any_eq_true _ _).mp htest
  have hrun := flood_run (floodable_of_test hflood) (by decide) 65536 (by decide) hroom
  exact ⟨k₀, k₂, boot_of_state? hk₀, ((next_of_nextOps hk₁).trans hrun).trans (next_of_nextOps hk₂),
    not_coherent_of_test hstale⟩

end Mos
