import Mos.Kern.NoPanic
import Mos.Kern.Counter

/-!
# `do_tlb_mod`: a store to a page that may not be written

A user store to a page without `PTE_D` is an exception that the env handles itself. `do_tlb_mod`
copies the interrupted context to the exception stack of the env and lets it go on at its registered
entry, with a pointer to the copy as argument. The copy is stored in kernel mode at user addresses, so
it goes through the same TLB refill as any user access.
-/

namespace Mos

open Lib Prog Function

/-! ## The model -/

/-- `UXSTACKTOP`. -/
def uxstacktop : Word := utop

/-- A store of one word at a user address. A store to a page without `PTE_D` is a TLB Mod exception
again. -/
def storeWord (asid va w : Word) : KernM Unit := do
  if va &&& 3 ≠ 0 then halt .reserved
  else
    let pte ← touchUser va asid
    if has pte pteD then writeWord (ppn pte) (wordIndex va) w else halt .tlbModInKernel

/-- Stores of words, one after the other. -/
def storeUserWords (asid : Word) : Word → List Word → KernM Unit
  | _, [] => pure ()
  | va, w :: ws => do
    storeWord asid va w
    storeUserWords asid (va + 4) ws

/-- The words of a `struct Trapframe`. -/
def trapframeWords (tf : Trapframe) : List Word :=
  List.ofFn tf.regs ++ [tf.cp0Status, tf.hi, tf.lo, tf.cp0Badvaddr, tf.cp0Cause, tf.cp0Epc]

/-- Where the copy of a context ends: at the top of the exception stack or, if the env is on that
stack already, at its stack pointer. -/
def handlerBase (tf : Trapframe) : Word :=
  if tf.regs 29 < ustacktop ∨ uxstacktop ≤ tf.regs 29 then uxstacktop else tf.regs 29

/-- `do_tlb_mod(tf)`, on the trap frame below `KSTACKTOP`. An env without an entry makes it panic. -/
def doTlbMod : KernM Unit := do
  let k ← get
  let tf := k.kstackTf
  let c ← curenvPtr
  let sp := handlerBase tf - 152
  storeUserWords (k.envs c).envAsid sp (trapframeWords tf)
  let k ← get
  let entry := (k.envs c).envUserTlbModEntry
  if entry ≠ 0 then
    modify fun k => { k with
      kstackTf := { (tf.setReg 4 sp).setReg 29 (sp - 4) with cp0Epc := entry } }
  else halt .reserved

/-! ## The copy of a context -/

theorem length_trapframeWords (tf : Trapframe) : (trapframeWords tf).length = 38 := by
  simp [trapframeWords]

/-- **What `sys_set_trapframe` loads from the copy is the context.** -/
theorem trapframeOf_words (tf : Trapframe) : trapframeOf (trapframeWords tf) = tf := by
  have hlen : (List.ofFn tf.regs).length = 32 := List.length_ofFn
  have hregs : ∀ r : Fin 32, (trapframeWords tf).getD r 0 = tf.regs r := by
    intro r
    rw [trapframeWords, List.getD_eq_getElem?_getD, List.getElem?_append_left (by omega),
      List.getElem?_ofFn, dif_pos r.isLt]
    rfl
  have hrest : ∀ i, (trapframeWords tf).getD (32 + i) 0 =
      [tf.cp0Status, tf.hi, tf.lo, tf.cp0Badvaddr, tf.cp0Cause, tf.cp0Epc].getD i 0 := by
    intro i
    rw [trapframeWords, List.getD_eq_getElem?_getD, List.getElem?_append_right (by omega),
      List.getD_eq_getElem?_getD]
    congr 2
    omega
  unfold trapframeOf
  simp only [hregs, hrest 0, hrest 1, hrest 2, hrest 3, hrest 4, hrest 5]
  rfl

/-! ## Accesses to pages that are mapped -/

variable {M : List Nat} {k : Kernel} {c : EnvPtr} {va asid w x : Word}

theorem doTlbRefill_mapped (h : k.Inv M) (hc : k.curenv = some c)
    (hl : k.vm.leaf c (ppn va) = some w) (asid : Word) : doTlbRefill va asid k = .ret w k := by
  obtain ⟨t, -, hw, hlook⟩ := pageLookup_mapped h.vm (h.cur c hc) hl
  rw [doTlbRefill, refillLoop]
  simp only [bind_apply, get_apply, hlook, pure_apply, readWord, hw]

/-- An access to a mapped page fills the TLB and changes nothing else. -/
theorem touchUser_mapped (h : k.Inv M) (hc : k.curenv = some c)
    (hl : k.vm.leaf c (ppn va) = some w) (asid : Word) :
    touchUser va asid k = .ret w (k.fill va asid w) := by
  rw [touchUser, bind_ret (doTlbRefill_mapped h hc hl asid)]
  rfl

theorem loadUser_mapped (h : k.Inv M) (hc : k.curenv = some c) (halign : va &&& 3 = 0)
    (hl : k.vm.leaf c (ppn va) = some w) (asid : Word) :
    loadUser va asid k = .ret (k.mem (ppn w) (wordIndex va)) (k.fill va asid w) := by
  rw [loadUser, if_neg (not_not.mpr halign), bind_ret (doTlbRefill_mapped h hc hl asid)]
  rfl

theorem storeWord_mapped (h : k.Inv M) (hc : k.curenv = some c) (halign : va &&& 3 = 0)
    (hl : k.vm.leaf c (ppn va) = some w) (hd : has w pteD = true) (asid x : Word) :
    storeWord asid va x k = .ret () ((k.fill va asid w).setWord (ppn w) (wordIndex va) x) := by
  rw [storeWord, if_neg (not_not.mpr halign), bind_ret (touchUser_mapped h hc hl asid), if_pos hd]
  rfl

/-- The store of the program itself. -/
theorem storeUser_mapped (h : k.Inv M) (hc : k.curenv = some c) (hva : va < utop)
    (hl : k.vm.leaf c (ppn va) = some w) (hd : has w pteD = true) (x : Word) :
    storeUser va x k = .ret () (k.setWord (ppn w) (wordIndex va) x) := by
  have hlive := (dir_eq_some.mp (h.cur c hc)).1
  obtain ⟨t, -, hw, hlook⟩ := pageLookup_mapped h.vm (dir_of_live hlive) hl
  rw [storeUser, bind_ret (curenvPtr_eq hc), get_bind, if_pos hva, bind_ret hlook]
  simp only [readWord_bind, hw, hd, if_true]
  rfl

/-! ## Calls that have the memory they need -/

/-- `page_insert` fails only if it needs a page table and there is no frame for it. -/
theorem pageInsert_spends {e : EnvPtr} {d : Nat} (h : k.vm.Inv M) (hd : k.vm.dir e = some d)
    (hva : pdx va < npde) (asid : Word) (pp : Nat) (perm : Word) :
    (pageInsert d asid pp va perm k).Sat
      (fun _ k' => k.pageFreeList.length ≤ k'.pageFreeList.length + 1)
      (fun _ _ => k.vm.table e (pdx va) = none ∧ k.pageFreeList = []) (fun _ => True) := by
  cases ht : k.vm.table e (pdx va) with
  | none =>
    rw [pageInsert, bind_ret (pgdirWalk_absent hd hva ht)]
    exact (pageInsertNew_room h hd hva asid pp perm).mono (fun _ _ h => h) (fun _ _ h => ⟨rfl, h⟩)
      (fun _ _ => trivial)
  | some t =>
    -- with the table there, the free list can only get longer
    have hnew : ∀ {k₁ : Kernel}, k₁.vm.Inv M → k₁.vm.dir e = some d →
        k₁.vm.table e (pdx va) = some t → k.vm.free.length ≤ k₁.vm.free.length →
        (pageInsertNew d asid pp va perm k₁).Sat
          (fun _ k' => k.vm.free.length ≤ k'.vm.free.length + 1)
          (fun _ _ => some t = none ∧ k.pageFreeList = []) (fun _ => True) := by
      intro k₁ h₁ hd₁ ht₁ hlen
      obtain ⟨k₂, heq, hvm, -⟩ := pageInsertNew_table h₁ hd₁ ht₁ asid pp perm
      rw [heq, Outcome.sat_ret, hvm]
      show k.vm.free.length ≤ k₁.vm.free.length + 1
      omega
    rw [pageInsert, bind_ret (pgdirWalk_table h hd ht false)]
    simp only [readWord_bind]
    cases hl : k.vm.leaf e (ppn va) with
    | none =>
      simp only [mem_invalid_of_leaf_none ht hl, Bool.false_eq_true, if_false]
      exact hnew h hd ht (le_refl _)
    | some w =>
      obtain ⟨t', ht', hval, rfl⟩ := table_of_leaf hl
      obtain rfl : t' = t := Option.some.inj (ht'.symm.trans ht)
      simp only [hval, if_true]
      rw [pa2page_bind (h.leaf_lt_npage hl)]
      split
      · obtain ⟨k₁, heq₁, hvm₁, -⟩ := pageRemove_mapped h hd ht hl asid
        rw [bind_ret heq₁]
        have hl' := hl
        rw [ppn_split] at hl'
        obtain ⟨ht₁, -, -⟩ := h.after_unlinkPage ht (ptx_lt va) hl' hvm₁
        refine hnew ?_ (by rw [hvm₁]; exact hd) (by rw [ht₁]; exact ht) ?_
        · rw [hvm₁]
          exact h.unlinkPage ht (ptx_lt va) hl'
        · rw [hvm₁]
          show k.vm.free.length ≤ (if _ then _ :: k.vm.free else k.vm.free).length
          split <;> simp
      · show k.vm.free.length ≤ k.vm.free.length + 1
        omega

theorem envid2env_self (hc : k.curenv = some c) : envid2env 0 true k = .ret c k := by
  simp [envid2env, get_bind, hc]

/-- `sys_mem_alloc` for the caller takes two frames at most, and needs no more. -/
theorem sysMemAlloc_room (h : k.Inv M) (hc : k.curenv = some c) (hva : isIllegalVa va = false)
    (perm : Word) (hroom : 2 ≤ k.pageFreeList.length) :
    (sysMemAlloc 0 va perm k).Sat
      (fun r k' => r = .value 0 ∧ k.pageFreeList.length ≤ k'.pageFreeList.length + 2)
      (fun _ _ => False) (fun _ => True) := by
  have hlive := (dir_eq_some.mp (h.cur c hc)).1
  have hva' : pdx va < npde := pdx_lt_of_lt_utop (legal_of_not_illegal (by rw [hva]; exact nofun))
  unfold sysMemAlloc
  rw [hva, if_neg Bool.false_ne_true, bind_ret (envid2env_self hc)]
  cases hf : k.pageFreeList with
  | nil => simp [hf] at hroom
  | cons p rest =>
    have hmem : p ∈ k.vm.free := show p ∈ k.pageFreeList by rw [hf]; exact List.mem_cons_self
    have hlt : p < k.npage := h.vm.managed p (h.vm.free_spec p hmem).1
    obtain ⟨hinv, -, -⟩ := h.vm.alloc (u := (k.takeFrame p rest).vm) hf rfl
    have halloc : pageAlloc k = .ret p (k.takeFrame p rest) := by rw [pageAlloc_cons hf, if_pos hlt]
    rw [bind_ret halloc, get_bind]
    rw [hf, List.length_cons] at hroom
    refine sat_call (pageInsert_spends hinv (dir_of_live hlive) hva' _ p perm) ?_ ?_
      (fun _ _ => trivial)
    · intro _ k₁ hlen
      have hlen' : rest.length ≤ k₁.pageFreeList.length + 1 := hlen
      refine ⟨rfl, ?_⟩
      rw [List.length_cons]
      omega
    · rintro _ _ ⟨-, hnil⟩
      have hnil' : rest = [] := hnil
      rw [hnil', List.length_nil] at hroom
      omega

/-- `sys_mem_map` within the caller, to a page whose page table is there. -/
theorem sysMemMap_room (h : k.Inv M) (hc : k.curenv = some c) {src dst t : Word} {n : Nat}
    (hsrc : isIllegalVa src = false) (hdst : isIllegalVa dst = false) (perm : Word)
    (hl : k.vm.leaf c (ppn src) = some t) (htab : k.vm.table c (pdx dst) = some n) :
    (sysMemMap 0 src 0 dst perm k).Sat
      (fun r _ => r = .value 0) (fun _ _ => False) (fun _ => True) := by
  have hlive := (dir_eq_some.mp (h.cur c hc)).1
  have hd := dir_of_live hlive
  have hdst' : pdx dst < npde := pdx_lt_of_lt_utop (legal_of_not_illegal (by rw [hdst]; exact nofun))
  obtain ⟨_, -, -, hlook⟩ := pageLookup_mapped h.vm hd hl
  unfold sysMemMap
  rw [hsrc, hdst, if_neg (by simp), bind_ret (envid2env_self hc), bind_ret (envid2env_self hc),
    get_bind, bind_ret hlook]
  refine sat_call (pageInsert_spends h.vm hd hdst' _ (ppn t) perm) ?_ ?_ (fun _ _ => trivial)
  · exact fun _ _ _ => rfl
  · rintro _ _ ⟨hnone, -⟩
    rw [htab] at hnone
    cases hnone

theorem sysMemUnmap_self (h : k.Inv M) (hc : k.curenv = some c) (hva : isIllegalVa va = false) :
    (sysMemUnmap 0 va k).Sat (fun r _ => r = .value 0) (fun _ _ => False) (fun _ => False) := by
  have hd := dir_of_live (dir_eq_some.mp (h.cur c hc)).1
  have hva' : pdx va < npde := pdx_lt_of_lt_utop (legal_of_not_illegal (by rw [hva]; exact nofun))
  unfold sysMemUnmap
  rw [hva, if_neg Bool.false_ne_true, bind_ret (envid2env_self hc), get_bind]
  exact sat_call (pageRemove_spec h.vm hd hva' _) (fun _ _ _ => rfl) (fun _ _ h => h) (fun _ h => h)

end Mos
