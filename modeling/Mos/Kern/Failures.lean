import Mos.Kern.SentPage
import Mos.Kern.Counter

/-!
# Calls that fail halfway

`sys_mem_alloc`, `sys_exofork` and `sys_ipc_try_send` take what they need one after the other and
return at the first thing that is missing, without giving back what they already have. Each theorem
says where this shows: `sys_mem_alloc` loses the last free frame when a page table is missing too
(`memAlloc_fails_cleanly_iff`), `sys_exofork` loses a page directory when the address space
identifiers are used up (`exofork_fails_cleanly_iff`), and `sys_ipc_try_send` has woken the receiver
before it looks for the page (`send_all_or_nothing_iff`).
-/

namespace Mos

open Lib Prog Function

variable {M : List Nat} {k k' : Kernel} {c e : EnvPtr} {b : Boot} {envid va srcva perm : Word}

/-! ## What a failed call must leave alone -/

/-- The free frames, the counts and the contents of all frames in use, those of the page tables
among them, are as they were. -/
structure Kernel.SameMemory (k k' : Kernel) : Prop where
  free : k'.pageFreeList = k.pageFreeList
  refs : k'.ppRef = k.ppRef
  pages : ∀ f ∉ k.pageFreeList, k'.mem f = k.mem f

/-- The memory, the address space identifiers and the envs in use are as they were. -/
structure Kernel.SameResources (k k' : Kernel) : Prop extends k.SameMemory k' where
  asids : k'.asidBitmap = k.asidBitmap
  envFreeList : k'.envFreeList = k.envFreeList
  live : ∀ e, k'.Live e ↔ k.Live e
  envs : ∀ e, k.Live e → k'.envs e = k.envs e

theorem Kernel.SameMemory.refl (k : Kernel) : k.SameMemory k := ⟨rfl, rfl, fun _ _ => rfl⟩

theorem Kernel.SameResources.refl (k : Kernel) : k.SameResources k :=
  ⟨.refl k, rfl, rfl, fun _ => Iff.rfl, fun _ _ => rfl⟩

/-! ## `sys_mem_alloc` -/

/-- One frame is free, and the page at `va` needs a page table besides. -/
structure Kernel.LastFrame (k : Kernel) (envid va : Word) : Prop where
  legal : isIllegalVa va = false
  one : ∃ pp, k.pageFreeList = [pp]
  table : ∃ e, envid2env envid true k = .ret e k ∧ k.vm.table e (pdx va) = none

/-- Taking a free frame changes no page table. -/
theorem table_takeFrame (h : k.vm.Inv M) {pp : Nat} {rest : List Nat}
    (hf : k.pageFreeList = pp :: rest) : (k.takeFrame pp rest).vm.table = k.vm.table := by
  have hmem : pp ∈ k.vm.free := show pp ∈ k.pageFreeList by rw [hf]; exact List.mem_cons_self
  exact (Vm.view_setFrame (fun _ => h.free_not_dir hmem) (fun _ _ => h.free_not_table hmem) _).1

/-- After `page_alloc` has taken `pp`, there is room for the page unless `pp` was the last frame. -/
theorem lastFrame_iff (h : k.vm.Inv M) (hva : isIllegalVa va = false)
    (he : envid2env envid true k = .ret e k) {pp : Nat} {rest : List Nat}
    (hf : k.pageFreeList = pp :: rest) :
    k.LastFrame envid va ↔ ¬(k.takeFrame pp rest).Room e va := by
  unfold Kernel.Room
  rw [table_takeFrame h hf]
  constructor
  · rintro ⟨-, ⟨pp', hpp'⟩, e', he', ht⟩ (hroom | hroom)
    · rw [he] at he'
      cases he'
      exact hroom ht
    · rw [hf] at hpp'
      cases hpp'
      exact hroom rfl
  · intro hroom
    rw [not_or, not_not, not_not] at hroom
    obtain ⟨ht, hnil⟩ := hroom
    refine ⟨hva, ⟨pp, ?_⟩, e, he, ht⟩
    rw [hf]
    exact congrArg _ hnil

/-- A failed `sys_mem_alloc` has done nothing, or has taken the last frame. -/
theorem sysMemAlloc_fails (h : k.Good M) (envid va perm : Word) :
    (sysMemAlloc envid va perm k).Sat (fun _ _ => ¬k.LastFrame envid va)
      (fun _ k' => ¬k.LastFrame envid va ∧ k' = k ∨ k.LastFrame envid va ∧ k'.pageFreeList = [])
      (fun _ => ¬k.LastFrame envid va) := by
  unfold sysMemAlloc
  split
  next hill => exact .inl ⟨fun hlast => by simp [hlast.legal] at hill, rfl⟩
  next hva =>
    have hpdx := pdx_lt_of_lt_utop (legal_of_not_illegal hva)
    refine sat_call ((envid2env_read (fun _ => h.inv.live_cur) envid true).and (Outcome.sat_self _))
      ?_ ?_ ?_
    · rintro e _ ⟨⟨rfl, hl, -, he⟩, -⟩
      cases hf : k.pageFreeList with
      | nil =>
        rw [bind_err (pageAlloc_nil hf)]
        refine .inl ⟨?_, rfl⟩
        rintro ⟨-, ⟨pp, hpp⟩, -⟩
        rw [hf] at hpp
        cases hpp
      | cons pp rest =>
        have hlt : pp < k.npage := h.inv.vm.managed pp (h.inv.vm.free_spec pp (by
          show pp ∈ k.pageFreeList
          rw [hf]; exact List.mem_cons_self)).1
        have halloc := (pageAlloc_cons hf).trans (if_pos hlt)
        have hinv := pageAlloc_spec h.inv.vm
        rw [halloc] at hinv
        have hlast := lastFrame_iff h.inv.vm (by simpa using hva) he hf
        rw [bind_ret halloc, get_bind]
        refine sat_call ((pageInsert_room hinv.1 h.base hl hpdx pp perm).and
          (pageInsert_effect hinv.1 h.base (dir_of_live hl) hpdx _ pp perm)) ?_ ?_ (fun _ hh => hh.1.elim)
        · rintro _ k₂ ⟨hroom, -⟩
          exact fun hl' => hlast.mp hl' hroom
        · rintro er k₂ ⟨hroom, -, -, rfl⟩
          have hnil : rest = [] := not_not.mp fun hne => hroom (.inr hne)
          exact .inr ⟨hlast.mpr hroom, hnil⟩
    · rintro er k₁ ⟨hk, herr⟩
      refine .inl ⟨?_, hk.symm⟩
      rintro ⟨-, -, e', he', -⟩
      rw [he'] at herr
      cases herr
    · rintro p ⟨-, hhalt⟩ ⟨-, -, e', he', -⟩
      rw [he'] at hhalt
      cases hhalt

/-- A failing call of `sys_mem_alloc` that does not meet the last frame. -/
def FailingAlloc (k k' : Kernel) : Prop :=
  ∃ envid va perm er, ¬k.LastFrame envid va ∧ sysMemAlloc envid va perm k = .err er k'

/-- **`sys_mem_alloc` fails without a trace exactly if it does not take the last frame** and need a
page table too. Any number of such failures leaves the memory as it is. -/
theorem memAlloc_fails_cleanly_iff (h : Reach (fun _ _ => True) b k) (envid va perm : Word) :
    ((∀ er k', sysMemAlloc envid va perm k = .err er k' → k.SameMemory k') ↔
      ¬k.LastFrame envid va) ∧
    ∀ k', Relation.ReflTransGen FailingAlloc k k' → k.SameMemory k' := by
  obtain ⟨M, hgood⟩ := h.good
  have hfails := sysMemAlloc_fails hgood
  refine ⟨⟨fun hclean hlast => ?_, fun hlast er k' herr => ?_⟩, fun k' hrun => ?_⟩
  · have hspec := hfails envid va perm
    cases hout : sysMemAlloc envid va perm k with
    | ret r k' => rw [hout] at hspec; exact hspec hlast
    | halt p => rw [hout] at hspec; exact hspec hlast
    | err er k' =>
      rw [hout] at hspec
      obtain ⟨pp, hpp⟩ := hlast.one
      rcases hspec with ⟨hno, -⟩ | ⟨-, hnil⟩
      · exact hno hlast
      · have hfree := (hclean er k' hout).free
        rw [hnil, hpp] at hfree
        cases hfree
  · have hspec := hfails envid va perm
    rw [herr] at hspec
    rcases hspec with ⟨-, rfl⟩ | ⟨hyes, -⟩
    · exact .refl k'
    · exact absurd hyes hlast
  · -- every failure of the run leaves the state itself unchanged
    suffices hsame : k' = k from hsame ▸ .refl k
    induction hrun with
    | refl => rfl
    | tail _ hstep ih =>
      obtain ⟨envid, va, perm, er, hlast, herr⟩ := ih ▸ hstep
      have hspec := hfails envid va perm
      rw [herr] at hspec
      rcases hspec with ⟨-, heq⟩ | ⟨hyes, -⟩
      · exact heq
      · exact absurd hyes hlast

/-- A machine that has one frame left after its first env is there. -/
def scarceBoot : Boot :=
  { npage := 65, freemem := 60, pagesPa := 57, envsPa := 1, mem := fun _ _ => 0
    npage_lt := by decide, pages_fit := by decide, envs_fit := smallBoot.envs_fit }

/-- A call on the first env of `b` that ends in an error. -/
theorem exists_failure (b : Boot) (m : KernM SysRet) (ops : List Op)
    (test : Kernel → Kernel → Bool)
    (h : ((boot b).state?.bind (plainOps ops)).any (fun k =>
      match m k with
      | .err _ k' => test k k'
      | _ => false) = true) :
    ∃ k er k', Reach (fun _ _ => True) b k ∧ m k = .err er k' ∧ test k k' = true := by
  obtain ⟨k, hr, htest⟩ := exists_fitting b ops _ h
  split at htest
  next er k' herr => exact ⟨k, er, k', hr.reach, herr, htest⟩
  next => cases htest

theorem memAlloc_fails_cleanly_illegal : ∃ k k' er, Reach (fun _ _ => True) scarceBoot k ∧
    sysMemAlloc 0 0 pteD k = .err er k' ∧ ¬k.LastFrame 0 0 ∧ k.SameMemory k' := by
  obtain ⟨k, er, k', hr, herr, -⟩ := exists_failure scarceBoot (sysMemAlloc 0 0 pteD)
    [.envCreate (some emptyImage) 1, .timer] (fun _ _ => true) (by decide +kernel)
  have hlast : ¬k.LastFrame 0 0 := fun hl => by
    have hlegal := hl.legal
    revert hlegal
    decide
  exact ⟨k, k', er, hr, herr, hlast,
    (memAlloc_fails_cleanly_iff hr 0 0 pteD).1.mpr hlast er k' herr⟩

/-- **The last frame is lost**: the call fails, and the free list is empty. -/
theorem memAlloc_loses_frame : ∃ k k' er, Reach (fun _ _ => True) scarceBoot k ∧
    sysMemAlloc 0 utext pteD k = .err er k' ∧ k.pageFreeList = [60] ∧ k'.pageFreeList = [] ∧
    ¬k.SameMemory k' := by
  obtain ⟨k, er, k', hr, herr, htest⟩ := exists_failure scarceBoot (sysMemAlloc 0 utext pteD)
    [.envCreate (some emptyImage) 1, .timer]
    (fun k k' => k.pageFreeList == [60] && k'.pageFreeList == []) (by decide +kernel)
  simp only [Bool.and_eq_true, beq_iff_eq] at htest
  obtain ⟨hone, hnil⟩ := htest
  refine ⟨k, k', er, hr, herr, hone, hnil, fun hsame => ?_⟩
  have hfree := hsame.free
  rw [hone, hnil] at hfree
  cases hfree

/-! ## `sys_exofork` -/

/-- An env and a frame are free, but no address space identifier is. -/
structure Kernel.AsidsOut (k : Kernel) : Prop where
  env : k.envFreeList ≠ []
  frame : k.pageFreeList ≠ []
  asids : ∀ i < nasid, k.asidBitmap (asidIndex i) &&& asidMask i ≠ 0

theorem asidAlloc_fails (k : Kernel) :
    (asidAlloc k).Sat
      (fun _ _ => ¬∀ i < nasid, k.asidBitmap (asidIndex i) &&& asidMask i ≠ 0)
      (fun _ k' => (∀ i < nasid, k.asidBitmap (asidIndex i) &&& asidMask i ≠ 0) ∧ k' = k)
      (fun _ => False) := by
  rw [asidAlloc, get_bind]
  cases hfind : (List.range nasid).find? fun i => k.asidBitmap (asidIndex i) &&& asidMask i == 0 with
  | none =>
    rw [List.find?_eq_none] at hfind
    exact ⟨fun i hi => by simpa using hfind i (List.mem_range.mpr hi), rfl⟩
  | some i =>
    have hclear := List.find?_some hfind
    have hi := List.mem_range.mp (List.mem_of_find?_eq_some hfind)
    exact fun hfull => hfull i hi (by simpa using hclear)

/-- `env_setup_vm` takes a frame, or fails without a change. -/
theorem envSetupVm_takes (h : k.vm.Inv M) (e : EnvPtr) :
    (envSetupVm e k).Sat
      (fun _ k' => k'.asidBitmap = k.asidBitmap ∧ ∃ pp, k.pageFreeList = pp :: k'.pageFreeList)
      (fun _ k' => k.pageFreeList = [] ∧ k' = k) (fun _ => False) := by
  unfold envSetupVm
  cases hf : k.pageFreeList with
  | nil =>
    rw [bind_err (pageAlloc_nil hf)]
    exact ⟨rfl, rfl⟩
  | cons pp rest =>
    have hmem : pp ∈ k.vm.free := show pp ∈ k.pageFreeList by rw [hf]; exact List.mem_cons_self
    have hlt : pp < k.npage := h.managed pp (h.free_spec pp hmem).1
    rw [bind_ret ((pageAlloc_cons hf).trans (if_pos hlt))]
    exact ⟨rfl, pp, rfl⟩

/-- A failed `env_alloc` has done nothing, or has taken a frame. -/
theorem envAlloc_fails (h : k.Inv M) (parentId : Word) :
    (envAlloc parentId k).Sat (fun _ _ => ¬k.AsidsOut)
      (fun _ k' => ¬k.AsidsOut ∧ k' = k ∨
        k.AsidsOut ∧ ∃ pp, k.pageFreeList = pp :: k'.pageFreeList) (fun _ => False) := by
  rw [envAlloc, get_bind]
  cases hl : k.envFreeList with
  | nil => exact .inl ⟨fun hout => hout.env hl, rfl⟩
  | cons e rest =>
    refine sat_call (envSetupVm_takes h.vm e) ?_ ?_ (fun _ hh => hh)
    · rintro _ k₁ ⟨hasid, pp, hpp⟩
      simp only [modify_bind, mkenvid_bind]
      have hout : k.AsidsOut ↔
          ∀ i < nasid, k₁.asidBitmap (asidIndex i) &&& asidMask i ≠ 0 := by
        rw [hasid]
        exact ⟨fun hout => hout.asids, fun hfull => ⟨by simp [hl], by simp [hpp], hfull⟩⟩
      refine sat_call (asidAlloc_fails _) ?_ ?_ (fun _ hh => hh.elim)
      · intro asid k₂ hleft
        exact fun hfull => hleft (hout.mp hfull)
      · rintro er _ ⟨hfull, rfl⟩
        exact .inr ⟨hout.mpr hfull, pp, hpp⟩
    · rintro er _ ⟨hnil, rfl⟩
      exact .inl ⟨fun hout => hout.frame hnil, rfl⟩

/-- **`sys_exofork` fails without a trace exactly if the address space identifiers are not what it
runs out of.** -/
theorem exofork_fails_cleanly_iff (h : Reach (fun _ _ => True) b k) (hc : k.curenv = some c) :
    (∀ er k', sysExofork k = .err er k' → k.SameResources k') ↔ ¬k.AsidsOut := by
  obtain ⟨M, hgood⟩ := h.good
  have hcur : curenvPtr k = .ret c k := by
    rw [curenvPtr, get_bind, hc]
    rfl
  have hspec : (sysExofork k).Sat (fun _ _ => ¬k.AsidsOut)
      (fun _ k' => ¬k.AsidsOut ∧ k' = k ∨
        k.AsidsOut ∧ ∃ pp, k.pageFreeList = pp :: k'.pageFreeList) (fun _ => False) := by
    rw [sysExofork, bind_ret hcur, get_bind]
    exact sat_call (envAlloc_fails hgood.inv _) (fun _ _ hh => hh) (fun _ _ hh => hh)
      (fun _ hh => hh)
  constructor
  · intro hclean hout
    cases hret : sysExofork k with
    | ret r k' => rw [hret] at hspec; exact hspec hout
    | halt p => rw [hret] at hspec; exact hspec
    | err er k' =>
      rw [hret] at hspec
      rcases hspec with ⟨hno, -⟩ | ⟨-, pp, hpp⟩
      · exact hno hout
      · have hfree := (hclean er k' hret).free
        rw [hpp] at hfree
        exact absurd hfree (by simp)
  · intro hout er k' herr
    rw [herr] at hspec
    rcases hspec with ⟨-, rfl⟩ | ⟨hyes, -⟩
    · exact .refl k'
    · exact absurd hyes hout

theorem exofork_fails_cleanly_memory : ∃ k k' er, Reach (fun _ _ => True) scarceBoot k ∧
    sysExofork k = .err er k' ∧ ¬k.AsidsOut ∧ k.SameResources k' := by
  obtain ⟨k, er, k', hr, herr, htest⟩ := exists_failure scarceBoot sysExofork
    [.envCreate (some emptyImage) 1, .timer, .exofork]
    (fun k _ => k.pageFreeList == [] && k.curenv == some 0) (by decide +kernel)
  simp only [Bool.and_eq_true, beq_iff_eq] at htest
  obtain ⟨hnil, hc⟩ := htest
  have hout : ¬k.AsidsOut := fun hout => hout.frame hnil
  exact ⟨k, k', er, hr, herr, hout, (exofork_fails_cleanly_iff hr hc).mpr hout er k' herr⟩

/-- **The frame of a page directory is lost**: 64 envs are in use, and the next `sys_exofork` fails
with one frame less on the free list. -/
theorem exofork_loses_frame : ∃ k k' er, Reach (fun _ _ => True) smallBoot k ∧
    sysExofork k = .err er k' ∧ k.pageFreeList = 132 :: k'.pageFreeList ∧
    ¬k.SameResources k' := by
  obtain ⟨k, er, k', hr, herr, htest⟩ := exists_failure smallBoot sysExofork
    (.envCreate (some emptyImage) 1 :: .timer :: List.replicate 63 .exofork)
    (fun k k' => k.pageFreeList == 132 :: k'.pageFreeList) (by decide +kernel)
  have hlost : k.pageFreeList = 132 :: k'.pageFreeList := by simpa using htest
  refine ⟨k, k', er, hr, herr, hlost, fun hsame => ?_⟩
  have hfree := hsame.free
  rw [hlost] at hfree
  exact absurd hfree (by simp)

/-! ## `sys_ipc_try_send` -/

/-- The message has arrived at `e`: it is runnable and has the value and the sender, and the page of
the sender if one was sent. -/
structure Kernel.Received (k : Kernel) (c e : EnvPtr) (value srcva : Word) (k' : Kernel) : Prop where
  status : (k'.envs e).envStatus = .runnable
  value : (k'.envs e).envIpcValue = value
  sender : (k'.envs e).envIpcFrom = (k.envs c).envId
  page : srcva ≠ 0 → k.Carried c srcva e k'

/-- **`sys_ipc_try_send` is all or nothing exactly if the page of a message to a waiting env can be
carried over**: the sender has it, there is room for it at the receiver, and the permission is
harmless. -/
theorem send_all_or_nothing_iff (h : Reach (fun _ _ => True) b k) (hc : k.curenv = some c)
    (envid value srcva perm : Word)
    (hback : (sysIpcTrySend envid value srcva perm k).state? ≠ none) :
    (sysIpcTrySend envid value srcva perm k).Sat
      (fun r k' => r = .value 0 ∧ ∃ e, k.Finds e envid srcva ∧ k.Received c e value srcva k')
      (fun _ k' => k' = k) (fun _ => True) ↔
    ∀ e, k.Finds e envid srcva → srcva ≠ 0 → k.CanCarry c srcva perm e := by
  obtain ⟨M, hgood⟩ := h.good
  have hdel := sysIpcTrySend_delivered envid value srcva perm k
  have hcarry : ∀ {e}, k.Finds e envid srcva → _ := fun hf =>
    sysIpcTrySend_carries hgood.inv hgood.base hc hf value perm
  cases hout : sysIpcTrySend envid value srcva perm k with
  | halt p => exact absurd (by rw [hout]; rfl) hback
  | ret r k' =>
    rw [hout] at hdel
    obtain ⟨e, c', hfind, hc', hsame⟩ := hdel
    obtain rfl : c = c' := Option.some.inj (hc.symm.trans hc')
    have henv : k'.envs e = (k.envs e).deliver value (k.envs c).envId perm := by
      rw [hsame.envs, setEnv_envs, update_self]
    have huniq : ∀ e', k.Finds e' envid srcva → e' = e := by
      intro e' hf'
      have hfind' := hf'.2.1
      rw [hfind.2.1] at hfind'
      cases hfind'
      rfl
    have hpage := hcarry hfind
    rw [hout] at hpage
    obtain ⟨hr, hpage⟩ := hpage
    constructor
    · rintro ⟨-, e₁, hf₁, hrecv⟩ e₂ hf₂ h0
      obtain rfl := huniq e₁ hf₁
      obtain rfl := huniq e₂ hf₂
      exact hpage.mp (hrecv.page h0)
    · intro hcan
      refine ⟨hr, e, hfind, ?_, ?_, ?_, fun h0 => hpage.mpr (hcan e hfind h0)⟩
      · rw [henv]; rfl
      · rw [henv]; rfl
      · rw [henv]; rfl
  | err er k' =>
    rw [hout] at hdel
    rcases hdel with ⟨rfl, hnone⟩ | ⟨e, c', hfind, hc', hsame⟩
    · exact iff_of_true rfl fun e hf => absurd hf (hnone e)
    · have hpage := hcarry hfind
      rw [hout] at hpage
      obtain ⟨⟨h0, hcan⟩, -⟩ := hpage
      refine iff_of_false (fun heq => ?_) (fun hall => hcan (hall e hfind h0))
      -- the receiver no longer waits
      have hk : k' = k := heq
      have henv : (k'.envs e).envIpcRecving = 0 := by
        rw [hsame.envs, setEnv_envs, update_self]
        rfl
      exact hfind.2.2 (hk ▸ henv)

theorem send_all_or_nothing_page : ∃ k, Reach (fun _ _ => True) smallBoot k ∧
    (sysIpcTrySend 4097 7 utext pteD k).state? ≠ none ∧
    (sysIpcTrySend 4097 7 utext pteD k).Sat
      (fun r k' => r = .value 0 ∧ ∃ e, k.Finds e 4097 utext ∧ k.Received 0 e 7 utext k')
      (fun _ k' => k' = k) (fun _ => True) := by
  obtain ⟨k, k₁, k', h, hcan⟩ := exists_sentPage
  have hback : (sysIpcTrySend 4097 7 utext pteD k).state? ≠ none := by
    intro hnone
    have hstep := h.step
    cases hout : sysIpcTrySend 4097 7 utext pteD k with
    | ret r k₂ => rw [hout] at hnone; cases hnone
    | err er k₂ => rw [hout] at hnone; cases hnone
    | halt p =>
      rw [Step, exec, bind_halt hout] at hstep
      cases hstep
  refine ⟨k, h.reach, hback, (send_all_or_nothing_iff h.reach h.cur 4097 7 utext pteD hback).mpr ?_⟩
  intro e hf _
  have hfind := hf.2.1
  rw [h.finds.2.1] at hfind
  cases hfind
  exact hcan

/-- **A message that fails and arrives**: the sender has no page at `srcva`, so the call returns an
error, but the receiver has been woken with the value. -/
theorem send_fails_and_arrives : ∃ k k' er, Reach (fun _ _ => True) smallBoot k ∧
    sysIpcTrySend 4097 7 (utext + 4096) pteD k = .err er k' ∧
    (k.envs 1).envStatus = .notRunnable ∧ (k'.envs 1).envStatus = .runnable ∧
    (k'.envs 1).envIpcValue = 7 ∧ k' ≠ k := by
  obtain ⟨k, er, k', hr, herr, htest⟩ := exists_failure smallBoot
    (sysIpcTrySend 4097 7 (utext + 4096) pteD) frameRun
    (fun k k' => (k.envs 1).envStatus == .notRunnable && (k'.envs 1).envStatus == .runnable &&
      (k'.envs 1).envIpcValue == 7) (by decide +kernel)
  simp only [Bool.and_eq_true, beq_iff_eq] at htest
  obtain ⟨⟨hbefore, hafter⟩, hvalue⟩ := htest
  refine ⟨k, k', er, hr, herr, hbefore, hafter, hvalue, ?_⟩
  rintro rfl
  rw [hbefore] at hafter
  cases hafter

end Mos
