import Mos.Kern.Overflow
import Mos.Kern.Spaces

/-!
# When the counter is enough

`pp_ref` has 16 bits, and one env alone has room for more than half a million mappings of a frame.
`Fitting` are the runs in which no frame is mapped once more while 65535 entries refer to it. Along
them the counts are exact, without any further assumption about the states on the way
(`counter_never_wraps`). Without the condition the count comes back to 0 while the frame is mapped
65536 times, and the frame of 65537 mappings is freed with the first of them (`counter_wraps`).
-/

namespace Mos

open Lib Prog Function

variable {M : List Nat} {k k' : Kernel} {b : Boot} {e : EnvPtr} {n : Nat} {w : Word}

/-- The states that runs from boot lead to, in which no operation maps a frame whose count is at its
limit. -/
inductive Fitting (b : Boot) : Kernel → Prop
  | boot {k : Kernel} (h : boot b = .ret () k) : Fitting b k
  | step {k k' : Kernel} (h : Fitting b k) (op : Op) (hsane : op.Sane k) (hfits : op.Fits k)
      (hstep : Step op k k') : Fitting b k'
  | evict {k : Kernel} (h : Fitting b k) (tlb : List TlbEntry) (hsub : tlb ⊆ k.tlb) :
      Fitting b { k with tlb := tlb }

/-- In such a run no count overflows. -/
theorem Fitting.reach (h : Fitting b k) : Reach (fun _ _ => True) b k := by
  induction h with
  | boot h => exact .boot h
  | step _ op hsane hfits hstep ih =>
    obtain ⟨M, hgood⟩ := ih.good
    obtain ⟨M', hgood'⟩ := hgood.advance hsane hstep (.inr hfits)
    exact ih.step op hsane trivial hstep hgood'.inv.vm.bounded
  | evict _ tlb hsub ih => exact ih.evict tlb hsub

/-- The counts of the mapped frames are right, and no mapped frame is free. -/
structure Kernel.Counted (k : Kernel) : Prop where
  exact : ∀ e n w, k.vm.leaf e n = some w → (k.ppRef (ppn w)).toNat = k.vm.refs (ppn w)
  pos : ∀ e n w, k.vm.leaf e n = some w → 1 ≤ (k.ppRef (ppn w)).toNat
  used : ∀ e n w, k.vm.leaf e n = some w → ppn w ∉ k.pageFreeList

theorem Kernel.Good.counted (h : k.Good M) : k.Counted where
  exact e n w hl := by
    have hslot := Vm.slotRef_page hl
    exact h.inv.vm.count _ (h.inv.vm.held _ _ hslot).1 (h.inv.vm.held _ _ hslot).2
  pos e n w hl := by
    have hne : (k.ppRef (ppn w)).toNat ≠ 0 := fun hc =>
      ppRef_ne_zero h.inv.vm (Vm.slotRef_page hl) (BitVec.eq_of_toNat_eq hc)
    omega
  used e n w hl := fun hfree => h.inv.vm.free_not_held hfree (Vm.slotRef_page hl)

theorem Fitting.counted (h : Fitting b k) : k.Counted := by
  obtain ⟨M, hgood⟩ := h.reach.good
  exact hgood.counted

/-- The entries and the contents of the frames, as they are. -/
def Kernel.spaces (k : Kernel) : Spaces := { pte := k.vm.leaf, mem := k.mem }

theorem Kernel.shows_spaces (k : Kernel) : k.Shows k.spaces := ⟨fun _ _ => rfl, fun _ _ _ _ => rfl⟩

/-- A `sys_mem_map` that returns has mapped a page at `dstva`. -/
theorem sysMemMap_leaf (h : k.Inv M) {srcid srcva dstid dstva perm : Word} (hperm : perm < 4096)
    {r : SysRet} (hret : sysMemMap srcid srcva dstid dstva perm k = .ret r k') :
    ∃ dst w, envid2env dstid true k = .ret dst k ∧ k'.vm.leaf dst (ppn dstva) = some w := by
  have hshows := sysMemMap_shows h k.shows_spaces srcid srcva dstid dstva hperm
  rw [hret] at hshows
  obtain ⟨src, dst, t, -, hdst, ht, hk'⟩ := hshows
  obtain ⟨w, -, rfl⟩ := Option.map_eq_some_iff.mp ht
  refine ⟨dst, pageEntry (ppn w) perm, hdst, ?_⟩
  rw [← hk'.pte, Spaces.pte_setPte, if_pos ⟨rfl, rfl⟩]

/-- A `sys_mem_alloc` that returns has mapped a page at `va`. -/
theorem sysMemAlloc_leaf (h : k.Inv M) {envid va perm : Word} (hperm : perm < 4096) {r : SysRet}
    (hret : sysMemAlloc envid va perm k = .ret r k') :
    ∃ e w, envid2env envid true k = .ret e k ∧ k'.vm.leaf e (ppn va) = some w := by
  have hshows := sysMemAlloc_shows h k.shows_spaces envid va hperm
  rw [hret] at hshows
  obtain ⟨e, f, he, -, -, hk'⟩ := hshows
  refine ⟨e, pageEntry f perm, he, ?_⟩
  rw [← hk'.pte]
  exact if_pos ⟨rfl, rfl⟩

/-- **The counter does not wrap as long as every mapping fits.** A frame that was just mapped is counted,
and `sys_mem_unmap` frees no frame that is still mapped. -/
theorem counter_never_wraps (h : Fitting b k) :
    k.Counted ∧
    (∀ srcid srcva dstid dstva perm r k', perm < 4096 →
      (Op.memMap srcid srcva dstid dstva perm).Fits k →
      sysMemMap srcid srcva dstid dstva perm k = .ret r k' →
      ∃ dst w, envid2env dstid true k = .ret dst k ∧ k'.vm.leaf dst (ppn dstva) = some w ∧
        1 ≤ (k'.ppRef (ppn w)).toNat ∧ k'.Counted) ∧
    (∀ envid va perm r k', perm < 4096 → sysMemAlloc envid va perm k = .ret r k' →
      ∃ e w, envid2env envid true k = .ret e k ∧ k'.vm.leaf e (ppn va) = some w ∧
        1 ≤ (k'.ppRef (ppn w)).toNat ∧ k'.Counted) ∧
    (∀ envid va r k', sysMemUnmap envid va k = .ret r k' →
      ∀ e n w, k'.vm.leaf e n = some w → ppn w ∉ k'.pageFreeList) := by
  obtain ⟨M, hgood⟩ := h.reach.good
  refine ⟨h.counted, ?_, ?_, ?_⟩
  · intro srcid srcva dstid dstva perm r k' hperm hfits hret
    have hk' : Fitting b k' :=
      h.step (.memMap srcid srcva dstid dstva perm) hperm hfits (step_of_ret hret)
    obtain ⟨dst, w, hdst, hw⟩ := sysMemMap_leaf hgood.inv hperm hret
    exact ⟨dst, w, hdst, hw, hk'.counted.pos _ _ _ hw, hk'.counted⟩
  · intro envid va perm r k' hperm hret
    have hk' : Fitting b k' := h.step (.memAlloc envid va perm) hperm trivial (step_of_ret hret)
    obtain ⟨e, w, he, hw⟩ := sysMemAlloc_leaf hgood.inv hperm hret
    exact ⟨e, w, he, hw, hk'.counted.pos _ _ _ hw, hk'.counted⟩
  · intro envid va r k' hret
    have hk' : Fitting b k' := h.step (.memUnmap envid va) trivial trivial (step_of_ret hret)
    exact hk'.counted.used

/-! ## Runs that map nothing twice -/

/-- The operation maps no frame that has other mappings. -/
def Op.plain : Op → Bool
  | .memMap _ _ _ _ _ => false
  | .ipcTrySend _ _ _ _ => false
  | _ => true

theorem Op.fits_of_plain {op : Op} (h : op.plain = true) (k : Kernel) : op.Fits k := by
  cases op with
  | memMap s sv d dv p => cases h
  | ipcTrySend e v s p => cases h
  | _ => trivial

/-- Performs operations one after the other, with the tests. -/
def plainOps : List Op → Kernel → Option Kernel
  | [], k => some k
  | op :: ops, k =>
    if op.saneb k && op.plain then (exec op k).state?.bind (plainOps ops) else none

theorem Fitting.of_plainOps : ∀ {ops : List Op} {k k' : Kernel}, Fitting b k →
    plainOps ops k = some k' → Fitting b k'
  | [], k, k', hk, h => by
    cases h
    exact hk
  | op :: ops, k, k', hk, h => by
    unfold plainOps at h
    split at h
    next htest =>
      rw [Bool.and_eq_true] at htest
      obtain ⟨k₁, hstep, h⟩ := Option.bind_eq_some_iff.mp h
      exact (hk.step op (Op.sane_of_saneb htest.1) (Op.fits_of_plain htest.2 k) hstep).of_plainOps h
    next => cases h

theorem exists_fitting (b : Boot) (ops : List Op) (test : Kernel → Bool)
    (h : ((Mos.boot b).state?.bind (plainOps ops)).any test = true) :
    ∃ k, Fitting b k ∧ test k = true := by
  obtain ⟨k, hk, htest⟩ := (Option.any_eq_true _ _).mp h
  obtain ⟨k₀, hk₀, hk⟩ := Option.bind_eq_some_iff.mp hk
  exact ⟨k, (Fitting.boot (boot_of_state? hk₀)).of_plainOps hk, htest⟩

theorem counter_never_wraps_alloc : ∃ k k' r e w, Fitting smallBoot k ∧
    sysMemAlloc 0 utext pteD k = .ret r k' ∧ k'.vm.leaf e (ppn utext) = some w ∧
    1 ≤ (k'.ppRef (ppn w)).toNat := by
  obtain ⟨k, hk, htest⟩ := exists_fitting smallBoot [.envCreate (some emptyImage) 1, .timer]
    (fun k => (sysMemAlloc 0 utext pteD k).retAnd fun _ _ => true) (by decide +kernel)
  obtain ⟨r, k', hret, -⟩ := Outcome.retAnd_eq_true.mp htest
  obtain ⟨e, w, -, hw, hpos, -⟩ :=
    (counter_never_wraps hk).2.2.1 0 utext pteD r k' (by decide) hret
  exact ⟨k, k', r, e, w, hk, hret, hw, hpos⟩

/-! ## A count that comes back to 0 -/

/-- **65536 successful calls bring the count to 0, and one more makes it 1**: then the first
`sys_mem_unmap` frees the frame, which `UTEXT` still maps. -/
theorem counter_wraps : ∃ k₀ k₁ k₂ k₃ r, boot smallBoot = .ret () k₀ ∧
    Relation.ReflTransGen Kernel.Next k₀ k₁ ∧ k₁.vm.leaf 0 (ppn utext) = some (pageEntry 195 pteD) ∧
    k₁.ppRef 195 = 0 ∧
    Relation.ReflTransGen Kernel.Next k₁ k₂ ∧ sysMemUnmap 0 (floodVa 2 0) k₂ = .ret r k₃ ∧
    195 ∈ k₃.pageFreeList ∧ k₃.vm.leaf 0 (ppn utext) = some (pageEntry 195 pteD) := by
  have htest : ((boot smallBoot).state?.bind (nextOps floodSetup)).any (fun k : Kernel =>
      k.floodable 0 196 195 2 194 utext pteD && decide (64 ≤ k.pageFreeList.length) &&
      decide ((k.flooded 196 195 2 (pageEntry 195 pteD) 65535).ppRef 195 = 0) &&
      (k.flooded 196 195 2 (pageEntry 195 pteD) 65535).vm.leaf 0 (ppn utext) ==
        some (pageEntry 195 pteD) &&
      (sysMemUnmap 0 (floodVa 2 0) (k.flooded 196 195 2 (pageEntry 195 pteD) 65536)).retAnd
        fun _ k₃ => decide (195 ∈ k₃.pageFreeList) &&
          k₃.vm.leaf 0 (ppn utext) == some (pageEntry 195 pteD)) = true := by
    decide +kernel
  obtain ⟨k, hk, htest⟩ := (Option.any_eq_true _ _).mp htest
  obtain ⟨k₀, hk₀, hk⟩ := Option.bind_eq_some_iff.mp hk
  simp only [Bool.and_eq_true, decide_eq_true_eq, beq_iff_eq] at htest
  obtain ⟨⟨⟨⟨hflood, hroom⟩, hzero⟩, hleaf⟩, hend⟩ := htest
  have hflood := floodable_of_test hflood
  have hrun := (next_of_nextOps hk).trans (flood_run hflood (by decide) 65535 (by decide) hroom)
  have hmap := flood_map hflood (n := 65535) (by decide) (by omega)
  obtain ⟨r, k₃, hret, hend⟩ := Outcome.retAnd_eq_true.mp hend
  simp only [Bool.and_eq_true, decide_eq_true_eq, beq_iff_eq] at hend
  have hperm : pteD < 4096 := by decide
  have hglobal : has pteD pteG = false := by decide
  exact ⟨k₀, _, _, k₃, r, boot_of_state? hk₀, hrun, hleaf, hzero,
    .single ⟨.memMap 0 utext 0 (floodVa 2 65535) pteD, hperm, hglobal, step_of_ret hmap⟩,
    hret, hend.1, hend.2⟩

end Mos
