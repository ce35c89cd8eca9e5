import Mathlib.Data.List.Basic
import Mos.Kern.RefCounting

/-!
# What an operation does to address spaces and the TLB

`Vm.Inv` says that the books are right; this module says what changes. `Vm.Writes` bounds the memory
that a kernel function writes: page directories only get entries that are empty or carry `PTE_D`, and
their entry for `UVPT` stays. A `Micro` step is one elementary change, and every operation of the
kernel is a chain of them (`exec_via`): a page of one env gets another entry and the TLB loses the old
one, the TLB gets the entry of a mapped page, an env is born with a fresh ASID, an env dies after its
last page is gone, or nothing of this kind happens. What holds across all of them is proved once for
each kind of step.
-/

namespace Mos

open Lib Prog Function

/-! ## Writes to page directories -/

/-- From `v` to `u` the frame `b` is not written, and page directories get entries that are empty or
carry `PTE_D`, at other places than that of `UVPT`. -/
structure Vm.Writes (b : Nat) (v u : Vm) : Prop where
  pgdirs : u.pgdirs = v.pgdirs
  base : u.mem b = v.mem b
  dirs : ∀ d ∈ v.pgdirs, ∀ i, u.mem d i = v.mem d i ∨
    i ≠ pdx uvpt ∧ (u.mem d i = 0 ∨ has (u.mem d i) pteD = true)

namespace Vm.Writes

variable {b d f i : Nat} {v u u' : Vm} {w : Word}

theorem refl (b : Nat) (v : Vm) : Writes b v v := ⟨rfl, rfl, fun _ _ _ => .inl rfl⟩

theorem trans (h : Writes b v u) (h' : Writes b u u') : Writes b v u' := by
  refine ⟨h'.pgdirs.trans h.pgdirs, h'.base.trans h.base, fun d hd i => ?_⟩
  rcases h'.dirs d (h.pgdirs ▸ hd) i with heq | hnew
  · rcases h.dirs d hd i with heq' | ⟨hi, hnew⟩
    · exact .inl (heq.trans heq')
    · rw [heq]
      exact .inr ⟨hi, hnew⟩
  · exact .inr hnew

/-- One frame is written, and it is no page directory. -/
theorem frame (hb : f ≠ b) (hf : f ∉ v.pgdirs) (hpg : u.pgdirs = v.pgdirs)
    (hmem : ∀ g, g ≠ f → u.mem g = v.mem g) : Writes b v u := by
  refine ⟨hpg, hmem b fun hc => hb hc.symm, fun d hd i => .inl ?_⟩
  rw [hmem d fun hc => hf (hc ▸ hd)]

/-- One entry of a page directory is written. -/
theorem entry (hb : d ≠ b) (hi : i ≠ pdx uvpt) (hw : w = 0 ∨ has w pteD = true)
    (hpg : u.pgdirs = v.pgdirs) (hmem : u.mem = (v.setWord d i w).mem) : Writes b v u := by
  refine ⟨hpg, ?_, fun d' _ i' => ?_⟩
  · rw [hmem]
    exact update_of_ne (fun hc => hb hc.symm) _ _
  · rw [hmem]
    by_cases hd : d' = d
    · subst hd
      by_cases hii : i' = i
      · subst hii
        exact .inr ⟨hi, by simpa [setWord] using hw⟩
      · exact .inl (by simp [setWord, hii])
    · exact .inl (by simp [setWord, hd])

end Vm.Writes

/-- Only the memory of the two states matters. -/
theorem Vm.Writes.congr {b : Nat} {v u u' : Vm} (h : Vm.Writes b v u) (hmem : u'.mem = u.mem)
    (hpg : u'.pgdirs = u.pgdirs) : Vm.Writes b v u' :=
  ⟨hpg.trans h.pgdirs, by rw [hmem]; exact h.base, by rw [hmem]; exact h.dirs⟩

section Effects

variable {M : List Nat} {k k' : Kernel} {e : EnvPtr} {b d t pp : Nat} {va perm asid w : Word}

theorem ne_uvpt_of_lt {i : Nat} (h : i < npde) : i ≠ pdx uvpt := by
  rw [pdx_uvpt]
  unfold npde at h
  omega

/-- Frames in use by memory management are not the template. -/
theorem ne_of_managed {f : Nat} (hb : b ∉ M) (hf : f ∈ M) : f ≠ b := fun hc => hb (hc ▸ hf)

theorem writes_takeFrame (h : k.vm.Inv M) (hb : b ∉ M) {rest : List Nat}
    (hf : k.pageFreeList = pp :: rest) : k.vm.Writes b (k.takeFrame pp rest).vm := by
  have hmem : pp ∈ k.vm.free := by
    show pp ∈ k.pageFreeList
    rw [hf]
    exact List.mem_cons_self
  obtain ⟨hM, hpg, _⟩ := h.free_spec pp hmem
  exact .frame (ne_of_managed hb hM) hpg rfl fun g hg => update_of_ne hg _ _

theorem pageAlloc_writes (h : k.vm.Inv M) (hb : b ∉ M) :
    (pageAlloc k).Sat (fun _ k' => k.vm.Writes b k'.vm ∧ k'.tlb = k.tlb) (fun _ k' => k' = k)
      (fun _ => True) := by
  cases hf : k.pageFreeList with
  | nil =>
    rw [pageAlloc_nil hf]
    exact rfl
  | cons pp rest =>
    rw [pageAlloc_cons hf]
    split
    · exact ⟨writes_takeFrame h hb hf, rfl⟩
    · trivial

theorem writes_setPte (h : k.vm.Inv M) (hb : b ∉ M) {i : Nat} (ht : k.vm.table e i = some t)
    {j : Nat} {u : Vm} (hpg : u.pgdirs = k.vm.pgdirs) (hmem : u.mem = (k.vm.setWord t j w).mem) :
    k.vm.Writes b u := by
  obtain ⟨hM, hp⟩ := h.held _ t (Vm.slotRef_table ht)
  refine .frame (ne_of_managed hb hM) hp hpg fun g hg => ?_
  rw [hmem]
  exact update_of_ne hg _ _

/-- **`page_remove`** changes nothing where nothing is mapped; else the TLB loses the page. -/
theorem pageRemove_effect (h : k.vm.Inv M) (hb : b ∉ M) (hd : k.vm.dir e = some d)
    (hva : pdx va < npde) (asid : Word) :
    (pageRemove d asid va k).Sat
      (fun _ k' => k.vm.Writes b k'.vm ∧ (k' = k ∨ k'.tlb = (k.flush asid va).tlb))
      (fun _ _ => False) (fun _ => False) := by
  cases hl : k.vm.leaf e (ppn va) with
  | none =>
    rw [pageRemove, bind_ret (pageLookup_unmapped h hd hva hl)]
    exact ⟨.refl b _, .inl rfl⟩
  | some w =>
    obtain ⟨t, ht, _⟩ := table_of_leaf hl
    obtain ⟨k', heq, hvm, htlb⟩ := pageRemove_mapped h hd ht hl asid
    rw [heq]
    exact ⟨writes_setPte h hb ht (w := 0) (by rw [hvm]; rfl) (by rw [hvm]; rfl), .inr htlb⟩

/-- What `page_insert` leaves behind: the TLB has lost the page, and its entry is the new one,
whatever the permission is. -/
def Inserted (b : Nat) (k k' : Kernel) (e : EnvPtr) (asid va w : Word) : Prop :=
  k.vm.Writes b k'.vm ∧ k'.tlb = (k.flush asid va).tlb ∧
    ∃ t, k'.vm.table e (pdx va) = some t ∧ t < k'.npage ∧ k'.mem t (ptx va) = w

theorem flush_tlb_flush (k : Kernel) (asid va : Word) :
    ((k.flush asid va).flush asid va).tlb = (k.flush asid va).tlb := by
  simp [Kernel.flush, List.filter_filter]

theorem pageInsertNew_effect (h : k.vm.Inv M) (hb : b ∉ M) (hd : k.vm.dir e = some d)
    (hva : pdx va < npde) (asid : Word) (pp : Nat) (perm : Word) :
    (pageInsertNew d asid pp va perm k).Sat
      (fun _ k' => Inserted b k k' e asid va (pageEntry pp perm))
      (fun er k' => er = .noMem ∧ has (k.mem d (pdx va)) pteV = false ∧ k' = k.flush asid va)
      (fun _ => False) := by
  cases ht : k.vm.table e (pdx va) with
  | some t =>
    obtain ⟨k', heq, hvm, htlb⟩ := pageInsertNew_table h hd ht asid pp perm
    have hmem : k'.mem = (k.vm.setWord t (ptx va) (pageEntry pp perm)).mem :=
      congrArg Vm.mem hvm
    rw [heq]
    refine ⟨writes_setPte h hb ht (by rw [hvm]; rfl) (by rw [hvm]; rfl), htlb, t, ?_, ?_, ?_⟩
    · rw [hvm, Vm.table_addRef, Vm.table_setPte h ht]
      exact ht
    · have hnp : k'.npage = k.npage := congrArg Vm.npage hvm
      rw [hnp]
      exact h.table_lt_npage ht
    · rw [hmem]
      simp [Vm.setWord]
  | none =>
    have hflush : tlbInvalidate asid va k = .ret () (k.flush asid va) := rfl
    rw [pageInsertNew, bind_ret hflush]
    cases hf : k.pageFreeList with
    | nil =>
      rw [bind_err (pgdirWalk_create_nil (k := k.flush asid va) hd hva ht hf)]
      exact ⟨rfl, mem_invalid_of_table_none hd hva ht, rfl⟩
    | cons p rest =>
      have hwalk := pgdirWalk_create_eq (k := k.flush asid va) h hd hva ht hf
      rw [bind_ret hwalk]
      have hfree : p ∈ k.vm.free := by
        show p ∈ k.pageFreeList
        rw [hf]
        exact List.mem_cons_self
      obtain ⟨hM, hpg, _⟩ := h.free_spec p hfree
      have hdM : d ∈ M := (h.pgdirs_spec d (h.dir_mem e d hd)).1
      have hdp : p ≠ d := fun hc => hpg (hc ▸ h.dir_mem e d hd)
      have hlt : p < 2 ^ 20 := lt_trans (h.managed p hM) h.npage_lt
      have h₁ : k.vm.Writes b (k.takeFrame p rest).vm := writes_takeFrame h hb hf
      have h₂ : (k.takeFrame p rest).vm.Writes b (k.newTable d (pdx va) p rest).vm :=
        .entry (ne_of_managed hb hdM) (ne_uvpt_of_lt hva) (.inr (has_tableEntry_dirty p)) rfl rfl
      have h₃ : (k.newTable d (pdx va) p rest).vm.Writes b
          ((k.newTable d (pdx va) p rest).vm.setWord p (ptx va) (pageEntry pp perm)) :=
        .frame (ne_of_managed hb hM) hpg rfl fun g hg => update_of_ne hg _ _
      refine ⟨((h₁.trans h₂).trans h₃).congr rfl rfl, rfl, p, ?_, h.managed p hM, ?_⟩
      · have hdir : (((k.flush asid va).newTable d (pdx va) p rest).setWord p (ptx va)
            (pageEntry pp perm)).vm.dir e = some d := hd
        refine Vm.table_eq_some.mpr ⟨d, hdir, hva, ?_, ?_⟩
        · simp [Kernel.vm, Kernel.newTable, Kernel.setWord, Kernel.setRef, update_of_ne hdp.symm,
            has_tableEntry_valid]
        · simp [Kernel.vm, Kernel.newTable, Kernel.setWord, Kernel.setRef, update_of_ne hdp.symm,
            ppn_tableEntry hlt]
      · simp [Kernel.setWord, Kernel.setRef, pageEntry]

/-- **`page_insert`**, for any permission. -/
theorem pageInsert_effect (h : k.vm.Inv M) (hb : b ∉ M) (hd : k.vm.dir e = some d)
    (hva : pdx va < npde) (asid : Word) (pp : Nat) (perm : Word) :
    (pageInsert d asid pp va perm k).Sat
      (fun _ k' => Inserted b k k' e asid va (pageEntry pp perm))
      (fun er k' => er = .noMem ∧ has (k.mem d (pdx va)) pteV = false ∧ k' = k.flush asid va)
      (fun _ => False) := by
  have hnew := pageInsertNew_effect h hb hd hva asid pp perm
  have hlt := ptx_lt va
  cases ht : k.vm.table e (pdx va) with
  | none =>
    rw [pageInsert, bind_ret (pgdirWalk_absent hd hva ht)]
    exact hnew
  | some t =>
    rw [pageInsert, bind_ret (pgdirWalk_table h hd ht false)]
    simp only [readWord_bind]
    cases hl : k.vm.leaf e (ppn va) with
    | none =>
      simp only [mem_invalid_of_leaf_none ht hl, Bool.false_eq_true, if_false]
      exact hnew
    | some w =>
      obtain ⟨t', ht', hval, rfl⟩ := table_of_leaf hl
      obtain rfl : t' = t := Option.some.inj (ht'.symm.trans ht)
      simp only [hval, if_true]
      rw [pa2page_bind (h.leaf_lt_npage hl)]
      split
      · obtain ⟨k₁, heq₁, hvm₁, htlb₁⟩ := pageRemove_mapped h hd ht hl asid
        rw [bind_ret heq₁]
        have hl' := hl
        rw [ppn_split] at hl'
        have hinv₁ : k₁.vm.Inv M := by rw [hvm₁]; exact h.unlinkPage ht hlt hl'
        have htab₁ : k₁.vm.table = k.vm.table := (h.after_unlinkPage ht hlt hl' hvm₁).1
        have hd₁ : k₁.vm.dir e = some d := by rw [hvm₁]; exact hd
        obtain ⟨k₂, heq₂, hvm₂, htlb₂⟩ :=
          pageInsertNew_table hinv₁ hd₁ (by rw [htab₁]; exact ht) asid pp perm
        have hmem₂ : k₂.vm.mem = (k.vm.setWord t' (ptx va) (pageEntry pp perm)).mem := by
          rw [hvm₂, hvm₁]
          simp [Vm.addRef, Vm.dropRef, Vm.setWord]
        rw [heq₂]
        refine ⟨writes_setPte h hb ht (by rw [hvm₂, hvm₁]; rfl) hmem₂, ?_, t', ?_, ?_, ?_⟩
        · exact htlb₂.trans ((congrArg (List.filter _) htlb₁).trans (flush_tlb_flush k asid va))
        · rw [hvm₂, Vm.table_addRef, Vm.table_setPte hinv₁ (by rw [htab₁]; exact ht), htab₁]
          exact ht
        · have hnp : k₂.npage = k.npage := (congrArg Vm.npage hvm₂).trans (congrArg Vm.npage hvm₁)
          rw [hnp]
          exact h.table_lt_npage ht
        · show k₂.vm.mem t' (ptx va) = _
          rw [hmem₂]
          simp [Vm.setWord]
      · -- the same frame again
        refine ⟨writes_setPte h hb ht (w := pageEntry pp perm) rfl rfl, rfl, t', ?_,
          h.table_lt_npage ht, ?_⟩
        · exact (congrFun (congrFun (Vm.table_setPte (w := pageEntry pp perm) (j := ptx va) h ht) e) _).trans ht
        · simp [Kernel.setWord, pageEntry]

end Effects

/-! ## Elementary steps -/

variable {M : List Nat} {k k' k₁ k₂ : Kernel} {e : EnvPtr} {α : Type}

/-- No mapping changes, the TLB gains nothing, and the live envs and their ASIDs stay. -/
structure Kernel.Still (k k' : Kernel) : Prop where
  writes : k.vm.Writes k.basePgdir k'.vm
  leaf : k'.vm.leaf = k.vm.leaf
  tlb : k'.tlb ⊆ k.tlb
  live : ∀ e, k'.Live e ↔ k.Live e
  asid : ∀ e, k.Live e → (k'.envs e).envAsid = (k.envs e).envAsid
  bitmap : k'.asidBitmap = k.asidBitmap
  base : k'.basePgdir = k.basePgdir

namespace Kernel.Still

theorem refl (k : Kernel) : k.Still k :=
  ⟨.refl _ _, rfl, List.Subset.refl _, fun _ => Iff.rfl, fun _ _ => rfl, rfl, rfl⟩

theorem trans (h : k.Still k₁) (h' : k₁.Still k₂) : k.Still k₂ :=
  ⟨h.writes.trans (h.base ▸ h'.writes), h'.leaf.trans h.leaf, List.Subset.trans h'.tlb h.tlb,
    fun e => (h'.live e).trans (h.live e),
    fun e hl => (h'.asid e ((h.live e).mpr hl)).trans (h.asid e hl),
    h'.bitmap.trans h.bitmap, h'.base.trans h.base⟩

/-- A function that only changes the memory. -/
theorem of_frame (hf : k.Frame k') (hw : k.vm.Writes k.basePgdir k'.vm)
    (hleaf : k'.vm.leaf = k.vm.leaf) (htlb : k'.tlb ⊆ k.tlb) : k.Still k' := by
  refine ⟨hw, hleaf, htlb, fun e => ?_, fun e _ => by rw [hf.envs], hf.asidBitmap, hf.basePgdir⟩
  unfold Kernel.Live
  rw [hf.envs]

/-- The memory is the same. -/
theorem of_vm (hvm : k'.vm = k.vm) (htlb : k'.tlb = k.tlb)
    (hasid : ∀ e, k.Live e → (k'.envs e).envAsid = (k.envs e).envAsid)
    (hbit : k'.asidBitmap = k.asidBitmap) (hbase : k'.basePgdir = k.basePgdir) : k.Still k' := by
  refine ⟨by rw [hvm]; exact .refl _ _, by rw [hvm], by rw [htlb]; exact List.Subset.refl _,
    fun e => ?_, hasid, hbit, hbase⟩
  have hdir : k'.vm.dir e = k.vm.dir e := by rw [hvm]
  constructor
  · intro hl
    rw [dir_of_live hl] at hdir
    exact (dir_eq_some.mp hdir.symm).1
  · intro hl
    rw [dir_of_live hl] at hdir
    exact (dir_eq_some.mp hdir).1

/-- Fields of an env other than its status, page directory and ASID. -/
theorem setEnv (k : Kernel) (e : EnvPtr) {f : Env → Env}
    (hst : (f (k.envs e)).envStatus ≠ .free ↔ (k.envs e).envStatus ≠ .free)
    (hpg : (f (k.envs e)).envPgdir = (k.envs e).envPgdir)
    (hasid : (f (k.envs e)).envAsid = (k.envs e).envAsid) : k.Still (k.setEnv e f) := by
  refine of_vm (vm_setEnv hst hpg) rfl (fun e' _ => ?_) rfl rfl
  rw [setEnv_envs]
  by_cases he : e' = e
  · rw [he, update_self, hasid]
  · rw [update_of_ne he]

end Kernel.Still

/-- The TLB after a refill. -/
def Kernel.fill (k : Kernel) (va asid lo : Word) : Kernel :=
  { k with tlb := { hi := pteAddr va ||| asid <<< 6, lo := lo } :: k.tlb }

/-- `asid_bitmap` with the bit of ASID `i` set. -/
def setAsid (bits : Fin 2 → Word) (i : Nat) : Fin 2 → Word :=
  update bits (asidIndex i) (bits (asidIndex i) ||| asidMask i)

/-- `asid_bitmap` with the bit of ASID `i` clear. -/
def clearAsid (bits : Fin 2 → Word) (i : Nat) : Fin 2 → Word :=
  update bits (asidIndex i) (bits (asidIndex i) &&& ~~~(asidMask i))

/-- One elementary change. `P e n o` allows page `n` of `e` to get the entry `o`. -/
inductive Micro (P : EnvPtr → Nat → Option Word → Prop) : Kernel → Kernel → Prop
  | still {k k' : Kernel} (h : k.Still k') : Micro P k k'
  /-- A page gets another entry, and the TLB loses the old one. -/
  | remap {k k' : Kernel} (e : EnvPtr) (va : Word) (o : Option Word) (hl : k.Live e)
      (hP : P e (ppn va) o) (hf : k.Frame k') (hw : k.vm.Writes k.basePgdir k'.vm)
      (hleaf : ∀ e' n, k'.vm.leaf e' n = if e' = e ∧ n = ppn va then o else k.vm.leaf e' n)
      (htlb : k'.tlb = (k.flush (k.envs e).envAsid va).tlb) : Micro P k k'
  /-- The TLB gets the entry of a page of the current env. -/
  | refill {k : Kernel} (c : EnvPtr) (va lo : Word) (hc : k.curenv = some c)
      (hlo : va < utop → k.vm.leaf c (ppn va) = some lo) :
      Micro P k (k.fill va (k.envs c).envAsid lo)
  /-- A fresh frame becomes a page directory. -/
  | pgdir {k k' : Kernel} (p : Nat) (hp : p ≠ k.basePgdir) (hpg : k'.pgdirs = p :: k.pgdirs)
      (hmem : k'.mem = update k.mem p (setupPgdir p (fun _ => 0) (k.mem k.basePgdir)))
      (hleaf : k'.vm.leaf = k.vm.leaf) (htlb : k'.tlb = k.tlb) (hlive : ∀ e, k'.Live e ↔ k.Live e)
      (hasid : ∀ e, k.Live e → (k'.envs e).envAsid = (k.envs e).envAsid)
      (hbit : k'.asidBitmap = k.asidBitmap) (hbase : k'.basePgdir = k.basePgdir) : Micro P k k'
  /-- An env comes to life, with an ASID whose bit was clear. -/
  | birth {k k' : Kernel} (e : EnvPtr) (i : Nat) (hdead : ¬k.Live e) (hi : i < nasid)
      (hclear : k.asidBitmap (asidIndex i) &&& asidMask i = 0)
      (hasid : (k'.envs e).envAsid = BitVec.ofNat 32 i)
      (hbit : k'.asidBitmap = setAsid k.asidBitmap i)
      (hlive : ∀ e', k'.Live e' ↔ e' = e ∨ k.Live e')
      (hother : ∀ e', e' ≠ e → (k'.envs e').envAsid = (k.envs e').envAsid)
      (hleaf : k'.vm.leaf = k.vm.leaf) (htlb : k'.tlb = k.tlb) (hmem : k'.mem = k.mem)
      (hpg : k'.pgdirs = k.pgdirs) (hbase : k'.basePgdir = k.basePgdir) : Micro P k k'
  /-- An env without pages dies, and the bit of its ASID is cleared. -/
  | death {k k' : Kernel} (e : EnvPtr) (hl : k.Live e) (hempty : ∀ n, k.vm.leaf e n = none)
      (hbit : k'.asidBitmap = clearAsid k.asidBitmap (k.envs e).envAsid.toNat)
      (hlive : ∀ e', k'.Live e' ↔ e' ≠ e ∧ k.Live e')
      (hother : ∀ e', e' ≠ e → (k'.envs e').envAsid = (k.envs e').envAsid)
      (hleaf : k'.vm.leaf = k.vm.leaf) (htlb : k'.tlb ⊆ k.tlb) (hmem : k'.mem = k.mem)
      (hpg : k'.pgdirs ⊆ k.pgdirs) (hbase : k'.basePgdir = k.basePgdir) : Micro P k k'

/-- A chain of elementary changes. -/
abbrev Via (P : EnvPtr → Nat → Option Word → Prop) : Kernel → Kernel → Prop :=
  Relation.ReflTransGen (Micro P)

variable {P : EnvPtr → Nat → Option Word → Prop}

theorem Via.of_still (h : k.Still k') : Via P k k' := .single (.still h)

/-- What holds across every elementary change holds across a chain. -/
theorem Via.keeps {I : Kernel → Prop} (hstep : ∀ k k', Micro P k k' → I k → I k')
    (h : Via P k k') (hI : I k) : I k' := by
  induction h with
  | refl => exact hI
  | tail _ hm ih => exact hstep _ _ hm ih

/-- A function that makes such a chain, whether it returns or fails. -/
def Makes (P : EnvPtr → Nat → Option Word → Prop) (m : KernM α) (k : Kernel) : Prop :=
  (m k).Sat (fun _ k' => Via P k k') (fun _ k' => Via P k k') (fun _ => True)

theorem makes_pure (a : α) : Makes P (pure a) k := .refl

theorem makes_fail (er : Err) : Makes P (fail er : KernM α) k := .refl

theorem makes_halt (p : Panic) : Makes P (halt p : KernM α) k := trivial

theorem makes_get {f : Kernel → KernM α} (h : Makes P (f k) k) : Makes P (get >>= f) k := h

/-- The template stays where it is. -/
theorem Via.base (h : Via P k k') : k'.basePgdir = k.basePgdir := by
  induction h with
  | refl => rfl
  | tail _ hm ih =>
    refine Eq.trans ?_ ih
    cases hm with
    | still hs => exact hs.base
    | remap e va o hl hP hf hw hleaf htlb => exact hf.basePgdir
    | refill c va lo hc hlo => rfl
    | pgdir p hp hpg hmem hleaf htlb hlive hasid hbit hbase => exact hbase
    | birth e i hdead hi hclear hasid hbit hlive hother hleaf htlb hmem hpg hbase => exact hbase
    | death e hl hempty hbit hlive hother hleaf htlb hmem hpg hbase => exact hbase

/-- The rule for a call: what else is known about the callee's outcome can be used in the rest. -/
theorem makes_call {β : Type} {m : KernM α} {f : α → KernM β} {Q : α → Kernel → Prop}
    {E : Err → Kernel → Prop} {H : Panic → Prop} (hm : Makes P m k) (hs : (m k).Sat Q E H)
    (hf : ∀ a k₁, k₁.basePgdir = k.basePgdir → Q a k₁ → Makes P (f a) k₁) :
    Makes P (m >>= f) k := by
  refine sat_call (hm.and hs) ?_ (fun _ _ h => h.1) (fun _ _ => trivial)
  rintro a k₁ ⟨hvia, hq⟩
  exact (hf a k₁ hvia.base hq).mono (fun _ _ h => hvia.trans h) (fun _ _ h => hvia.trans h)
    (fun _ h => h)

/-- A callee that leaves the state alone. -/
theorem makes_read {β : Type} {m : KernM α} {f : α → KernM β} {Q : α → Prop}
    (hs : (m k).Sat (fun a k' => k = k' ∧ Q a) (fun _ k' => k = k') (fun _ => True))
    (hf : ∀ a, Q a → Makes P (f a) k) : Makes P (m >>= f) k := by
  refine sat_call hs ?_ (fun _ _ h => h ▸ .refl) (fun _ h => h)
  rintro a _ ⟨rfl, hq⟩
  exact hf a hq

theorem makes_attempt {m : KernM α} (h : Makes P m k) : Makes P (attempt m) k := by
  unfold Makes
  rw [sat_attempt]
  exact h

theorem makes_of_still {m : KernM α} {E : Err → Kernel → Prop} {H : Panic → Prop}
    (h : (m k).Sat (fun _ k' => k.Still k') E H) (hE : ∀ er k', E er k' → k.Still k') :
    Makes P m k :=
  h.mono (fun _ _ h => .of_still h) (fun er k' h => .of_still (hE er k' h)) (fun _ _ => trivial)

/-! ## The entries of page directories -/

/-- Page directories map themselves at `UVPT`, without `PTE_D`, and all their other entries carry
`PTE_D`; so do those of the template. -/
structure Kernel.DirsOk (k : Kernel) : Prop where
  self : ∀ d ∈ k.pgdirs, k.mem d (pdx uvpt) = page2pa d ||| pteV
  dirty : ∀ d ∈ k.pgdirs, ∀ i, i ≠ pdx uvpt → has (k.mem d i) pteV → has (k.mem d i) pteD
  template : ∀ i, has (k.mem k.basePgdir i) pteV → has (k.mem k.basePgdir i) pteD

theorem Kernel.DirsOk.writes (h : k.DirsOk) (hw : k.vm.Writes k.basePgdir k'.vm)
    (hbase : k'.basePgdir = k.basePgdir) : k'.DirsOk := by
  have hpg : k'.pgdirs = k.pgdirs := hw.pgdirs
  have hdirs : ∀ d ∈ k.pgdirs, ∀ i, k'.mem d i = k.mem d i ∨
    i ≠ pdx uvpt ∧ (k'.mem d i = 0 ∨ has (k'.mem d i) pteD = true) := hw.dirs
  have hmem : k'.mem k.basePgdir = k.mem k.basePgdir := hw.base
  refine ⟨fun d hd => ?_, fun d hd i hi hv => ?_, ?_⟩
  · rw [hpg] at hd
    rcases hdirs d hd (pdx uvpt) with heq | ⟨hne, _⟩
    · rw [heq]
      exact h.self d hd
    · exact absurd rfl hne
  · rw [hpg] at hd
    rcases hdirs d hd i with heq | ⟨_, h0 | hD⟩
    · rw [heq] at hv ⊢
      exact h.dirty d hd i hi hv
    · rw [h0] at hv
      simp at hv
    · exact hD
  · rw [hbase, hmem]
    exact h.template

theorem setupPgdir_uvpt (p : Nat) (old base : Nat → Word) :
    setupPgdir p old base (pdx uvpt) = page2pa p ||| pteV := if_pos rfl

/-- A new page directory maps itself, and has its other entries from the template. -/
theorem Kernel.DirsOk.newPgdir (h : k.DirsOk) {p : Nat} (hp : p ≠ k.basePgdir)
    (hpg : k'.pgdirs = p :: k.pgdirs)
    (hmem : k'.mem = update k.mem p (setupPgdir p (fun _ => 0) (k.mem k.basePgdir)))
    (hbase : k'.basePgdir = k.basePgdir) : k'.DirsOk := by
  have hother : ∀ d, d ≠ p → k'.mem d = k.mem d := fun d hd => by rw [hmem, update_of_ne hd]
  have hnew : k'.mem p = setupPgdir p (fun _ => 0) (k.mem k.basePgdir) := by
    rw [hmem, update_self]
  have hold : ∀ d ∈ k'.pgdirs, d ≠ p → d ∈ k.pgdirs := fun d hd hne => by
    rw [hpg] at hd
    exact (List.mem_cons.mp hd).resolve_left hne
  refine ⟨fun d hd => ?_, fun d hd i hi hv => ?_, ?_⟩
  · by_cases hdp : d = p
    · rw [hdp, hnew, setupPgdir_uvpt]
    · rw [hother d hdp]
      exact h.self d (hold d hd hdp)
  · by_cases hdp : d = p
    · rw [hdp, hnew, setupPgdir, if_neg hi] at hv ⊢
      split
      next hrange =>
        rw [if_pos hrange] at hv
        exact h.template i hv
      next hrange =>
        rw [if_neg hrange] at hv
        simp at hv
    · rw [hother d hdp] at hv ⊢
      exact h.dirty d (hold d hd hdp) i hi hv
  · rw [hbase, hother _ hp.symm]
    exact h.template

/-- **Page directories keep their form**, whatever happens. -/
theorem Micro.dirsOk (hm : Micro P k k') (h : k.DirsOk) : k'.DirsOk := by
  cases hm with
  | still hs => exact h.writes hs.writes hs.base
  | remap e va o hl hP hf hw hleaf htlb => exact h.writes hw hf.basePgdir
  | refill c va lo hc hlo => exact ⟨h.self, h.dirty, h.template⟩
  | pgdir p hp hpg hmem hleaf htlb hlive hasid hbit hbase => exact h.newPgdir hp hpg hmem hbase
  | birth e i hdead hi hclear hasid hbit hlive hother hleaf htlb hmem hpg hbase =>
    exact ⟨by rw [hmem, hpg]; exact h.self, by rw [hmem, hpg]; exact h.dirty,
      by rw [hmem, hbase]; exact h.template⟩
  | death e hl hempty hbit hlive hother hleaf htlb hmem hpg hbase =>
    exact ⟨fun d hd => by rw [hmem]; exact h.self d (hpg hd),
      fun d hd => by rw [hmem]; exact h.dirty d (hpg hd), by rw [hmem, hbase]; exact h.template⟩

theorem Via.dirsOk (h : Via P k k') (hd : k.DirsOk) : k'.DirsOk :=
  h.keeps (fun _ _ hm => hm.dirsOk) hd

end Mos
