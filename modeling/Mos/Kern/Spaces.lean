import Mos.Kern.RefCounting

/-!
# The address spaces that user programs see

The user library changes memory through `sys_mem_alloc`, `sys_mem_map` and `sys_mem_unmap`, and reads
its own page tables through `vpt`. What it can see of the kernel that way is a `Spaces`: the valid
page table entries of every env below `UTOP` and the contents of the frames they map. The three calls
act on it by changing one entry.

`Kernel.Shows` relates a kernel state to its address spaces, and the theorems `sysMemMap_shows`,
`sysMemUnmap_shows` and `sysMemAlloc_shows` say that the kernel's calls refine those of `Spaces`. A
frame's `pp_ref` is the number of its mappings (`ppRef_eq_refs`).
-/

namespace Mos

open Lib Prog Function

/-- The address spaces of the envs, and the contents of the frames. -/
structure Spaces where
  /-- The valid page table entry of a page. -/
  pte : EnvPtr → Nat → Option Word
  mem : Nat → Nat → Word

namespace Spaces

/-- The frame that a page is mapped to. -/
def frame (s : Spaces) (e : EnvPtr) (n : Nat) : Option Nat := (s.pte e n).map ppn

/-- How many pages are mapped to the frame `f`. -/
def refs (s : Spaces) (f : Nat) : Nat :=
  refCount (fun p : EnvPtr × Fin npte => s.frame p.1 p.2) f

/-- Changes one entry. -/
def setPte (s : Spaces) (e : EnvPtr) (n : Nat) (o : Option Word) : Spaces :=
  { s with pte := fun e' n' => if e' = e ∧ n' = n then o else s.pte e' n' }

/-- `sys_mem_map` from page `srcn` of `src` to page `dstn` of `dst`; it fails if nothing is mapped
there. -/
def memMap (s : Spaces) (src : EnvPtr) (srcn : Nat) (dst : EnvPtr) (dstn : Nat) (perm : Word) :
    Option Spaces :=
  (s.pte src srcn).map fun w => s.setPte dst dstn (some (pageEntry (ppn w) perm))

/-- `sys_mem_unmap`. -/
def memUnmap (s : Spaces) (e : EnvPtr) (n : Nat) : Spaces := s.setPte e n none

/-- `sys_mem_alloc`, when the kernel hands out the frame `f`. -/
def memAlloc (s : Spaces) (e : EnvPtr) (n : Nat) (perm : Word) (f : Nat) : Spaces :=
  { s.setPte e n (some (pageEntry f perm)) with mem := update s.mem f fun _ => 0 }

variable {s : Spaces} {e e' src dst : EnvPtr} {n n' srcn dstn f : Nat} {o : Option Word}
  {w perm : Word}

@[simp] theorem pte_setPte : (s.setPte e n o).pte e' n' = if e' = e ∧ n' = n then o
    else s.pte e' n' := rfl

@[simp] theorem mem_setPte : (s.setPte e n o).mem = s.mem := rfl

theorem frame_setPte : (s.setPte e n o).frame e' n' = if e' = e ∧ n' = n then o.map ppn
    else s.frame e' n' := by
  unfold frame
  rw [pte_setPte]
  split <;> rfl

theorem frame_eq_some : s.frame e n = some f ↔ ∃ w, s.pte e n = some w ∧ ppn w = f := by
  simp [frame]

/-- The entry that a mapping leaves names the frame it was made for. -/
theorem ppn_pageEntry (hf : f < 2 ^ 20) (hperm : perm < 4096) : ppn (pageEntry f perm) = f :=
  ppn_entry hf hperm

/-- What a successful mapping does. -/
theorem frame_memMap {t : Spaces} (hperm : perm < 4096)
    (h : s.memMap src srcn dst dstn perm = some t) :
    ∃ f, s.frame src srcn = some f ∧ ∀ e n, t.frame e n = if e = dst ∧ n = dstn then some f
      else s.frame e n := by
  obtain ⟨w, hw, rfl⟩ := Option.map_eq_some_iff.mp h
  refine ⟨ppn w, frame_eq_some.mpr ⟨w, hw, rfl⟩, fun e n => ?_⟩
  rw [frame_setPte, Option.map_some, ppn_pageEntry (ppn_lt w) hperm]

theorem frame_memAlloc (hf : f < 2 ^ 20) (hperm : perm < 4096) :
    (s.memAlloc e n perm f).frame e' n' = if e' = e ∧ n' = n then some f else s.frame e' n' := by
  have h : (s.memAlloc e n perm f).frame e' n'
      = (s.setPte e n (some (pageEntry f perm))).frame e' n' := rfl
  rw [h, frame_setPte, Option.map_some, ppn_pageEntry hf hperm]

/-- Writing one entry moves the count of a frame by what was mapped there and what is now. -/
theorem refs_setPte (hn : n < npte) (f : Nat) :
    (s.setPte e n o).refs f + (if s.frame e n = some f then 1 else 0)
      = s.refs f + (if o.map ppn = some f then 1 else 0) := by
  have hupdate : (fun p : EnvPtr × Fin npte => (s.setPte e n o).frame p.1 p.2)
      = update (fun p : EnvPtr × Fin npte => s.frame p.1 p.2) (e, ⟨n, hn⟩) (o.map ppn) := by
    funext p
    rw [frame_setPte]
    by_cases hp : p = (e, ⟨n, hn⟩)
    · subst hp
      simp
    · rw [update_of_ne hp, if_neg]
      rintro ⟨he, hpn⟩
      exact hp (Prod.ext he (Fin.ext hpn))
  have h := refCount_update (fun p : EnvPtr × Fin npte => s.frame p.1 p.2) (e, ⟨n, hn⟩) (o.map ppn) f
  rw [← hupdate] at h
  exact h

theorem refs_eq_zero (hlt : ∀ e n, s.frame e n = some f → n < npte) :
    s.refs f = 0 ↔ ∀ e n, s.frame e n ≠ some f := by
  unfold refs
  rw [refCount_eq_zero]
  constructor
  · intro h e n hn
    exact h (e, ⟨n, hlt e n hn⟩) hn
  · intro h p
    exact h p.1 p.2

end Spaces

/-! ## The kernel's calls -/

variable {M : List Nat} {k k' : Kernel} {s : Spaces} {e : EnvPtr} {n : Nat} {w : Word}

/-- The address spaces of a kernel state. -/
structure Kernel.Shows (k : Kernel) (s : Spaces) : Prop where
  pte : ∀ e n, s.pte e n = k.vm.leaf e n
  mem : ∀ e n w, s.pte e n = some w → s.mem (ppn w) = k.mem (ppn w)

/-- A kernel state that differs in nothing that the address spaces show. -/
theorem Kernel.Shows.congr (h : k.Shows s) (hvm : k'.vm = k.vm) : k'.Shows s := by
  have hmem : k'.mem = k.mem := congrArg Vm.mem hvm
  refine ⟨fun e n => ?_, fun e n w hw => ?_⟩
  · rw [hvm]
    exact h.pte e n
  · rw [hmem]
    exact h.mem e n w hw

/-- One entry changes, and the frames in use keep their contents. -/
theorem Kernel.Shows.remap (h : k.Shows s) (hinv : k.vm.Inv M) {o : Option Word}
    (hr : k.vm.Remap M k'.vm e n o)
    (hnew : ∀ w, o = some w → ∃ e n w', s.pte e n = some w' ∧ ppn w' = ppn w) :
    k'.Shows (s.setPte e n o) := by
  have hmem : ∀ e₁ n₁ w₁, s.pte e₁ n₁ = some w₁ → s.mem (ppn w₁) = k'.mem (ppn w₁) := by
    intro e₁ n₁ w₁ hw₁
    have hdata : k'.mem (ppn w₁) = k.mem (ppn w₁) :=
      hr.data _ (hinv.usable_of_leaf ((h.pte e₁ n₁).symm.trans hw₁))
    rw [h.mem e₁ n₁ w₁ hw₁, hdata]
  refine ⟨fun e₁ n₁ => ?_, fun e₁ n₁ w₁ hw₁ => ?_⟩
  · rw [Spaces.pte_setPte, hr.leaf]
    split
    · rfl
    · exact h.pte e₁ n₁
  · rw [Spaces.pte_setPte] at hw₁
    rw [Spaces.mem_setPte]
    split at hw₁
    · obtain ⟨e₂, n₂, w₂, hw₂, hppn⟩ := hnew w₁ hw₁
      rw [← hppn]
      exact hmem e₂ n₂ w₂ hw₂
    · exact hmem e₁ n₁ w₁ hw₁

/-- **`sys_mem_map`** maps a page of the address spaces, or fails and changes nothing. -/
theorem sysMemMap_shows (h : k.Inv M) (hs : k.Shows s) (srcid srcva dstid dstva : Word) {perm : Word}
    (hperm : perm < 4096) :
    (sysMemMap srcid srcva dstid dstva perm k).Sat
      (fun _ k' => ∃ src dst t, envid2env srcid true k = .ret src k ∧
        envid2env dstid true k = .ret dst k ∧
        s.memMap src (ppn srcva) dst (ppn dstva) perm = some t ∧ k'.Shows t)
      (fun _ k' => k'.Shows s) (fun _ => True) := by
  unfold sysMemMap
  split
  · exact hs
  next hva =>
    rw [Bool.or_eq_true, not_or] at hva
    refine sat_call ((envid2env_spec (fun _ => h.live_cur) srcid true).and
      (Outcome.sat_self _)) ?_ (fun _ _ he => he.1 ▸ hs) (fun _ _ => trivial)
    rintro src _ ⟨⟨rfl, hls, _⟩, hsrc⟩
    refine sat_call ((envid2env_spec (fun _ => h.live_cur) dstid true).and
      (Outcome.sat_self _)) ?_ (fun _ _ he => he.1 ▸ hs) (fun _ _ => trivial)
    rintro dst _ ⟨⟨rfl, hld, _⟩, hdst⟩
    rw [get_bind]
    cases hw : k.vm.leaf src (ppn srcva) with
    | none =>
      rw [bind_ret (pageLookup_unmapped h.vm (dir_of_live hls)
        (pdx_lt_of_lt_utop (legal_of_not_illegal hva.1)) hw)]
      exact hs
    | some w =>
      obtain ⟨t, _, _, hlook⟩ := pageLookup_mapped h.vm (dir_of_live hls) hw
      rw [bind_ret hlook]
      have hpte : s.pte src (ppn srcva) = some w := (hs.pte _ _).trans hw
      refine sat_call (pageInsert_spec h.vm (dir_of_live hld)
        (pdx_lt_of_lt_utop (legal_of_not_illegal hva.2)) (h.vm.usable_of_leaf hw) hperm _) ?_
        (fun _ _ he => hs.congr he.2) (fun _ hq => hq.elim)
      rintro _ k₁ ⟨hremap, _⟩
      refine ⟨src, dst, _, hsrc, hdst, by rw [Spaces.memMap, hpte]; rfl, ?_⟩
      refine hs.remap h.vm hremap fun w' hw' => ⟨src, _, w, hpte, ?_⟩
      cases hw'
      exact (Spaces.ppn_pageEntry (ppn_lt w) hperm).symm

/-- **`sys_mem_unmap`** unmaps a page of the address spaces. -/
theorem sysMemUnmap_shows (h : k.Inv M) (hs : k.Shows s) (envid va : Word) :
    (sysMemUnmap envid va k).Sat
      (fun _ k' => ∃ e, envid2env envid true k = .ret e k ∧ k'.Shows (s.memUnmap e (ppn va)))
      (fun _ k' => k'.Shows s) (fun _ => True) := by
  unfold sysMemUnmap
  split
  · exact hs
  next hva =>
    refine sat_call ((envid2env_spec (fun _ => h.live_cur) envid true).and
      (Outcome.sat_self _)) ?_ (fun _ _ he => he.1 ▸ hs) (fun _ _ => trivial)
    rintro e _ ⟨⟨rfl, hl, _⟩, henv⟩
    rw [get_bind]
    refine sat_call (pageRemove_spec h.vm (dir_of_live hl)
      (pdx_lt_of_lt_utop (legal_of_not_illegal hva)) _) ?_ (fun _ _ hq => hq.elim)
      (fun _ hq => hq.elim)
    rintro _ k₁ ⟨_, hremap, _⟩
    exact ⟨e, henv, hs.remap h.vm hremap fun w hw => by cases hw⟩

/-- **`sys_mem_alloc`** maps a page to a frame that is mapped nowhere, full of zeros. -/
theorem sysMemAlloc_shows (h : k.Inv M) (hs : k.Shows s) (envid va : Word) {perm : Word}
    (hperm : perm < 4096) :
    (sysMemAlloc envid va perm k).Sat
      (fun _ k' => ∃ e f, envid2env envid true k = .ret e k ∧ f < 2 ^ 20 ∧
        (∀ e' n', s.frame e' n' ≠ some f) ∧ k'.Shows (s.memAlloc e (ppn va) perm f))
      (fun _ k' => k'.Shows s) (fun _ => True) := by
  unfold sysMemAlloc
  split
  · exact hs
  next hva =>
    refine sat_call ((envid2env_spec (fun _ => h.live_cur) envid true).and
      (Outcome.sat_self _)) ?_ (fun _ _ he => he.1 ▸ hs) (fun _ _ => trivial)
    rintro e _ ⟨⟨rfl, hl, _⟩, henv⟩
    refine sat_call ((pageAlloc_spec h.vm).and (framed_pageAlloc _)) ?_
      (fun _ _ he => he.1.2 ▸ hs) (fun _ _ => trivial)
    rintro f k₁ ⟨⟨hinv₁, hgrow, hfresh, hfree⟩, hf₁⟩
    have hunused : ∀ e' n', s.frame e' n' ≠ some f := by
      intro e' n' hf
      obtain ⟨w, hw, rfl⟩ := Spaces.frame_eq_some.mp hf
      exact h.vm.free_not_held hfree (Vm.slotRef_page ((hs.pte e' n').symm.trans hw))
    -- after `page_alloc` nothing mapped has changed
    have hs₁ : k₁.Shows s := by
      refine ⟨fun e' n' => ?_, fun e' n' w hw => ?_⟩
      · rw [hgrow.leaf]
        exact hs.pte e' n'
      · have hkeep := (hgrow.keep _ (h.vm.usable_of_leaf ((hs.pte e' n').symm.trans hw))).2.1
        rw [hs.mem e' n' w hw]
        exact hkeep.symm
    rw [get_bind]
    refine sat_call (pageInsert_spec hinv₁ (dir_of_live (live_frame hf₁ hl))
      (pdx_lt_of_lt_utop (legal_of_not_illegal hva)) hfresh.usable hperm _) ?_
      (fun _ _ he => hs₁.congr he.2) (fun _ _ => trivial)
    rintro _ k₂ ⟨hremap, _⟩
    have hlt : f < 2 ^ 20 := lt_trans (hinv₁.managed f hfresh.managed) hinv₁.npage_lt
    refine ⟨e, f, henv, hlt, hunused, ?_⟩
    constructor
    · intro e' n'
      rw [hremap.leaf, ← hs₁.pte e' n']
      rfl
    · intro e' n' w hw
      simp only [Spaces.memAlloc, Spaces.pte_setPte] at hw ⊢
      split at hw
      · cases hw
        rw [Spaces.ppn_pageEntry hlt hperm, update_self]
        have hzero : k₂.mem f = k₁.mem f := hremap.data f hfresh.usable
        rw [hzero]
        funext i
        exact (hfresh.zero i).symm
      · have hne : ppn w ≠ f := fun hwf => hunused e' n' (Spaces.frame_eq_some.mpr ⟨w, hw, hwf⟩)
        rw [update_of_ne hne, hs₁.mem e' n' w hw]
        exact (hremap.data _ (hinv₁.usable_of_leaf ((hs₁.pte e' n').symm.trans hw))).symm

/-- The count that `pageref` reads is the number of mappings. -/
theorem ppRef_eq_refs (h : k.Inv M) (hs : k.Shows s) (hw : s.pte e n = some w) :
    (k.ppRef (ppn w)).toNat = s.refs (ppn w) := by
  have hleaf : k.vm.leaf e n = some w := (hs.pte e n).symm.trans hw
  have husable := h.vm.usable_of_leaf hleaf
  refine (h.vm.count _ husable.managed husable.not_pgdir).trans ?_
  -- a mapped frame is no page table, so the page slots are all the slots that refer to it
  have hpages : (fun p : EnvPtr × Fin npte => s.frame p.1 p.2)
      = fun p => k.vm.slotRef (.page p.1 p.2) := by
    funext p
    rw [Spaces.frame, hs.pte]
    rfl
  unfold Vm.refs Spaces.refs
  rw [hpages]
  symm
  refine refCount_comp (fun p : EnvPtr × Fin npte => Slot.page p.1 p.2) ?_ ?_
  · intro p q hpq
    rw [Slot.page.injEq] at hpq
    exact Prod.ext hpq.1 hpq.2
  · intro slot hslot
    cases slot with
    | table e' i => exact absurd hslot (husable.not_table e' i)
    | page e' n' => exact ⟨(e', n'), rfl⟩

end Mos
