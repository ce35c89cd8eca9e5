import Mos.Kern.Reach
import Mos.Kern.Entries

/-!
# TLB coherence

The TLB holds copies of page table entries under the page and the ASID of an env. `page_insert` and
`page_remove` flush what they change, `env_free` flushes every page before it gives the ASID back, and
`asid_alloc` only hands out ASIDs whose bit is clear. So, as long as no entry is global, what the TLB
has under the ASID of a live env is what its page table says (`tlb_coherent`).
-/

namespace Mos

open Lib Prog Function

variable {k k' : Kernel} {e e' : EnvPtr} {b : Boot} {va asid : Word} {i j : Nat}

/-! ## Tags -/

theorem tag_toNat (va : Word) (h : asid.toNat < nasid) :
    (pteAddr va ||| asid <<< 6).toNat = ppn va * 4096 + asid.toNat * 64 := by
  have hlt : asid.toNat < 64 := h
  have hshift : (asid <<< 6).toNat = asid.toNat * 64 := by
    rw [BitVec.toNat_shiftLeft, Nat.shiftLeft_eq]
    omega
  have hpage : pteAddr va = page2pa (ppn va) := by
    apply BitVec.eq_of_toNat_eq
    rw [pteAddr_toNat, page2pa_toNat (ppn_lt va), ppn_eq]
  have hsmall : asid <<< 6 < 4096 := by
    show (asid <<< 6).toNat < 4096
    omega
  rw [hpage, page2pa_or_toNat (ppn_lt va) hsmall, hshift]

/-- The page of a tag. -/
theorem ppn_tag (va : Word) (h : asid.toNat < nasid) : ppn (pteAddr va ||| asid <<< 6) = ppn va := by
  have hlt : asid.toNat < 64 := h
  rw [ppn_eq, tag_toNat va h]
  omega

theorem ppn_le_tag (va x : Word) : ppn va ≤ ppn (pteAddr va ||| x) := by
  have hle : (pteAddr va).toNat ≤ (pteAddr va ||| x).toNat := by
    rw [BitVec.toNat_or]
    exact Nat.left_le_or
  rw [← ppn_pteAddr va, ppn_eq, ppn_eq (pteAddr va ||| x)]
  exact Nat.div_le_div_right hle

/-- The ASID of a tag. -/
theorem asidOf_tag (va : Word) (h : asid.toNat < nasid) :
    asidOf (pteAddr va ||| asid <<< 6) = asid := by
  have hlt : asid.toNat < 64 := h
  apply BitVec.eq_of_toNat_eq
  have hmask : (0x3f : Word).toNat = 2 ^ 6 - 1 := rfl
  rw [asidOf, BitVec.toNat_and, hmask, Nat.and_two_pow_sub_one_eq_mod, BitVec.toNat_ushiftRight,
    tag_toNat va h, Nat.shiftRight_eq_div_pow]
  omega

/-! ## The bitmap of ASIDs -/

/-- The bit of ASID `i` is set. -/
def asidUsed (bits : Fin 2 → Word) (i : Nat) : Bool := has (bits (asidIndex i)) (asidMask i)

theorem asidMask_and : ∀ a b : Fin 32, a ≠ b →
    (1 <<< a.val : Word) &&& (1 <<< b.val : Word) = 0 := by decide

theorem asidMask_disjoint (hi : i < nasid) (hj : j < nasid) (hne : i ≠ j)
    (h : asidIndex i = asidIndex j) : asidMask i &&& asidMask j = 0 := by
  have hi' : i < 64 := hi
  have hj' : j < 64 := hj
  have hval : i / 32 % 2 = j / 32 % 2 := congrArg Fin.val h
  refine asidMask_and ⟨i % 32, Nat.mod_lt _ (by decide)⟩ ⟨j % 32, Nat.mod_lt _ (by decide)⟩ ?_
  intro hc
  have hc' : i % 32 = j % 32 := congrArg Fin.val hc
  omega

theorem has_asidMask : ∀ a : Fin 32, has (1 <<< a.val) (1 <<< a.val) = true := by decide

/-- Bits that are set stay set. -/
theorem asidUsed_setAsid (bits : Fin 2 → Word) (i : Nat) (h : asidUsed bits j = true ∨ j = i) :
    asidUsed (setAsid bits i) j = true := by
  unfold asidUsed setAsid
  by_cases hidx : asidIndex j = asidIndex i
  · rw [hidx, update_self, has_or, Bool.or_eq_true]
    rcases h with h | rfl
    · exact .inl (hidx ▸ h)
    · exact .inr (has_asidMask ⟨j % 32, Nat.mod_lt _ (by decide)⟩)
  · rw [update_of_ne hidx]
    exact h.resolve_right fun hc => hidx (hc ▸ rfl)

/-- The bits of other ASIDs stay. -/
theorem asidUsed_clearAsid (bits : Fin 2 → Word) (hi : i < nasid) (hj : j < nasid) (hne : i ≠ j) :
    asidUsed (clearAsid bits i) j = asidUsed bits j := by
  unfold asidUsed clearAsid
  by_cases hidx : asidIndex j = asidIndex i
  · rw [hidx, update_self, has_and_not _ _ _ (asidMask_disjoint hi hj hne hidx.symm)]
  · rw [update_of_ne hidx]

/-! ## The invariant -/

/-- Live envs have ASIDs of their own, no entry is global, and what the TLB has for a page below
`UTOP` is what the page table of the live env with that ASID says. -/
structure Kernel.Coherent (k : Kernel) : Prop where
  small : ∀ e, k.Live e → (k.envs e).envAsid.toNat < nasid
  used : ∀ e, k.Live e → asidUsed k.asidBitmap (k.envs e).envAsid.toNat = true
  distinct : ∀ e e', k.Live e → k.Live e' → (k.envs e).envAsid = (k.envs e').envAsid → e = e'
  nonGlobal : ∀ e n w, k.vm.leaf e n = some w → has w pteG = false
  tlb : ∀ t ∈ k.tlb, ppn t.hi < npte →
    ∃ e, k.Live e ∧ asidOf t.hi = (k.envs e).envAsid ∧ k.vm.leaf e (ppn t.hi) = some t.lo

/-- No entry is made global. -/
def NonGlobal (_ : EnvPtr) (_ : Nat) (o : Option Word) : Prop := ∀ w, o = some w → has w pteG = false

theorem live_of_leaf {n : Nat} {w : Word} (h : k.vm.leaf e n = some w) : k.Live e := by
  obtain ⟨t, ht, -⟩ := Vm.leaf_eq_some.mp h
  obtain ⟨d, hd, -⟩ := Vm.table_eq_some.mp ht
  exact (dir_eq_some.mp hd).1

theorem ppn_lt_npte (h : va < utop) : ppn va < npte := by
  have h' : va.toNat < utop.toNat := h
  have hutop := toNat_utop
  rw [ppn_eq]
  unfold npte
  omega

theorem lt_utop_of_ppn (h : ppn va < npte) : va < utop := by
  have hutop := toNat_utop
  rw [ppn_eq] at h
  unfold npte at h
  show va.toNat < utop.toNat
  omega

namespace Kernel.Coherent

/-- The mappings, the live envs and their ASIDs stay, and the TLB gains nothing. -/
theorem still (h : k.Coherent) (hleaf : k'.vm.leaf = k.vm.leaf) (htlb : k'.tlb ⊆ k.tlb)
    (hlive : ∀ e, k'.Live e ↔ k.Live e)
    (hasid : ∀ e, k.Live e → (k'.envs e).envAsid = (k.envs e).envAsid)
    (hbit : k'.asidBitmap = k.asidBitmap) : k'.Coherent := by
  refine ⟨fun e hl => ?_, fun e hl => ?_, fun e e' hl hl' heq => ?_, ?_, fun t ht hn => ?_⟩
  · rw [hasid e ((hlive e).mp hl)]
    exact h.small e ((hlive e).mp hl)
  · rw [hasid e ((hlive e).mp hl), hbit]
    exact h.used e ((hlive e).mp hl)
  · rw [hasid e ((hlive e).mp hl), hasid e' ((hlive e').mp hl')] at heq
    exact h.distinct e e' ((hlive e).mp hl) ((hlive e').mp hl') heq
  · rw [hleaf]
    exact h.nonGlobal
  · obtain ⟨e, hl, htag, hw⟩ := h.tlb t (htlb ht) hn
    exact ⟨e, (hlive e).mpr hl, by rw [htag, hasid e hl], by rw [hleaf]; exact hw⟩

/-- **The page that changes is flushed** under the ASID of its env. -/
theorem remap (h : k.Coherent) {o : Option Word} (hl : k.Live e) (hP : NonGlobal e (ppn va) o)
    (hf : k.Frame k')
    (hleaf : ∀ e' n, k'.vm.leaf e' n = if e' = e ∧ n = ppn va then o else k.vm.leaf e' n)
    (htlb : k'.tlb = (k.flush (k.envs e).envAsid va).tlb) : k'.Coherent := by
  have henvs : k'.envs = k.envs := hf.envs
  have hlive : ∀ e, k'.Live e ↔ k.Live e := fun e => by
    unfold Kernel.Live
    rw [henvs]
  refine ⟨fun e hl => ?_, fun e hl => ?_, fun e e' hl hl' heq => ?_, fun e' n w hw => ?_,
    fun t ht hn => ?_⟩
  · rw [henvs]
    exact h.small e ((hlive e).mp hl)
  · rw [henvs, hf.asidBitmap]
    exact h.used e ((hlive e).mp hl)
  · rw [henvs] at heq
    exact h.distinct e e' ((hlive e).mp hl) ((hlive e').mp hl') heq
  · rw [hleaf] at hw
    split at hw
    · exact hP w hw
    · exact h.nonGlobal e' n w hw
  · rw [htlb] at ht
    obtain ⟨ht, hmiss⟩ := List.mem_filter.mp ht
    obtain ⟨e', hl', htag, hw⟩ := h.tlb t ht hn
    have hne : ¬(e' = e ∧ ppn t.hi = ppn va) := by
      rintro ⟨rfl, hpage⟩
      have hsmall := h.small e' hl
      simp [TlbEntry.matches, ppn_tag va hsmall, asidOf_tag va hsmall, hpage, htag] at hmiss
    refine ⟨e', (hlive e').mpr hl', by rw [henvs]; exact htag, ?_⟩
    rw [hleaf, if_neg hne]
    exact hw

/-- **A refill** copies the entry of the current env. -/
theorem refill (h : k.Coherent) {c : EnvPtr} {lo : Word} (hc : k.Live c)
    (hlo : va < utop → k.vm.leaf c (ppn va) = some lo) :
    (k.fill va (k.envs c).envAsid lo).Coherent := by
  have hsmall := h.small c hc
  refine ⟨h.small, h.used, h.distinct, h.nonGlobal, fun t ht hn => ?_⟩
  rcases List.mem_cons.mp ht with rfl | ht
  · simp only [ppn_tag va hsmall] at hn ⊢
    exact ⟨c, hc, asidOf_tag va hsmall, hlo (lt_utop_of_ppn hn)⟩
  · exact h.tlb t ht hn

/-- **A new env** gets an ASID that no live env has. -/
theorem birth (h : k.Coherent) (hi : i < nasid)
    (hclear : k.asidBitmap (asidIndex i) &&& asidMask i = 0)
    (hasid : (k'.envs e).envAsid = BitVec.ofNat 32 i) (hbit : k'.asidBitmap = setAsid k.asidBitmap i)
    (hlive : ∀ e', k'.Live e' ↔ e' = e ∨ k.Live e')
    (hother : ∀ e', e' ≠ e → (k'.envs e').envAsid = (k.envs e').envAsid) (hdead : ¬k.Live e)
    (hleaf : k'.vm.leaf = k.vm.leaf) (htlb : k'.tlb = k.tlb) : k'.Coherent := by
  have hi' : i < 64 := hi
  have hnat : (k'.envs e).envAsid.toNat = i := by
    rw [hasid, BitVec.toNat_ofNat]
    omega
  have hne : ∀ e', k.Live e' → e' ≠ e := fun e' hl hc => hdead (hc ▸ hl)
  have hold : ∀ e', k.Live e' → (k'.envs e').envAsid = (k.envs e').envAsid := fun e' hl =>
    hother e' (hne e' hl)
  have hfresh : ∀ e', k.Live e' → (k'.envs e').envAsid ≠ (k'.envs e).envAsid := by
    intro e' hl hc
    have hused := h.used e' hl
    rw [← hold e' hl, hc, hnat] at hused
    simp [asidUsed, has, hclear] at hused
  refine ⟨fun e' hl => ?_, fun e' hl => ?_, fun e₁ e₂ hl₁ hl₂ heq => ?_, ?_, fun t ht hn => ?_⟩
  · rcases (hlive e').mp hl with rfl | hl
    · omega
    · rw [hold e' hl]
      exact h.small e' hl
  · rw [hbit]
    rcases (hlive e').mp hl with rfl | hl
    · exact asidUsed_setAsid _ _ (.inr hnat)
    · rw [hold e' hl]
      exact asidUsed_setAsid _ _ (.inl (h.used e' hl))
  · rcases (hlive e₁).mp hl₁ with rfl | hl₁ <;> rcases (hlive e₂).mp hl₂ with rfl | hl₂
    · rfl
    · exact absurd heq.symm (hfresh e₂ hl₂)
    · exact absurd heq (hfresh e₁ hl₁)
    · rw [hold e₁ hl₁, hold e₂ hl₂] at heq
      exact h.distinct e₁ e₂ hl₁ hl₂ heq
  · rw [hleaf]
    exact h.nonGlobal
  · rw [htlb] at ht
    obtain ⟨e', hl, htag, hw⟩ := h.tlb t ht hn
    exact ⟨e', (hlive e').mpr (.inr hl), by rw [hold e' hl]; exact htag, by rw [hleaf]; exact hw⟩

/-- **An env that dies** has no page left, so the TLB has nothing under its ASID. -/
theorem death (h : k.Coherent) (hl : k.Live e) (hempty : ∀ n, k.vm.leaf e n = none)
    (hbit : k'.asidBitmap = clearAsid k.asidBitmap (k.envs e).envAsid.toNat)
    (hlive : ∀ e', k'.Live e' ↔ e' ≠ e ∧ k.Live e')
    (hother : ∀ e', e' ≠ e → (k'.envs e').envAsid = (k.envs e').envAsid)
    (hleaf : k'.vm.leaf = k.vm.leaf) (htlb : k'.tlb ⊆ k.tlb) : k'.Coherent := by
  refine ⟨fun e' hl' => ?_, fun e' hl' => ?_, fun e₁ e₂ hl₁ hl₂ heq => ?_, ?_, fun t ht hn => ?_⟩
  · obtain ⟨hne, hl'⟩ := (hlive e').mp hl'
    rw [hother e' hne]
    exact h.small e' hl'
  · obtain ⟨hne, hl'⟩ := (hlive e').mp hl'
    have hasid : (k.envs e).envAsid.toNat ≠ (k.envs e').envAsid.toNat := fun hc =>
      hne (h.distinct e' e hl' hl (BitVec.eq_of_toNat_eq hc.symm))
    rw [hother e' hne, hbit, asidUsed_clearAsid _ (h.small e hl) (h.small e' hl') hasid]
    exact h.used e' hl'
  · obtain ⟨hne₁, hl₁⟩ := (hlive e₁).mp hl₁
    obtain ⟨hne₂, hl₂⟩ := (hlive e₂).mp hl₂
    rw [hother e₁ hne₁, hother e₂ hne₂] at heq
    exact h.distinct e₁ e₂ hl₁ hl₂ heq
  · rw [hleaf]
    exact h.nonGlobal
  · obtain ⟨e', hl', htag, hw⟩ := h.tlb t (htlb ht) hn
    have hne : e' ≠ e := by
      rintro rfl
      rw [hempty] at hw
      cases hw
    exact ⟨e', (hlive e').mpr ⟨hne, hl'⟩, by rw [hother e' hne]; exact htag,
      by rw [hleaf]; exact hw⟩

end Kernel.Coherent

/-- **Every elementary change keeps the TLB coherent.** -/
theorem Micro.coherent (hm : Micro NonGlobal k k') (h : k.Coherent) : k'.Coherent := by
  cases hm with
  | still hs => exact h.still hs.leaf hs.tlb hs.live hs.asid hs.bitmap
  | remap e va o hl hP hf hw hleaf htlb => exact h.remap hl hP hf hleaf htlb
  | refill c va lo hc hlo =>
    by_cases hva : va < utop
    · exact h.refill (live_of_leaf (hlo hva)) hlo
    · refine ⟨h.small, h.used, h.distinct, h.nonGlobal, fun t ht hn => ?_⟩
      rcases List.mem_cons.mp ht with rfl | ht
      · exact absurd (lt_utop_of_ppn (lt_of_le_of_lt (ppn_le_tag va _) hn)) hva
      · exact h.tlb t ht hn
  | pgdir p hp hpg hmem hleaf htlb hlive hasid hbit hbase =>
    exact h.still hleaf (htlb ▸ List.Subset.refl _) hlive hasid hbit
  | birth e i hdead hi hclear hasid hbit hlive hother hleaf htlb hmem hpg hbase =>
    exact h.birth hi hclear hasid hbit hlive hother hdead hleaf htlb
  | death e hl hempty hbit hlive hother hleaf htlb hmem hpg hbase =>
    exact h.death hl hempty hbit hlive hother hleaf htlb

/-! ## Runs -/

/-- No permission contains `PTE_G`. -/
def Op.NoGlobal : Op → Prop
  | .memAlloc _ _ perm => has perm pteG = false
  | .memMap _ _ _ _ perm => has perm pteG = false
  | .ipcTrySend _ _ _ perm => has perm pteG = false
  | _ => True

theorem nonGlobal_pageEntry {n pp : Nat} {perm : Word} (h : has perm pteG = false) :
    NonGlobal e n (some (pageEntry pp perm)) := by
  intro w hw
  rw [← Option.some.inj hw, pageEntry, has_entry (by decide), h]
  decide

theorem places_nonGlobal {op : Op} (h : op.NoGlobal) : op.Places NonGlobal k := by
  have hdemand : Demand NonGlobal k := fun c n pp _ _ => nonGlobal_pageEntry (by decide)
  cases op with
  | envCreate binary p =>
    intro img _ ph _ _ e va perm pp _ hperm
    rcases hperm with rfl | rfl <;> exact nonGlobal_pageEntry (by decide)
  | tlbRefill va asid => exact hdemand
  | memAlloc envid va perm => exact fun _ e pp _ => nonGlobal_pageEntry h
  | memMap s sv d dv perm => exact fun _ e pp _ => nonGlobal_pageEntry h
  | memUnmap envid va => exact fun e _ w hw => nomatch hw
  | envDestroy envid => exact fun e n _ w hw => nomatch hw
  | ipcTrySend envid v srcva perm => exact fun _ c e w _ _ _ _ => nonGlobal_pageEntry h
  | setTrapframe envid tf => exact hdemand
  | _ => trivial

theorem Kernel.Booted.coherent (h : k.Booted) : k.Coherent := by
  refine ⟨fun e hl => absurd hl (h.dead e), fun e hl => absurd hl (h.dead e),
    fun e _ hl => absurd hl (h.dead e), fun e n w hw => absurd (live_of_leaf hw) (h.dead e),
    fun t ht => ?_⟩
  rw [h.tlb] at ht
  cases ht

theorem Reach.coherent (h : Reach (fun _ => Op.NoGlobal) b k) : k.Coherent :=
  h.keeps (fun _ hb => hb.coherent) (fun _ _ hm hc => hm.coherent hc)
    fun _ _ _ _ hok => places_nonGlobal hok

/-- What a leaf says is the entry of the page. -/
theorem entry_of_leaf {w : Word} (h : k.vm.leaf e (ppn va) = some w) :
    k.entry e va = w ∧ has w pteV = true := by
  obtain ⟨t, ht, hval, hw⟩ := Vm.leaf_eq_some.mp h
  obtain ⟨d, hd, -, hpde, hpt⟩ := Vm.table_eq_some.mp ht
  obtain ⟨-, hpg⟩ := dir_eq_some.mp hd
  rw [ppn_div] at hpde hpt
  rw [ppn_mod] at hval hw
  have hpde' : has (k.mem (k.envs e).envPgdir (pdx va)) pteV = true := hpg ▸ hpde
  have hpt' : ppn (k.mem (k.envs e).envPgdir (pdx va)) = t := hpg ▸ hpt
  refine ⟨?_, hw ▸ hval⟩
  simp only [Kernel.entry, hpde', if_true, hpt']
  exact hw

/-- The state that the claim describes: live envs have ASIDs of their own below `NASID`, and what the
TLB has under the ASID of a live env for a page below `UTOP`, or what it answers for such an address
and the ASID of the env, is the valid entry that the page table has there. -/
structure Kernel.TlbCoherent (k : Kernel) : Prop where
  small : ∀ e, k.Live e → (k.envs e).envAsid.toNat < nasid
  distinct : ∀ e e', k.Live e → k.Live e' → e ≠ e' → (k.envs e).envAsid ≠ (k.envs e').envAsid
  tagged : ∀ t ∈ k.tlb, ∀ e, k.Live e → ∀ va, va < utop → asidOf t.hi = (k.envs e).envAsid →
    ppn t.hi = ppn va → t.lo = k.entry e va ∧ has t.lo pteV = true
  hit : ∀ t ∈ k.tlb, ∀ e, k.Live e → ∀ va, va < utop →
    t.matches (pteAddr va ||| (k.envs e).envAsid <<< 6) = true →
    t.lo = k.entry e va ∧ has t.lo pteV = true

theorem Kernel.Coherent.tagged (h : k.Coherent) {t : TlbEntry} (ht : t ∈ k.tlb) (hl : k.Live e)
    (hva : va < utop) (htag : asidOf t.hi = (k.envs e).envAsid) (hpage : ppn t.hi = ppn va) :
    t.lo = k.entry e va ∧ has t.lo pteV = true := by
  obtain ⟨e', hl', htag', hw⟩ := h.tlb t ht (hpage ▸ ppn_lt_npte hva)
  obtain rfl : e' = e := h.distinct e' e hl' hl (htag'.symm.trans htag)
  rw [hpage] at hw
  obtain ⟨hentry, hval⟩ := entry_of_leaf hw
  exact ⟨hentry.symm, hval⟩

/-- **The TLB is coherent in every run** in which no frame is mapped more often than its count can
say. -/
theorem tlb_coherent (h : Reach (fun _ => Op.NoGlobal) b k) : k.TlbCoherent := by
  have hc := h.coherent
  refine ⟨hc.small, fun e e' hl hl' hne heq => hne (hc.distinct e e' hl hl' heq), ?_, ?_⟩
  · exact fun t ht e hl va hva htag hpage => hc.tagged ht hl hva htag hpage
  · intro t ht e hl va hva hmatch
    have hsmall := hc.small e hl
    simp only [TlbEntry.matches, Bool.and_eq_true, Bool.or_eq_true, beq_iff_eq, ppn_tag va hsmall,
      asidOf_tag va hsmall] at hmatch
    obtain ⟨hpage, hglobal | htag⟩ := hmatch
    · -- a global entry would answer for every ASID
      obtain ⟨e', -, -, hw⟩ := hc.tlb t ht (hpage ▸ ppn_lt_npte hva)
      rw [hc.nonGlobal e' _ _ hw] at hglobal
      cases hglobal
    · exact hc.tagged ht hl hva htag hpage

/-- A test for `NoGlobal`. -/
def Op.noGlobal : Op → Bool
  | .memAlloc _ _ perm => !has perm pteG
  | .memMap _ _ _ _ perm => !has perm pteG
  | .ipcTrySend _ _ _ perm => !has perm pteG
  | _ => true

theorem Op.noGlobal_of_test (_ : Kernel) (op : Op) (h : op.noGlobal = true) : op.NoGlobal := by
  cases op with
  | memAlloc e va perm => simpa [Op.noGlobal, Op.NoGlobal] using h
  | memMap s sv d dv perm => simpa [Op.noGlobal, Op.NoGlobal] using h
  | ipcTrySend e v s perm => simpa [Op.noGlobal, Op.NoGlobal] using h
  | _ => trivial

/-- A process that uses a page. -/
def refillRun : List Op :=
  [.envCreate (some emptyImage) 1, .timer, .memAlloc 0 utext pteD, .tlbRefill utext 0]

theorem tlb_coherent_refilled :
    ∃ k, Reach (fun _ => Op.NoGlobal) smallBoot k ∧ k.tlb ≠ [] ∧ k.TlbCoherent := by
  obtain ⟨k, hr, htest⟩ := exists_reach Op.noGlobal_of_test smallBoot refillRun
    (fun k => !k.tlb.isEmpty) (by decide +kernel)
  refine ⟨k, hr, ?_, tlb_coherent hr⟩
  rintro hnil
  rw [hnil] at htest
  cases htest

end Mos
