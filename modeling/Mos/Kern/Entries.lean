import Mos.Kern.Reach

/-!
# The entries that users get

Two things that a user should have no say in. Page tables are shown to users from `UVPT` on, through
a page directory that maps itself; what a refill returns there is an entry of the directory, and
`pgdir_walk` gives all of them `PTE_D` but the one of the directory itself
(`uvpt_readonly_iff`). And `page_insert` puts an entry together as `page2pa(pp) | perm | PTE_V`, so a
permission with bits above the flags names another frame (`entry_names_frame_iff`).
-/

namespace Mos

open Lib Prog Function

variable {M : List Nat} {k k' : Kernel} {e c : EnvPtr} {b : Boot} {ok : Kernel → Op → Prop}
  {va perm pte : Word} {pp : Nat}

/-! ## Page tables seen from `UVPT` -/

theorem has_self_dirty (d : Nat) : has (page2pa d ||| pteV) pteD = false := by
  have hD : pteD < 4096 := by decide
  have h := has_entry (f := d) (p := 0#32) hD
  rw [BitVec.or_zero] at h
  rw [h]
  decide

theorem pdx_eq_uvpt (h₁ : uvpt ≤ va) (h₂ : va < ulim) : pdx va = pdx uvpt := by
  have h₁' : uvpt.toNat ≤ va.toNat := h₁
  have h₂' : va.toNat < ulim.toNat := h₂
  have hu : uvpt.toNat = 0x7fc00000 := by decide
  have hl : ulim.toNat = 0x80000000 := by decide
  rw [pdx_uvpt, pdx_eq]
  omega

/-- **A user can write what a refill returns from `UVPT` on, except for the page that shows the page
directory itself.** -/
theorem uvpt_readonly_iff (h : Reach ok b k) (hc : k.curenv = some c) (h₁ : uvpt ≤ va)
    (h₂ : va < ulim) {asid : Word} (hret : doTlbRefill va asid k = .ret pte k') :
    has pte pteD = false ↔ ptx va = pdx uvpt := by
  obtain ⟨M, hgood⟩ := h.good
  have hd := hgood.inv.cur c hc
  have hdpg : k.curPgdir ∈ k.pgdirs := hgood.inv.vm.dir_mem c _ hd
  have hself := has_self_dirty k.curPgdir
  have hspec := doTlbRefill_uvpt (hgood.dirs.selfMapped hgood.inv.vm hd) (pdx_eq_uvpt h₁ h₂) asid
  rw [hret] at hspec
  rcases hspec with ⟨rfl, hval, -⟩ | ⟨hnone, p, rest, -, rfl, -⟩
  · by_cases hj : ptx va = pdx uvpt
    · rw [hj, hgood.dirs.self _ hdpg]
      simp [hself]
    · have hD := hgood.dirs.dirty _ hdpg _ hj hval
      simp [hD, hj]
  · have hj : ptx va ≠ pdx uvpt := by
      intro hc
      rw [hc, hgood.dirs.self _ hdpg, has_or] at hnone
      simp [show has pteV pteV = true by decide] at hnone
    simp [has_tableEntry_dirty, hj]

/-- A process with one page of its own: it can write the page table of that page. -/
def pageTableRun : List Op :=
  [.envCreate (some emptyImage) 1, .timer, .memAlloc 0 utext pteD]

/-- The address of the page table for `UTEXT`. -/
def utextTable : Word := uvpt + 4096

/-- A refill for `va` by the current env returns an entry that the test accepts. -/
def refillTest (va : Word) (test : Word → Bool) (k : Kernel) : Bool :=
  match k.curenv with
  | none => false
  | some c =>
    match doTlbRefill va (k.envs c).envAsid k with
    | .ret pte _ => test pte
    | _ => false

theorem of_refillTest {test : Word → Bool} (h : refillTest va test k = true) :
    ∃ c pte k', k.curenv = some c ∧ doTlbRefill va (k.envs c).envAsid k = .ret pte k' ∧
      test pte = true := by
  unfold refillTest at h
  split at h
  next => cases h
  next c hc =>
    split at h
    next pte k' hret => exact ⟨c, pte, k', hc, hret, h⟩
    next => cases h

theorem uvpt_readonly_self : ∃ k c va pte k', Reach (fun _ _ => True) smallBoot k ∧
    k.curenv = some c ∧ (uvpt ≤ va ∧ va < ulim) ∧
    doTlbRefill va (k.envs c).envAsid k = .ret pte k' ∧ ptx va = pdx uvpt ∧ has pte pteD = false := by
  obtain ⟨k, hr, htest⟩ := exists_reach_any smallBoot pageTableRun
    (refillTest (uvpt + 511 <<< 12) fun _ => true) (by decide +kernel)
  obtain ⟨c, pte, k', hc, hret, -⟩ := of_refillTest htest
  have hrange : uvpt ≤ uvpt + 511 <<< 12 ∧ uvpt + 511 <<< 12 < ulim := by decide
  have hj : ptx (uvpt + 511 <<< 12) = pdx uvpt := by decide
  exact ⟨k, c, _, pte, k', hr, hc, hrange, hret, hj,
    (uvpt_readonly_iff hr hc hrange.1 hrange.2 hret).mpr hj⟩

theorem uvpt_writable : ∃ k c va pte k', Reach (fun _ _ => True) smallBoot k ∧
    k.curenv = some c ∧ (uvpt ≤ va ∧ va < ulim) ∧
    doTlbRefill va (k.envs c).envAsid k = .ret pte k' ∧ has pte pteD = true := by
  obtain ⟨k, hr, htest⟩ := exists_reach_any smallBoot pageTableRun
    (refillTest utextTable fun pte => has pte pteD) (by decide +kernel)
  obtain ⟨c, pte, k', hc, hret, hD⟩ := of_refillTest htest
  exact ⟨k, c, utextTable, pte, k', hr, hc, by decide, hret, hD⟩

/-! ## The frame of an entry -/

/-- The entry that the page tables of `e` hold for `va`; an absent table is a table of zeros. -/
def Kernel.entry (k : Kernel) (e : EnvPtr) (va : Word) : Word :=
  let pde := k.mem (k.envs e).envPgdir (pdx va)
  if has pde pteV then k.mem (ppn pde) (ptx va) else 0

/-- `e` maps the frame `pp` at `va`: this is what the entry says, and what `page_lookup` finds. -/
def Kernel.Maps (k : Kernel) (e : EnvPtr) (va : Word) (pp : Nat) : Prop :=
  pteAddr (k.entry e va) = page2pa pp ∧
    ∃ pt i, pageLookup (k.envs e).envPgdir va k = .ret (some (pp, pt, i)) k

/-- The bits of `perm` above the flags are bits of the frame's address. -/
def Harmless (perm : Word) (pp : Nat) : Prop := page2pa pp ||| pteAddr perm = page2pa pp

instance (perm : Word) (pp : Nat) : Decidable (Harmless perm pp) :=
  inferInstanceAs (Decidable (page2pa pp ||| pteAddr perm = page2pa pp))

theorem harmless_of_flags (hperm : perm < 4096) (pp : Nat) : Harmless perm pp := by
  have hp : perm.toNat < 4096 := hperm
  have h0 : pteAddr perm = 0#32 := by
    apply BitVec.eq_of_toNat_eq
    rw [pteAddr_toNat, BitVec.toNat_zero]
    omega
  rw [Harmless, h0, BitVec.or_zero]

theorem pteAddr_or (x y : Word) : pteAddr (x ||| y) = pteAddr x ||| pteAddr y :=
  BitVec.and_or_distrib_right

theorem pteAddr_page2pa (hpp : pp < 2 ^ 20) : pteAddr (page2pa pp) = page2pa pp := by
  apply BitVec.eq_of_toNat_eq
  rw [pteAddr_toNat, page2pa_toNat hpp]
  omega

theorem pteAddr_entry (hpp : pp < 2 ^ 20) (perm : Word) :
    pteAddr (pageEntry pp perm) = page2pa pp ||| pteAddr perm := by
  rw [pageEntry, pteAddr_or, pteAddr_or, pteAddr_page2pa hpp, show pteAddr pteV = 0#32 by decide,
    BitVec.or_zero]

theorem ppn_of_pteAddr (hpp : pp < 2 ^ 20) (h : pteAddr pte = page2pa pp) : ppn pte = pp := by
  rw [← ppn_pteAddr, h, ppn_page2pa hpp]

/-- What `page_lookup` finds is what the entry says. -/
theorem lookup_of_entry {d t : Nat} (hpg : (k.envs e).envPgdir = d)
    (hpde : has (k.mem d (pdx va)) pteV = true) (ht : ppn (k.mem d (pdx va)) = t)
    (htlt : t < k.npage) (hw : k.mem t (ptx va) = pte) (hval : has pte pteV = true)
    (hlt : ppn pte < k.npage) :
    k.entry e va = pte ∧ pageLookup d va k = .ret (some (ppn pte, t, ptx va)) k := by
  subst hpg ht hw
  constructor
  · simp only [Kernel.entry, hpde, if_true]
  · have hwalk := pgdirWalk_present hpde rfl htlt false
    rw [pageLookup, bind_ret hwalk]
    simp only [readWord_bind, hval, if_true]
    rw [pa2page_bind hlt]
    rfl

/-- A valid entry is what the address space maps. -/
theorem leaf_of_entry (hl : k.Live e) (hva : va < utop) (hval : has (k.entry e va) pteV = true) :
    k.vm.leaf e (ppn va) = some (k.entry e va) := by
  have hd := dir_of_live hl
  unfold Kernel.entry at hval ⊢
  simp only at hval ⊢
  split at hval
  next hpde =>
    rw [if_pos hpde]
    refine Vm.leaf_eq_some.mpr ⟨_, Vm.table_eq_some.mpr ⟨_, hd, ?_, ?_, rfl⟩, ?_, ?_⟩
    · rw [ppn_div]
      exact pdx_lt_of_lt_utop hva
    · rw [ppn_div]
      exact hpde
    · rw [ppn_div, ppn_mod]
      exact hval
    · rw [ppn_div, ppn_mod]
      rfl
  next => simp at hval

/-- **An inserted entry names the frame it was made for if the permission is harmless**, else
another one. -/
theorem Inserted.maps_iff {bp : Nat} {asid : Word}
    (h : Inserted bp k k' e asid va (pageEntry pp perm)) (hpp : pp < k'.npage)
    (hnp : k'.npage < 2 ^ 20) : k'.Maps e va pp ↔ Harmless perm pp := by
  obtain ⟨-, -, t, ht, htlt, hw⟩ := h
  obtain ⟨d, hd, -, hpde, hpt⟩ := Vm.table_eq_some.mp ht
  have hpg : (k'.envs e).envPgdir = d := (dir_eq_some.mp hd).2
  have hlt := lt_trans hpp hnp
  have hentry : k'.entry e va = pageEntry pp perm := by
    have hpde' : has (k'.mem d (pdx va)) pteV = true := hpde
    have hpt' : ppn (k'.mem d (pdx va)) = t := hpt
    simp only [Kernel.entry, hpg, hpde', if_true, hpt', hw]
  constructor
  · rintro ⟨haddr, -⟩
    rw [hentry, pteAddr_entry hlt] at haddr
    exact haddr
  · intro hharm
    have haddr : pteAddr (pageEntry pp perm) = page2pa pp := by rw [pteAddr_entry hlt, hharm]
    have hppn := ppn_of_pteAddr hlt haddr
    obtain ⟨-, hlook⟩ := lookup_of_entry hpg hpde hpt htlt hw (has_pageEntry_valid pp perm)
      (by rw [hppn]; exact hpp)
    rw [hppn] at hlook
    refine ⟨by rw [hentry, haddr], t, ptx va, ?_⟩
    rw [hpg, hlook]

/-- The same for `page_insert`, which fails only where there is no memory for a page table. -/
theorem pageInsert_maps (h : k.vm.Inv M) (hb : k.basePgdir ∉ M) (hl : k.Live e)
    (hva : pdx va < npde) (hpp : pp < k.npage) (perm : Word) :
    (pageInsert (k.envs e).envPgdir (k.envs e).envAsid pp va perm k).Sat
      (fun _ k' => k'.Maps e va pp ↔ Harmless perm pp)
      (fun _ k' => has (k'.entry e va) pteV = false) (fun _ => False) := by
  refine ((pageInsert_effect h hb (dir_of_live hl) hva (k.envs e).envAsid pp perm).and
    (framed_pageInsert _ _ _ _ _ k)).mono ?_ ?_ (fun _ h => h.1)
  · rintro _ k₁ ⟨hins, hf⟩
    refine hins.maps_iff (by rw [hf.npage]; exact hpp) ?_
    rw [hf.npage]
    exact h.npage_lt
  · rintro _ k₁ ⟨⟨-, hpde, rfl⟩, -⟩
    simp [Kernel.entry, Kernel.flush, hpde]

/-! ## System calls that map a page -/

theorem leaf_of_lookup (h : k.vm.Inv M) (hl : k.Live e) (hva : va < utop) {pt i : Nat}
    (hlook : pageLookup (k.envs e).envPgdir va k = .ret (some (pp, pt, i)) k) :
    ∃ w, k.vm.leaf e (ppn va) = some w ∧ ppn w = pp := by
  cases hw : k.vm.leaf e (ppn va) with
  | none =>
    rw [pageLookup_unmapped h (dir_of_live hl) (pdx_lt_of_lt_utop hva) hw] at hlook
    cases hlook
  | some w =>
    obtain ⟨t, _, _, hlook'⟩ := pageLookup_mapped h (dir_of_live hl) hw
    rw [hlook'] at hlook
    refine ⟨w, rfl, ?_⟩
    injection hlook with hr _
    injection hr with hr
    exact congrArg Prod.fst hr

theorem pageAlloc_first {rest : List Nat} {p : Nat} (hf : k.pageFreeList = pp :: rest)
    (h : pageAlloc k = .ret p k') : p = pp := by
  rw [pageAlloc_cons hf] at h
  split at h
  · injection h with hp _
    exact hp.symm
  · cases h

theorem sysMemAlloc_maps (h : k.Inv M) (hb : k.basePgdir ∉ M) (envid va perm : Word) :
    (sysMemAlloc envid va perm k).Sat
      (fun _ k' => ∀ e pp rest, envid2env envid true k = .ret e k → k.pageFreeList = pp :: rest →
        (k'.Maps e va pp ↔ Harmless perm pp))
      (fun _ _ => True) (fun _ => True) := by
  unfold sysMemAlloc
  split
  · trivial
  next hva =>
    refine sat_call (envid2env_read (fun _ => h.live_cur) envid true) ?_ (fun _ _ _ => trivial)
      (fun _ _ => trivial)
    rintro e _ ⟨rfl, hl, -, heq⟩
    refine sat_call (((pageAlloc_spec h.vm).and (framed_pageAlloc k)).and (Outcome.sat_self _)) ?_
      (fun _ _ _ => trivial) (fun _ _ => trivial)
    rintro p k₁ ⟨⟨⟨hinv₁, _, hfresh, _⟩, hf₁⟩, hp⟩
    rw [get_bind]
    refine sat_call (pageInsert_maps hinv₁ (hf₁.basePgdir ▸ hb) (live_frame hf₁ hl)
      (pdx_lt_of_lt_utop (legal_of_not_illegal hva)) (hinv₁.managed p hfresh.usable.managed) perm)
      ?_ (fun _ _ _ => trivial) (fun _ h => h.elim)
    rintro _ k₂ hmaps e' pp rest he' hfree
    obtain rfl : e = e' := by
      rw [heq] at he'
      injection he'
    obtain rfl := pageAlloc_first hfree hp
    exact hmaps

theorem sysMemMap_maps (h : k.Inv M) (hb : k.basePgdir ∉ M)
    (srcid srcva dstid dstva perm : Word) :
    (sysMemMap srcid srcva dstid dstva perm k).Sat
      (fun _ k' => ∀ src dst pp pt i, envid2env srcid true k = .ret src k →
        envid2env dstid true k = .ret dst k →
        pageLookup (k.envs src).envPgdir srcva k = .ret (some (pp, pt, i)) k →
        (k'.Maps dst dstva pp ↔ Harmless perm pp))
      (fun _ _ => True) (fun _ => True) := by
  unfold sysMemMap
  split
  · trivial
  next hva =>
    rw [Bool.or_eq_true, not_or] at hva
    refine sat_call (envid2env_read (fun _ => h.live_cur) srcid true) ?_ (fun _ _ _ => trivial)
      (fun _ _ => trivial)
    rintro src _ ⟨rfl, hlsrc, -, hsrc⟩
    refine sat_call (envid2env_read (fun _ => h.live_cur) dstid true) ?_ (fun _ _ _ => trivial)
      (fun _ _ => trivial)
    rintro dst _ ⟨rfl, hldst, -, hdst⟩
    rw [get_bind]
    cases hw : k.vm.leaf src (ppn srcva) with
    | none =>
      rw [bind_ret (pageLookup_unmapped h.vm (dir_of_live hlsrc)
        (pdx_lt_of_lt_utop (legal_of_not_illegal hva.1)) hw)]
      trivial
    | some w =>
      obtain ⟨t, _, _, hlook⟩ := pageLookup_mapped h.vm (dir_of_live hlsrc) hw
      rw [bind_ret hlook]
      refine sat_call (pageInsert_maps h.vm hb hldst
        (pdx_lt_of_lt_utop (legal_of_not_illegal hva.2)) (h.vm.leaf_lt_npage hw) perm)
        ?_ (fun _ _ _ => trivial) (fun _ h => h.elim)
      rintro _ k₁ hmaps src' dst' pp pt i hsrc' hdst' hlook'
      obtain rfl : src = src' := by
        rw [hsrc] at hsrc'
        injection hsrc'
      obtain rfl : dst = dst' := by
        rw [hdst] at hdst'
        injection hdst'
      obtain ⟨w', hw', rfl⟩ := leaf_of_lookup h.vm hlsrc (legal_of_not_illegal hva.1) hlook'
      obtain rfl : w = w' := Option.some.inj (hw.symm.trans hw')
      exact hmaps

/-- The receiver of a message is awake and on the queue; its address space is the same. -/
theorem ipcMapPage_maps (h : k.Inv M) (hb : k.basePgdir ∉ M) (hlc : k.Live c) (hle : k.Live e)
    {srcva : Word} (hsrc : srcva < utop) (perm : Word) :
    (ipcMapPage c e srcva perm k).Sat
      (fun _ k' => ∀ w, k.vm.leaf c (ppn srcva) = some w →
        has (k'.entry e (k.envs e).envIpcDstva) pteV = true →
        (k'.Maps e (k.envs e).envIpcDstva (ppn w) ↔ Harmless perm (ppn w)))
      (fun _ _ => True) (fun _ => True) := by
  rw [ipcMapPage, get_bind]
  cases hw : k.vm.leaf c (ppn srcva) with
  | none =>
    rw [bind_ret (pageLookup_unmapped h.vm (dir_of_live hlc) (pdx_lt_of_lt_utop hsrc) hw)]
    trivial
  | some w =>
    obtain ⟨t, _, _, hlook⟩ := pageLookup_mapped h.vm (dir_of_live hlc) hw
    rw [bind_ret hlook, sat_bind, sat_attempt]
    refine (pageInsert_maps h.vm hb hle (pdx_lt_of_lt_utop (h.dstva e)) (h.vm.leaf_lt_npage hw)
      perm).mono ?_ ?_ (fun _ h => h.elim)
    · intro _ k₁ hmaps w' hw' _
      obtain rfl : w = w' := Option.some.inj hw'
      exact hmaps
    · intro _ k₁ hnone w' _ hval
      rw [hnone] at hval
      cases hval

theorem sysIpcTrySend_maps (h : k.Inv M) (hb : k.basePgdir ∉ M)
    (envid value srcva perm : Word) :
    (sysIpcTrySend envid value srcva perm k).Sat
      (fun _ k' => ∀ c e pp pt i, srcva ≠ 0 → k.curenv = some c →
        envid2env envid false k = .ret e k →
        pageLookup (k.envs c).envPgdir srcva k = .ret (some (pp, pt, i)) k →
        has (k'.entry e (k.envs e).envIpcDstva) pteV = true →
        (k'.Maps e (k.envs e).envIpcDstva pp ↔ Harmless perm pp))
      (fun _ _ => True) (fun _ => True) := by
  unfold sysIpcTrySend
  split
  · trivial
  next hva =>
    refine sat_call (envid2env_read (fun _ => h.live_cur) envid false) ?_ (fun _ _ _ => trivial)
      (fun _ _ => trivial)
    rintro e _ ⟨rfl, hl, -, heq⟩
    rw [get_bind]
    split
    · trivial
    next hrecv =>
      refine sat_call (curenvPtr_read k) ?_ (fun _ _ _ => trivial) (fun _ _ => trivial)
      rintro c _ ⟨rfl, hc⟩
      rw [modify_bind]
      refine sat_call (ipcWake_spec h hb hl hc value (k.envs c).envId perm) ?_
        (fun _ _ hq => hq.elim) (fun _ _ => trivial)
      rintro _ k₂ ⟨h₂, hs, -, henv₂⟩
      have hdst₂ : (k₂.envs e).envIpcDstva = (k.envs e).envIpcDstva := by
        rw [henv₂, update_self]
        rfl
      split
      next h0 =>
        have hsrc : srcva < utop := legal_of_not_illegal fun hc' => hva ⟨h0, hc'⟩
        refine (ipcMapPage_maps h₂ (hs.base ▸ hb) ((hs.live c).mpr (h.live_cur hc))
          ((hs.live e).mpr hl) hsrc perm).mono ?_ (fun _ _ h => h) (fun _ h => h)
        intro _ k₃ hmaps c' e' pp pt i _ hc' he' hlook hval
        obtain rfl : c = c' := Option.some.inj (hc.symm.trans hc')
        obtain rfl : e = e' := by
          rw [heq] at he'
          injection he'
        obtain ⟨w, hw, rfl⟩ := leaf_of_lookup h.vm (h.live_cur hc) hsrc hlook
        rw [← hdst₂] at hval ⊢
        exact hmaps w (by rw [hs.leaf]; exact hw) hval
      next h0 => exact fun _ _ _ _ _ h0' => absurd h0' h0

/-- **The entry after a call names the right frame exactly if the permission is harmless for that
frame**: `sys_mem_alloc` allocates the first free frame, `sys_mem_map` and `sys_ipc_try_send` look
the frame up at the source. -/
theorem entry_names_frame_iff (h : Reach ok b k) (perm : Word) :
    (∀ envid va e pp rest k', envid2env envid true k = .ret e k → k.pageFreeList = pp :: rest →
      sysMemAlloc envid va perm k = .ret (.value 0) k' →
      (k'.Maps e va pp ↔ Harmless perm pp)) ∧
    (∀ srcid srcva dstid dstva src dst pp pt i k', envid2env srcid true k = .ret src k →
      envid2env dstid true k = .ret dst k →
      pageLookup (k.envs src).envPgdir srcva k = .ret (some (pp, pt, i)) k →
      sysMemMap srcid srcva dstid dstva perm k = .ret (.value 0) k' →
      (k'.Maps dst dstva pp ↔ Harmless perm pp)) ∧
    (∀ envid value srcva c e pp pt i k', srcva ≠ 0 → k.curenv = some c →
      envid2env envid false k = .ret e k →
      pageLookup (k.envs c).envPgdir srcva k = .ret (some (pp, pt, i)) k →
      sysIpcTrySend envid value srcva perm k = .ret (.value 0) k' →
      has (k'.entry e (k.envs e).envIpcDstva) pteV = true →
      (k'.Maps e (k.envs e).envIpcDstva pp ↔ Harmless perm pp)) := by
  obtain ⟨M, hgood⟩ := h.good
  refine ⟨?_, ?_, ?_⟩
  · intro envid va e pp rest k' he hfree hret
    have hspec := sysMemAlloc_maps hgood.inv hgood.base envid va perm
    rw [hret] at hspec
    exact hspec e pp rest he hfree
  · intro srcid srcva dstid dstva src dst pp pt i k' hsrc hdst hlook hret
    have hspec := sysMemMap_maps hgood.inv hgood.base srcid srcva dstid dstva perm
    rw [hret] at hspec
    exact hspec src dst pp pt i hsrc hdst hlook
  · intro envid value srcva c e pp pt i k' h0 hc he hlook hret hval
    have hspec := sysIpcTrySend_maps hgood.inv hgood.base envid value srcva perm
    rw [hret] at hspec
    exact hspec c e pp pt i h0 hc he hlook hval

/-- Two processes, one of which waits for a message and a page. -/
def frameRun : List Op :=
  [.envCreate (some emptyImage) 1, .envCreate (some emptyImage) 1, .timer, .ipcRecv utext,
    .memAlloc 0 utext pteD]

/-- The current env 0 gets frame 192 at the next page, and the new entry passes a test. -/
def allocTest (perm : Word) (test : Word → Bool) (k : Kernel) : Bool :=
  k.curenv == some 0 && k.pageFreeList.head? == some 192 &&
    match sysMemAlloc 0 (utext + 4096) perm k with
    | .ret (.value r) k' => r == 0 && test (k'.entry 0 (utext + 4096))
    | _ => false

theorem of_allocTest {test : Word → Bool} (h : allocTest perm test k = true) :
    envid2env 0 true k = .ret 0 k ∧ ∃ rest k', k.pageFreeList = 192 :: rest ∧
      sysMemAlloc 0 (utext + 4096) perm k = .ret (.value 0) k' ∧
      test (k'.entry 0 (utext + 4096)) = true := by
  simp only [allocTest, Bool.and_eq_true, beq_iff_eq] at h
  obtain ⟨⟨hc, hfree⟩, hret⟩ := h
  obtain ⟨rest, hrest⟩ := List.head?_eq_some_iff.mp hfree
  refine ⟨by simp only [envid2env, get_bind, hc]; rfl, rest, ?_⟩
  split at hret
  next r k' heq =>
    rw [Bool.and_eq_true, beq_iff_eq] at hret
    obtain ⟨rfl, htest⟩ := hret
    exact ⟨k', hrest, heq, htest⟩
  next => cases hret

theorem entry_names_frame_flags : ∃ k k' rest, Reach (fun _ _ => True) smallBoot k ∧
    envid2env 0 true k = .ret 0 k ∧ k.pageFreeList = 192 :: rest ∧
    sysMemAlloc 0 (utext + 4096) pteD k = .ret (.value 0) k' ∧
    Harmless pteD 192 ∧ k'.Maps 0 (utext + 4096) 192 := by
  obtain ⟨k, hr, htest⟩ := exists_reach_any smallBoot frameRun
    (allocTest pteD fun _ => true) (by decide +kernel)
  obtain ⟨he, rest, k', hfree, hret, -⟩ := of_allocTest htest
  have hharm : Harmless pteD 192 := harmless_of_flags (by decide) 192
  exact ⟨k, k', rest, hr, he, hfree, hret, hharm,
    ((entry_names_frame_iff hr pteD).1 0 _ 0 192 rest k' he hfree hret).mpr hharm⟩

/-- The permission `0x1400` turns frame 192 into frame 193. -/
theorem entry_names_other_frame : ∃ k k' rest, Reach (fun _ _ => True) smallBoot k ∧
    envid2env 0 true k = .ret 0 k ∧ k.pageFreeList = 192 :: rest ∧
    sysMemAlloc 0 (utext + 4096) 0x1400 k = .ret (.value 0) k' ∧
    pteAddr (k'.entry 0 (utext + 4096)) = page2pa 193 ∧ ¬k'.Maps 0 (utext + 4096) 192 := by
  obtain ⟨k, hr, htest⟩ := exists_reach_any smallBoot frameRun
    (allocTest 0x1400 fun pte => pteAddr pte == page2pa 193) (by decide +kernel)
  obtain ⟨he, rest, k', hfree, hret, hpte⟩ := of_allocTest htest
  have haddr : pteAddr (k'.entry 0 (utext + 4096)) = page2pa 193 := by simpa using hpte
  refine ⟨k, k', rest, hr, he, hfree, hret, haddr, ?_⟩
  rintro ⟨haddr', -⟩
  rw [haddr] at haddr'
  exact absurd haddr' (by decide)

end Mos
