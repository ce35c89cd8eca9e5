import Mos.User.Waypoint

/-!
# A copy-on-write fault from the store to its repetition

A store to a page with `PTE_COW` passes through `do_tlb_mod`, through `cow_entry` in user mode with
four system calls, and comes back to the same instruction. `Kernel.CowFault` is what this needs: the
exception stack, the page `UCOW` and a few free frames. `cow_fault_resumes` says what is left of it in the
end. The context is restored to the last register, the page is the env's own now and holds what it
held, and no env, the faulting one included, reads another word anywhere but in `UCOW` and on the
exception stack below the point where it was. So the repeated store changes one word for one env.

Every step of the way is one of the operations of `Reach`, so the run is followed by a `Waypoint`: a
reachable state, what the kernel keeps, and the address spaces it shows.
-/

namespace Mos

open Lib Prog Function

/-! ## The handler -/

namespace Handler

/-- `if (r < 0) user_panic(...)`, which ends the env. -/
def orPanic (m : KernM Word) : KernM Unit := do
  let r ← m
  if r.slt 0 then halt .userPanic else pure ()

/-- `memcpy(dst, src, BY2PG)`, word for word. -/
def copyPage (asid dst src : Word) : KernM Unit :=
  loop (fun i => do
    let w ← loadUser (src + BitVec.ofNat 32 (4 * i)) asid
    storeWord asid (dst + BitVec.ofNat 32 (4 * i)) w) 0 1024

/-- `cow_entry(tf)`, with the registers `u` at its system calls. The last of them does not come back: the
env goes on with the context at `tf`. -/
def cowEntry (io : Io) (asid : Word) (u : Sysno → Trapframe) (tf : Word) : KernM Unit := do
  let va ← loadUser (tf + 140) asid
  let pte ← vpt asid (ppn va)
  if has (ptePerm pte) pteCow then
    let perm := cowEntryPerm pte
    orPanic (msyscall io asid (u .memAlloc) .memAlloc 0 ucow perm [])
    copyPage asid ucow (pteAddr va)
    orPanic (msyscall io asid (u .memMap) .memMap 0 ucow 0 [va, perm])
    orPanic (msyscall io asid (u .memUnmap) .memUnmap 0 ucow ((u .memUnmap).regs 7) [])
    let _ ← msyscall io asid (u .setTrapframe) .setTrapframe 0 tf ((u .setTrapframe).regs 7) []
  else halt .userPanic

end Handler

/-- A store of `x` that has just trapped, with `cow_entry` as the registered entry: the kernel, the
handler, and the store again. -/
def cowFault (io : Io) (u : Sysno → Trapframe) (x : Word) : KernM Unit := do
  doTlbMod
  let k ← get
  let c ← curenvPtr
  Handler.cowEntry io (k.envs c).envAsid u (k.kstackTf.regs 4)
  let k ← get
  storeUser k.kstackTf.cp0Badvaddr x

variable {b : Boot} {k k' : Kernel} {c : EnvPtr} {s t : Spaces} {m n : Nat} {tf : Trapframe}
  {va w : Word}

/-! ## The pieces of the run -/

section Pieces

variable (hc : k.curenv = some c)

include hc

/-- Stores of several words to a page that may be there or not. -/
theorem Waypoint.pushWords (h : Waypoint b k tf s m k') (hpage : ppn va = n) (halign : va &&& 3 = 0)
    (hva : va < utop) (hcheck : passiveCheck va = none) (hm : 2 ≤ m)
    (hd : ∀ w, s.pte c n = some w → has w pteD = true) (hs : s.Sole c n) {ws : List Word}
    (hne : ws ≠ []) (hfit : wordIndex va + ws.length ≤ 1024) :
    Returns (storeUserWords (k.envs c).envAsid va ws) k' fun _ k₁ =>
      ∃ t, Waypoint b k tf t (m - 2) k₁ ∧ Written s c n (stored (s.word c n) (wordIndex va) ws) t := by
  cases hp : s.pte c n with
  | some w =>
    exact Waypoint.storeWords hc hpage halign (h.mono (by omega)) hp (hd w hp) hs hfit
  | none =>
    subst hpage
    cases ws with
    | nil => exact absurd rfl hne
    | cons x ws =>
      rw [List.length_cons] at hfit
      refine (h.storeFresh hc hp hva hcheck hm halign x).call ?_
      rintro _ k₁ ⟨t, h₁, hw₁⟩
      obtain ⟨w₁, hp₁, hd₁⟩ := hw₁.page
      cases ws with
      | nil =>
        refine .of_eq rfl ⟨t, h₁, ?_⟩
        rw [← stored_cons, stored_nil]
        exact hw₁
      | cons y ws =>
        rw [List.length_cons] at hfit
        obtain ⟨halign', hpage', hindex⟩ := next_word halign (by omega)
        refine (Waypoint.storeWords hc hpage' halign' h₁ hp₁ hd₁ hw₁.sole
          (by rw [List.length_cons]; omega)).mono ?_
        rintro _ k₂ ⟨u, h₂, hw₂⟩
        refine ⟨u, h₂, ?_⟩
        rw [hw₁.word_self, hindex, stored_cons] at hw₂
        exact hw₁.trans hw₂

/-- **The copy of a page.** -/
theorem Waypoint.copyPage (h : Waypoint b k tf s m k') {dst src w' : Word} (hdst : dst.toNat % 4096 = 0)
    (hsrc : src.toNat % 4096 = 0) (hp : s.pte c (ppn src) = some w)
    (hp' : s.pte c (ppn dst) = some w') (hd : has w' pteD = true) (hs : s.Sole c (ppn dst))
    (hne : ppn src ≠ ppn dst) :
    Returns (Handler.copyPage (k.envs c).envAsid dst src) k' fun _ k₁ => ∃ t, Waypoint b k tf t m k₁ ∧
      Written s c (ppn dst)
        (fun i => if i < 1024 then s.word c (ppn src) i else s.word c (ppn dst) i) t := by
  refine Returns.loop
    (I := fun i k₁ => ∃ t, Waypoint b k tf t m k₁ ∧ Written s c (ppn dst)
      (fun j => if j < i then s.word c (ppn src) j else s.word c (ppn dst) j) t)
    (i := 0) (n := 1024) ?_ ⟨s, h, .refl hp' hd hs⟩
  · rintro i k₁ - hi ⟨t, h₁, hw₁⟩
    obtain ⟨halign, hpage, hindex⟩ := page_word hsrc (i := i) (by omega)
    obtain ⟨halign', hpage', hindex'⟩ := page_word hdst (i := i) (by omega)
    obtain ⟨w₁, hp₁, hd₁⟩ := hw₁.page
    have hsrc₁ : t.pte c (ppn src) = some w := (hw₁.pte c _ fun hcon => hne hcon.2).trans hp
    refine (h₁.load hc (by rw [hpage]; exact hsrc₁) halign).call ?_
    rintro _ k₂ ⟨rfl, h₂⟩
    refine (h₂.store hc (by rw [hpage']; exact hp₁) hd₁ (by rw [hpage']; exact hw₁.sole) halign' _).mono ?_
    rintro _ k₃ ⟨t', h₃, hw₃⟩
    refine ⟨t', h₃, ?_⟩
    rw [hpage, hindex, hpage', hindex', hw₁.word_self] at hw₃
    have hword : t.word c (ppn src) i = s.word c (ppn src) i := by
      rw [hw₁.word, if_neg fun hcon => hne hcon.2]
    have hall := hw₁.trans hw₃
    rw [hword] at hall
    have hfun : update (fun j => if j < i then s.word c (ppn src) j else s.word c (ppn dst) j) i
        (s.word c (ppn src) i)
        = fun j => if j < i + 1 then s.word c (ppn src) j else s.word c (ppn dst) j := by
      funext j
      by_cases hj : j = i
      · simp [hj]
      · rw [update_of_ne hj]
        by_cases hlt : j < i
        · rw [if_pos hlt, if_pos (by omega)]
        · rw [if_neg hlt, if_neg (by omega)]
    rwa [hfun] at hall

end Pieces

/-! ## What the handler does to the address spaces -/

/-- The page of the exception stack. -/
def xstackPage : Nat := ppn (uxstacktop - 1)

theorem xstackPage_eq : xstackPage = 0x7f3ff := by decide

theorem xstackPage_ne_ucow : xstackPage ≠ ucowPage := by decide

theorem Written.sole_other {v : Nat → Word} {n' : Nat} (h : Written s c n v t) (hs : s.Sole c n')
    (hne : n' ≠ n) : t.Sole c n' := by
  intro w hw e n₁ w₁ hw₁ hppn
  have hw' : s.pte c n' = some w := (h.pte c n' fun hc => hne hc.2).symm.trans hw
  by_cases hn : e = c ∧ n₁ = n
  · obtain ⟨rfl, rfl⟩ := hn
    exact absurd (h.sole w₁ hw₁ e n' w hw hppn.symm).2 hne
  · exact hs w hw' e n₁ w₁ ((h.pte e n₁ hn).symm.trans hw₁) hppn

/-- While the handler runs: from `s` on nothing has changed outside the exception stack and `UCOW`, the
context `tf` lies on the exception stack from word `j` on, and what is above it is still there. -/
structure Handled (s : Spaces) (c : EnvPtr) (tf : Trapframe) (j : Nat) (t : Spaces) : Prop where
  pte : ∀ e n, ¬(e = c ∧ (n = xstackPage ∨ n = ucowPage)) → t.pte e n = s.pte e n
  word : ∀ e n i, ¬(e = c ∧ (n = xstackPage ∨ n = ucowPage)) → t.word e n i = s.word e n i
  stack : ∃ w, t.pte c xstackPage = some w ∧ has w pteD = true
  sole : t.Sole c xstackPage
  copy : ∀ i < 38, t.word c xstackPage (j + i) = (trapframeWords tf).getD i 0
  above : ∀ i, j + 38 ≤ i → t.word c xstackPage i = s.word c xstackPage i

namespace Handled

variable {j f : Nat} {u : Spaces}

theorem start (h : Written s c xstackPage (stored (s.word c xstackPage) j (trapframeWords tf)) t) :
    Handled s c tf j t where
  pte e n hne := h.pte e n fun hc => hne ⟨hc.1, .inl hc.2⟩
  word e n i hne := by rw [h.word, if_neg fun hc => hne ⟨hc.1, .inl hc.2⟩]
  stack := h.page
  sole := h.sole
  copy i hi := by
    have hlen := length_trapframeWords tf
    rw [h.word_self, stored, if_pos (by omega), Nat.add_sub_cancel_left]
  above i hi := by
    have hlen := length_trapframeWords tf
    rw [h.word_self, stored, if_neg (by omega)]

/-- Stores on the exception stack, below the context. -/
theorem push (h : Handled s c tf j t) {j' : Nat} {ws : List Word}
    (hw : Written t c xstackPage (stored (t.word c xstackPage) j' ws) u) (hj : j' + ws.length ≤ j) :
    Handled s c tf j u where
  pte e n hne := (hw.pte e n fun hc => hne ⟨hc.1, .inl hc.2⟩).trans (h.pte e n hne)
  word e n i hne := by
    rw [hw.word, if_neg fun hc => hne ⟨hc.1, .inl hc.2⟩]
    exact h.word e n i hne
  stack := hw.page
  sole := hw.sole
  copy i hi := by
    rw [hw.word_self, stored, if_neg (by omega)]
    exact h.copy i hi
  above i hi := by
    rw [hw.word_self, stored, if_neg (by omega)]
    exact h.above i hi

/-- A fresh page at `UCOW`. -/
theorem alloc (h : Handled s c tf j t) {perm : Word} (hf : f < 2 ^ 20) (hperm : perm < 4096)
    (hnew : ∀ e n, t.frame e n ≠ some f) : Handled s c tf j (t.memAlloc c ucowPage perm f) := by
  have hpte : ∀ e n, ¬(e = c ∧ n = ucowPage) → (t.memAlloc c ucowPage perm f).pte e n = t.pte e n :=
    fun e n hne => if_neg hne
  have hword : ∀ e n i, ¬(e = c ∧ n = ucowPage) →
      (t.memAlloc c ucowPage perm f).word e n i = t.word e n i := fun e n i hne => by
    rw [Spaces.word_memAlloc hf hperm hnew, if_neg hne]
  have hx : ¬(c = c ∧ xstackPage = ucowPage) := fun hc => xstackPage_ne_ucow hc.2
  exact
    { pte := fun e n hne => (hpte e n fun hc => hne ⟨hc.1, .inr hc.2⟩).trans (h.pte e n hne)
      word := fun e n i hne => (hword e n i fun hc => hne ⟨hc.1, .inr hc.2⟩).trans (h.word e n i hne)
      stack := by
        rw [hpte c _ hx]
        exact h.stack
      sole := h.sole.memAlloc hf hperm hnew hx
      copy := fun i hi => (hword c _ _ hx).trans (h.copy i hi)
      above := fun i hi => (hword c _ _ hx).trans (h.above i hi) }

/-- Stores to `UCOW`. -/
theorem fill (h : Handled s c tf j t) {v : Nat → Word} (hw : Written t c ucowPage v u) :
    Handled s c tf j u := by
  have hx : ¬(c = c ∧ xstackPage = ucowPage) := fun hc => xstackPage_ne_ucow hc.2
  exact
    { pte := fun e n hne => (hw.pte e n fun hc => hne ⟨hc.1, .inr hc.2⟩).trans (h.pte e n hne)
      word := fun e n i hne => by
        rw [hw.word, if_neg fun hc => hne ⟨hc.1, .inr hc.2⟩]
        exact h.word e n i hne
      stack := by
        rw [hw.pte c _ hx]
        exact h.stack
      sole := hw.sole_other h.sole xstackPage_ne_ucow
      copy := fun i hi => by
        rw [hw.word, if_neg hx]
        exact h.copy i hi
      above := fun i hi => by
        rw [hw.word, if_neg hx]
        exact h.above i hi }

end Handled

/-- When the handler is done with page `n`: it is mapped to a frame of its own with the permissions
`perm`, `UCOW` is not mapped, and everything is still read as it was, but for the words of the
exception stack below word `j`. -/
structure Privatised (s : Spaces) (c : EnvPtr) (n : Nat) (perm : Word) (j : Nat) (t : Spaces) :
    Prop where
  own : ∃ f, f < 2 ^ 20 ∧ t.pte c n = some (pageEntry f perm)
  sole : t.Sole c n
  ucow : t.pte c ucowPage = none
  pte : ∀ e n', ¬(e = c ∧ (n' = n ∨ n' = xstackPage ∨ n' = ucowPage)) → t.pte e n' = s.pte e n'
  word : ∀ e n' i, i < 1024 → ¬(e = c ∧ (n' = xstackPage ∨ n' = ucowPage)) →
    t.word e n' i = s.word e n' i
  above : ∀ i, j ≤ i → t.word c xstackPage i = s.word c xstackPage i

/-- The page at `UCOW` moves to page `n`, whose words it holds. -/
theorem Handled.move {j : Nat} {perm w : Word} (h : Handled s c tf j t) (hn : n ≠ xstackPage)
    (hu : n ≠ ucowPage) (hperm : perm < 4096) (hp : t.pte c ucowPage = some w)
    (hs : t.Sole c ucowPage) (hcopy : ∀ i < 1024, t.word c ucowPage i = s.word c n i) :
    Privatised s c n perm (j + 38)
      ((t.setPte c n (some (pageEntry (ppn w) perm))).memUnmap c ucowPage) ∧
    ∀ i, ((t.setPte c n (some (pageEntry (ppn w) perm))).memUnmap c ucowPage).word c xstackPage i =
      t.word c xstackPage i := by
  have hpte : ∀ e n', ¬(e = c ∧ (n' = n ∨ n' = ucowPage)) →
      ((t.setPte c n (some (pageEntry (ppn w) perm))).memUnmap c ucowPage).pte e n' = t.pte e n' := by
    intro e n' hne
    rw [Spaces.memUnmap, Spaces.pte_setPte, if_neg fun hc => hne ⟨hc.1, .inr hc.2⟩, Spaces.pte_setPte,
      if_neg fun hc => hne ⟨hc.1, .inl hc.2⟩]
  have hword : ∀ e n' i, ¬(e = c ∧ (n' = n ∨ n' = ucowPage)) →
      ((t.setPte c n (some (pageEntry (ppn w) perm))).memUnmap c ucowPage).word e n' i =
        t.word e n' i := by
    intro e n' i hne
    rw [Spaces.word_memUnmap, if_neg fun hc => hne ⟨hc.1, .inr hc.2⟩, Spaces.word_map hperm hp,
      if_neg fun hc => hne ⟨hc.1, .inl hc.2⟩]
  have hx : ¬(c = c ∧ (xstackPage = n ∨ xstackPage = ucowPage)) := by
    rintro ⟨-, hc | hc⟩
    · exact hn hc.symm
    · exact xstackPage_ne_ucow hc
  refine ⟨⟨⟨ppn w, ppn_lt w, ?_⟩, Spaces.sole_moved hs hperm hp hu, if_pos ⟨rfl, rfl⟩, ?_, ?_, ?_⟩,
    fun i => hword c _ i hx⟩
  · rw [Spaces.memUnmap, Spaces.pte_setPte, if_neg fun hc => hu hc.2, Spaces.pte_setPte,
      if_pos ⟨rfl, rfl⟩]
  · intro e n' hne
    rw [hpte e n' fun hc => hne ⟨hc.1, hc.2.elim .inl fun hc => .inr (.inr hc)⟩]
    exact h.pte e n' fun hc => hne ⟨hc.1, .inr hc.2⟩
  · intro e n' i hi hne
    by_cases hen : e = c ∧ n' = n
    · obtain ⟨rfl, rfl⟩ := hen
      rw [Spaces.word_memUnmap, if_neg fun hc => hu hc.2, Spaces.word_map hperm hp,
        if_pos ⟨rfl, rfl⟩, hcopy i hi]
    · rw [hword e n' i, h.word e n' i hne]
      rintro ⟨rfl, hc | hc⟩
      · exact hen ⟨rfl, hc⟩
      · exact hne ⟨rfl, .inr hc⟩
  · intro i hi
    rw [hword c _ i hx]
    exact h.above i hi

/-! ## The whole fault -/

/-- A store that has trapped, to a page of `c` with the entry `w`, where everything that the way through
the handler needs is there. -/
structure Kernel.CowFault (k : Kernel) (c : EnvPtr) (u : Sysno → Trapframe) (w : Word) : Prop where
  cur : k.curenv = some c
  legal : isIllegalVa k.kstackTf.cp0Badvaddr = false
  page : k.vm.leaf c (ppn k.kstackTf.cp0Badvaddr) = some w
  cow : has w pteCow = true
  /-- The page is neither `UCOW` nor the exception stack. -/
  apart : ppn k.kstackTf.cp0Badvaddr ≠ ucowPage ∧ ppn k.kstackTf.cp0Badvaddr ≠ xstackPage
  entry : (k.envs c).envUserTlbModEntry ≠ 0
  /-- There is room for the context on the exception stack. -/
  align : handlerBase k.kstackTf &&& 3 = 0
  fits : xstackPage * 4096 + 152 ≤ (handlerBase k.kstackTf).toNat
  /-- The stack frames of the handler lie below it on the same page. -/
  args : ∀ s, OnStack (u s) xstackPage
  below : ∀ s, ((u s).regs 29).toNat + 24 + 156 ≤ (handlerBase k.kstackTf).toNat
  /-- The exception stack is the env's own, as far as it is there. -/
  dirty : ∀ w, k.vm.leaf c xstackPage = some w → has w pteD = true
  sole : k.spaces.Sole c xstackPage
  room : 4 ≤ k.pageFreeList.length

theorem handlerBase_le (tf : Trapframe) : (handlerBase tf).toNat ≤ 0x7f400000 := by
  have hutop := toNat_utop
  unfold handlerBase
  split
  next => exact le_of_eq hutop
  next h =>
    rw [not_or] at h
    have h₂ : ¬uxstacktop.toNat ≤ (tf.regs 29).toNat := h.2
    have hx : uxstacktop.toNat = utop.toNat := rfl
    omega

/-- Where the context is copied to. -/
structure Pushed (a : Word) : Prop where
  align : a &&& 3 = 0
  page : ppn a = xstackPage
  fit : wordIndex a + 38 ≤ 1024
  lt : a < utop
  check : passiveCheck a = none
  legal : isIllegalVaRange a 152 = false

theorem pushed {base : Word} (halign : base &&& 3 = 0) (hfits : xstackPage * 4096 + 152 ≤ base.toNat)
    (hle : base.toNat ≤ 0x7f400000) : Pushed (base - 152) ∧
      (base - 152).toNat = base.toNat - 152 := by
  have hmask : (3 : Word).toNat = 2 ^ 2 - 1 := by decide
  rw [xstackPage_eq] at hfits
  have h4 : base.toNat % 4 = 0 := by
    have := congrArg BitVec.toNat halign
    rwa [BitVec.toNat_and, hmask, Nat.and_two_pow_sub_one_eq_mod] at this
  have hnat : (base - 152).toNat = base.toNat - 152 := by
    rw [BitVec.toNat_sub, show (152 : Word).toNat = 152 from rfl]
    omega
  have hend : (base - 152 + 152).toNat = base.toNat := by
    rw [BitVec.sub_add_cancel]
  have hlt : ∀ v : Word, v.toNat ≤ 0x7f3ff000 → ¬base - 152 < v := fun v hv hc => by
    have hc' : (base - 152).toNat < v.toNat := hc
    omega
  have hge : ∀ v : Word, 0x7f400000 ≤ v.toNat → ¬v ≤ base - 152 := fun v hv hc => by
    have hc' : v.toNat ≤ (base - 152).toNat := hc
    omega
  have hutop := toNat_utop
  refine ⟨⟨?_, ?_, ?_, ?_, ?_, ?_⟩, hnat⟩
  · apply BitVec.eq_of_toNat_eq
    rw [BitVec.toNat_and, hmask, Nat.and_two_pow_sub_one_eq_mod, hnat]
    show _ = 0
    omega
  · rw [ppn_eq, xstackPage_eq, hnat]
    omega
  · rw [wordIndex_eq, hnat]
    omega
  · show (base - 152).toNat < utop.toNat
    omega
  · unfold passiveCheck
    rw [if_neg (hlt _ (by decide)), if_neg fun hc => hlt _ (by decide) hc.2,
      if_neg fun hc => hge _ (by decide) hc.1, if_neg fun hc => hge _ (by decide) hc.1,
      if_neg (hge _ (by decide))]
  · have h₁ : ¬base - 152 + 152 < base - 152 := fun hc => by
      have hc' : (base - 152 + 152).toNat < (base - 152).toNat := hc
      omega
    have h₃ : ¬utop < base - 152 + 152 := fun hc => by
      have hc' : utop.toNat < (base - 152 + 152).toNat := hc
      omega
    unfold isIllegalVaRange
    rw [decide_eq_false h₁, decide_eq_false (hlt utemp (by decide)), decide_eq_false h₃]
    rfl

theorem userWord_eq (h : k.Shows s) (e : EnvPtr) (a : Word) :
    k.userWord e a = s.word e (ppn a) (wordIndex a) := by
  unfold Kernel.userWord
  cases hl : k.vm.leaf e (ppn a) with
  | none => rw [Spaces.word_unmapped ((h.pte e _).trans hl)]
  | some w =>
    have hp := (h.pte e (ppn a)).trans hl
    rw [Spaces.word_mapped hp, h.mem e _ w hp]

/-- The copy that `do_tlb_mod` makes. -/
theorem Waypoint.doTlbMod {u : Sysno → Trapframe} (hr : Reach (fun _ _ => True) b k) (hf : k.CowFault c u w) :
    Returns doTlbMod k fun _ k₁ => ∃ tf₁ t m₁, 2 ≤ m₁ ∧ tf₁.regs 4 = handlerBase k.kstackTf - 152 ∧
      Waypoint b k tf₁ t m₁ k₁ ∧
      Handled k.spaces c k.kstackTf (wordIndex (handlerBase k.kstackTf - 152)) t := by
  obtain ⟨hpush, -⟩ := pushed hf.align hf.fits (handlerBase_le _)
  have h₀ : Waypoint b k k.kstackTf k.spaces k.pageFreeList.length k :=
    ⟨hr, ⟨_, _, _, _, _, rfl⟩, k.shows_spaces, le_refl _⟩
  have hroom := hf.room
  have hlen := length_trapframeWords k.kstackTf
  unfold Returns Mos.doTlbMod
  rw [get_bind, bind_ret (curenvPtr_eq hf.cur)]
  refine (h₀.pushWords hf.cur hpush.page hpush.align hpush.lt hpush.check (by omega) hf.dirty hf.sole
    (List.ne_nil_of_length_pos (by omega)) (by rw [hlen]; exact hpush.fit)).call ?_
  rintro _ k₁ ⟨t, h₁, hw⟩
  unfold Returns
  rw [get_bind, h₁.envs, if_pos hf.entry]
  refine Returns.of_eq rfl ⟨_, t, _, ?_, ?_, h₁.setTf _, .start hw⟩
  · omega
  · simp [Trapframe.setReg]

theorem OnStack.below {u : Trapframe} {a : Word} (h : OnStack u xstackPage) (ha : ppn a = xstackPage)
    (hlt : (u.regs 29).toNat + 24 ≤ a.toNat) : wordIndex (u.regs 29 + 16) + 2 ≤ wordIndex a := by
  have hpage := h.page
  rw [ppn_eq, xstackPage_eq] at hpage ha
  have hlt' := a.isLt
  have hnat : (u.regs 29 + 16).toNat = (u.regs 29).toNat + 16 := by
    rw [BitVec.toNat_add, show (16 : Word).toNat = 16 from rfl]
    omega
  have hmask : (3 : Word).toNat = 2 ^ 2 - 1 := by decide
  have h4 : (u.regs 29 + 16).toNat % 4 = 0 := by
    have := congrArg BitVec.toNat h.align
    rwa [BitVec.toNat_and, hmask, Nat.and_two_pow_sub_one_eq_mod] at this
  rw [wordIndex_eq, wordIndex_eq]
  omega

theorem returns_orPanic {m : KernM Word} {Q : Kernel → Prop}
    (h : Returns m k fun r k' => r = 0 ∧ Q k') : Returns (Handler.orPanic m) k fun _ k' => Q k' := by
  refine h.call ?_
  rintro _ k₁ ⟨rfl, hq⟩
  have hzero : ¬(0 : Word).slt 0 = true := by decide
  rw [if_neg hzero]
  exact .of_eq rfl hq

section Entry

variable (hc : k.curenv = some c) (io : Io) {u tf₁ : Trapframe} {j : Nat} {perm : Word}

include hc

/-- `syscall_mem_alloc(0, UCOW, perm)`. -/
theorem Waypoint.allocUcow (h : Waypoint b k tf₁ t m k') (hm : 2 ≤ m) (hh : Handled s c tf j t)
    (hu : OnStack u xstackPage) (hperm : perm < 4096) :
    Returns (Handler.orPanic (Handler.msyscall io (k.envs c).envAsid u .memAlloc 0 ucow perm [])) k'
      fun _ k₁ => ∃ tf₂ t₂ m₂ f, Waypoint b k tf₂ t₂ m₂ k₁ ∧ Handled s c tf j t₂ ∧
        f < 2 ^ 20 ∧ t₂.pte c ucowPage = some (pageEntry f perm) ∧ t₂.Sole c ucowPage := by
  obtain ⟨wx, hx, -⟩ := hh.stack
  have hcall := h.msyscall hc io .memAlloc 0 ucow perm hu hx
    (R := fun r _ t₂ _ => r = 0 ∧ Handled s c tf j t₂ ∧ ∃ f, f < 2 ^ 20 ∧
      t₂.pte c ucowPage = some (pageEntry f perm) ∧ t₂.Sole c ucowPage) ?_
  · refine returns_orPanic (hcall.mono ?_)
    rintro _ k₁ ⟨tf₂, t₂, m₂, h₂, rfl, hh₂, f, hf, hp, hs⟩
    exact ⟨rfl, _, t₂, m₂, f, h₂, hh₂, hf, hp, hs⟩
  · intro tf₂ k₁ h₁
    have halloc := h₁.memAlloc hc (show isIllegalVa ucow = false by decide) hperm hm
    rw [show ppn ucow = ucowPage from rfl] at halloc
    show Returns (sysMemAlloc 0 ucow perm) k₁ _
    refine halloc.mono ?_
    rintro _ k₂ ⟨rfl, f, hf, hnew, h₂⟩
    exact ⟨0, tf₂, _, _, rfl, h₂, rfl, hh.alloc hf hperm hnew, f, hf, Spaces.pte_memAlloc_self,
      Spaces.sole_memAlloc hf hperm hnew⟩

/-- `syscall_mem_map(0, UCOW, 0, va, perm)`, with its last two arguments on the stack. -/
theorem Waypoint.mapUcow (h : Waypoint b k tf₁ t m k') (hh : Handled s c tf j t)
    (hu : OnStack u xstackPage) (hbelow : wordIndex (u.regs 29 + 16) + 2 ≤ j) (hperm : perm < 4096)
    (hva : isIllegalVa va = false) (hp : t.pte c ucowPage = some w) (hs : t.Sole c ucowPage)
    {w' : Word} (hp' : t.pte c (ppn va) = some w') (hne : ppn va ≠ xstackPage) :
    Returns (Handler.orPanic (Handler.msyscall io (k.envs c).envAsid u .memMap 0 ucow 0 [va, perm])) k'
      fun _ k₁ => ∃ tf₂ t₂,
        Waypoint b k tf₂ (t₂.setPte c (ppn va) (some (pageEntry (ppn w) perm))) 0 k₁ ∧
        Handled s c tf j t₂ ∧ t₂.pte c ucowPage = some w ∧ t₂.Sole c ucowPage ∧
        ∀ i, t₂.word c ucowPage i = t.word c ucowPage i := by
  obtain ⟨wx, hx, hdx⟩ := hh.stack
  have hxu := xstackPage_ne_ucow
  have hfit := hu.fit
  have hpush : Returns (Handler.msyscall io (k.envs c).envAsid u .memMap 0 ucow 0 [va, perm]) k'
      fun r k₁ => ∃ (tf₂ : Trapframe) (t₃ : Spaces) (m₃ : Nat),
        Waypoint b k (tf₂.setReg 2 r) t₃ m₃ k₁ ∧ r = 0 ∧ m₃ = 0 ∧
        ∃ t₂, Handled s c tf j t₂ ∧ t₂.pte c ucowPage = some w ∧ t₂.Sole c ucowPage ∧
          (∀ i, t₂.word c ucowPage i = t.word c ucowPage i) ∧
          t₃ = t₂.setPte c (ppn va) (some (pageEntry (ppn w) perm)) := by
    refine (Waypoint.storeWords hc hu.page hu.align h hx hdx hh.sole
      (show _ + [va, perm].length ≤ 1024 from hfit)).call ?_
    rintro _ k₁ ⟨t₁, h₁, hw₁⟩
    have hh₁ := hh.push hw₁ hbelow
    have hother : ∀ n, n ≠ xstackPage → t₁.pte c n = t.pte c n := fun n hn =>
      hw₁.pte c n fun hcon => hn hcon.2
    have hp₁ : t₁.pte c ucowPage = some w := (hother _ hxu.symm).trans hp
    have hs₁ : t₁.Sole c ucowPage := hw₁.sole_other hs hxu.symm
    have hw₂ : ∀ i, t₁.word c ucowPage i = t.word c ucowPage i := fun i => by
      rw [hw₁.word, if_neg fun hcon => hxu.symm hcon.2]
    have hargs : t₁.word c xstackPage (wordIndex (u.regs 29 + 16)) = va ∧
        t₁.word c xstackPage (wordIndex (u.regs 29 + 16) + 1) = perm := by
      rw [hw₁.word_self]
      constructor <;> simp [stored]
    obtain ⟨wx₁, hx₁, -⟩ := hw₁.page
    refine h₁.msyscall hc io .memMap 0 ucow 0 hu hx₁ fun tf₂ k₂ h₂ => ?_
    rw [hargs.1, hargs.2]
    show Returns (sysMemMap 0 ucow 0 va perm) k₂ _
    refine (h₂.memMap hc (show isIllegalVa ucow = false by decide) hva hperm hp₁ hs₁
      ((hother _ hne).trans hp')).mono ?_
    rintro _ k₃ ⟨rfl, h₃⟩
    exact ⟨0, tf₂, _, 0, rfl, h₃, rfl, rfl, t₁, hh₁, hp₁, hs₁, hw₂, rfl⟩
  refine returns_orPanic (hpush.mono ?_)
  rintro _ k₁ ⟨tf₂, _, _, h₂, rfl, rfl, t₂, hh₂, hp₂, hs₂, hw₂, rfl⟩
  exact ⟨rfl, _, t₂, h₂, hh₂, hp₂, hs₂, hw₂⟩

/-- `syscall_mem_unmap(0, UCOW)`; the third register holds what it held. -/
theorem Waypoint.unmapUcow (h : Waypoint b k tf₁ t m k') (hu : OnStack u n) (hp : t.pte c n = some w) :
    Returns (Handler.orPanic
      (Handler.msyscall io (k.envs c).envAsid u .memUnmap 0 ucow (u.regs 7) [])) k'
      fun _ k₁ => ∃ tf₂, Waypoint b k tf₂ (t.memUnmap c ucowPage) 0 k₁ := by
  have hcall := h.msyscall hc io .memUnmap 0 ucow (u.regs 7) hu hp
    (R := fun r _ t₂ m₂ => r = 0 ∧ m₂ = 0 ∧ t₂ = t.memUnmap c ucowPage) ?_
  · refine returns_orPanic (hcall.mono ?_)
    rintro _ k₁ ⟨tf₂, _, _, h₂, rfl, rfl, rfl⟩
    exact ⟨rfl, _, h₂⟩
  · intro tf₂ k₁ h₁
    have hunmap := h₁.memUnmap hc (show isIllegalVa ucow = false by decide)
    rw [show ppn ucow = ucowPage from rfl] at hunmap
    show Returns (sysMemUnmap 0 ucow) k₁ _
    refine hunmap.mono ?_
    rintro _ k₂ ⟨rfl, h₂⟩
    exact ⟨0, tf₂, _, 0, rfl, h₂, rfl, rfl, rfl⟩

/-- `syscall_set_trapframe(0, tf)` leaves the context as it was copied. -/
theorem Waypoint.giveBack (h : Waypoint b k tf₁ t m k') (hu : OnStack u n) (hp : t.pte c n = some w)
    {a : Word} (ha : Pushed a) (hpage : xstackPage = n)
    (hcopy : ∀ i < 38, t.word c n (wordIndex a + i) = (trapframeWords tf).getD i 0) :
    Returns (Handler.msyscall io (k.envs c).envAsid u .setTrapframe 0 a (u.regs 7) []) k'
      fun _ k₁ => Waypoint b k tf t m k₁ := by
  have hcall := h.msyscall hc io .setTrapframe 0 a (u.regs 7) hu hp
    (R := fun r tf₂ t₂ m₂ => r = tf.regs 2 ∧ tf₂ = tf ∧ t₂ = t ∧ m₂ = m) ?_
  · refine hcall.mono ?_
    rintro _ k₁ ⟨tf₂, t₂, m₂, h₂, rfl, hreg, hspaces, hroom⟩
    have hsame : tf.setReg 2 (tf.regs 2) = tf := by simp [Trapframe.setReg]
    rwa [hreg, hspaces, hroom, hsame] at h₂
  · intro tf₂ k₁ h₁
    show Returns (sysSetTrapframe 0 a) k₁ _
    refine (h₁.setTrapframe hc ha.legal hp (ha.page.trans hpage) ha.align ha.fit hcopy).mono ?_
    rintro _ k₂ ⟨rfl, h₂⟩
    exact ⟨_, tf, t, m, rfl, h₂, rfl, rfl, rfl, rfl⟩

/-- **`cow_entry`**, from its call to the context that it gives back. -/
theorem Waypoint.cowEntry {u : Sysno → Trapframe} {a : Word} (h : Waypoint b k tf₁ t m k') (hm : 2 ≤ m)
    (ha : Pushed a) (hh : Handled s c tf (wordIndex a) t) (hu : ∀ s, OnStack (u s) xstackPage)
    (hbelow : wordIndex ((u .memMap).regs 29 + 16) + 2 ≤ wordIndex a)
    (hlegal : isIllegalVa tf.cp0Badvaddr = false) (hp : s.pte c (ppn tf.cp0Badvaddr) = some w)
    (hcow : has w pteCow = true)
    (hne : ppn tf.cp0Badvaddr ≠ ucowPage) (hnx : ppn tf.cp0Badvaddr ≠ xstackPage) :
    Returns (Handler.cowEntry io (k.envs c).envAsid u a) k' fun _ k₁ => ∃ t', Waypoint b k tf t' 0 k₁ ∧
      Privatised s c (ppn tf.cp0Badvaddr) (cowEntryPerm w) (wordIndex a + 38) t' := by
  have hfit := ha.fit
  have hperm := cowEntryPerm_lt w
  have hpage : ∀ {t : Spaces}, Handled s c tf (wordIndex a) t →
      t.pte c (ppn tf.cp0Badvaddr) = some w := fun hh =>
    (hh.pte c _ fun hc => hc.2.elim hnx hne).trans hp
  unfold Handler.cowEntry
  -- the faulting address, from the context
  obtain ⟨wx, hx, -⟩ := hh.stack
  obtain ⟨halign, hpage₃₅, hindex⟩ := word_offset ha.align (i := 35) (by omega)
  have h140 : a + 140 = a + BitVec.ofNat 32 (4 * 35) := rfl
  rw [← h140] at halign hpage₃₅ hindex
  refine (h.load hc (by rw [hpage₃₅, ha.page]; exact hx) halign).call ?_
  rintro _ k₁ ⟨rfl, h₁⟩
  have hbad : t.word c (ppn (a + 140)) (wordIndex (a + 140)) = tf.cp0Badvaddr := by
    rw [hpage₃₅, hindex, ha.page, hh.copy 35 (by decide)]
    show (trapframeOf (trapframeWords tf)).cp0Badvaddr = _
    rw [trapframeOf_words]
  rw [hbad]
  refine (h₁.vpt hc (hpage hh)).call ?_
  rintro r k₂ ⟨hr, h₂⟩
  rw [hr, if_pos ((has_ptePerm (by decide)).trans hcow)]
  refine (h₂.allocUcow hc io hm hh (hu _) hperm).call ?_
  rintro _ k₃ ⟨tf₂, t₁, m₁, f, h₃, hh₁, hf, hp₁, hs₁⟩
  -- the copy, from the page to `UCOW`
  have hva : (pteAddr tf.cp0Badvaddr).toNat % 4096 = 0 := by
    rw [pteAddr_toNat]
    omega
  have hd : has (pageEntry f (cowEntryPerm w)) pteD = true := by
    rw [has_pageEntry (by decide) (by decide)]
    exact has_cowEntryPerm w
  have hucow : ucow.toNat % 4096 = 0 := by decide
  refine (h₃.copyPage hc hucow hva (by rw [ppn_pteAddr]; exact hpage hh₁) hp₁ hd
    hs₁ (by rw [ppn_pteAddr]; exact hne)).call ?_
  rintro _ k₄ ⟨t₂, h₄, hw⟩
  have hppn : ppn (pteAddr tf.cp0Badvaddr) = ppn tf.cp0Badvaddr := ppn_pteAddr _
  rw [show ppn ucow = ucowPage from rfl, hppn] at hw
  have hh₂ := hh₁.fill hw
  obtain ⟨w₂, hp₂, -⟩ := hw.page
  have hcopied : ∀ i < 1024, t₂.word c ucowPage i = s.word c (ppn tf.cp0Badvaddr) i := fun i hi => by
    rw [hw.word_self]
    exact (if_pos hi).trans (hh₁.word c _ i fun hc => hc.2.elim hnx hne)
  -- the page moves there
  refine (h₄.mapUcow hc io hh₂ (hu _) hbelow hperm hlegal hp₂ hw.sole (hpage hh₂) hnx).call ?_
  rintro _ k₅ ⟨tf₃, t₃, h₅, hh₃, hp₃, hs₃, hkeep⟩
  obtain ⟨hdone, hstack⟩ := hh₃.move hnx hne hperm hp₃ hs₃ fun i hi =>
    (hkeep i).trans (hcopied i hi)
  obtain ⟨wx₃, hx₃, -⟩ := hh₃.stack
  have hx₅ : (t₃.setPte c (ppn tf.cp0Badvaddr) (some (pageEntry (ppn w₂) (cowEntryPerm w)))).pte c
      xstackPage = some wx₃ := by
    rw [Spaces.pte_setPte, if_neg fun hc => hnx hc.2.symm]
    exact hx₃
  refine (h₅.unmapUcow hc io (hu _) hx₅).call ?_
  rintro _ k₆ ⟨tf₄, h₆⟩
  have hx₆ : ((t₃.setPte c (ppn tf.cp0Badvaddr) (some (pageEntry (ppn w₂) (cowEntryPerm w)))).memUnmap c
      ucowPage).pte c xstackPage = some wx₃ := by
    rw [Spaces.memUnmap, Spaces.pte_setPte, if_neg fun hc => xstackPage_ne_ucow hc.2]
    exact hx₅
  refine (h₆.giveBack hc io (hu _) hx₆ ha rfl fun i hi => (hstack _).trans (hh₃.copy i hi)).call ?_
  rintro _ k₇ h₇
  exact .of_eq rfl ⟨_, h₇, hdone⟩

end Entry

theorem wordIndex_lt_page (a : Word) : wordIndex a < 1024 := by
  rw [wordIndex_eq]
  omega

/-- A place on the exception stack that the context does not reach. -/
theorem above_handlerBase {base a : Word} (hbase : (base - 152).toNat = base.toNat - 152)
    (hfits : xstackPage * 4096 + 152 ≤ base.toNat) (halign : base &&& 3 = 0)
    (ha : ppn a = xstackPage) (hle : base ≤ a) : wordIndex (base - 152) + 38 ≤ wordIndex a := by
  have hmask : (3 : Word).toNat = 2 ^ 2 - 1 := by decide
  have h4 : base.toNat % 4 = 0 := by
    have := congrArg BitVec.toNat halign
    rwa [BitVec.toNat_and, hmask, Nat.and_two_pow_sub_one_eq_mod] at this
  have hle' : base.toNat ≤ a.toNat := hle
  rw [ppn_eq] at ha
  rw [xstackPage_eq] at ha hfits
  rw [wordIndex_eq, wordIndex_eq, hbase]
  omega

/-- **A copy-on-write fault goes by unnoticed.** The store comes to pass, in the context of the fault and
with the envs, the scheduler and the devices as they were. The page belongs to the env alone now, all
other pages but the two of the handler are mapped as before, and the stored word is the only one that any
env finds changed, save in `UCOW` and on the exception stack below the point where it was. -/
theorem cow_fault_resumes (io : Io) (u : Sysno → Trapframe) (x : Word)
    (hr : Reach (fun _ _ => True) b k) (hf : k.CowFault c u w) :
    ∃ k', cowFault io u x k = .ret () k' ∧ Reach (fun _ _ => True) b k' ∧ k.Frame k' ∧
      (∃ f, k'.vm.leaf c (ppn k.kstackTf.cp0Badvaddr) = some (pageEntry f (cowEntryPerm w))) ∧
      k'.spaces.Sole c (ppn k.kstackTf.cp0Badvaddr) ∧
      (∀ e n, ¬(e = c ∧ (n = ppn k.kstackTf.cp0Badvaddr ∨ n = xstackPage ∨ n = ucowPage)) →
        k'.vm.leaf e n = k.vm.leaf e n) ∧
      ∀ e a, ¬(e = c ∧ (ppn a = ucowPage ∨ ppn a = xstackPage ∧ a < handlerBase k.kstackTf)) →
        k'.userWord e a =
          if e = c ∧ ppn a = ppn k.kstackTf.cp0Badvaddr ∧ wordIndex a = wordIndex k.kstackTf.cp0Badvaddr
          then x else k.userWord e a := by
  obtain ⟨hpush, hnat⟩ := pushed hf.align hf.fits (handlerBase_le _)
  have hspaces := k.shows_spaces
  obtain ⟨hnu, hnx⟩ := hf.apart
  have hd : ∀ f, has (pageEntry f (cowEntryPerm w)) pteD = true := fun f => by
    rw [has_pageEntry (by decide) (by decide)]
    exact has_cowEntryPerm w
  have hrun : Returns (cowFault io u x) k fun _ k₃ => ∃ t f, f < 2 ^ 20 ∧
      t.pte c (ppn k.kstackTf.cp0Badvaddr) = some (pageEntry f (cowEntryPerm w)) ∧
      Privatised k.spaces c (ppn k.kstackTf.cp0Badvaddr) (cowEntryPerm w)
        (wordIndex (handlerBase k.kstackTf - 152) + 38) t ∧
      Waypoint b k k.kstackTf (t.setWord f (wordIndex k.kstackTf.cp0Badvaddr) x) 0 k₃ := by
    refine (Waypoint.doTlbMod hr hf).call ?_
    rintro _ k₁ ⟨tf₁, t₁, m₁, hm, h4, h₁, hh⟩
    unfold Returns
    rw [get_bind, bind_ret (curenvPtr_eq (h₁.curenv.trans hf.cur)), h₁.kstackTf, h4, h₁.envs]
    have hbelow : ∀ s, wordIndex ((u s).regs 29 + 16) + 2 ≤ wordIndex (handlerBase k.kstackTf - 152) :=
      fun s => by
        have := hf.below s
        exact (hf.args s).below hpush.page (by omega)
    refine (h₁.cowEntry hf.cur io hm hpush hh hf.args (hbelow _) hf.legal
      ((hspaces.pte c _).trans hf.page) hf.cow hnu hnx).call ?_
    rintro _ k₂ ⟨t, h₂, hp⟩
    obtain ⟨f, hlt, hown⟩ := hp.own
    unfold Returns
    rw [get_bind, h₂.kstackTf]
    have hva := lt_utop_of_page (h₂.lt_npte hown)
    obtain ⟨M, hgood⟩ := h₂.reach.good
    have h₃ := h₂.write hf.cur hown (hd f) x
    have heq := storeUser_mapped hgood.inv (h₂.curenv.trans hf.cur) hva (h₂.leaf _ hown) (hd f) x
    rw [Spaces.ppn_pageEntry hlt (cowEntryPerm_lt w)] at h₃ heq
    exact Returns.of_eq heq ⟨t, f, hlt, hown, hp, h₃⟩
  obtain ⟨⟨⟩, k', hret, t, f, hlt, hown, hp, h₃⟩ := hrun.exists_eq
  have hw := Written.store hown (hd f) hp.sole (wordIndex k.kstackTf.cp0Badvaddr) x
  rw [Spaces.ppn_pageEntry hlt (cowEntryPerm_lt w)] at hw
  refine ⟨k', hret, h₃.reach, h₃.frame, ⟨f, h₃.leaf _ hown⟩, ?_, fun e n hne => ?_, fun e a hne => ?_⟩
  · exact hw.sole.congr fun e n => (k'.shows_spaces.pte e n).trans (h₃.shows.pte e n).symm
  · rw [← h₃.shows.pte e n, ← hspaces.pte e n]
    exact hp.pte e n hne
  · -- the handler has left the word as it was
    have hsame : t.word e (ppn a) (wordIndex a) = k.spaces.word e (ppn a) (wordIndex a) := by
      by_cases hx : e = c ∧ ppn a = xstackPage
      · obtain ⟨rfl, hx⟩ := hx
        have hle : handlerBase k.kstackTf ≤ a := BitVec.not_lt.mp fun hlt => hne ⟨rfl, .inr ⟨hx, hlt⟩⟩
        rw [hx]
        exact hp.above _ (above_handlerBase hnat hf.fits hf.align hx hle)
      · refine hp.word e _ _ (wordIndex_lt_page a) ?_
        rintro ⟨he, h | h⟩
        · exact hx ⟨he, h⟩
        · exact hne ⟨he, .inl h⟩
    rw [userWord_eq h₃.shows, userWord_eq hspaces, hw.word, ← hsame]
    by_cases hpage : e = c ∧ ppn a = ppn k.kstackTf.cp0Badvaddr
    · obtain ⟨rfl, hpage⟩ := hpage
      rw [if_pos ⟨rfl, hpage⟩, hpage]
      by_cases hi : wordIndex a = wordIndex k.kstackTf.cp0Badvaddr <;> simp [hi]
    · rw [if_neg hpage, if_neg fun hc => hpage ⟨hc.1, hc.2.1⟩]

/-- The registers of a function whose stack frame lies on the exception stack. -/
def onXstack : Trapframe := Trapframe.zero.setReg 29 0x7f3fff00

/-- A process shares the page at `utext` with its child, as after `fork`, and stores there. -/
def cowRun : List Op :=
  [.envCreate (some emptyImage) 1, .timer, .memAlloc 0 utext pteD, .store utext 7, .exofork,
    .memMap 0 utext 4097 utext pteCow, .memMap 0 utext 0 utext pteCow, .setTlbModEntry 0 utext,
    .trap { Trapframe.zero.setReg 29 0x7f3fdf00 with cp0Badvaddr := utext }]

def cowTest (k : Kernel) : Bool :=
  k.curenv == some 0 && k.kstackTf.cp0Badvaddr == utext && k.kstackTf.regs 29 == 0x7f3fdf00 &&
    (k.vm.leaf 0 (ppn utext)).any (fun w => has w pteCow) && (k.envs 0).envUserTlbModEntry != 0 &&
    (k.vm.leaf 0 xstackPage).isNone && decide (4 ≤ k.pageFreeList.length) &&
    (k.vm.leaf 1 (ppn utext)).isSome && k.userWord 1 utext == 7

/-- The parent stores 9 there, and the child still reads 7. -/
theorem cow_fault_resumes_shared : ∃ k k' : Kernel, Reach (fun _ _ => True) smallBoot k ∧
    cowFault ⟨0, fun _ => 0, 0⟩ (fun _ => onXstack) 9 k = .ret () k' ∧ k.Frame k' ∧
    k'.userWord 0 utext = 9 ∧ k.userWord 1 utext = 7 ∧ k'.userWord 1 utext = 7 := by
  obtain ⟨k, hr, htest⟩ := exists_reach_any smallBoot cowRun cowTest (by decide +kernel)
  simp only [cowTest, Bool.and_eq_true, beq_iff_eq, bne_iff_ne, decide_eq_true_eq] at htest
  obtain ⟨⟨⟨⟨⟨⟨⟨⟨hcur, hva⟩, h29⟩, hleaf⟩, hentry⟩, hx⟩, hfree⟩, -⟩, hchild⟩ := htest
  obtain ⟨w, hw, hcow⟩ := (Option.any_eq_true _ _).mp hleaf
  rw [Option.isNone_iff_eq_none] at hx
  have hbase : handlerBase k.kstackTf = 0x7f400000 := by
    rw [handlerBase, h29]
    decide
  have hf : k.CowFault 0 (fun _ => onXstack) w :=
    { cur := hcur
      legal := by rw [hva]; decide
      page := by rw [hva]; exact hw
      cow := hcow
      apart := by rw [hva]; decide
      entry := hentry
      align := by rw [hbase]; decide
      fits := by rw [hbase]; decide
      args := fun _ => ⟨by decide, by decide, by decide⟩
      below := fun _ => by rw [hbase]; decide
      dirty := fun w hw => by rw [hx] at hw; cases hw
      sole := fun w hw => by
        rw [k.shows_spaces.pte, hx] at hw
        cases hw
      room := hfree }
  obtain ⟨k', hret, -, hframe, -, -, -, hwords⟩ := cow_fault_resumes ⟨0, fun _ => 0, 0⟩
    (fun _ => onXstack) 9 hr hf
  rw [hva] at hwords
  have hucow : ppn utext ≠ ucowPage := by decide
  have hxstack : ppn utext ≠ xstackPage := by decide
  refine ⟨k, k', hr, hret, hframe, ?_, hchild, ?_⟩
  · rw [hwords 0 utext fun hc => hc.2.elim hucow fun hc => hxstack hc.1, if_pos ⟨rfl, rfl, rfl⟩]
  · rw [hwords 1 utext fun hc => absurd hc.1 (by decide), if_neg fun hc => absurd hc.1 (by decide), hchild]

end Mos
