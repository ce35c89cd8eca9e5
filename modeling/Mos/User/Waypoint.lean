import Mos.Lib.Returns
import Mos.Kern.TlbMod
import Mos.User.ForkScan
import Mos.User.ForkIsolation
import Mos.User.PageView

/-!
# The current env at work

While an env runs, loads, stores and makes system calls, only the memory changes, until a call of the
kernel says otherwise. A `Waypoint` is a state on the way: it is reachable, the kernel has kept what it keeps,
the address spaces are those of an abstract `Spaces`, and so many frames are free. Each access and each
call of the handlers has one rule here: it returns, with the next waypoint.
-/

namespace Mos

open Lib Prog Function

variable {b : Boot} {k k' : Kernel} {c : EnvPtr} {s t : Spaces} {m n : Nat} {tf : Trapframe}
  {va w x : Word} {α β : Type}

/-! ## Stages -/

/-- A state on the way, with the context `tf` on the kernel stack: it is reachable, it differs from `k`
in the memory only, it shows the address spaces `s`, and `m` frames are free. -/
structure Waypoint (b : Boot) (k : Kernel) (tf : Trapframe) (s : Spaces) (m : Nat) (k' : Kernel) :
    Prop where
  reach : Reach (fun _ _ => True) b k'
  frame : Kernel.Frame { k with kstackTf := tf } k'
  shows : k'.Shows s
  room : m ≤ k'.pageFreeList.length

theorem Reach.advance {ok : Kernel → Op → Prop} (h : Reach ok b k) (op : Op) (hsane : op.Sane k)
    (hok : ok k op) (hstep : Step op k k') (hfits : op.Fits k) : Reach ok b k' := by
  obtain ⟨M, hgood⟩ := h.good
  obtain ⟨M', hgood'⟩ := hgood.advance hsane hstep (.inr hfits)
  exact .step h op hsane hok hstep hgood'.inv.vm.bounded

namespace Waypoint

theorem curenv (h : Waypoint b k tf s m k') : k'.curenv = k.curenv := h.frame.curenv

theorem envs (h : Waypoint b k tf s m k') : k'.envs = k.envs := h.frame.envs

theorem kstackTf (h : Waypoint b k tf s m k') : k'.kstackTf = tf := by
  obtain ⟨_, _, _, _, _, hk⟩ := h.frame
  rw [hk]

theorem mono {m' : Nat} (h : Waypoint b k tf s m k') (hm : m' ≤ m) : Waypoint b k tf s m' k' :=
  { h with room := le_trans hm h.room }

/-- The kernel stack gets another context. -/
theorem setTf (h : Waypoint b k tf s m k') (tf' : Trapframe) :
    Waypoint b k tf' s m { k' with kstackTf := tf' } := by
  refine ⟨h.reach.advance (.trap tf') trivial trivial rfl trivial, ?_, h.shows.congr rfl, h.room⟩
  obtain ⟨_, _, _, _, _, hk⟩ := h.frame
  rw [hk]
  exact ⟨_, _, _, _, _, rfl⟩

theorem leaf (h : Waypoint b k tf s m k') (n : Nat) (hp : s.pte c n = some w) :
    k'.vm.leaf c n = some w := (h.shows.pte c n).symm.trans hp

theorem lt_npte (h : Waypoint b k tf s m k') (hp : s.pte c n = some w) : n < npte :=
  Vm.leaf_lt (h.leaf n hp)

end Waypoint

theorem lt_utop_of_page (h : ppn va < npte) : va < utop := by
  have hutop := toNat_utop
  rw [ppn_eq] at h
  unfold npte at h
  show va.toNat < utop.toNat
  omega

/-! ## Accesses -/

section Access

variable (hc : k.curenv = some c)

include hc

theorem Waypoint.touched (h : Waypoint b k tf s m k') (hp : s.pte c (ppn va) = some w) :
    Waypoint b k tf s m (k'.fill va (k.envs c).envAsid w) := by
  obtain ⟨M, hgood⟩ := h.reach.good
  have hcur := h.curenv.trans hc
  have hva := lt_utop_of_page (h.lt_npte hp)
  have hstep : Step (.tlbRefill va (k.envs c).envAsid) k' (k'.fill va (k.envs c).envAsid w) := by
    show ((tlbRefill va _) k').state? = some _
    rw [tlbRefill, bind_ret (doTlbRefill_mapped hgood.inv hcur (h.leaf _ hp) _)]
    rfl
  have hulim : va < ulim := by
    have h₁ : va.toNat < utop.toNat := hva
    have h₂ : utop.toNat < ulim.toNat := by decide
    show va.toNat < ulim.toNat
    omega
  refine ⟨h.reach.advance (.tlbRefill va (k.envs c).envAsid) ⟨hulim, c, hcur, by rw [h.envs]⟩ trivial
    hstep trivial, ?_, h.shows.congr rfl, h.room⟩
  exact h.frame.trans _ _ _ ⟨_, _, _, _, _, rfl⟩

/-- A load from a mapped page. -/
theorem Waypoint.load (h : Waypoint b k tf s m k') (hp : s.pte c (ppn va) = some w)
    (halign : va &&& 3 = 0) :
    Returns (loadUser va (k.envs c).envAsid) k' fun r k₁ =>
      r = s.word c (ppn va) (wordIndex va) ∧ Waypoint b k tf s m k₁ := by
  obtain ⟨M, hgood⟩ := h.reach.good
  refine .of_eq (loadUser_mapped hgood.inv (h.curenv.trans hc) halign (h.leaf _ hp) _)
    ⟨?_, h.touched hc hp⟩
  rw [Spaces.word_mapped hp, h.shows.mem c _ w hp]

/-- A write to a page that is mapped with `PTE_D`. -/
theorem Waypoint.write (h : Waypoint b k tf s m k') (hp : s.pte c (ppn va) = some w)
    (hd : has w pteD = true) (x : Word) :
    Waypoint b k tf (s.setWord (ppn w) (wordIndex va) x) m (k'.setWord (ppn w) (wordIndex va) x) := by
  obtain ⟨M, hgood⟩ := h.reach.good
  have hva := lt_utop_of_page (h.lt_npte hp)
  have heq := storeUser_mapped hgood.inv (h.curenv.trans hc) hva (h.leaf _ hp) hd x
  have hstep : Step (.store va x) k' (k'.setWord (ppn w) (wordIndex va) x) := by
    show (storeUser va x k').state? = some _
    rw [heq]
    rfl
  obtain ⟨-, hleaf⟩ := inv_setWord_usable hgood.inv.vm (hgood.inv.vm.usable_of_leaf (h.leaf _ hp))
    (wordIndex va) x
  refine ⟨h.reach.advance (.store va x) trivial trivial hstep trivial,
    h.frame.trans _ _ _ ⟨_, _, _, _, _, rfl⟩, ⟨fun e n => ?_, fun e n w' hw' => ?_⟩, h.room⟩
  · rw [hleaf, Spaces.pte_setWord]
    exact h.shows.pte e n
  · have hmem := h.shows.mem e n w' hw'
    have hmem₀ := h.shows.mem c _ w hp
    funext i
    rw [Spaces.mem_setWord]
    show _ = update k'.mem (ppn w) (update (k'.mem (ppn w)) (wordIndex va) x) (ppn w') i
    by_cases hf : ppn w' = ppn w
    · rw [hf, update_self]
      by_cases hi : i = wordIndex va <;> simp [hi, hmem₀]
    · rw [update_of_ne hf, if_neg fun hc => hf hc.1, hmem]

/-- The first access to a page maps a cleared frame there. -/
theorem Waypoint.demand (h : Waypoint b k tf s m k') (hp : s.pte c (ppn va) = none) (hva : va < utop)
    (hcheck : passiveCheck va = none) (hm : 2 ≤ m) :
    Returns (touchUser va (k.envs c).envAsid) k' fun pte k₁ => ∃ f, f < 2 ^ 20 ∧
      (∀ e n, s.frame e n ≠ some f) ∧ pte = pageEntry f pteD ∧
      Waypoint b k tf (s.memAlloc c (ppn va) pteD f) (m - 2) k₁ := by
  obtain ⟨M, hgood⟩ := h.reach.good
  have hcur := h.curenv.trans hc
  have hleaf : k'.vm.leaf c (ppn va) = none := (h.shows.pte c _).symm.trans hp
  have hd := hgood.inv.cur c hcur
  have hroom := h.room
  have hacc := (touchUser_accesses hgood.inv hcur hva (k.envs c).envAsid).and
    (Outcome.sat_self (touchUser va (k.envs c).envAsid k'))
  refine .of_sat (hacc.mono ?_ (fun _ _ h => h.1) fun _ h => h.1) (fun _ _ h => h) fun p hshort => ?_
  swap
  · have := (hshort (.inr hcheck)).2
    omega
  rintro pte k₁ ⟨⟨-, hl₁, hg⟩, hret⟩
  -- the refill behind it has left an entry for a free frame, which it has cleared
  have hspec := doTlbRefill_spec hgood.inv.vm hd hva (k.envs c).envAsid
  obtain ⟨pte', k₂, hret₂, rfl, rfl⟩ : ∃ pte' k₂, doTlbRefill va (k.envs c).envAsid k' = .ret pte' k₂ ∧
      pte = pte' ∧ k₁ = k₂.fill va (k.envs c).envAsid pte' := by
    unfold touchUser at hret
    cases hr : doTlbRefill va (k.envs c).envAsid k' with
    | ret pte' k₂ =>
      rw [bind_ret hr] at hret
      cases hret
      exact ⟨_, _, rfl, rfl, rfl⟩
    | err e k₂ => rw [bind_err hr] at hret; cases hret
    | halt p => rw [bind_halt hr] at hret; cases hret
  rw [hret₂] at hspec
  obtain ⟨-, hl₂, rfl | ⟨-, f, hf, hzero, hmap⟩⟩ := hspec
  · rw [hleaf] at hl₂
    cases hl₂
  have hlt : f < 2 ^ 20 :=
    lt_trans (hgood.inv.vm.managed f (hgood.inv.vm.free_spec f hf).1) hgood.inv.vm.npage_lt
  have hnew : ∀ e n, s.frame e n ≠ some f := by
    intro e n hfr
    obtain ⟨w', hw', rfl⟩ := Spaces.frame_eq_some.mp hfr
    exact hgood.inv.vm.free_not_held hf (Vm.slotRef_page ((h.shows.pte e n).symm.trans hw'))
  have hpte : pte = pageEntry f pteD := by
    rw [hmap.leaf, if_pos ⟨rfl, rfl⟩] at hl₂
    exact (Option.some.inj hl₂).symm
  have hulim : va < ulim := by
    have h₁ : va.toNat < utop.toNat := hva
    have h₂ : utop.toNat < ulim.toNat := by decide
    show va.toNat < ulim.toNat
    omega
  have hstep : Step (.tlbRefill va (k.envs c).envAsid) k' (k₂.fill va (k.envs c).envAsid pte) := by
    show ((tlbRefill va _) k').state? = some _
    rw [tlbRefill, bind_ret hret₂]
    rfl
  refine ⟨f, hlt, hnew, hpte, h.reach.advance (.tlbRefill va (k.envs c).envAsid)
    ⟨hulim, c, hcur, by rw [h.envs]⟩ trivial hstep trivial, h.frame.trans _ _ _ hg.frame,
    ⟨fun e n => ?_, fun e n w' hw' => ?_⟩, ?_⟩
  · show _ = k₂.vm.leaf e n
    rw [hmap.leaf, Spaces.pte_memAlloc, h.shows.pte e n]
  · show _ = k₂.mem (ppn w')
    rw [Spaces.pte_memAlloc] at hw'
    split at hw'
    · obtain rfl := Option.some.inj hw'
      have hclear : (s.memAlloc c (ppn va) pteD f).mem f = fun _ => 0 := update_self _ _ _
      rw [Spaces.ppn_pageEntry hlt (by decide), hclear]
      exact funext fun i => (hzero i).symm
    · have hne : ppn w' ≠ f := fun hc' => hnew e n (Spaces.frame_eq_some.mpr ⟨w', hw', hc'⟩)
      have hkeep := hmap.data (ppn w')
        (hgood.inv.vm.usable_of_leaf ((h.shows.pte e n).symm.trans hw'))
      exact (update_of_ne hne _ _).trans ((h.shows.mem e n w' hw').trans hkeep.symm)
  · have hlen := hg.room
    rw [if_pos hleaf] at hlen
    show m - 2 ≤ k₂.pageFreeList.length
    have : k'.pageFreeList.length ≤ k₂.pageFreeList.length + 2 := hlen
    omega

end Access

/-! ## Stores -/

/-- From `s` to `t` the page `n` of `c` has got the words `v`. It is mapped with `PTE_D` now, and still
the only page of its frame. -/
structure Written (s : Spaces) (c : EnvPtr) (n : Nat) (v : Nat → Word) (t : Spaces) : Prop where
  pte : ∀ e n', ¬(e = c ∧ n' = n) → t.pte e n' = s.pte e n'
  page : ∃ w, t.pte c n = some w ∧ has w pteD = true
  sole : t.Sole c n
  word : ∀ e n' i, t.word e n' i = if e = c ∧ n' = n then v i else s.word e n' i

/-- The words `ws` over `v` from place `j` on. -/
def stored (v : Nat → Word) (j : Nat) (ws : List Word) : Nat → Word := fun i =>
  if j ≤ i ∧ i < j + ws.length then ws.getD (i - j) 0 else v i

@[simp] theorem stored_nil (v : Nat → Word) (j : Nat) : stored v j [] = v := by
  funext i
  have hno : ¬(j ≤ i ∧ i < j + ([] : List Word).length) := by simp
  rw [stored, if_neg hno]

theorem stored_cons (v : Nat → Word) (j : Nat) (x : Word) (ws : List Word) :
    stored (update v j x) (j + 1) ws = stored v j (x :: ws) := by
  funext i
  unfold stored
  rw [List.length_cons]
  by_cases hij : i = j
  · subst hij
    rw [if_neg (by omega), if_pos (by omega), update_self]
    simp
  · rw [update_of_ne hij]
    by_cases hin : j + 1 ≤ i ∧ i < j + 1 + ws.length
    · obtain ⟨d, rfl⟩ : ∃ d, i = j + 1 + d := ⟨i - (j + 1), by omega⟩
      rw [if_pos hin, if_pos (by omega), show j + 1 + d - (j + 1) = d by omega,
        show j + 1 + d - j = d + 1 by omega, List.getD_cons_succ]
    · rw [if_neg hin, if_neg (by omega)]

namespace Written

variable {v v' : Nat → Word} {u : Spaces} {f i : Nat}

theorem refl (hp : s.pte c n = some w) (hd : has w pteD = true) (hs : s.Sole c n) :
    Written s c n (s.word c n) s :=
  ⟨fun _ _ _ => rfl, ⟨w, hp, hd⟩, hs, fun e n' i => by
    split
    next he => rw [he.1, he.2]
    next => rfl⟩

theorem trans (h : Written s c n v t) (h' : Written t c n v' u) : Written s c n v' u := by
  refine ⟨fun e n' hne => (h'.pte e n' hne).trans (h.pte e n' hne), h'.page, h'.sole,
    fun e n' i => ?_⟩
  rw [h'.word, h.word]
  split <;> rfl

theorem word_self (h : Written s c n v t) : t.word c n = v := by
  funext i
  rw [h.word, if_pos ⟨rfl, rfl⟩]

theorem store (hp : s.pte c n = some w) (hd : has w pteD = true) (hs : s.Sole c n) (i : Nat)
    (x : Word) : Written s c n (update (s.word c n) i x) (s.setWord (ppn w) i x) := by
  refine ⟨fun _ _ _ => rfl, ⟨w, hp, hd⟩, hs, fun e n' i' => ?_⟩
  rw [Spaces.word_setWord hs hp]
  by_cases he : e = c ∧ n' = n
  · obtain ⟨rfl, rfl⟩ := he
    by_cases hi : i' = i <;> simp [hi]
  · rw [if_neg fun hc => he ⟨hc.1, hc.2.1⟩, if_neg he]

/-- A page that is mapped for the first time reads as before. -/
theorem alloc (hp : s.pte c n = none) (hf : f < 2 ^ 20) (hnew : ∀ e n, s.frame e n ≠ some f) :
    Written s c n (s.word c n) (s.memAlloc c n pteD f) := by
  refine ⟨fun e n' hne => if_neg hne, ⟨_, Spaces.pte_memAlloc_self, ?_⟩,
    Spaces.sole_memAlloc hf (by decide) hnew, fun e n' i => ?_⟩
  · exact (has_entry (by decide)).trans (by decide)
  · rw [Spaces.word_memAlloc hf (by decide) hnew, Spaces.word_unmapped hp]

end Written

/-- The words of one page. -/
theorem word_offset (halign : va &&& 3 = 0) {i : Nat} (hi : wordIndex va + i < 1024) :
    va + BitVec.ofNat 32 (4 * i) &&& 3 = 0 ∧ ppn (va + BitVec.ofNat 32 (4 * i)) = ppn va ∧
      wordIndex (va + BitVec.ofNat 32 (4 * i)) = wordIndex va + i := by
  have hmask : (3 : Word).toNat = 2 ^ 2 - 1 := by decide
  have h4 : va.toNat % 4 = 0 := by
    have := congrArg BitVec.toNat halign
    rwa [BitVec.toNat_and, hmask, Nat.and_two_pow_sub_one_eq_mod] at this
  rw [wordIndex_eq] at hi
  have hlt := va.isLt
  have hnat : (va + BitVec.ofNat 32 (4 * i)).toNat = va.toNat + 4 * i := by
    rw [BitVec.toNat_add, BitVec.toNat_ofNat]
    omega
  refine ⟨and_three_add halign i, ?_, ?_⟩
  · rw [ppn_eq, ppn_eq, hnat]
    omega
  · rw [wordIndex_eq, wordIndex_eq, hnat]
    omega

theorem next_word (halign : va &&& 3 = 0) (hi : wordIndex va + 1 < 1024) :
    va + 4 &&& 3 = 0 ∧ ppn (va + 4) = ppn va ∧ wordIndex (va + 4) = wordIndex va + 1 :=
  word_offset halign hi

section Stores

variable (hc : k.curenv = some c)

include hc

theorem Waypoint.store (h : Waypoint b k tf s m k') (hp : s.pte c (ppn va) = some w)
    (hd : has w pteD = true) (hs : s.Sole c (ppn va)) (halign : va &&& 3 = 0) (x : Word) :
    Returns (storeWord (k.envs c).envAsid va x) k' fun _ k₁ => ∃ t, Waypoint b k tf t m k₁ ∧
      Written s c (ppn va) (update (s.word c (ppn va)) (wordIndex va) x) t := by
  obtain ⟨M, hgood⟩ := h.reach.good
  exact .of_eq (storeWord_mapped hgood.inv (h.curenv.trans hc) halign (h.leaf _ hp) hd _ x)
    ⟨_, (h.touched hc hp).write hc hp hd x, .store hp hd hs _ x⟩

/-- The first store to a page. -/
theorem Waypoint.storeFresh (h : Waypoint b k tf s m k') (hp : s.pte c (ppn va) = none) (hva : va < utop)
    (hcheck : passiveCheck va = none) (hm : 2 ≤ m) (halign : va &&& 3 = 0) (x : Word) :
    Returns (storeWord (k.envs c).envAsid va x) k' fun _ k₁ => ∃ t, Waypoint b k tf t (m - 2) k₁ ∧
      Written s c (ppn va) (update (s.word c (ppn va)) (wordIndex va) x) t := by
  unfold storeWord
  rw [if_neg (not_not.mpr halign)]
  refine (h.demand hc hp hva hcheck hm).call ?_
  rintro _ k₁ ⟨f, hf, hnew, rfl, h₁⟩
  have hw := Written.alloc hp hf hnew
  obtain ⟨w, hpage, hd⟩ := hw.page
  obtain rfl := Option.some.inj (Spaces.pte_memAlloc_self.symm.trans hpage)
  rw [if_pos hd]
  refine .of_eq rfl ⟨_, h₁.write hc hpage hd x, ?_⟩
  have hstore := Written.store hpage hd hw.sole (wordIndex va) x
  rw [hw.word_self] at hstore
  exact hw.trans hstore

/-- **Stores of several words to one page.** -/
theorem Waypoint.storeWords {va : Word} (hpage : ppn va = n) (halign : va &&& 3 = 0) : ∀ {ws : List Word}
    {s : Spaces} {k' : Kernel} {w : Word}, Waypoint b k tf s m k' → s.pte c n = some w →
    has w pteD = true → s.Sole c n → wordIndex va + ws.length ≤ 1024 →
    Returns (storeUserWords (k.envs c).envAsid va ws) k' fun _ k₁ => ∃ t, Waypoint b k tf t m k₁ ∧
      Written s c n (stored (s.word c n) (wordIndex va) ws) t := by
  intro ws
  induction ws generalizing va with
  | nil =>
    intro s k' w h hp hd hs _
    rw [stored_nil]
    exact .of_eq rfl ⟨s, h, .refl hp hd hs⟩
  | cons x ws ih =>
    intro s k' w h hp hd hs hfit
    subst hpage
    rw [List.length_cons] at hfit
    refine (h.store hc hp hd hs halign x).call ?_
    rintro _ k₁ ⟨t, h₁, hw₁⟩
    obtain ⟨w₁, hp₁, hd₁⟩ := hw₁.page
    cases ws with
    | nil =>
      refine .of_eq rfl ⟨t, h₁, ?_⟩
      rw [← stored_cons, stored_nil]
      exact hw₁
    | cons y ws =>
      rw [List.length_cons] at hfit
      obtain ⟨halign', hpage', hindex⟩ := next_word halign (by omega)
      refine (ih hpage' halign' h₁ hp₁ hd₁ hw₁.sole (by rw [List.length_cons]; omega)).mono ?_
      rintro _ k₂ ⟨u, h₂, hw₂⟩
      refine ⟨u, h₂, ?_⟩
      rw [hw₁.word_self, hindex, stored_cons] at hw₂
      exact hw₁.trans hw₂

end Stores

/-! ## Loads -/

theorem trapframeOf_congr {ws ws' : List Word} (h : ∀ i < 38, ws.getD i 0 = ws'.getD i 0) :
    trapframeOf ws = trapframeOf ws' := by
  have hregs : ∀ r : Fin 32, ws.getD r 0 = ws'.getD r 0 := fun r => h r (by omega)
  unfold trapframeOf
  simp only [hregs, h 32 (by decide), h 33 (by decide), h 34 (by decide), h 35 (by decide),
    h 36 (by decide), h 37 (by decide)]

/-- The words of a page at its page-aligned address `a`. -/
theorem page_word {a : Word} (ha : a.toNat % 4096 = 0) {i : Nat} (hi : i < 1024) :
    a + BitVec.ofNat 32 (4 * i) &&& 3 = 0 ∧ ppn (a + BitVec.ofNat 32 (4 * i)) = ppn a ∧
      wordIndex (a + BitVec.ofNat 32 (4 * i)) = i := by
  have hindex : wordIndex a = 0 := by
    rw [wordIndex_eq]
    omega
  have halign : a &&& 3 = 0 := by
    have hmask : (3 : Word).toNat = 2 ^ 2 - 1 := by decide
    apply BitVec.eq_of_toNat_eq
    rw [BitVec.toNat_and, hmask, Nat.and_two_pow_sub_one_eq_mod]
    show a.toNat % 4 = 0
    omega
  have hword := word_offset halign (i := i) (by omega)
  rwa [hindex, Nat.zero_add] at hword

section Loads

variable (hc : k.curenv = some c)

include hc

/-- **Loads of several words from one page.** -/
theorem Waypoint.loadWords (h : Waypoint b k tf s m k') (hp : s.pte c n = some w) {va : Word}
    (hpage : ppn va = n) (halign : va &&& 3 = 0) {N : Nat} (hfit : wordIndex va + N ≤ 1024) :
    Returns (loadUserWords (k.envs c).envAsid va N) k' fun ws k₁ =>
      (∀ i < N, ws.getD i 0 = s.word c n (wordIndex va + i)) ∧ Waypoint b k tf s m k₁ := by
  induction N generalizing k' va with
  | zero => exact .of_eq rfl ⟨fun i hi => absurd hi (Nat.not_lt_zero i), h⟩
  | succ N ih =>
    have hp' : s.pte c (ppn va) = some w := hpage ▸ hp
    refine (h.load hc hp' halign).call ?_
    rintro _ k₁ ⟨rfl, h₁⟩
    cases N with
    | zero =>
      refine .of_eq rfl ⟨fun i hi => ?_, h₁⟩
      obtain rfl : i = 0 := by omega
      simp [hpage]
    | succ N =>
      obtain ⟨halign', hpage', hindex⟩ := next_word halign (by omega)
      refine (ih h₁ (hpage'.trans hpage) halign' (by omega)).call ?_
      rintro ws k₂ ⟨hws, h₂⟩
      refine .of_eq rfl ⟨fun i hi => ?_, h₂⟩
      cases i with
      | zero => simp [hpage]
      | succ i =>
        rw [List.getD_cons_succ, hws i (by omega), hindex, Nat.add_assoc, Nat.add_comm 1 i]

/-- `vpt[n]` of a mapped page. -/
theorem Waypoint.vpt (h : Waypoint b k tf s m k') (hp : s.pte c n = some w) :
    Returns (vpt (k.envs c).envAsid n) k' fun r k₁ => r = w ∧ Waypoint b k tf s m k₁ := by
  obtain ⟨M, hgood⟩ := h.reach.good
  have hcur := h.curenv.trans hc
  have hn := h.lt_npte hp
  have hn' : n < 2 ^ 20 := lt_trans hn (by decide)
  obtain ⟨halign, hpdx, hptx, hword, hcheck⟩ := vpt_address hn'
  have hnat := toNat_vpt hn'
  unfold Mos.vpt
  generalize uvpt + 4 * BitVec.ofNat 32 n = va at halign hpdx hptx hword hcheck hnat ⊢
  -- the page table of the page is what the window maps there
  obtain ⟨t, ht, -, hw⟩ := Vm.leaf_eq_some.mp (h.leaf n hp)
  obtain ⟨d, hd, -, hpde, hppn⟩ := Vm.table_eq_some.mp ht
  obtain rfl : d = k'.curPgdir := Option.some.inj (hd.symm.trans (hgood.inv.cur c hcur))
  have hpde' : has (k'.mem k'.curPgdir (n / 1024)) pteV = true := hpde
  have hppn' : ppn (k'.mem k'.curPgdir (n / 1024)) = t := hppn
  have hself := hgood.dirs.selfMapped hgood.inv.vm (hgood.inv.cur c hcur)
  have hrefill : Returns (doTlbRefill va (k.envs c).envAsid) k' fun pte k₁ =>
      pte = k'.mem k'.curPgdir (n / 1024) ∧ k₁ = k' := by
    refine .of_sat ((doTlbRefill_uvpt hself hpdx (k.envs c).envAsid).mono ?_ (fun _ _ h => h)
      (fun _ h => h)) (fun _ _ h => h) ?_
    · rw [hptx]
      rintro pte k₁ (⟨rfl, -, rfl⟩ | ⟨hno, -⟩)
      · exact ⟨rfl, rfl⟩
      · rw [hpde'] at hno
        cases hno
    · rw [hptx, hpde', hppn']
      rintro _ (⟨hno, -⟩ | ⟨-, hno⟩)
      · cases hno
      · exact absurd (hgood.inv.vm.table_lt_npage ht) (Nat.not_lt.mpr hno)
  obtain ⟨_, _, hret, rfl, rfl⟩ := hrefill.exists_eq
  rename_i k₁
  have hload : loadUser va (k.envs c).envAsid k₁ =
      .ret w (k₁.fill va (k.envs c).envAsid (k₁.mem k₁.curPgdir (n / 1024))) := by
    rw [loadUser, if_neg (not_not.mpr halign), bind_ret hret]
    show Outcome.ret (k₁.mem (ppn (k₁.mem k₁.curPgdir (n / 1024))) (wordIndex va)) _ = _
    rw [hppn', hword]
    exact congrArg (Outcome.ret · _) hw
  have hstep : Step (.tlbRefill va (k.envs c).envAsid) k₁
      (k₁.fill va (k.envs c).envAsid (k₁.mem k₁.curPgdir (n / 1024))) := by
    show ((tlbRefill va _) k₁).state? = some _
    rw [tlbRefill, bind_ret hret]
    rfl
  have hulim : va < ulim := by
    have hu : ulim.toNat = 0x80000000 := by decide
    unfold npte at hn
    show va.toNat < ulim.toNat
    omega
  refine .of_eq hload ⟨rfl, h.reach.advance (.tlbRefill va (k.envs c).envAsid)
    ⟨hulim, c, hcur, by rw [h.envs]⟩ trivial hstep trivial, ?_, h.shows.congr rfl, h.room⟩
  exact h.frame.trans _ _ _ ⟨_, _, _, _, _, rfl⟩

end Loads

/-! ## System calls -/

/-- The number of a system call. -/
def Sysno.number (s : Sysno) : Word := BitVec.ofNat 32 (sysnos.idxOf s)

theorem sysnoOf_number (s : Sysno) : sysnoOf s.number = some s := by cases s <;> rfl

namespace Handler

/-- `msyscall(...)` of a function whose registers are `u` otherwise: the arguments after the fourth lie
on the stack. -/
def msyscall (io : Io) (asid : Word) (u : Trapframe) (s : Sysno) (a₁ a₂ a₃ : Word) (rest : List Word) :
    KernM Word := do
  storeUserWords asid (u.regs 29 + 16) rest
  modify fun k => { k with
    kstackTf := (((u.setReg 4 s.number).setReg 5 a₁).setReg 6 a₂).setReg 7 a₃ }
  let _ ← doSyscall io
  let k ← get
  pure (k.kstackTf.regs 2)

end Handler

/-- The two stack arguments of a function with the registers `u` lie in page `n`. -/
structure OnStack (u : Trapframe) (n : Nat) : Prop where
  align : u.regs 29 + 16 &&& 3 = 0
  page : ppn (u.regs 29 + 16) = n
  fit : wordIndex (u.regs 29 + 16) + 2 ≤ 1024

theorem OnStack.second {u : Trapframe} (h : OnStack u n) : u.regs 29 + 20 &&& 3 = 0 ∧
    ppn (u.regs 29 + 20) = n ∧ wordIndex (u.regs 29 + 20) = wordIndex (u.regs 29 + 16) + 1 := by
  have hadd : u.regs 29 + 20 = u.regs 29 + 16 + 4 := by
    rw [BitVec.add_assoc]
    rfl
  have hfit := h.fit
  rw [hadd]
  obtain ⟨h₁, h₂, h₃⟩ := next_word h.align (by omega)
  exact ⟨h₁, h₂.trans h.page, h₃⟩

section Calls

variable (hc : k.curenv = some c) (io : Io) {u : Trapframe} (no : Sysno) (a₁ a₂ a₃ : Word)

include hc

/-- **`do_syscall`** calls the function of the table with the arguments of the context. -/
theorem Waypoint.doSyscall {no : Sysno} (h : Waypoint b k tf s m k') (hno : sysnoOf (tf.regs 4) = some no)
    (hu : OnStack tf n) (hp : s.pte c n = some w) {Q : Word → Kernel → Prop}
    (hcall : ∀ tf₁ k₁, Waypoint b k tf₁ s m k₁ →
      Returns (syscallTable io (tf.regs 5) (tf.regs 6) (tf.regs 7)
        (s.word c n (wordIndex (tf.regs 29 + 16))) (s.word c n (wordIndex (tf.regs 29 + 16) + 1)) no)
        k₁ fun r k₂ => ∃ v, r = .value v ∧ Q v k₂) :
    Returns (doSyscall io) k' fun _ k₃ => ∃ v k₂, Q v k₂ ∧
      k₃ = { k₂ with kstackTf := k₂.kstackTf.setReg 2 v } := by
  obtain ⟨halign₂, hpage₂, hindex⟩ := hu.second
  have hcur := h.curenv.trans hc
  have hlt : ∀ {va : Word}, ppn va = n → va < uvpt := by
    intro va hpage
    have hutop : utop.toNat ≤ uvpt.toNat := by decide
    have h₁ : va.toNat < utop.toNat := lt_utop_of_page (by rw [hpage]; exact h.lt_npte hp)
    show va.toNat < uvpt.toNat
    omega
  unfold Mos.doSyscall
  have hget : ∀ {γ : Type} (f : Kernel → KernM γ), (get >>= f) k' = f k' k' := fun _ => rfl
  unfold Returns
  rw [hget]
  simp only [h.kstackTf, hno]
  rw [bind_ret (curenvPtr_eq hcur), modify_bind]
  have h₁ := h.setTf { tf with cp0Epc := tf.cp0Epc + 4 }
  have hasid : (k'.envs c).envAsid = (k.envs c).envAsid := by rw [h.envs]
  rw [h.kstackTf, hasid, loadWord_eq io (hlt hu.page), loadWord_eq io (hlt hpage₂)]
  refine (h₁.load hc (by rw [hu.page]; exact hp) hu.align).call ?_
  rintro _ k₂ ⟨rfl, h₂⟩
  refine (h₂.load hc (by rw [hpage₂]; exact hp) halign₂).call ?_
  rintro _ k₃ ⟨rfl, h₃⟩
  have hattempt : Returns (attempt (syscallTable io (tf.regs 5) (tf.regs 6) (tf.regs 7)
      (s.word c (ppn (tf.regs 29 + 16)) (wordIndex (tf.regs 29 + 16)))
      (s.word c (ppn (tf.regs 29 + 20)) (wordIndex (tf.regs 29 + 20))) no)) k₃
      fun r k₄ => ∃ v, r = .ok (.value v) ∧ Q v k₄ := by
    rw [hu.page, hpage₂, hindex]
    refine ((hcall _ k₃ h₃).mono ?_).attempt
    rintro _ k₄ ⟨v, rfl, hq⟩
    exact ⟨v, rfl, hq⟩
  refine hattempt.call ?_
  rintro _ k₄ ⟨v, rfl, hq⟩
  exact .of_eq rfl ⟨v, k₄, hq, rfl⟩

/-- **A system call of a function whose stack is on page `n`**, without stack arguments of its own. -/
theorem Waypoint.msyscall (h : Waypoint b k tf s m k') (hu : OnStack u n) (hp : s.pte c n = some w)
    {R : Word → Trapframe → Spaces → Nat → Prop}
    (hcall : ∀ tf₁ k₁, Waypoint b k tf₁ s m k₁ →
      Returns (syscallTable io a₁ a₂ a₃ (s.word c n (wordIndex (u.regs 29 + 16)))
        (s.word c n (wordIndex (u.regs 29 + 16) + 1)) no) k₁
        fun r k₂ => ∃ v tf₂ t₂ m₂, r = .value v ∧ Waypoint b k tf₂ t₂ m₂ k₂ ∧
          R v tf₂ t₂ m₂) :
    Returns (Handler.msyscall io (k.envs c).envAsid u no a₁ a₂ a₃ []) k' fun r k₃ =>
      ∃ tf₂ t₂ m₂, Waypoint b k (tf₂.setReg 2 r) t₂ m₂ k₃ ∧ R r tf₂ t₂ m₂ := by
  have h₂ := h.setTf ((((u.setReg 4 no.number).setReg 5 a₁).setReg 6 a₂).setReg 7 a₃)
  unfold Returns Handler.msyscall
  rw [bind_ret (show storeUserWords (k.envs c).envAsid (u.regs 29 + 16) [] k' = .ret () k' from rfl),
    modify_bind]
  have hsp : ((((u.setReg 4 no.number).setReg 5 a₁).setReg 6 a₂).setReg 7 a₃).regs 29 = u.regs 29 := by
    simp [Trapframe.setReg]
  have hargs : ((((u.setReg 4 no.number).setReg 5 a₁).setReg 6 a₂).setReg 7 a₃).regs 4 = no.number ∧
      ((((u.setReg 4 no.number).setReg 5 a₁).setReg 6 a₂).setReg 7 a₃).regs 5 = a₁ ∧
      ((((u.setReg 4 no.number).setReg 5 a₁).setReg 6 a₂).setReg 7 a₃).regs 6 = a₂ ∧
      ((((u.setReg 4 no.number).setReg 5 a₁).setReg 6 a₂).setReg 7 a₃).regs 7 = a₃ := by
    refine ⟨?_, ?_, ?_, ?_⟩ <;> simp [Trapframe.setReg]
  generalize (((u.setReg 4 no.number).setReg 5 a₁).setReg 6 a₂).setReg 7 a₃ = v at h₂ hsp hargs ⊢
  obtain ⟨h4, h5, h6, h7⟩ := hargs
  have hv : OnStack v n := ⟨by rw [hsp]; exact hu.align, by rw [hsp]; exact hu.page,
    by rw [hsp]; exact hu.fit⟩
  have hdo := h₂.doSyscall hc io (by rw [h4]; exact sysnoOf_number no) hv hp
    (Q := fun v k₂ => ∃ tf₂ t₂ m₂, Waypoint b k tf₂ t₂ m₂ k₂ ∧ R v tf₂ t₂ m₂) ?_
  · refine hdo.call ?_
    rintro _ _ ⟨r, k₂, ⟨tf₂, t₂, m₂, h₃, hR⟩, rfl⟩
    have hset : (tf₂.setReg 2 r).regs 2 = r := by simp [Trapframe.setReg]
    show ∃ tf₂ t₂ m₂, Waypoint b k (tf₂.setReg 2 ((k₂.kstackTf.setReg 2 r).regs 2)) t₂ m₂ _ ∧
      R ((k₂.kstackTf.setReg 2 r).regs 2) tf₂ t₂ m₂
    rw [h₃.kstackTf, hset]
    exact ⟨tf₂, t₂, m₂, h₃.setTf _, hR⟩
  · intro tf₁ k₂ h₃
    rw [h5, h6, h7, hsp]
    refine (hcall tf₁ k₂ h₃).mono ?_
    rintro _ k₃ ⟨r, tf₂, t₂, m₂, rfl, h₄, hR⟩
    exact ⟨r, rfl, tf₂, t₂, m₂, h₄, hR⟩

end Calls

section Memory

variable (hc : k.curenv = some c)

include hc

theorem Waypoint.memAlloc (h : Waypoint b k tf s m k') (hva : isIllegalVa va = false) {perm : Word}
    (hperm : perm < 4096) (hm : 2 ≤ m) :
    Returns (sysMemAlloc 0 va perm) k' fun r k₁ => r = .value 0 ∧ ∃ f, f < 2 ^ 20 ∧
      (∀ e n, s.frame e n ≠ some f) ∧ Waypoint b k tf (s.memAlloc c (ppn va) perm f) (m - 2) k₁ := by
  obtain ⟨M, hgood⟩ := h.reach.good
  have hcur := h.curenv.trans hc
  have hroom := h.room
  have hspec := ((sysMemAlloc_completes hgood.inv hcur 0 va perm).and
    ((sysMemAlloc_shows hgood.inv h.shows 0 va hperm).and
      ((sysMemAlloc_room hgood.inv hcur hva perm (by omega)).and
        (framed_sysMemAlloc 0 va perm k')))).and (Outcome.sat_self _)
  refine .of_sat (hspec.mono ?_ (fun _ _ h => h.1.2.1) fun _ h => h.1) (fun _ _ h => h)
    (fun _ h => h)
  rintro _ k₁ ⟨⟨⟨e, f, he, hf, hnew, hshows⟩, ⟨rfl, hlen⟩, hframe⟩, hret⟩
  obtain rfl : e = c := by
    rw [envid2env_self hcur] at he
    cases he
    rfl
  exact ⟨rfl, f, hf, hnew, h.reach.advance (.memAlloc 0 va perm) hperm trivial (step_of_ret hret)
    trivial, h.frame.trans _ _ _ hframe, hshows, by omega⟩

/-- A page that shares its frame with no other is counted once. -/
theorem Waypoint.refs_sole (h : Waypoint b k tf s m k') (hp : s.pte c n = some w) (hs : s.Sole c n) :
    k'.vm.refs (ppn w) = 1 := by
  obtain ⟨M, hgood⟩ := h.reach.good
  have hslot := Vm.slotRef_page (h.leaf n hp)
  have hcount := hgood.inv.vm.count _ (hgood.inv.vm.held _ _ hslot).1 (hgood.inv.vm.held _ _ hslot).2
  have hrefs := ppRef_eq_refs hgood.inv h.shows hp
  have hone : s.refs (ppn w) = 1 := by
    refine refCount_eq_one (s := (c, ⟨n, h.lt_npte hp⟩)) (Spaces.frame_eq_some.mpr ⟨w, hp, rfl⟩) ?_
    rintro ⟨e, n'⟩ hf
    obtain ⟨w', hw', hppn⟩ := Spaces.frame_eq_some.mp hf
    obtain ⟨rfl, hn⟩ := hs w hp e n' w' hw' hppn
    exact Prod.ext rfl (Fin.ext hn)
  show k'.vm.refs (ppn w) = 1
  have hcount' : (k'.ppRef (ppn w)).toNat = k'.vm.refs (ppn w) := hcount
  omega

theorem Waypoint.memMap (h : Waypoint b k tf s m k') {src dst perm w' : Word}
    (hsrc : isIllegalVa src = false) (hdst : isIllegalVa dst = false) (hperm : perm < 4096)
    (hp : s.pte c (ppn src) = some w) (hs : s.Sole c (ppn src)) (hp' : s.pte c (ppn dst) = some w') :
    Returns (sysMemMap 0 src 0 dst perm) k' fun r k₁ => r = .value 0 ∧
      Waypoint b k tf (s.setPte c (ppn dst) (some (pageEntry (ppn w) perm))) 0 k₁ := by
  obtain ⟨M, hgood⟩ := h.reach.good
  have hcur := h.curenv.trans hc
  obtain ⟨t, ht, -⟩ := table_of_leaf (h.leaf _ hp')
  have hspec := ((sysMemMap_completes hgood.inv hcur 0 src 0 dst perm).and
    ((sysMemMap_shows hgood.inv h.shows 0 src 0 dst hperm).and
      ((sysMemMap_room hgood.inv hcur hsrc hdst perm (h.leaf _ hp) ht).and
        (framed_sysMemMap 0 src 0 dst perm k')))).and (Outcome.sat_self _)
  refine .of_sat (hspec.mono ?_ (fun _ _ h => h.1.2.1) fun _ h => h.1) (fun _ _ h => h)
    (fun _ h => h)
  rintro _ k₁ ⟨⟨⟨e₁, e₂, u, he₁, he₂, hu, hshows⟩, rfl, hframe⟩, hret⟩
  rw [envid2env_self hcur] at he₁ he₂
  cases he₁
  cases he₂
  rw [Spaces.memMap, hp] at hu
  obtain rfl := Option.some.inj hu
  refine ⟨rfl, h.reach.advance (.memMap 0 src 0 dst perm) hperm trivial (step_of_ret hret) ?_,
    h.frame.trans _ _ _ hframe, hshows, Nat.zero_le _⟩
  intro e₁ e₂ pp he₁ _ hpp
  rw [envid2env_self hcur] at he₁
  cases he₁
  rw [h.leaf _ hp] at hpp
  obtain rfl := Option.some.inj hpp
  refine .inl ?_
  rw [h.refs_sole hc hp hs]
  decide

theorem Waypoint.memUnmap (h : Waypoint b k tf s m k') (hva : isIllegalVa va = false) :
    Returns (sysMemUnmap 0 va) k' fun r k₁ => r = .value 0 ∧
      Waypoint b k tf (s.memUnmap c (ppn va)) 0 k₁ := by
  obtain ⟨M, hgood⟩ := h.reach.good
  have hcur := h.curenv.trans hc
  have hspec := ((sysMemUnmap_self hgood.inv hcur hva).and
    ((sysMemUnmap_shows hgood.inv h.shows 0 va).and (framed_sysMemUnmap 0 va k'))).and
      (Outcome.sat_self _)
  refine .of_sat (hspec.mono ?_ (fun _ _ h => h.1.1) fun _ h => h.1.1) (fun _ _ h => h) (fun _ h => h)
  rintro _ k₁ ⟨⟨rfl, ⟨e, he, hshows⟩, hframe⟩, hret⟩
  rw [envid2env_self hcur] at he
  cases he
  exact ⟨rfl, h.reach.advance (.memUnmap 0 va) trivial trivial (step_of_ret hret) trivial,
    h.frame.trans _ _ _ hframe, hshows, Nat.zero_le _⟩

/-- **`sys_set_trapframe`** gives the env the context that lies at `a`. -/
theorem Waypoint.setTrapframe (h : Waypoint b k tf s m k') {a : Word} {tf₀ : Trapframe}
    (hlegal : isIllegalVaRange a 152 = false) (hp : s.pte c n = some w) (hpage : ppn a = n)
    (halign : a &&& 3 = 0) (hfit : wordIndex a + 38 ≤ 1024)
    (hcopy : ∀ i < 38, s.word c n (wordIndex a + i) = (trapframeWords tf₀).getD i 0) :
    Returns (sysSetTrapframe 0 a) k' fun r k₁ => r = .value (tf₀.regs 2) ∧
      Waypoint b k tf₀ s m k₁ := by
  have hcur := h.curenv.trans hc
  have hasid : (k'.envs c).envAsid = (k.envs c).envAsid := by rw [h.envs]
  unfold Returns sysSetTrapframe
  rw [hlegal, if_neg Bool.false_ne_true, bind_ret (envid2env_self hcur), bind_ret (curenvPtr_eq hcur),
    get_bind, hasid]
  refine (h.loadWords hc hp hpage halign hfit).call ?_
  rintro ws k₁ ⟨hws, h₁⟩
  have htf : trapframeOf ws = tf₀ := by
    rw [← trapframeOf_words tf₀]
    exact trapframeOf_congr fun i hi => (hws i hi).trans (hcopy i hi)
  rw [if_pos rfl, htf]
  exact .of_eq rfl ⟨rfl, h₁.setTf tf₀⟩

end Memory

end Mos
