import Mos.Kern.Ipc
import Mos.Kern.Entries
import Mos.Kern.PageMap
import Mos.Kern.Strangers

/-!
# The page of a message

`sys_ipc_try_send` tells the receiver `PTE_V | perm` before it looks for a page to send, and ignores
what `page_insert` returns. So the flag `PTE_V` is set in every message, and says nothing about a page
(`reported_page_iff`): the page of the receiver is the one of the sender if the message has a page,
there is room to map it and the permission is harmless, and else not. The file servers test the flag to
see whether a request has brought its argument (`request_without_page`).
-/

namespace Mos

open Lib Prog Function

variable {M : List Nat} {k k' k₁ : Kernel} {c e s : EnvPtr} {b : Boot} {op : Op}
  {ok : Kernel → Op → Prop} {P : EnvPtr → Nat → Option Word → Prop}
  {va srcva perm : Word} {pp : Nat}

/-! ## Room to map a page -/

/-- `page_insert` finds a page table for `va`, or a frame to make one. -/
def Kernel.Room (k : Kernel) (e : EnvPtr) (va : Word) : Prop :=
  k.vm.table e (pdx va) ≠ none ∨ k.pageFreeList ≠ []

/-- **`page_insert` succeeds exactly if there is room.** -/
theorem pageInsert_room (h : k.vm.Inv M) (hb : k.basePgdir ∉ M) (hl : k.Live e)
    (hva : pdx va < npde) (pp : Nat) (perm : Word) :
    (pageInsert (k.envs e).envPgdir (k.envs e).envAsid pp va perm k).Sat
      (fun _ _ => k.Room e va) (fun _ _ => ¬k.Room e va) (fun _ => False) := by
  have hd := dir_of_live hl
  cases ht : k.vm.table e (pdx va) with
  | some t =>
    have hroom : k.Room e va := .inl (by rw [ht]; simp)
    refine (pageInsert_effect h hb hd hva (k.envs e).envAsid pp perm).mono (fun _ _ _ => hroom) ?_
      (fun _ h => h)
    rintro er k₁ ⟨-, hpde, -⟩
    obtain ⟨d, hd', -, hval, -⟩ := Vm.table_eq_some.mp ht
    obtain rfl : d = (k.envs e).envPgdir := Option.some.inj (hd'.symm.trans hd)
    exact absurd (hval.symm.trans hpde) (by simp)
  | none =>
    have hpde := mem_invalid_of_table_none hd hva ht
    rw [pageInsert, bind_ret (pgdirWalk_absent hd hva ht)]
    show (pageInsertNew (k.envs e).envPgdir (k.envs e).envAsid pp va perm k).Sat _ _ _
    cases hf : k.pageFreeList with
    | nil =>
      rw [pageInsertNew_full hpde hf]
      rintro (hc | hc)
      · exact hc ht
      · exact hc hf
    | cons t rest =>
      have hfree : k.vm.free = t :: rest := hf
      have htlt : t < k.npage := h.managed t (h.free_spec t (hfree ▸ List.mem_cons_self)).1
      rw [pageInsertNew_fresh hpde hf htlt h.npage_lt]
      exact .inr (by rw [hf]; simp)

theorem entry_valid_of_maps (h : k.Maps e va pp) : has (k.entry e va) pteV = true := by
  obtain ⟨-, pt, i, hlook⟩ := h
  have hspec := pageLookup_found (k.envs e).envPgdir va k
  rw [hlook] at hspec
  obtain ⟨-, ⟨hnone, -⟩ | ⟨pp', t, j, -, hmaps⟩⟩ := hspec
  · cases hnone
  · simp only [Kernel.entry, hmaps.pde, if_true, hmaps.table, hmaps.index, hmaps.pte]

/-- `page_insert` maps the page exactly if there is room and the permission is harmless. -/
theorem pageInsert_maps_iff (h : k.vm.Inv M) (hb : k.basePgdir ∉ M) (hl : k.Live e)
    (hva : pdx va < npde) (hpp : pp < k.npage) (perm : Word) :
    (pageInsert (k.envs e).envPgdir (k.envs e).envAsid pp va perm k).Sat
      (fun _ k' => k'.Maps e va pp ↔ k.Room e va ∧ Harmless perm pp)
      (fun _ k' => k'.Maps e va pp ↔ k.Room e va ∧ Harmless perm pp) (fun _ => False) := by
  refine ((pageInsert_room h hb hl hva pp perm).and (pageInsert_maps h hb hl hva hpp perm)).mono
    ?_ ?_ (fun _ h => h.1)
  · rintro _ k₁ ⟨hroom, hmaps⟩
    rw [hmaps]
    exact ⟨fun hh => ⟨hroom, hh⟩, fun hh => hh.2⟩
  · rintro er k₁ ⟨hfull, hnone⟩
    refine iff_of_false (fun hm => ?_) (fun hc => hfull hc.1)
    exact absurd ((entry_valid_of_maps hm).symm.trans hnone) (by simp)

theorem storeNull_free (w : Word) (k : Kernel) :
    (storeNull w k).Sat (fun _ k' => k'.pageFreeList = k.pageFreeList) (fun _ _ => True)
      (fun _ => True) := by
  rw [storeNull, get_bind]
  refine sat_call (pageLookup_found k.curPgdir 0 k) ?_ (fun _ _ _ => trivial) (fun _ _ => trivial)
  rintro r _ ⟨rfl, -⟩
  rcases r with _ | ⟨pp, pt, i⟩
  · trivial
  · simp only [readWord_bind]
    split
    · exact rfl
    · trivial

theorem schedInsertTail_free (e : EnvPtr) (k : Kernel) :
    (schedInsertTail e k).Sat (fun _ k' => k'.pageFreeList = k.pageFreeList) (fun _ _ => True)
      (fun _ => True) := by
  simp only [schedInsertTail, get_bind]
  cases k.envSchedList.insertTail e with
  | some q => exact rfl
  | none =>
    simp only [put_bind]
    exact sat_call (storeNull_free _ { k with envSchedList := k.envSchedList.linkTail e })
      (fun _ _ hs => hs) (fun _ _ h => h) (fun _ h => h)

/-- The queue is not kept in the memory that is given out. -/
theorem schedInsertTail_room (h : k.vm.Inv M) (hn : k.NullSafe) (e : EnvPtr) :
    (schedInsertTail e k).Sat
      (fun _ k' => ∀ e' va, pdx va < npde → (k'.Room e' va ↔ k.Room e' va))
      (fun _ _ => True) (fun _ => True) := by
  refine ((schedInsertTail_slots h hn e).and (schedInsertTail_free e k)).mono ?_ (fun _ _ _ => trivial)
    (fun _ _ => trivial)
  rintro _ k' ⟨hslots, hfree⟩ e' va hva
  have htab : k'.vm.table e' (pdx va) = k.vm.table e' (pdx va) :=
    congrFun hslots (.table e' ⟨pdx va, hva⟩)
  rw [Kernel.Room, Kernel.Room, htab, hfree]

/-! ## What is sent -/

/-- The env `s` has the frame `pp` at `srcva`, and `srcva` stands for a page. -/
def Kernel.Sends (k : Kernel) (s : EnvPtr) (srcva : Word) (pp : Nat) : Prop :=
  srcva ≠ 0 ∧ ∃ pt i, pageLookup (k.envs s).envPgdir srcva k = .ret (some (pp, pt, i)) k

/-- In `k'` the receiver `c` maps the page that `s` sent in `k`, at the address `c` waited with. -/
def Kernel.Carried (k : Kernel) (s : EnvPtr) (srcva : Word) (c : EnvPtr) (k' : Kernel) : Prop :=
  ∃ pp, k.Sends s srcva pp ∧ k'.Maps c (k.envs c).envIpcDstva pp

/-- The message has a page, there is room to map it, and the permission is harmless for it. -/
def Kernel.CanCarry (k : Kernel) (s : EnvPtr) (srcva perm : Word) (c : EnvPtr) : Prop :=
  ∃ pp, k.Sends s srcva pp ∧ k.Room c (k.envs c).envIpcDstva ∧ Harmless perm pp

theorem Kernel.Sends.leaf (hs : k.Sends s srcva pp) (h : k.vm.Inv M) (hl : k.Live s)
    (hva : srcva < utop) : ∃ w, k.vm.leaf s (ppn srcva) = some w ∧ ppn w = pp := by
  obtain ⟨-, pt, i, hlook⟩ := hs
  exact leaf_of_lookup h hl hva hlook

theorem ipcMapPage_maps_iff (h : k.Inv M) (hb : k.basePgdir ∉ M) (hlc : k.Live c) (hle : k.Live e)
    (perm : Word) {w : Word} (hw : k.vm.leaf c (ppn srcva) = some w) :
    (ipcMapPage c e srcva perm k).Sat
      (fun r k' => r = .value 0 ∧ (k'.Maps e (k.envs e).envIpcDstva (ppn w) ↔
        k.Room e (k.envs e).envIpcDstva ∧ Harmless perm (ppn w)))
      (fun _ _ => False) (fun _ => False) := by
  obtain ⟨t, _, _, hlook⟩ := pageLookup_mapped h.vm (dir_of_live hlc) hw
  rw [ipcMapPage, get_bind, bind_ret hlook, sat_bind, sat_attempt]
  exact (pageInsert_maps_iff h.vm hb hle (pdx_lt_of_lt_utop (h.dstva e)) (h.vm.leaf_lt_npage hw)
    perm).mono (fun _ _ hm => ⟨rfl, hm⟩) (fun _ _ hm => ⟨rfl, hm⟩) (fun _ hm => hm)

/-- The page is looked up after the receiver was woken; this changes nothing about the page. The call
fails only if there is none. -/
theorem sysIpcTrySend_carries (h : k.Inv M) (hb : k.basePgdir ∉ M) (hc : k.curenv = some s)
    {envid : Word} (hf : k.Finds c envid srcva) (value perm : Word) :
    (sysIpcTrySend envid value srcva perm k).Sat
      (fun r k' => r = .value 0 ∧ (k.Carried s srcva c k' ↔ k.CanCarry s srcva perm c))
      (fun _ k' => (srcva ≠ 0 ∧ ¬k.CanCarry s srcva perm c) ∧ ¬k.Carried s srcva c k')
      (fun _ => True) := by
  obtain ⟨hva, hfind, hrecv⟩ := hf
  have hls : k.Live s := h.live_cur hc
  have hlc : k.Live c := by
    have hspec := envid2env_read (fun _ => h.live_cur) envid false
    rw [hfind] at hspec
    exact hspec.2.1
  rw [sysIpcTrySend, if_neg hva, bind_ret hfind, get_bind, if_neg hrecv]
  refine sat_call (curenvPtr_spec k) ?_ (fun _ _ hq => hq.elim) (fun _ _ => trivial)
  rintro s' _ ⟨rfl, hc'⟩
  obtain rfl : s = s' := Option.some.inj (hc.symm.trans hc')
  rw [modify_bind]
  have hst : ((k.envs c).deliver value (k.envs s).envId perm).envStatus ≠ .free ↔
      (k.envs c).envStatus ≠ .free := iff_of_true (by simp [Env.deliver]) hlc
  have h₁ := h.setEnv (e := c) (f := fun v => v.deliver value (k.envs s).envId perm) hst rfl
    (h.dstva c)
  refine sat_call ((ipcWake_spec h hb hlc hc value (k.envs s).envId perm).and
    (schedInsertTail_room h₁.vm (h₁.nullSafe hc) c)) ?_ (fun _ _ hq => hq.1.elim)
    (fun _ _ => trivial)
  rintro _ k₂ ⟨⟨h₂, hs, -, henv₂⟩, hroom₂⟩
  have hdst₂ : (k₂.envs c).envIpcDstva = (k.envs c).envIpcDstva := by
    rw [henv₂, update_self]
    rfl
  split
  next h0 =>
    have hsrc : srcva < utop := legal_of_not_illegal fun hc' => hva ⟨h0, hc'⟩
    have hls₂ : k₂.Live s := (hs.live s).mpr hls
    cases hw : k.vm.leaf s (ppn srcva) with
    | none =>
      rw [ipcMapPage, get_bind, bind_ret (pageLookup_unmapped h₂.vm (dir_of_live hls₂)
        (pdx_lt_of_lt_utop hsrc) (by rw [hs.leaf]; exact hw))]
      have hnone : ∀ pp, ¬k.Sends s srcva pp := by
        intro pp hsend
        obtain ⟨w, hw', -⟩ := hsend.leaf h.vm hls hsrc
        rw [hw] at hw'
        cases hw'
      have hlost : ∀ {P : Nat → Prop}, ¬∃ pp, k.Sends s srcva pp ∧ P pp := by
        rintro P ⟨pp, hsend, -⟩
        exact hnone pp hsend
      exact ⟨⟨h0, hlost⟩, hlost⟩
    | some w =>
      have hsends : ∀ pp, k.Sends s srcva pp ↔ pp = ppn w := by
        intro pp
        constructor
        · intro hsend
          obtain ⟨w', hw', rfl⟩ := hsend.leaf h.vm hls hsrc
          obtain rfl : w = w' := Option.some.inj (hw.symm.trans hw')
          rfl
        · rintro rfl
          obtain ⟨t, _, _, hlook⟩ := pageLookup_mapped h.vm (dir_of_live hls) hw
          exact ⟨h0, t, _, hlook⟩
      refine (ipcMapPage_maps_iff h₂ (hs.base ▸ hb) hls₂ ((hs.live c).mpr hlc) perm
        (by rw [hs.leaf]; exact hw)).mono ?_ (fun _ _ hq => hq.elim) (fun _ hq => hq.elim)
      rintro r k₃ ⟨hr, hmaps⟩
      refine ⟨hr, ?_⟩
      have hroom : k₂.Room c (k.envs c).envIpcDstva ↔ k.Room c (k.envs c).envIpcDstva := by
        rw [hroom₂ c _ (pdx_lt_of_lt_utop (h.dstva c)), Kernel.Room, vm_setEnv hst rfl]
        rfl
      rw [hdst₂, hroom] at hmaps
      simp only [Kernel.Carried, Kernel.CanCarry, hsends, exists_eq_left]
      exact hmaps
  next h0 =>
    have hlost : ∀ {P : Nat → Prop}, ¬∃ pp, k.Sends s srcva pp ∧ P pp := by
      rintro P ⟨pp, hsend, -⟩
      exact h0 hsend.1
    exact ⟨rfl, iff_of_false hlost hlost⟩

/-! ## Until the receiver runs -/

/-- The states that a run from `k` leads to, with steps that meet `ok`. -/
inductive Later (ok : Kernel → Op → Prop) (k : Kernel) : Kernel → Prop
  | refl : Later ok k k
  | step {k₁ k₂ : Kernel} (h : Later ok k k₁) (op : Op) (hsane : op.Sane k₁) (hok : ok k₁ op)
      (hstep : Step op k₁ k₂) (hcount : k₂.vm.Bounded) : Later ok k k₂
  | evict {k₁ : Kernel} (h : Later ok k k₁) (tlb : List TlbEntry) (hsub : tlb ⊆ k₁.tlb) :
      Later ok k { k₁ with tlb := tlb }

theorem Later.reach (h : Later ok k k') (hk : Reach (fun _ _ => True) b k) :
    Reach (fun _ _ => True) b k' := by
  induction h with
  | refl => exact hk
  | step _ op hsane _ hstep hcount ih => exact ih.step op hsane trivial hstep hcount
  | evict _ tlb hsub ih => exact ih.evict tlb hsub

/-- A step of another env that leaves the page `n` of `c` alone. -/
def Op.Spares (c : EnvPtr) (n : Nat) (k : Kernel) (op : Op) : Prop :=
  k.curenv ≠ some c ∧ op.Places (fun e n' _ => ¬(e = c ∧ n' = n)) k

/-- Meanwhile the receiver keeps its message and the entry of the page. -/
theorem Later.kept (h : Later (Op.Spares c (ppn va)) k k') (hk : Reach (fun _ _ => True) b k)
    (hrecv : (k.envs c).envIpcRecving = 0) :
    (k'.envs c).ipc = (k.envs c).ipc ∧ k'.vm.leaf c (ppn va) = k.vm.leaf c (ppn va) := by
  induction h with
  | refl => exact ⟨rfl, rfl⟩
  | step h op hsane hspare hstep _ ih =>
    obtain ⟨hipc, hleaf⟩ := ih
    obtain ⟨hcur, hplaces⟩ := hspare
    obtain ⟨M, hgood⟩ := (h.reach hk).good
    have hvia := (exec_via hgood.inv hgood.base hgood.dirs op hsane hplaces).of_state? hstep
    rw [← hipc, ← hleaf]
    refine ⟨(ipc_kept ?_ hstep ?_ ?_).1, hvia.leaf_of_spared fun _ hP => hP ⟨rfl, rfl⟩⟩
    · rintro envid rfl he
      exact hplaces c (ppn va) he ⟨rfl, rfl⟩
    · rintro ⟨dstva, -, -, hc⟩
      exact hcur hc
    · cases op with
      | ipcTrySend envid v srcva p =>
        exact message_none fun hf => hf.2.2 ((recving_of_ipc hipc).trans hrecv)
      | _ => rfl
  | evict h tlb hsub ih => exact ih

/-- What is mapped is a matter of the entry. -/
theorem maps_iff_leaf (h : k.vm.Inv M) (hl : k.Live e) (hva : va < utop) (hpp : pp < 2 ^ 20) :
    k.Maps e va pp ↔ ∃ w, k.vm.leaf e (ppn va) = some w ∧ pteAddr w = page2pa pp := by
  constructor
  · intro hmaps
    exact ⟨_, leaf_of_entry hl hva (entry_valid_of_maps hmaps), hmaps.1⟩
  · rintro ⟨w, hw, haddr⟩
    obtain ⟨t, ht, hmem, hlook⟩ := pageLookup_mapped h (dir_of_live hl) hw
    obtain ⟨d, hd, -, hpde, hpt⟩ := Vm.table_eq_some.mp ht
    have hpg : (k.envs e).envPgdir = d := (dir_eq_some.mp hd).2
    have hpde' : has (k.mem d (pdx va)) pteV = true := hpde
    have hpt' : ppn (k.mem d (pdx va)) = t := hpt
    have hentry : k.entry e va = w := by
      simp only [Kernel.entry, hpg, hpde', if_true, hpt', hmem]
    rw [ppn_of_pteAddr hpp haddr] at hlook
    exact ⟨by rw [hentry, haddr], t, ptx va, hlook⟩

theorem Kernel.Sends.lt (hsend : k.Sends s srcva pp) (h : k.vm.Inv M) (hl : k.Live s)
    (hva : srcva < utop) : pp < 2 ^ 20 := by
  obtain ⟨w, hw, rfl⟩ := hsend.leaf h hl hva
  exact (h.leaf_lt_npage hw).trans h.npage_lt

/-- The test of `serve` and `fatserve` for an argument page: `perm & PTE_V`. -/
def Env.hasArgument (v : Env) : Bool := has v.envIpcPerm pteV

theorem hasArgument_of_ipc {v v' : Env} (h : v'.ipc = v.ipc) : v'.hasArgument = v.hasArgument :=
  congrArg (fun m : Mail => has m.perm pteV) (mail_of_ipc h)

/-- What a delivered message leaves with its receiver. -/
theorem delivered_to (hs : k.curenv = some s) {envid value : Word} (hf : k.Finds c envid srcva)
    (hstep : Step (.ipcTrySend envid value srcva perm) k k₁) :
    (k₁.envs c) = (k.envs c).deliver value (k.envs s).envId perm := by
  rcases exec_post hstep with ⟨-, hnone⟩ | ⟨e, s', hf', hs', hsame⟩
  · exact absurd hf (hnone c)
  · obtain rfl : s = s' := Option.some.inj (hs.symm.trans hs')
    obtain rfl : c = e := by
      have he := hf'.2.1
      rw [hf.2.1] at he
      injection he
    rw [hsame.envs, setEnv_envs, update_self]

/-- **Every message passes the test for a page, whether or not there is one.** The receiver maps the
page that was sent exactly if the message had a page, there was room to map it and the permission was
harmless; and this is still so when the receiver runs, if until then nothing else is done to the
page. -/
theorem reported_page_iff (h : Reach (fun _ _ => True) b k) (hs : k.curenv = some s)
    {envid value : Word} (hf : k.Finds c envid srcva)
    (hstep : Step (.ipcTrySend envid value srcva perm) k k₁) :
    ((k₁.envs c).hasArgument = true ∧
      (k.Carried s srcva c k₁ ↔ k.CanCarry s srcva perm c)) ∧
    ∀ k', perm < 4096 → k₁.vm.Bounded →
      Later (Op.Spares c (ppn (k.envs c).envIpcDstva)) k₁ k' → k'.curenv = some c →
      (k'.envs c).hasArgument = true ∧
        (k.Carried s srcva c k' ↔ k.CanCarry s srcva perm c) := by
  obtain ⟨M, hgood⟩ := h.good
  have henv := delivered_to hs hf hstep
  have harg : (k₁.envs c).hasArgument = true := by
    rw [henv, Env.hasArgument]
    show has (pteV ||| perm) pteV = true
    rw [has_or, show has pteV pteV = true by decide, Bool.true_or]
  have hcarry : k.Carried s srcva c k₁ ↔ k.CanCarry s srcva perm c := by
    have hexec : (exec (.ipcTrySend envid value srcva perm) k).Sat
        (fun _ k' => k.Carried s srcva c k' ↔ k.CanCarry s srcva perm c)
        (fun _ k' => k.Carried s srcva c k' ↔ k.CanCarry s srcva perm c) (fun _ => True) :=
      sat_call (sysIpcTrySend_carries hgood.inv hgood.base hs hf value perm) (fun _ _ h => h.2)
        (fun _ _ h => iff_of_false h.2 h.1.2) (fun _ h => h)
    exact hexec.of_state? hstep
  refine ⟨⟨harg, hcarry⟩, ?_⟩
  intro k' hperm hcount hlater hc'
  have h₁ : Reach (fun _ _ => True) b k₁ :=
    h.step (.ipcTrySend envid value srcva perm) hperm trivial hstep hcount
  obtain ⟨hipc, hleaf⟩ := hlater.kept h₁ (by rw [henv]; rfl)
  refine ⟨(hasArgument_of_ipc hipc).trans harg, ?_⟩
  rw [← hcarry]
  obtain ⟨M₁, hgood₁⟩ := h₁.good
  obtain ⟨M', hgood'⟩ := (hlater.reach h₁).good
  have hl₁ : k₁.Live c := by
    rw [Kernel.Live, henv]
    simp [Env.deliver]
  have hl' : k'.Live c := hgood'.inv.live_cur hc'
  have hdst := hgood.inv.dstva c
  refine exists_congr fun pp => and_congr_right fun hsend => ?_
  have hpp : pp < 2 ^ 20 := hsend.lt hgood.inv.vm (hgood.inv.live_cur hs)
    (legal_of_not_illegal fun hc => hf.1 ⟨hsend.1, hc⟩)
  rw [maps_iff_leaf hgood'.inv.vm hl' hdst hpp, maps_iff_leaf hgood₁.inv.vm hl₁ hdst hpp, hleaf]

/-! ## Messages with and without a page -/

/-- Env 0 sends to env 1, which waits with `UTEXT`, and yields to it. -/
def sendTest (srcva : Word) (test : Kernel → Kernel → Bool) (k : Kernel) : Bool :=
  k.curenv == some 0 && (k.envs 1).envIpcDstva == utext && (k.envs 1).envIpcRecving != 0 &&
    (match envid2env 4097 false k with
    | .ret e _ => e == 1
    | _ => false) && k.roomy &&
    (exec (.ipcTrySend 4097 7 srcva pteD) k).state?.any fun k₁ =>
      k₁.curenv == some 0 && k₁.roomy &&
        (exec .yield k₁).state?.any fun k' => k'.curenv == some 1 && test k k'

/-- The message is sent in `k`, and received in `k'`. -/
structure SentAt (srcva : Word) (k k₁ k' : Kernel) : Prop where
  reach : Reach (fun _ _ => True) smallBoot k
  cur : k.curenv = some 0
  dstva : (k.envs 1).envIpcDstva = utext
  finds : k.Finds 1 4097 srcva
  step : Step (.ipcTrySend 4097 7 srcva pteD) k k₁
  bounded : k₁.vm.Bounded
  later : Later (Op.Spares 1 (ppn utext)) k₁ k'
  woken : k'.curenv = some 1

theorem exists_sentAt (srcva : Word) (hva : isIllegalVa srcva = false ∨ srcva = 0)
    (test : Kernel → Kernel → Bool) (h : ((boot smallBoot).state?.bind
      (testOps (fun _ _ => true) frameRun)).any (sendTest srcva test) = true) :
    ∃ k k₁ k', SentAt srcva k k₁ k' ∧ test k k' = true := by
  obtain ⟨k, hr, h⟩ := exists_reach_any smallBoot frameRun (sendTest srcva test) h
  simp only [sendTest, Bool.and_eq_true, beq_iff_eq, bne_iff_ne] at h
  obtain ⟨⟨⟨⟨⟨hc, hdst⟩, hrecv⟩, hfind⟩, hroom⟩, hsend⟩ := h
  obtain ⟨k₁, hstep, hsend⟩ := (Option.any_eq_true _ _).mp hsend
  simp only [Bool.and_eq_true, beq_iff_eq] at hsend
  obtain ⟨⟨hc₁, hroom₁⟩, hyield⟩ := hsend
  obtain ⟨k', hstep', hyield⟩ := (Option.any_eq_true _ _).mp hyield
  simp only [Bool.and_eq_true, beq_iff_eq] at hyield
  obtain ⟨hc', htest⟩ := hyield
  obtain ⟨M, hgood⟩ := hr.good
  have hsane : Op.Sane k (.ipcTrySend 4097 7 srcva pteD) := show pteD < 4096 by decide
  have hsane' : Op.Sane k₁ .yield := trivial
  obtain ⟨M₁, hgood₁⟩ := hgood.step hsane hstep (.inr (hgood.inv.room hroom))
  obtain ⟨M', hgood'⟩ := hgood₁.step hsane' hstep' (.inr (hgood₁.inv.room hroom₁))
  have hlater : Later (Op.Spares 1 (ppn utext)) k₁ k' :=
    Later.refl.step .yield trivial ⟨by rw [hc₁]; simp, trivial⟩ hstep' hgood'.inv.vm.bounded
  have heq := envid2env_eq 4097 false k
  split at hfind
  next e k₂ he =>
    rw [he] at heq
    obtain ⟨rfl, -⟩ := heq
    obtain rfl : e = 1 := by simpa using hfind
    refine ⟨k, k₁, k', ⟨hr, hc, hdst, ⟨?_, he, hrecv⟩, hstep, hgood₁.inv.vm.bounded, hlater, hc'⟩,
      htest⟩
    rintro ⟨hne, hill⟩
    rcases hva with hva | hva
    · rw [hva] at hill
      cases hill
    · exact hne hva
  next => cases hfind

/-- A message with a page that can be carried over. -/
theorem exists_sentPage : ∃ k k₁ k', SentAt utext k k₁ k' ∧ k.CanCarry 0 utext pteD 1 := by
  obtain ⟨k, k₁, k', h, htest⟩ := exists_sentAt utext (.inl (by decide)) (fun k _ =>
    (pageLookup (k.envs 0).envPgdir utext k).retAnd (fun r _ => r.isSome) &&
      !k.pageFreeList.isEmpty) (by decide +kernel)
  rw [Bool.and_eq_true] at htest
  obtain ⟨hlook, hfree⟩ := htest
  refine ⟨k, k₁, k', h, ?_⟩
  obtain ⟨r, k₂, heq, hsome⟩ := Outcome.retAnd_eq_true.mp hlook
  obtain ⟨⟨pp, pt, i⟩, rfl⟩ := Option.isSome_iff_exists.mp hsome
  have hspec := pageLookup_found (k.envs 0).envPgdir utext k
  rw [heq] at hspec
  obtain ⟨rfl, -⟩ := hspec
  refine ⟨pp, ⟨by decide, pt, i, heq⟩, .inr ?_, harmless_of_flags (by decide) pp⟩
  rintro hnil
  rw [hnil] at hfree
  cases hfree

theorem reported_page_sent : ∃ k k₁ k', SentAt utext k k₁ k' ∧ k.CanCarry 0 utext pteD 1 ∧
    (k'.envs 1).hasArgument = true ∧ k.Carried 0 utext 1 k' := by
  obtain ⟨k, k₁, k', h, hcan⟩ := exists_sentPage
  obtain ⟨harg, hiff⟩ := (reported_page_iff h.reach h.cur h.finds h.step).2 k' (by decide) h.bounded
    (by rw [h.dstva]; exact h.later) h.woken
  exact ⟨k, k₁, k', h, hcan, harg, hiff.mpr hcan⟩

/-- **A message without a page passes the test**, and nothing is mapped where the server expects the
argument. -/
theorem request_without_page : ∃ k k₁ k', SentAt 0 k k₁ k' ∧ (k'.envs 1).hasArgument = true ∧
    ¬k.Carried 0 0 1 k' ∧ ∀ pp, ¬k'.Maps 1 utext pp := by
  obtain ⟨k, k₁, k', h, htest⟩ := exists_sentAt 0 (.inr rfl) (fun _ k' =>
    (k'.envs 1).hasArgument && !has (k'.entry 1 utext) pteV) (by decide +kernel)
  rw [Bool.and_eq_true, Bool.not_eq_true'] at htest
  obtain ⟨harg, hnone⟩ := htest
  refine ⟨k, k₁, k', h, harg, ?_, ?_⟩
  · rintro ⟨pp, ⟨hne, -⟩, -⟩
    exact hne rfl
  · intro pp hmaps
    exact absurd ((entry_valid_of_maps hmaps).symm.trans hnone) (by simp)

end Mos
