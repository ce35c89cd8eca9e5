import Mos.User.Fsipc
import Mos.Kern.Strangers
import Mos.Kern.Window
import Mos.Kern.Mailbox

/-!
# File-system requests are not mixed up

At most one request is on its way through the server at any time: a client can send only while the server
waits in `sys_ipc_recv`, and the server waits again only after the reply has been accepted. A client that
has sent a request gets no other message, because only the server sends to clients. The invariant says
for every place in the programs how far the requests have come, and `rpc_paired` reads the pairing of
requests and replies off it.
-/

namespace Mos

open Lib Prog Function

variable {M : List Nat} {b : Boot} {k k' : Kernel} {srv c e : EnvPtr} {op : Op} {s t : Rpc}

/-! ## What the kernel does to mailboxes -/

/-- The mailboxes, the ids and the sleepers are as they were. -/
structure Kernel.Calm (k k' : Kernel) : Prop where
  id : ∀ e, (k'.envs e).envId = (k.envs e).envId
  live : ∀ e, k'.Live e ↔ k.Live e
  ipc : ∀ e, (k'.envs e).ipc = (k.envs e).ipc
  waiting : ∀ e, k.Waiting e → k'.Waiting e

theorem Kernel.Calm.of_same (h : k.SameEnvs k') : k.Calm k' := by
  refine ⟨fun e => by rw [h.envs], fun e => ?_, fun e => by rw [h.envs], fun e hw => hw.same h⟩
  unfold Kernel.Live
  rw [h.envs]

theorem Kernel.Calm.of_switched (h : k.Switched k') : k.Calm k' := by
  have hst : ∀ e, (k'.envs e).envStatus = (k.envs e).envStatus :=
    h.field (φ := Env.envStatus) (fun _ _ => rfl) fun _ _ => rfl
  refine ⟨h.field (φ := Env.envId) (fun _ _ => rfl) fun _ _ => rfl, fun e => ?_,
    h.field (φ := Env.ipc) (fun _ _ => rfl) fun _ _ => rfl, fun e hw => hw.switched h⟩
  unfold Kernel.Live
  rw [hst]

/-- The message `val` of `c` has gone into the mailbox of `e`. -/
structure Kernel.Told (k : Kernel) (c e : EnvPtr) (val : Word) (k' : Kernel) : Prop where
  found : (k.envs e).envIpcRecving ≠ 0
  id : ∀ e', (k'.envs e').envId = (k.envs e').envId
  live : ∀ e', k'.Live e' ↔ k.Live e'
  ipc : ∀ e', e' ≠ e → (k'.envs e').ipc = (k.envs e').ipc
  waiting : ∀ e', e' ≠ e → k.Waiting e' → k'.Waiting e'
  recving : (k'.envs e).envIpcRecving = 0
  value : (k'.envs e).envIpcValue = val
  sender : (k'.envs e).envIpcFrom = (k.envs c).envId
  argument : (k'.envs e).hasArgument = true

theorem told_of_send (hl : k.Live e) {envid val srcva perm : Word} {r : SysRet}
    (he : envid2env envid false k = .ret e k) (hc : k.curenv = some c)
    (hret : sysIpcTrySend envid val srcva perm k = .ret r k') : k.Told c e val k' := by
  have hspec := sysIpcTrySend_delivered envid val srcva perm k
  rw [hret] at hspec
  obtain ⟨e', c', hf, hc', hs⟩ := hspec
  obtain rfl : c = c' := Option.some.inj (hc.symm.trans hc')
  obtain rfl : e = e' := by
    have heq := hf.2.1
    rw [he] at heq
    injection heq
  have hself : k'.envs e = (k.envs e).deliver val (k.envs c).envId perm := by
    rw [hs.envs, setEnv_envs, update_self]
  have hother : ∀ e', e' ≠ e → k'.envs e' = k.envs e' := by
    intro e' hne
    rw [hs.envs, setEnv_envs, update_of_ne hne]
  refine ⟨hf.2.2, fun e' => ?_, fun e' => ?_, fun e' hne => by rw [hother e' hne], ?_,
    by rw [hself]; rfl, by rw [hself]; rfl, by rw [hself]; rfl, ?_⟩
  · by_cases hne : e' = e
    · subst hne
      rw [hself]
      rfl
    · rw [hother e' hne]
  · unfold Kernel.Live
    by_cases hne : e' = e
    · subst hne
      rw [hself]
      exact iff_of_true (by simp [Env.deliver]) hl
    · rw [hother e' hne]
  · intro e' hne hw
    exact (hw.setEnv hne _).same hs
  · rw [hself, Env.hasArgument]
    show has (pteV ||| perm) pteV = true
    rw [has_or, show has pteV pteV = true by decide, Bool.true_or]

/-- `c` waits for a message. -/
structure Kernel.Listens (k : Kernel) (c : EnvPtr) (dstva : Word) (k' : Kernel) : Prop where
  id : ∀ e, (k'.envs e).envId = (k.envs e).envId
  live : ∀ e, k'.Live e ↔ k.Live e
  ipc : ∀ e, e ≠ c → (k'.envs e).ipc = (k.envs e).ipc
  waiting : ∀ e, e ≠ c → k.Waiting e → k'.Waiting e
  self : k'.Waiting c
  dstva : (k'.envs c).envIpcDstva = dstva

theorem listens_of_recv (h : k.FreeInv) (hl : k.Live c) (hc : k.curenv = some c) {dstva : Word}
    (hret : sysIpcRecv dstva k = .ret .switched k') : k.Listens c dstva k' := by
  have hself := waiting_of_recv h hc hret
  have hspec := sysIpcRecv_waits dstva k
  rw [hret] at hspec
  obtain ⟨-, c', hc', hs⟩ := hspec
  obtain rfl : c = c' := Option.some.inj (hc.symm.trans hc')
  have henv : (k.waits c dstva).envs c = { k.envs c with
      envIpcRecving := 1, envIpcDstva := dstva, envStatus := .notRunnable } := update_self _ _ _
  have hother : ∀ e, e ≠ c → (k.waits c dstva).envs e = k.envs e := fun e hne => update_of_ne hne _ _
  have hcalm := Kernel.Calm.of_switched hs
  refine ⟨fun e => ?_, fun e => ?_, fun e hne => ?_, fun e hne hw => ?_, hself, ?_⟩
  · rw [hcalm.id]
    by_cases hne : e = c
    · subst hne
      rw [henv]
    · rw [hother e hne]
  · rw [hcalm.live]
    unfold Kernel.Live
    by_cases hne : e = c
    · subst hne
      rw [henv]
      exact iff_of_true (by simp) hl
    · rw [hother e hne]
  · rw [hcalm.ipc, hother e hne]
  · have hw' : (k.waits c dstva).Waiting e := hw.of_ipc (by rw [hother e hne])
      (by rw [hother e hne]) hw.cur (List.Subset.refl _)
    exact hw'.switched hs
  · rw [dstva_of_ipc (hcalm.ipc c), henv]

/-- A send that is refused because the receiver does not wait changes nothing. -/
theorem sysIpcTrySend_notRecv (envid val srcva perm : Word) (k : Kernel) :
    (sysIpcTrySend envid val srcva perm k).Sat (fun _ _ => True)
      (fun er k' => er = .ipcNotRecv → k' = k) (fun _ => True) := by
  unfold sysIpcTrySend
  split
  · exact fun _ => rfl
  refine sat_call (envid2env_eq envid false k) ?_ (fun _ _ h _ => h.symm) (fun _ h => h)
  rintro e _ ⟨rfl, -⟩
  rw [get_bind]
  split
  · exact fun _ => rfl
  refine sat_call (Outcome.sat_self (curenvPtr k)) ?_ ?_ (fun _ _ => trivial)
  · intro c k₁ _
    rw [modify_bind]
    refine sat_call (schedInsertTail_same e _) ?_ (fun _ _ h => h.elim) (fun _ h => h)
    intro _ k₂ _
    split
    · unfold ipcMapPage
      rw [get_bind]
      refine sat_call (pageLookup_state _ srcva k₂) ?_ (fun _ _ h => h.elim) (fun _ _ => trivial)
      rintro r k₃ -
      cases r with
      | none => exact nofun
      | some r =>
        rw [sat_bind, sat_attempt]
        exact (Outcome.sat_self _).mono (fun _ _ _ => trivial) (fun _ _ _ => trivial)
          (fun _ _ => trivial)
    · trivial
  · intro er k₁ herr
    unfold curenvPtr at herr
    rw [get_bind] at herr
    cases hcur : k.curenv <;> simp [hcur] at herr

/-! ## The page at `REQVA` -/

/-- The server maps its pages as before, as far as it did. -/
def Kernel.KeepsPage (srv : EnvPtr) (k k' : Kernel) : Prop :=
  ∀ pp, k.frameAt srv reqva = some pp → k'.frameAt srv reqva = some pp

theorem Kernel.KeepsPage.of_leaf (h : k'.vm.leaf srv (ppn reqva) = k.vm.leaf srv (ppn reqva)) :
    Kernel.KeepsPage srv k k' := by
  intro pp hpp
  rwa [Kernel.frameAt, h]

/-- An operation that maps nothing at `REQVA` of the server. -/
theorem keepsPage_of_places (h : k.Good M) (hstep : Step op k k') (hsane : op.Sane k)
    (hP : op.Places (fun e n _ => ¬(e = srv ∧ n = ppn reqva)) k) : Kernel.KeepsPage srv k k' := by
  have hvia := (exec_via h.inv h.base h.dirs op hsane hP).of_state? hstep
  exact .of_leaf (hvia.leaf_of_spared fun _ hne => hne ⟨rfl, rfl⟩)

/-- A refill of the server itself maps only what is not mapped. -/
theorem keepsPage_of_refill (h : k.Good M) {va asid : Word} (hsane : (Op.tlbRefill va asid).Sane k)
    (hc : k.curenv = some srv) (hstep : Step (.tlbRefill va asid) k k') :
    Kernel.KeepsPage srv k k' := by
  obtain ⟨hva, c, hc', rfl⟩ := hsane
  obtain rfl : srv = c := Option.some.inj (hc.symm.trans hc')
  have hd := h.inv.cur srv hc
  have hsat : (doTlbRefill va (k.envs srv).envAsid k).Sat (fun _ k' => Kernel.KeepsPage srv k k')
      (fun _ _ => False) (fun _ => True) := by
    by_cases hlow : va < utop
    · refine (doTlbRefill_accesses h.inv hc hlow _).mono ?_ (fun _ _ h => h) (fun _ _ => trivial)
      rintro pte k₁ ⟨-, -, hgrown⟩ pp hpp
      obtain ⟨w, hw, rfl⟩ := Option.map_eq_some_iff.mp hpp
      rw [Kernel.frameAt, hgrown.keep _ w hw]
      rfl
    · have hlow' : ¬va.toNat < utop.toNat := hlow
      by_cases hzone : va < uvpt
      · refine (doTlbRefill_zone (show utop.toNat ≤ va.toNat by omega) hzone _ k).mono ?_
          (fun _ _ h => h) (fun _ h => h)
        rintro pte _ rfl
        exact fun _ h => h
      · have hzone' : ¬va.toNat < uvpt.toNat := hzone
        have hva' : va.toNat < ulim.toNat := hva
        have hpdx : pdx va = pdx uvpt := pdx_eq_uvpt (show uvpt.toNat ≤ va.toNat by omega) hva
        refine (doTlbRefill_uvpt (h.dirs.selfMapped h.inv.vm hd) hpdx _).mono ?_ (fun _ _ h => h)
          (fun _ _ => trivial)
        rintro pte k₁ (⟨_, _, rfl⟩ | ⟨hnone, p, rest, hf, _, rfl⟩)
        · exact fun _ h => h
        · obtain ⟨hstill, -⟩ := adopt_spec h.inv.vm h.base hd h.dirs hnone hf (k.envs srv).envAsid
          exact .of_leaf (by rw [hstill.leaf])
  have hexec : (exec (.tlbRefill va (k.envs srv).envAsid) k).Sat
      (fun _ k' => Kernel.KeepsPage srv k k') (fun _ k' => Kernel.KeepsPage srv k k')
      (fun _ => True) :=
    sat_call hsat (fun _ _ h => h) (fun _ _ h => h.elim) (fun _ h => h)
  exact hexec.of_state? hstep

/-- What an env does on the side leaves the mailboxes and the page at `REQVA`. -/
theorem calm_of_local (h : k.Good M) (hc : k.curenv = some e) (hop : op.Local srv k)
    (hg : Goes op k k') : k.Calm k' ∧ Kernel.KeepsPage srv k k' := by
  have hpost := exec_post hg.step
  have hplaces : op.Places (fun e n _ => ¬(e = srv ∧ n = ppn reqva)) k →
      Kernel.KeepsPage srv k k' := keepsPage_of_places h hg.step hg.sane
  cases op with
  | yield => exact ⟨.of_switched hpost, hplaces trivial⟩
  | tlbRefill va asid =>
    refine ⟨.of_same hpost, ?_⟩
    by_cases hsrv : e = srv
    · subst hsrv
      exact keepsPage_of_refill h hg.sane hc hg.step
    · refine hplaces fun c n pp hc' _ hcon => hsrv ?_
      rw [← hcon.1]
      exact Option.some.inj (hc.symm.trans hc')
  | memAlloc envid va perm =>
    exact ⟨.of_same hpost, hplaces fun _ e pp he => hop e he⟩
  | memMap srcid srcva dstid dstva perm =>
    exact ⟨.of_same hpost, hplaces fun _ e pp he => hop e he⟩
  | memUnmap envid va => exact ⟨.of_same hpost, hplaces fun e he => hop e he⟩
  | setTlbModEntry envid func =>
    refine ⟨?_, hplaces trivial⟩
    rcases hpost with rfl | ⟨e, -, rfl⟩
    · exact .of_same (.refl _)
    · have henv : ∀ e', (k.setEnv e fun v => { v with envUserTlbModEntry := func }).envs e' =
          if e' = e then { k.envs e with envUserTlbModEntry := func } else k.envs e' := by
        intro e'
        rw [setEnv_envs, update_apply]
      refine ⟨fun e' => ?_, fun e' => ?_, fun e' => ?_, fun e' hw => ?_⟩
      · rw [henv]
        split <;> simp_all
      · unfold Kernel.Live
        rw [henv]
        split <;> simp_all
      · rw [henv]
        split
        · simp_all [Env.ipc]
        · rfl
      · refine hw.of_ipc ?_ ?_ hw.cur (List.Subset.refl _)
        · rw [henv]
          split
          · simp_all [Env.ipc]
          · rfl
        · rw [henv]
          split <;> simp_all
  | trap tf =>
    subst hpost
    exact ⟨⟨fun _ => rfl, fun _ => Iff.rfl, fun _ => rfl,
      fun _ hw => ⟨hw.recving, hw.status, hw.cur, hw.unlisted⟩⟩, hplaces trivial⟩
  | store va w => exact ⟨.of_same hpost, hplaces trivial⟩
  | _ => exact hop.elim

/-- The page of a request is at `REQVA` when the server gets it. -/
theorem page_of_send (h : k.Good M) (h' : ∃ M', k'.Good M') (hl : k'.Live srv) (hlc : k.Live c)
    (hc : k.curenv = some c) {envid val srcva perm : Word} {r : SysRet} {pp : Nat}
    (he : envid2env envid false k = .ret srv k) (hdst : (k.envs srv).envIpcDstva = reqva)
    (hperm : perm < 4096) (hret : sysIpcTrySend envid val srcva perm k = .ret r k')
    (hpage : k.Sends c srcva pp) (hroom : k.Room srv (k.envs srv).envIpcDstva) :
    k'.frameAt srv reqva = some pp := by
  obtain ⟨M', h'⟩ := h'
  have hspec := sysIpcTrySend_delivered envid val srcva perm k
  rw [hret] at hspec
  obtain ⟨e', -, hf, -⟩ := hspec
  obtain rfl : srv = e' := by
    have heq := hf.2.1
    rw [he] at heq
    injection heq
  have hlegal : srcva < utop :=
    legal_of_not_illegal fun hill => hf.1 ⟨hpage.1, hill⟩
  have hlt := hpage.lt h.inv.vm hlc hlegal
  have hcarry := sysIpcTrySend_carries h.inv h.base hc hf val perm
  rw [hret] at hcarry
  obtain ⟨pp', ⟨-, pt, i, hlook'⟩, hmaps⟩ := hcarry.2.mpr ⟨pp, hpage, hroom, harmless_of_flags hperm pp⟩
  obtain ⟨-, pt', i', hlook⟩ := hpage
  obtain rfl : pp = pp' := by
    rw [hlook] at hlook'
    injection hlook' with heq
    simp_all
  rw [hdst] at hmaps
  obtain ⟨w, hw, haddr⟩ := (maps_iff_leaf h'.inv.vm hl (by decide) hlt).mp hmaps
  rw [Kernel.frameAt, hw]
  exact congrArg some (ppn_of_pteAddr hlt haddr)

/-! ## The log -/

theorem phaseOf_snoc_ne {id : Word} {ev : RpcEvent} (h : ev.id ≠ id) (log : List RpcEvent) :
    phaseOf id (log ++ [ev]) = phaseOf id log := by
  unfold phaseOf
  rw [List.filter_append, List.filter_cons_of_neg (by simpa using h), List.filter_nil,
    List.append_nil]

theorem phaseOf_snoc {ev : RpcEvent} {log : List RpcEvent} {p : Phase}
    (h : phaseOf ev.id log = some p) : phaseOf ev.id (log ++ [ev]) = p.next ev := by
  unfold phaseOf at h ⊢
  rw [List.filter_append, List.filter_cons_of_pos (by simp), List.filter_nil, List.foldlM_append, h]
  exact bind_pure (p.next ev)

/-- The phases of all envs after one more event. -/
theorem phases_snoc {ph : Word → Phase} {log : List RpcEvent} (ev : RpcEvent) {p : Phase}
    (h : ∀ id, phaseOf id log = some (ph id)) (hnext : (ph ev.id).next ev = some p) (id : Word) :
    phaseOf id (log ++ [ev]) = some (update ph ev.id p id) := by
  by_cases hid : id = ev.id
  · subst hid
    rw [phaseOf_snoc (h _), update_self, hnext]
  · rw [phaseOf_snoc_ne (Ne.symm hid), update_of_ne hid, h]

/-! ## The invariant -/

/-- The requests that are sent have a code that the server knows. -/
def Phase.Valid : Phase → Prop
  | .pending req _ => IsFsreq req
  | .handling req _ => IsFsreq req
  | _ => True

/-- What is known about a client at a place in its program, and about its request. -/
def ClientOk (k : Kernel) (e : EnvPtr) (p : Phase) : ClientPc → Prop
  | .out => (k.envs e).envIpcRecving = 0 ∧ p = .idle
  | .send type _ _ => (k.envs e).envIpcRecving = 0 ∧ p = .idle ∧ IsFsreq type
  | .spin type _ _ => (k.envs e).envIpcRecving = 0 ∧ p = .idle ∧ IsFsreq type
  | .recv _ => (k.envs e).envIpcRecving = 0 ∧ p.Busy
  | .wait => k.Waiting e ∧ p.Busy ∨
      (k.envs e).envIpcRecving = 0 ∧ p = .answered (k.envs e).envIpcValue

/-- The request of `whom` is the only one on its way, and its page is at `REQVA`. -/
structure Serves (k : Kernel) (srv : EnvPtr) (ph : Word → Phase) (whom : Word) (p : Phase)
    (pp : Nat) : Prop where
  phase : ph whom = p
  only : ∀ id, (ph id).Busy → id = whom
  page : k.frameAt srv reqva = some pp

/-- What is known about the server at a place in its program. -/
def ServerOk (k : Kernel) (srv : EnvPtr) (ph : Word → Phase) : ServerPc → Prop
  | .recv => (k.envs srv).envIpcRecving = 0 ∧ ∀ id, ¬(ph id).Busy
  | .wait => (k.Waiting srv ∧ (k.envs srv).envIpcDstva = reqva ∧ ∀ id, ¬(ph id).Busy) ∨
      ((k.envs srv).envIpcRecving = 0 ∧ (k.envs srv).hasArgument = true ∧
        ∃ pp, Serves k srv ph (k.envs srv).envIpcFrom (.pending (k.envs srv).envIpcValue pp) pp)
  | .handle whom req => (k.envs srv).envIpcRecving = 0 ∧
      ∃ pp, Serves k srv ph whom (.handling req pp) pp
  | .send whom val _ _ => (k.envs srv).envIpcRecving = 0 ∧
      ∃ req pp, Serves k srv ph whom (.computed req pp val) pp
  | .spin whom val _ _ => (k.envs srv).envIpcRecving = 0 ∧
      ∃ req pp, Serves k srv ph whom (.computed req pp val) pp
  | .unmap => (k.envs srv).envIpcRecving = 0 ∧ ∀ id, ¬(ph id).Busy

/-- The invariant, for the phases `ph` of the envs. -/
structure Rpc.Inv (b : Boot) (srv : EnvPtr) (s : Rpc) (ph : Word → Phase) : Prop where
  reach : Reach (fun _ _ => True) b s.k
  live : s.k.Live srv
  ids : ∀ e, s.k.Live e → (s.k.envs e).envId ≠ 0 ∧ envx (s.k.envs e).envId = e
  phases : ∀ id, phaseOf id s.log = some (ph id)
  owner : ∀ id, ph id ≠ .idle → ∃ e, e ≠ srv ∧ s.k.Live e ∧ (s.k.envs e).envId = id
  valid : ∀ id, (ph id).Valid
  client : ∀ e, e ≠ srv → s.k.Live e → ClientOk s.k e (ph (s.k.envs e).envId) (s.client e)
  server : ServerOk s.k srv ph s.server

theorem value_of_ipc {v v' : Env} (h : v'.ipc = v.ipc) : v'.envIpcValue = v.envIpcValue :=
  congrArg (fun t => t.1) h

theorem from_of_ipc {v v' : Env} (h : v'.ipc = v.ipc) : v'.envIpcFrom = v.envIpcFrom :=
  congrArg (fun t => t.2.1) h

/-- A client at its place, when its own mailbox and its sleep stay as they are. -/
theorem ClientOk.of_ipc {p : Phase} {pc : ClientPc} (h : ClientOk k e p pc)
    (hipc : (k'.envs e).ipc = (k.envs e).ipc) (hw : k.Waiting e → k'.Waiting e) :
    ClientOk k' e p pc := by
  have hr := recving_of_ipc hipc
  cases pc with
  | wait =>
    rcases h with ⟨hwait, hbusy⟩ | ⟨h0, hp⟩
    · exact .inl ⟨hw hwait, hbusy⟩
    · exact .inr ⟨hr.trans h0, by rw [value_of_ipc hipc]; exact hp⟩
  | out => exact ⟨hr.trans h.1, h.2⟩
  | send type fsreq dstva => exact ⟨hr.trans h.1, h.2⟩
  | spin type fsreq dstva => exact ⟨hr.trans h.1, h.2⟩
  | recv dstva => exact ⟨hr.trans h.1, h.2⟩

theorem Serves.page_kept {ph : Word → Phase} {whom : Word} {p : Phase} {pp : Nat}
    (h : Serves k srv ph whom p pp) (hpage : Kernel.KeepsPage srv k k') :
    Serves k' srv ph whom p pp := ⟨h.phase, h.only, hpage pp h.page⟩

theorem ServerOk.of_ipc {ph : Word → Phase} {pc : ServerPc} (h : ServerOk k srv ph pc)
    (hipc : (k'.envs srv).ipc = (k.envs srv).ipc) (hw : k.Waiting srv → k'.Waiting srv)
    (hpage : Kernel.KeepsPage srv k k') : ServerOk k' srv ph pc := by
  have hr := recving_of_ipc hipc
  cases pc with
  | recv => exact ⟨hr.trans h.1, h.2⟩
  | wait =>
    rcases h with ⟨hwait, hdst, hnone⟩ | ⟨h0, harg, pp, hserves⟩
    · exact .inl ⟨hw hwait, (dstva_of_ipc hipc).trans hdst, hnone⟩
    · refine .inr ⟨hr.trans h0, (hasArgument_of_ipc hipc).trans harg, pp, ?_⟩
      rw [value_of_ipc hipc, from_of_ipc hipc]
      exact hserves.page_kept hpage
  | handle whom req =>
    obtain ⟨h0, pp, hserves⟩ := h
    exact ⟨hr.trans h0, pp, hserves.page_kept hpage⟩
  | send whom val srcva perm =>
    obtain ⟨h0, req, pp, hserves⟩ := h
    exact ⟨hr.trans h0, req, pp, hserves.page_kept hpage⟩
  | spin whom val srcva perm =>
    obtain ⟨h0, req, pp, hserves⟩ := h
    exact ⟨hr.trans h0, req, pp, hserves.page_kept hpage⟩
  | unmap => exact ⟨hr.trans h.1, h.2⟩

namespace Rpc.Inv

variable {ph : Word → Phase}

/-- Different envs have different ids. -/
theorem id_ne (h : s.Inv b srv ph) (hl : s.k.Live e) (hl' : s.k.Live c) (hne : e ≠ c) :
    (s.k.envs e).envId ≠ (s.k.envs c).envId := by
  intro heq
  have hx := (h.ids e hl).2
  rw [heq, (h.ids c hl').2] at hx
  exact hne hx.symm

/-- An env is found by its id. -/
theorem find (h : s.Inv b srv ph) (hl : s.k.Live e) :
    envid2env (s.k.envs e).envId false s.k = .ret e s.k := by
  obtain ⟨hne, hx⟩ := h.ids e hl
  rw [envid2env_slot hne, hx, if_pos ⟨hl, rfl⟩]

theorem good (h : s.Inv b srv ph) : ∃ M, s.k.Good M := h.reach.good

theorem live_cur (h : s.Inv b srv ph) (hc : s.k.curenv = some c) : s.k.Live c := by
  obtain ⟨M, hgood⟩ := h.good
  exact hgood.inv.live_cur hc

theorem freeInv (h : s.Inv b srv ph) : s.k.FreeInv := by
  obtain ⟨M, hgood⟩ := h.good
  refine ⟨fun e he => not_not.mp (hgood.inv.free_dead e he), hgood.inv.free_nodup, fun c hc hmem => ?_⟩
  exact hgood.inv.free_dead c hmem (hgood.inv.live_cur hc)

/-- The kernel goes on without touching a mailbox. -/
theorem calm (h : s.Inv b srv ph) (hreach : Reach (fun _ _ => True) b k') (hcalm : s.k.Calm k')
    (hpage : Kernel.KeepsPage srv s.k k') : Rpc.Inv b srv { s with k := k' } ph where
  reach := hreach
  live := (hcalm.live srv).mpr h.live
  ids e hl := by
    rw [hcalm.id]
    exact h.ids e ((hcalm.live e).mp hl)
  phases := h.phases
  owner id hid := by
    obtain ⟨e, hne, hl, heq⟩ := h.owner id hid
    exact ⟨e, hne, (hcalm.live e).mpr hl, (hcalm.id e).trans heq⟩
  valid := h.valid
  client e hne hl := by
    rw [hcalm.id]
    exact (h.client e hne ((hcalm.live e).mp hl)).of_ipc (hcalm.ipc e) (hcalm.waiting e)
  server := h.server.of_ipc (hcalm.ipc srv) (hcalm.waiting srv) hpage

/-- A client goes to another place. -/
theorem moveClient (h : s.Inv b srv ph) (hl : s.k.Live c) (pc : ClientPc)
    (hok : ClientOk s.k c (ph (s.k.envs c).envId) pc) :
    Rpc.Inv b srv { s with client := update s.client c pc } ph := by
  refine ⟨h.reach, h.live, h.ids, h.phases, h.owner, h.valid, fun e hne hle => ?_, h.server⟩
  by_cases hec : e = c
  · subst hec
    dsimp only
    rw [update_self]
    exact hok
  · dsimp only
    rw [update_of_ne hec]
    exact h.client e hne hle

/-- Whoever waits in `sys_ipc_recv` does not run. -/
theorem not_waiting (hc : s.k.curenv = some c) : ¬s.k.Waiting c := fun hw => hw.cur hc

end Rpc.Inv

/-- A client whose request goes on. -/
theorem ClientOk.go_on {p p' : Phase} {pc : ClientPc} (h : ClientOk k e p pc) (hp : p.Busy)
    (hp' : p'.Busy) : ClientOk k e p' pc := by
  cases pc with
  | out =>
    obtain ⟨-, rfl⟩ := h
    exact hp.elim
  | send type fsreq dstva =>
    obtain ⟨-, rfl, -⟩ := h
    exact hp.elim
  | spin type fsreq dstva =>
    obtain ⟨-, rfl, -⟩ := h
    exact hp.elim
  | recv dstva => exact ⟨h.1, hp'⟩
  | wait =>
    rcases h with ⟨hw, -⟩ | ⟨-, rfl⟩
    · exact .inl ⟨hw, hp'⟩
    · exact hp.elim

/-- The server does not mind what happens to requests that are not on their way. -/
theorem ServerOk.congr {ph ph' : Word → Phase} {pc : ServerPc} (h : ServerOk k srv ph pc)
    (hph : ∀ id, (ph id).Busy → ph' id = ph id) (hbusy : ∀ id, (ph' id).Busy → (ph id).Busy) :
    ServerOk k srv ph' pc := by
  have hserves : ∀ {whom p pp}, p.Busy → Serves k srv ph whom p pp → Serves k srv ph' whom p pp := by
    intro whom p pp hp hs
    refine ⟨?_, fun id hid => hs.only id (hbusy id hid), hs.page⟩
    rw [hph whom (hs.phase ▸ hp), hs.phase]
  have hnone : (∀ id, ¬(ph id).Busy) → ∀ id, ¬(ph' id).Busy := fun hn id hid => hn id (hbusy id hid)
  cases pc with
  | recv => exact ⟨h.1, hnone h.2⟩
  | wait =>
    rcases h with ⟨hwait, hdst, hn⟩ | ⟨h0, harg, pp, hs⟩
    · exact .inl ⟨hwait, hdst, hnone hn⟩
    · exact .inr ⟨h0, harg, pp, hserves trivial hs⟩
  | handle whom req =>
    obtain ⟨h0, pp, hs⟩ := h
    exact ⟨h0, pp, hserves trivial hs⟩
  | send whom val srcva perm =>
    obtain ⟨h0, req, pp, hs⟩ := h
    exact ⟨h0, req, pp, hserves trivial hs⟩
  | spin whom val srcva perm =>
    obtain ⟨h0, req, pp, hs⟩ := h
    exact ⟨h0, req, pp, hserves trivial hs⟩
  | unmap => exact ⟨h.1, hnone h.2⟩

/-- While the server waits for a request, none is on its way; otherwise it is not waiting. -/
theorem ServerOk.idle_of_recving {ph : Word → Phase} {pc : ServerPc} (h : ServerOk k srv ph pc)
    (hr : (k.envs srv).envIpcRecving ≠ 0) :
    pc = .wait ∧ (k.envs srv).envIpcDstva = reqva ∧ ∀ id, ¬(ph id).Busy := by
  cases pc with
  | wait =>
    rcases h with ⟨-, hdst, hnone⟩ | ⟨h0, -⟩
    · exact ⟨rfl, hdst, hnone⟩
    · exact absurd h0 hr
  | recv => exact absurd h.1 hr
  | handle whom req => exact absurd h.1 hr
  | send whom val srcva perm => exact absurd h.1 hr
  | spin whom val srcva perm => exact absurd h.1 hr
  | unmap => exact absurd h.1 hr

namespace Rpc.Inv

variable {ph : Word → Phase}

/-- A request is accepted: the server was waiting, and no other request was on its way. -/
theorem request (h : s.Inv b srv ph) (hc : s.k.curenv = some c) (hne : c ≠ srv)
    {type fsreq dstva : Word} (hpc : s.client c = .send type fsreq dstva) {r : SysRet} {pp : Nat}
    (hret : sysIpcTrySend (s.k.envs srv).envId type fsreq pteD s.k = .ret r k')
    (hpage : s.k.Sends c fsreq pp) (hroom : s.k.Room srv (s.k.envs srv).envIpcDstva)
    (hbound : k'.vm.Bounded) :
    Rpc.Inv b srv { s with
      k := k'
      client := update s.client c (.recv dstva)
      log := s.log ++ [.sent (s.k.envs c).envId type pp] }
      (update ph (s.k.envs c).envId (.pending type pp)) := by
  have hlc := h.live_cur hc
  have htold := told_of_send h.live (h.find h.live) hc hret
  have hreach : Reach (fun _ _ => True) b k' :=
    h.reach.step (.ipcTrySend _ _ _ _) (show pteD < 4096 by decide) trivial (step_of_ret hret) hbound
  obtain ⟨hserver, hdst, hnone⟩ := h.server.idle_of_recving htold.found
  have hclient := h.client c hne hlc
  rw [hpc] at hclient
  obtain ⟨h0, hidle, htype⟩ := hclient
  obtain ⟨M, hgood⟩ := h.good
  have hframe := page_of_send hgood hreach.good ((htold.live srv).mpr h.live) hlc hc (h.find h.live)
    hdst (by decide) hret hpage hroom
  refine ⟨hreach, (htold.live srv).mpr h.live, fun e hl => ?_, ?_, fun id hid => ?_, fun id => ?_,
    fun e hes hl => ?_, ?_⟩
  · rw [htold.id]
    exact h.ids e ((htold.live e).mp hl)
  · exact phases_snoc (.sent (s.k.envs c).envId type pp) h.phases (congrArg (Phase.next · _) hidle)
  · by_cases heq : id = (s.k.envs c).envId
    · exact ⟨c, hne, (htold.live c).mpr hlc, (htold.id c).trans heq.symm⟩
    · rw [update_of_ne heq] at hid
      obtain ⟨e, hes, hl, hide⟩ := h.owner id hid
      exact ⟨e, hes, (htold.live e).mpr hl, (htold.id e).trans hide⟩
  · by_cases heq : id = (s.k.envs c).envId
    · rw [heq, update_self]
      exact htype
    · rw [update_of_ne heq]
      exact h.valid id
  · have hl := (htold.live e).mp hl
    dsimp only
    rw [htold.id]
    by_cases hec : e = c
    · subst hec
      rw [update_self, update_self]
      exact ⟨(recving_of_ipc (htold.ipc e hes)).trans h0, trivial⟩
    · rw [update_of_ne hec, update_of_ne (h.id_ne hl hlc hec)]
      exact (h.client e hes hl).of_ipc (htold.ipc e hes) (htold.waiting e hes)
  · dsimp only
    rw [hserver]
    refine .inr ⟨htold.recving, htold.argument, pp, ?_⟩
    rw [htold.value, htold.sender]
    refine ⟨update_self _ _ _, fun id hid => ?_, hframe⟩
    by_contra heq
    rw [update_of_ne heq] at hid
    exact hnone id hid

/-- A phase changes and the kernel stays: what is to be shown for the places in the programs. -/
theorem record (h : s.Inv b srv ph) (ev : RpcEvent) (p : Phase) (hnext : (ph ev.id).next ev = some p)
    (howner : ph ev.id ≠ .idle) (hvalid : p.Valid) {client : EnvPtr → ClientPc} {server : ServerPc}
    (hclient : ∀ e, e ≠ srv → s.k.Live e → ClientOk s.k e (update ph ev.id p (s.k.envs e).envId)
      (client e)) (hserver : ServerOk s.k srv (update ph ev.id p) server) :
    Rpc.Inv b srv { s with client := client, server := server, log := s.log ++ [ev] }
      (update ph ev.id p) := by
  refine ⟨h.reach, h.live, h.ids, phases_snoc ev h.phases hnext, fun id hid => ?_, fun id => ?_,
    hclient, hserver⟩
  · by_cases heq : id = ev.id
    · rw [heq]
      exact h.owner _ howner
    · rw [update_of_ne heq] at hid
      exact h.owner id hid
  · by_cases heq : id = ev.id
    · rw [heq, update_self]
      exact hvalid
    · rw [update_of_ne heq]
      exact h.valid id

/-- `fsipc` returns what was replied. -/
theorem finish (h : s.Inv b srv ph) (hc : s.k.curenv = some c) (hne : c ≠ srv)
    (hpc : s.client c = .wait) :
    Rpc.Inv b srv { s with
      client := update s.client c .out
      log := s.log ++ [.returned (s.k.envs c).envId (s.k.envs c).envIpcValue] }
      (update ph (s.k.envs c).envId .idle) := by
  have hlc := h.live_cur hc
  have hclient := h.client c hne hlc
  rw [hpc] at hclient
  obtain ⟨hw, -⟩ | ⟨h0, hans⟩ := hclient
  · exact absurd hc hw.cur
  refine h.record (.returned (s.k.envs c).envId (s.k.envs c).envIpcValue) .idle ?_ ?_ trivial ?_ ?_
  · show (ph (s.k.envs c).envId).next _ = _
    rw [hans]
    exact if_pos rfl
  · show ph (s.k.envs c).envId ≠ _
    rw [hans]
    exact nofun
  · intro e hes hl
    show ClientOk s.k e (update ph (s.k.envs c).envId .idle _) _
    by_cases hec : e = c
    · subst hec
      rw [update_self, update_self]
      exact ⟨h0, rfl⟩
    · rw [update_of_ne hec, update_of_ne (h.id_ne hl hlc hec)]
      exact h.client e hes hl
  · refine h.server.congr (fun id hid => update_of_ne ?_ _ _) fun id hid => ?_
    · rintro rfl
      have hid' : (ph (s.k.envs c).envId).Busy := hid
      rw [hans] at hid'
      exact hid'
    · by_cases heq : id = (s.k.envs c).envId
      · subst heq
        have hid' : (update ph (s.k.envs c).envId Phase.idle (s.k.envs c).envId).Busy := hid
        rw [update_self] at hid'
        exact hid'.elim
      · have hid' : (update ph (s.k.envs c).envId Phase.idle id).Busy := hid
        rwa [update_of_ne heq] at hid'

/-- The server goes on with the request of `ev.id`, which is on its way before and after. -/
theorem advance (h : s.Inv b srv ph) (ev : RpcEvent) {p : Phase} (p' : Phase) {pp : Nat}
    (hs : Serves s.k srv ph ev.id p pp) (hp : p.Busy) (hp' : p'.Busy) (hnext : p.next ev = some p')
    (hvalid : p'.Valid) {server : ServerPc}
    (hserver : Serves s.k srv (update ph ev.id p') ev.id p' pp →
      ServerOk s.k srv (update ph ev.id p') server) :
    Rpc.Inv b srv { s with server := server, log := s.log ++ [ev] } (update ph ev.id p') := by
  have hphase : ph ev.id = p := hs.phase
  refine h.record ev p' (by rw [hphase, hnext]) ?_ hvalid ?_ (hserver ⟨update_self _ _ _, ?_, hs.page⟩)
  · rw [hphase]
    rintro rfl
    exact hp
  · intro e hes hl
    have hok := h.client e hes hl
    by_cases heq : (s.k.envs e).envId = ev.id
    · rw [heq] at hok ⊢
      rw [update_self]
      exact hok.go_on (hphase ▸ hp) hp'
    · rw [update_of_ne heq]
      exact hok
  · intro id hid
    by_contra heq
    rw [update_of_ne heq] at hid
    exact heq (hs.only id hid)

/-- A reply is accepted: the client that it is for was waiting for it. -/
theorem reply (h : s.Inv b srv ph) (hc : s.k.curenv = some srv) {whom val srcva perm : Word}
    (hpc : s.server = .send whom val srcva perm) {r : SysRet} (hperm : perm < 4096)
    (hret : sysIpcTrySend whom val srcva perm s.k = .ret r k') (hbound : k'.vm.Bounded) :
    Rpc.Inv b srv { s with k := k', server := .unmap, log := s.log ++ [.replied whom val] }
      (update ph whom (.answered val)) := by
  have hserver := h.server
  rw [hpc] at hserver
  obtain ⟨h0, req, pp, hs⟩ := hserver
  have hphase : ph whom = .computed req pp val := hs.phase
  obtain ⟨c, hne, hlc, rfl⟩ := h.owner whom (by rw [hphase]; exact nofun)
  have htold := told_of_send hlc (h.find hlc) hc hret
  have hreach : Reach (fun _ _ => True) b k' :=
    h.reach.step (.ipcTrySend _ _ _ _) hperm trivial (step_of_ret hret) hbound
  refine ⟨hreach, (htold.live srv).mpr h.live, fun e hl => ?_, ?_, fun id hid => ?_, fun id => ?_,
    fun e hes hl => ?_, ?_⟩
  · rw [htold.id]
    exact h.ids e ((htold.live e).mp hl)
  · refine phases_snoc (.replied (s.k.envs c).envId val) h.phases ?_
    show (ph (s.k.envs c).envId).next _ = _
    rw [hphase]
    exact if_pos rfl
  · have hid' : ph id ≠ .idle := by
      by_cases heq : id = (s.k.envs c).envId
      · rw [heq, hphase]
        exact nofun
      · rwa [update_of_ne heq] at hid
    obtain ⟨e, hes, hl, hide⟩ := h.owner id hid'
    exact ⟨e, hes, (htold.live e).mpr hl, (htold.id e).trans hide⟩
  · by_cases heq : id = (s.k.envs c).envId
    · rw [heq, update_self]
      trivial
    · rw [update_of_ne heq]
      exact h.valid id
  · have hl := (htold.live e).mp hl
    rw [htold.id]
    by_cases hec : e = c
    · subst hec
      rw [update_self]
      -- only a client that waits accepts a message
      have hok := h.client e hes hlc
      cases hpce : s.client e with
      | wait => exact .inr ⟨htold.recving, by rw [htold.value]⟩
      | out => rw [hpce] at hok; exact absurd hok.1 htold.found
      | send type fsreq dstva => rw [hpce] at hok; exact absurd hok.1 htold.found
      | spin type fsreq dstva => rw [hpce] at hok; exact absurd hok.1 htold.found
      | recv dstva => rw [hpce] at hok; exact absurd hok.1 htold.found
    · rw [update_of_ne (h.id_ne hl hlc hec)]
      exact (h.client e hes hl).of_ipc (htold.ipc e hec) (htold.waiting e hec)
  · refine ⟨(recving_of_ipc (htold.ipc srv hne.symm)).trans h0, fun id hid => ?_⟩
    by_cases heq : id = (s.k.envs c).envId
    · rw [heq, update_self] at hid
      exact hid
    · rw [update_of_ne heq] at hid
      exact heq (hs.only id hid)

/-- A client waits for its reply. -/
theorem await (h : s.Inv b srv ph) (hc : s.k.curenv = some c) (hne : c ≠ srv) {dstva : Word}
    (hpc : s.client c = .recv dstva) (hret : sysIpcRecv dstva s.k = .ret .switched k')
    (hbound : k'.vm.Bounded) :
    Rpc.Inv b srv { s with k := k', client := update s.client c .wait } ph := by
  have hlc := h.live_cur hc
  have hlis := listens_of_recv h.freeInv hlc hc hret
  have hstep : Step (.ipcRecv dstva) s.k k' := step_of_ret hret
  have hreach : Reach (fun _ _ => True) b k' := h.reach.step (.ipcRecv dstva) trivial trivial hstep hbound
  obtain ⟨M, hgood⟩ := h.good
  have hpage : Kernel.KeepsPage srv s.k k' := keepsPage_of_places hgood hstep trivial trivial
  refine ⟨hreach, (hlis.live srv).mpr h.live, fun e hl => ?_, h.phases, fun id hid => ?_, h.valid,
    fun e hes hl => ?_, ?_⟩
  · rw [hlis.id]
    exact h.ids e ((hlis.live e).mp hl)
  · obtain ⟨e, hes, hl, hide⟩ := h.owner id hid
    exact ⟨e, hes, (hlis.live e).mpr hl, (hlis.id e).trans hide⟩
  · have hok := h.client e hes ((hlis.live e).mp hl)
    dsimp only
    rw [hlis.id]
    by_cases hec : e = c
    · subst hec
      rw [hpc] at hok
      rw [update_self]
      exact .inl ⟨hlis.self, hok.2⟩
    · rw [update_of_ne hec]
      exact hok.of_ipc (hlis.ipc e hec) (hlis.waiting e hec)
  · exact h.server.of_ipc (hlis.ipc srv hne.symm) (hlis.waiting srv hne.symm) hpage

/-- The server waits for the next request. -/
theorem listen (h : s.Inv b srv ph) (hc : s.k.curenv = some srv) (hpc : s.server = .recv)
    (hret : sysIpcRecv reqva s.k = .ret .switched k') (hbound : k'.vm.Bounded) :
    Rpc.Inv b srv { s with k := k', server := .wait } ph := by
  have hlis := listens_of_recv h.freeInv h.live hc hret
  have hserver := h.server
  rw [hpc] at hserver
  refine ⟨h.reach.step (.ipcRecv reqva) trivial trivial (step_of_ret hret) hbound,
    (hlis.live srv).mpr h.live, fun e hl => ?_, h.phases, fun id hid => ?_, h.valid,
    fun e hes hl => ?_, .inl ⟨hlis.self, hlis.dstva, hserver.2⟩⟩
  · rw [hlis.id]
    exact h.ids e ((hlis.live e).mp hl)
  · obtain ⟨e, hes, hl, hide⟩ := h.owner id hid
    exact ⟨e, hes, (hlis.live e).mpr hl, (hlis.id e).trans hide⟩
  · rw [hlis.id]
    exact (h.client e hes ((hlis.live e).mp hl)).of_ipc (hlis.ipc e hes) (hlis.waiting e hes)

/-- The server goes to another place. -/
theorem moveServer (h : s.Inv b srv ph) (pc : ServerPc) (hok : ServerOk s.k srv ph pc) :
    Rpc.Inv b srv { s with server := pc } ph :=
  ⟨h.reach, h.live, h.ids, h.phases, h.owner, h.valid, h.client, hok⟩

/-- The server unmaps the page of the request, which it has answered. -/
theorem unmap (h : s.Inv b srv ph) (hpc : s.server = .unmap)
    (hg : Goes (.memUnmap 0 reqva) s.k k') :
    Rpc.Inv b srv { s with k := k', server := .recv } ph := by
  have hcalm : s.k.Calm k' := .of_same (exec_post hg.step)
  have hserver := h.server
  rw [hpc] at hserver
  refine ⟨h.reach.step _ hg.sane trivial hg.step hg.bounded, (hcalm.live srv).mpr h.live,
    fun e hl => ?_, h.phases, fun id hid => ?_, h.valid, fun e hes hl => ?_,
    (recving_of_ipc (hcalm.ipc srv)).trans hserver.1, hserver.2⟩
  · rw [hcalm.id]
    exact h.ids e ((hcalm.live e).mp hl)
  · obtain ⟨e, hes, hl, hide⟩ := h.owner id hid
    exact ⟨e, hes, (hcalm.live e).mpr hl, (hcalm.id e).trans hide⟩
  · rw [hcalm.id]
    exact (h.client e hes ((hcalm.live e).mp hl)).of_ipc (hcalm.ipc e) (hcalm.waiting e)

/-- The kernel switches to another env. -/
theorem switch (h : s.Inv b srv ph) (hpost : s.k.Switched k') (hg : Goes op s.k k')
    (hP : op.Places (fun e n _ => ¬(e = srv ∧ n = ppn reqva)) s.k) :
    Rpc.Inv b srv { s with k := k' } ph := by
  obtain ⟨M, hgood⟩ := h.good
  exact h.calm (h.reach.step op hg.sane trivial hg.step hg.bounded) (.of_switched hpost)
    (keepsPage_of_places hgood hg.step hg.sane hP)

/-- **Every step keeps the invariant.** -/
theorem step (h : s.Inv b srv ph) (hstep : RpcStep srv s t) : ∃ ph', t.Inv b srv ph' := by
  have hrefused : ∀ {envid val srcva perm : Word} {k' : Kernel},
      sysIpcTrySend envid val srcva perm s.k = .err .ipcNotRecv k' → k' = s.k := by
    intro envid val srcva perm k' herr
    have hspec := sysIpcTrySend_notRecv envid val srcva perm s.k
    rw [herr] at hspec
    exact hspec rfl
  cases hstep with
  | timer hg => exact ⟨ph, h.switch (exec_post hg.step) hg trivial⟩
  | evict tlb hsub =>
    exact ⟨ph, h.calm (h.reach.evict tlb hsub) ⟨fun _ => rfl, fun _ => Iff.rfl, fun _ => rfl,
      fun _ hw => ⟨hw.recving, hw.status, hw.cur, hw.unlisted⟩⟩ fun _ hpp => hpp⟩
  | work hc hop hg =>
    obtain ⟨M, hgood⟩ := h.good
    obtain ⟨hcalm, hpage⟩ := calm_of_local hgood hc hop hg
    exact ⟨ph, h.calm (h.reach.step _ hg.sane trivial hg.step hg.bounded) hcalm hpage⟩
  | call hc hne hpc type fsreq dstva htype =>
    have hlc := h.live_cur hc
    have hok := h.client _ hne hlc
    rw [hpc] at hok
    exact ⟨ph, h.moveClient hlc _ ⟨hok.1, hok.2, htype⟩⟩
  | request hc hne hpc hret hpage hroom hbound =>
    exact ⟨_, h.request hc hne hpc hret hpage hroom hbound⟩
  | refused hc hne hpc herr =>
    have hlc := h.live_cur hc
    have hok := h.client _ hne hlc
    rw [hpc] at hok
    rw [hrefused herr]
    exact ⟨ph, h.moveClient hlc _ hok⟩
  | retry hc hne hpc hg =>
    have hlc := h.live_cur hc
    have hok := h.client _ hne hlc
    rw [hpc] at hok
    exact ⟨ph, (h.moveClient hlc (.send _ _ _) hok).switch (exec_post hg.step) hg trivial⟩
  | await hc hne hpc hret hbound => exact ⟨ph, h.await hc hne hpc hret hbound⟩
  | finish hc hne hpc => exact ⟨_, h.finish hc hne hpc⟩
  | listen hc hpc hret hbound => exact ⟨ph, h.listen hc hpc hret hbound⟩
  | take hc hpc harg =>
    have hserver := h.server
    rw [hpc] at hserver
    obtain ⟨hw, -⟩ | ⟨h0, -, pp, hs⟩ := hserver
    · exact absurd hc hw.cur
    have hvalid : IsFsreq (s.k.envs srv).envIpcValue := by
      have hv := h.valid (s.k.envs srv).envIpcFrom
      rwa [hs.phase] at hv
    exact ⟨_, h.advance (.taken (s.k.envs srv).envIpcFrom (s.k.envs srv).envIpcValue)
      (.handling (s.k.envs srv).envIpcValue pp) hs trivial trivial (if_pos rfl) hvalid
      fun hs' => ⟨h0, pp, hs'⟩⟩
  | skip hc hpc harg =>
    have hserver := h.server
    rw [hpc] at hserver
    obtain ⟨hw, -⟩ | ⟨-, harg', -⟩ := hserver
    · exact absurd hc hw.cur
    · rw [harg] at harg'
      cases harg'
  | @compute whom req hc hpc hreq val srcva perm =>
    have hserver := h.server
    rw [hpc] at hserver
    obtain ⟨h0, pp, hs⟩ := hserver
    exact ⟨_, h.advance (.computed whom val) (.computed req pp val) hs trivial trivial rfl
      trivial fun hs' => ⟨h0, req, pp, hs'⟩⟩
  | @invalid whom req hc hpc hreq =>
    have hserver := h.server
    rw [hpc] at hserver
    obtain ⟨-, pp, hs⟩ := hserver
    have hv := h.valid whom
    rw [hs.phase] at hv
    exact absurd hv hreq
  | reply hc hpc hret hperm hbound => exact ⟨_, h.reply hc hpc hperm hret hbound⟩
  | hold hc hpc herr =>
    have hserver := h.server
    rw [hpc] at hserver
    rw [hrefused herr]
    exact ⟨ph, h.moveServer _ hserver⟩
  | again hc hpc hg =>
    have hserver := h.server
    rw [hpc] at hserver
    exact ⟨ph, (h.moveServer (.send _ _ _ _) hserver).switch (exec_post hg.step) hg trivial⟩
  | unmap hc hpc hg => exact ⟨ph, h.unmap hpc hg⟩

end Rpc.Inv

theorem Rpc.Start.inv (h : s.Start b srv) : s.Inv b srv fun _ => .idle := by
  refine ⟨h.reach, h.live, h.ids, fun id => ?_, fun _ hne => absurd rfl hne, fun _ => trivial,
    fun e _ _ => ?_, ?_⟩
  · rw [h.log]
    rfl
  · rw [h.client]
    exact ⟨h.silent e, rfl⟩
  · rw [h.server]
    exact ⟨h.silent srv, fun _ hbusy => hbusy⟩

theorem Rpc.Reachable.inv (h : s.Reachable b srv) : ∃ ph, s.Inv b srv ph := by
  induction h with
  | start h => exact ⟨_, h.inv⟩
  | step _ hstep ih =>
    obtain ⟨ph, hinv⟩ := ih
    exact hinv.step hstep

/-- **Requests are not mixed up.** In every state that is reached, the events of every env are in order:
each of its requests is taken once, as it was sent, its value is computed once, and `fsipc` returns this
value. At most one request is being handled; while the server handles it, the page at `REQVA` is the one
that came with it. -/
theorem rpc_paired (h : s.Reachable b srv) :
    (∀ id, ∃ p, phaseOf id s.log = some p) ∧
    (∀ id id' p p', phaseOf id s.log = some p → phaseOf id' s.log = some p' → p.Busy → p'.Busy →
      id = id') ∧
    ∀ whom req, s.server = .handle whom req →
      ∃ pp, phaseOf whom s.log = some (.handling req pp) ∧ s.k.frameAt srv reqva = some pp := by
  obtain ⟨ph, hinv⟩ := h.inv
  have hphase : ∀ {id p}, phaseOf id s.log = some p → p = ph id := fun hp =>
    Option.some.inj (hp.symm.trans (hinv.phases _))
  have honly : ∀ id id', (ph id).Busy → (ph id').Busy → id = id' := by
    intro id id' hid hid'
    have hserver := hinv.server
    cases hpc : s.server with
    | recv => rw [hpc] at hserver; exact absurd hid (hserver.2 id)
    | wait =>
      rw [hpc] at hserver
      obtain ⟨-, -, hnone⟩ | ⟨-, -, pp, hs⟩ := hserver
      · exact absurd hid (hnone id)
      · exact (hs.only id hid).trans (hs.only id' hid').symm
    | handle whom req =>
      rw [hpc] at hserver
      obtain ⟨-, pp, hs⟩ := hserver
      exact (hs.only id hid).trans (hs.only id' hid').symm
    | send whom val srcva perm =>
      rw [hpc] at hserver
      obtain ⟨-, req, pp, hs⟩ := hserver
      exact (hs.only id hid).trans (hs.only id' hid').symm
    | spin whom val srcva perm =>
      rw [hpc] at hserver
      obtain ⟨-, req, pp, hs⟩ := hserver
      exact (hs.only id hid).trans (hs.only id' hid').symm
    | unmap => rw [hpc] at hserver; exact absurd hid (hserver.2 id)
  refine ⟨fun id => ⟨_, hinv.phases id⟩, fun id id' p p' hp hp' hb hb' => ?_, fun whom req hpc => ?_⟩
  · exact honly id id' (hphase hp ▸ hb) (hphase hp' ▸ hb')
  · have hserver := hinv.server
    rw [hpc] at hserver
    obtain ⟨-, pp, hs⟩ := hserver
    exact ⟨pp, by rw [hinv.phases, hs.phase], hs.page⟩

/-! ## A request on its way -/

theorem boot_silent (h : boot b = .ret () k) (e : EnvPtr) : (k.envs e).envIpcRecving = 0 := by
  have hkeep : Keeps (fun k k' : Kernel => ∀ e, (k'.envs e).envIpcRecving = (k.envs e).envIpcRecving)
      (envInit b) := by
    have htrans : ∀ k₁ k₂ k₃ : Kernel,
        (∀ e, (k₂.envs e).envIpcRecving = (k₁.envs e).envIpcRecving) →
        (∀ e, (k₃.envs e).envIpcRecving = (k₂.envs e).envIpcRecving) →
        ∀ e, (k₃.envs e).envIpcRecving = (k₁.envs e).envIpcRecving :=
      fun _ _ _ h h' e => (h' e).trans (h e)
    have hframed : ∀ {α : Type} {m : KernM α}, Framed m → Keeps (fun k k' : Kernel =>
        ∀ e, (k'.envs e).envIpcRecving = (k.envs e).envIpcRecving) m := fun hm k =>
      (hm k).mono (fun _ _ hf e => by rw [hf.envs]) (fun _ _ hf e => by rw [hf.envs]) (fun _ h => h)
    refine keeps_bind htrans (keeps_modify fun _ _ => rfl) fun _ => ?_
    refine keeps_bind htrans (hframed (framed_panicOn framed_pageAlloc)) fun p => ?_
    refine keeps_bind htrans (hframed (framed_incref p)) fun _ => ?_
    refine keeps_bind htrans (keeps_modify fun _ _ => rfl) fun _ => ?_
    exact keeps_bind htrans (hframed (framed_mapSegment _ _ _ _ _ _)) fun _ =>
      hframed (framed_mapSegment _ _ _ _ _ _)
  have hspec := hkeep (pageInit b)
  rw [show envInit b (pageInit b) = .ret () k from h] at hspec
  exact hspec e

/-- Before anyone waits for a message, nobody does. -/
theorem silent_of_reach (h : Reach (fun k op => ∀ e, op.Unasked e k) b k) (e : EnvPtr) :
    (k.envs e).envIpcRecving = 0 := by
  induction h with
  | boot hboot => exact boot_silent hboot e
  | step _ op _ hok hstep _ ih => exact closed_step ih (hok e) hstep
  | evict _ tlb hsub ih => exact ih

/-- Env 1 waits for a request, and env 0 gets a page, sends it in a request and waits. -/
def rpcTest (test : Kernel → Kernel → Kernel → Kernel → Bool) (k : Kernel) : Bool :=
  k.curenv == some 1 && k.roomy && (k.envs 1).envStatus != .free &&
  ((List.finRange nenv).all fun e => (k.envs e).envStatus == .free ||
    ((k.envs e).envId != 0 && envx (k.envs e).envId == e)) &&
  match sysIpcRecv reqva k with
  | .ret .switched k₁ => k₁.curenv == some 0 && k₁.roomy &&
    match sysMemAlloc 0 utext pteD k₁ with
    | .ret _ k₂ => k₂.curenv == some 0 && k₂.roomy &&
      match sysIpcTrySend (k₂.envs 1).envId 1 utext pteD k₂ with
      | .ret _ k₃ => k₃.curenv == some 0 && k₃.roomy &&
        match sysIpcRecv 0 k₃ with
        | .ret .switched k₄ => k₄.curenv == some 1 && test k₁ k₂ k₃ k₄
        | _ => false
      | _ => false
    | _ => false
  | _ => false

/-- The operations before the first request: envs are created and scheduled. -/
def Op.early : Op → Bool
  | .envCreate _ _ => true
  | .timer => true
  | _ => false

theorem Op.unasked_of_early (h : op.early = true) (e : EnvPtr) : op.Unasked e k := by
  refine ⟨?_, ?_⟩
  · rintro ⟨dstva, rfl, -⟩
    cases h
  · rintro envid rfl
    cases h

theorem Reach.any {ok : Kernel → Op → Prop} (h : Reach ok b k) : Reach (fun _ _ => True) b k := by
  induction h with
  | boot hboot => exact .boot hboot
  | step _ op hsane _ hstep hcount ih => exact ih.step op hsane trivial hstep hcount
  | evict _ tlb hsub ih => exact ih.evict tlb hsub

theorem Goes.of_roomy (h : k.Good M) (hroom : k.roomy = true) (hsane : op.Sane k)
    (hstep : Step op k k') : Goes op k k' := by
  obtain ⟨M', hgood⟩ := h.step hsane hstep (.inr (h.inv.room hroom))
  exact ⟨hstep, hsane, hgood.inv.vm.bounded⟩

/-- The request has its page and there is room for it; the server gets it from env 0. -/
def carryTest (k₂ k₄ : Kernel) : Bool :=
  (match pageLookup (k₂.envs 0).envPgdir utext k₂ with
  | .ret (some _) _ => true
  | _ => false) && !k₂.pageFreeList.isEmpty &&
    (k₄.envs 1).envIpcFrom == 2048 && (k₄.envs 1).envIpcValue == 1 && (k₄.envs 1).hasArgument

/-- The server handles the request of env 0, whose id is 2048. -/
theorem rpc_paired_first : ∃ s : Rpc, s.Reachable smallBoot 1 ∧ s.server = .handle 2048 1 ∧
    ∃ pp, phaseOf 2048 s.log = some (.handling 1 pp) ∧ s.k.frameAt 1 reqva = some pp := by
  have hok : ∀ k op, Op.early op = true → ∀ e, op.Unasked e k :=
    fun k op hop e => Op.unasked_of_early hop e
  obtain ⟨k, hr, htest⟩ := exists_reach hok smallBoot recvBefore
    (rpcTest fun _ k₂ _ k₄ => carryTest k₂ k₄) (by decide +kernel)
  unfold rpcTest at htest
  simp only [Bool.and_eq_true, beq_iff_eq, bne_iff_ne] at htest
  obtain ⟨⟨⟨⟨hc, hroom⟩, hlive⟩, hids⟩, htest⟩ := htest
  have hstart : Rpc.Start smallBoot 1 ⟨k, fun _ => .out, .recv, []⟩ := by
    refine ⟨hr.any, hlive, silent_of_reach hr, fun e hl => ?_, fun _ => rfl, rfl, rfl⟩
    have he := List.all_eq_true.mp hids e (List.mem_finRange e)
    simp only [Bool.or_eq_true, beq_iff_eq, Bool.and_eq_true, bne_iff_ne] at he
    exact he.resolve_left hl
  split at htest
  next k₁ h₁ =>
    simp only [Bool.and_eq_true, beq_iff_eq] at htest
    obtain ⟨⟨hc₁, hroom₁⟩, htest⟩ := htest
    split at htest
    next r₂ k₂ h₂ =>
      simp only [Bool.and_eq_true, beq_iff_eq] at htest
      obtain ⟨⟨hc₂, hroom₂⟩, htest⟩ := htest
      split at htest
      next r₃ k₃ h₃ =>
        simp only [Bool.and_eq_true, beq_iff_eq] at htest
        obtain ⟨⟨hc₃, hroom₃⟩, htest⟩ := htest
        split at htest
        next k₄ h₄ =>
          simp only [carryTest, Bool.and_eq_true, beq_iff_eq] at htest
          obtain ⟨hc₄, ⟨⟨⟨hlook, hfree⟩, hfrom⟩, hval⟩, harg⟩ := htest
          split at hlook
          next r k₅ hfound =>
            obtain ⟨pp, pt, i⟩ := r
            have hsends : k₂.Sends 0 utext pp := by
              have hspec := pageLookup_found (k₂.envs 0).envPgdir utext k₂
              rw [hfound] at hspec
              obtain ⟨rfl, -⟩ := hspec
              exact ⟨by decide, pt, i, hfound⟩
            have hroom' : k₂.Room 1 (k₂.envs 1).envIpcDstva := by
              refine .inr fun hnil => ?_
              rw [hnil] at hfree
              cases hfree
            have hgoes : ∀ (op : Op) {s : Rpc} {k' : Kernel}, s.Reachable smallBoot 1 →
                s.k.roomy = true → op.Sane s.k → Step op s.k k' → Goes op s.k k' := by
              intro op s k' hs hroom hsane hstep
              obtain ⟨ph, hinv⟩ := hs.inv
              obtain ⟨M, hgood⟩ := hinv.good
              exact Goes.of_roomy hgood hroom hsane hstep
            have s₀ : Rpc.Reachable smallBoot 1 ⟨k, fun _ => .out, .recv, []⟩ := .start hstart
            have g₁ := hgoes (.ipcRecv reqva) s₀ hroom trivial (step_of_ret h₁)
            have s₁ := s₀.step (.listen hc rfl h₁ g₁.bounded)
            have hlocal : Op.Local 1 k₁ (.memAlloc 0 utext pteD) := by
              rintro e - ⟨-, hpage⟩
              exact absurd hpage (by decide)
            have g₂ := hgoes (.memAlloc 0 utext pteD) s₁ hroom₁ (show pteD < 4096 by decide)
              (step_of_ret h₂)
            have s₂ := s₁.step (.work hc₁ hlocal g₂)
            have hreq : IsFsreq 1 := ⟨by decide, by decide⟩
            have hat : ∀ pc : ClientPc, update (fun _ => ClientPc.out) (0 : EnvPtr) pc 0 = pc :=
              fun pc => update_self _ _ _
            have s₃ := s₂.step (.call hc₂ (by decide) rfl 1 utext 0 hreq)
            have g₃ := hgoes (.ipcTrySend _ 1 utext pteD) s₃ hroom₂
              (show pteD < 4096 by decide) (step_of_ret h₃)
            have hback : ∀ pc pc' : ClientPc,
                update (update (fun _ => ClientPc.out) (0 : EnvPtr) pc) 0 pc' 0 = pc' :=
              fun pc pc' => update_self _ _ _
            have s₄ := s₃.step (.request hc₂ (by decide) (hat (.send 1 utext 0)) h₃ hsends hroom'
              g₃.bounded)
            have g₄ := hgoes (.ipcRecv 0) s₄ hroom₃ trivial (step_of_ret h₄)
            have s₅ := s₄.step (.await hc₃ (by decide) (hback (.send 1 utext 0) (.recv 0)) h₄ g₄.bounded)
            have s₆ := s₅.step (.take hc₄ rfl harg)
            have hserver : ServerPc.handle (k₄.envs 1).envIpcFrom (k₄.envs 1).envIpcValue =
                .handle 2048 1 := by rw [hfrom, hval]
            exact ⟨_, s₆, hserver, (rpc_paired s₆).2.2 2048 1 hserver⟩
          next => cases hlook
        next => cases htest
      next => cases htest
    next => cases htest
  next => cases htest

end Mos
