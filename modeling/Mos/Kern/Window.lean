import Mos.Kern.Entries
import Mos.Kern.Envs

/-!
# The window of user mappings

`is_illegal_va` keeps user mappings in `[UTEMP, UTOP)`. A message splits the check: `sys_ipc_recv`
looks at the address of the receiver, where 0 stands for "no page", and `sys_ipc_try_send` at that of
the sender. A sender with a page and a receiver without an address pass both checks, and the page is
mapped at address 0. `mappings_in_window` says that this is the only way out of the window.
-/

namespace Mos

open Lib Prog Function

variable {k k' : Kernel} {e : EnvPtr} {b : Boot} {va : Word} {ok : Kernel → Op → Prop}

/-! ## Where receivers want their pages -/

/-- Every `env_ipc_dstva` is 0 or an address that the receiver may map. -/
def Kernel.LegalDst (k : Kernel) : Prop :=
  ∀ e, (k.envs e).envIpcDstva = 0 ∨ utemp ≤ (k.envs e).envIpcDstva

theorem utemp_le_of_legal (h : ¬isIllegalVa va = true) : utemp ≤ va := by
  simp only [isIllegalVa, Bool.or_eq_true, decide_eq_true_eq, not_or] at h
  have h₁ : ¬va.toNat < utemp.toNat := h.1
  show utemp.toNat ≤ va.toNat
  omega

theorem ppn_utemp_le (h : utemp ≤ va) : ppn utemp ≤ ppn va := by
  have h' : utemp.toNat ≤ va.toNat := h
  rw [ppn_eq, ppn_eq]
  exact Nat.div_le_div_right h'

theorem utemp_le_of_ppn (h : ppn utemp ≤ ppn va) : utemp ≤ va := by
  have htemp := toNat_utemp
  rw [ppn_eq, ppn_eq] at h
  show utemp.toNat ≤ va.toNat
  omega

theorem Kernel.LegalDst.of_dstva (h : k.LegalDst)
    (heq : ∀ e, (k'.envs e).envIpcDstva = (k.envs e).envIpcDstva) : k'.LegalDst :=
  fun e => by rw [heq e]; exact h e

theorem dstva_of_ipc {v v' : Env} (h : v'.ipc = v.ipc) : v'.envIpcDstva = v.envIpcDstva :=
  congrArg (fun t => t.2.2.2.1) h

theorem Kernel.LegalDst.switched (h : k.LegalDst) (hs : k.Switched k') : k'.LegalDst :=
  h.of_dstva (hs.field (φ := Env.envIpcDstva) (fun _ _ => rfl) fun _ _ => rfl)

theorem Kernel.LegalDst.setEnv (h : k.LegalDst) (e : EnvPtr) {f : Env → Env}
    (hf : (f (k.envs e)).envIpcDstva = 0 ∨ utemp ≤ (f (k.envs e)).envIpcDstva) :
    (k.setEnv e f).LegalDst := by
  intro e'
  rw [setEnv_envs]
  by_cases he : e' = e
  · rw [he, update_self]
    exact hf
  · rw [update_of_ne he]
    exact h e'

theorem Kernel.LegalDst.same (h : k.LegalDst) (hs : k.SameEnvs k') : k'.LegalDst :=
  h.of_dstva fun e => by rw [hs.envs]

theorem Kernel.LegalDst.born (h : k.LegalDst) (hb : k.Born e k') : k'.LegalDst := by
  refine h.of_dstva fun e' => ?_
  by_cases he : e' = e
  · rw [he]
    exact dstva_of_ipc hb.ipc
  · rw [hb.other e' he]

/-- No operation lets a receiver wait for a page below the window. -/
theorem Kernel.LegalDst.step (h : k.LegalDst) {op : Op} (hstep : Step op k k') : k'.LegalDst := by
  have hpost := exec_post hstep
  cases op with
  | envCreate binary p =>
    obtain ⟨e, hborn, -⟩ := hpost
    exact h.born hborn
  | timer => exact h.switched hpost
  | yield => exact h.switched hpost
  | exofork =>
    rcases hpost with (rfl | ⟨e, -, hd⟩) | ⟨e, -, hborn, -⟩
    · exact h
    · refine h.of_dstva fun e' => ?_
      by_cases he : e' = e
      · rw [he]
        exact dstva_of_ipc hd.ipc
      · rw [hd.other e' he]
    · exact h.born hborn
  | setEnvStatus envid st =>
    rcases hpost with rfl | ⟨e, st', -, -, hs⟩
    · exact h
    · exact (h.setEnv e (h e)).same hs
  | setTlbModEntry envid f =>
    rcases hpost with rfl | ⟨e, -, rfl⟩
    · exact h
    · exact h.setEnv e (h e)
  | envDestroy envid =>
    have hfree : ∀ e, (k.released e).LegalDst := fun e =>
      h.setEnv e (f := fun v => { v with envStatus := .free }) (h e)
    rcases hpost with hs | ⟨e, -, ⟨-, hs⟩ | ⟨-, hs⟩⟩
    · exact h.same hs
    · exact (hfree e).same hs
    · exact Kernel.LegalDst.switched (k := { k.released e with curenv := none }) (hfree e) hs
  | ipcRecv dstva =>
    rcases hpost with rfl | ⟨hlegal, c, -, hs⟩
    · exact h
    · have hdst : dstva = 0 ∨ utemp ≤ dstva := by
        by_cases h0 : dstva = 0
        · exact .inl h0
        · exact .inr (utemp_le_of_legal fun hc => hlegal ⟨h0, hc⟩)
      have hwaits : (k.waits c dstva).LegalDst := h.setEnv c (f := fun v => { v with
        envIpcRecving := 1, envIpcDstva := dstva, envStatus := .notRunnable }) hdst
      exact hwaits.switched hs
  | ipcTrySend envid v s p =>
    rcases hpost with ⟨rfl, -⟩ | ⟨e, c, -, -, hs⟩
    · exact h
    · exact (h.setEnv e (h e)).same hs
  | setTrapframe envid tf =>
    rcases hpost with hs | ⟨e, -, c, ws, k₁, -, -, -, hs, rfl⟩
    · exact h.same hs
    · have h₁ := h.same hs
      split
      · exact h₁
      · exact h₁.setEnv e (h₁ e)
  | trap tf =>
    subst hpost
    exact h
  | tlbRefill va asid => exact h.same hpost
  | memAlloc envid va p => exact h.same hpost
  | memMap s sv d dv p => exact h.same hpost
  | memUnmap envid va => exact h.same hpost
  | store va w => exact h.same hpost

theorem Reach.legalDst (h : Reach ok b k) : k.LegalDst := by
  induction h with
  | boot hboot =>
    intro e
    exact .inl ((booted_of_boot hboot).dstva e)
  | step _ op _ _ hstep _ ih => exact ih.step hstep
  | evict _ tlb _ ih => exact ih

/-! ## Mappings -/

/-- The steps that stay in the window: programs lie in it, and a page is only sent to an env that
gave an address for it. -/
def Op.WindowOk (k : Kernel) : Op → Prop
  | .envCreate binary _ => ∀ img, binary = some img → ∀ ph ∈ img.phdrs, ph.pType = ptLoad →
    utemp ≤ ph.pVaddr
  | .ipcTrySend envid _ srcva _ => srcva ≠ 0 → ∀ c e w, k.curenv = some c →
    k.vm.leaf c (ppn srcva) = some w → envid2env envid false k = .ret e k →
    (k.envs e).envIpcRecving ≠ 0 → (k.envs e).envIpcDstva ≠ 0
  | _ => True

/-- What may be mapped: nothing below `UTEMP`. -/
def InWindow (_ : EnvPtr) (n : Nat) (o : Option Word) : Prop := o ≠ none → ppn utemp ≤ n

theorem places_inWindow {op : Op} (hdst : k.LegalDst) (hok : Op.WindowOk k op) :
    op.Places InWindow k := by
  cases op with
  | envCreate binary p =>
    intro img himg ph hph hload e va perm pp hcov _ _
    have h₁ : utemp.toNat ≤ ph.pVaddr.toNat := hok img himg ph hph hload
    have h₂ : ph.pVaddr.toNat ≤ va.toNat := hcov.1
    exact ppn_utemp_le (show utemp.toNat ≤ va.toNat by omega)
  | tlbRefill va asid => exact fun c n pp _ hn _ => hn
  | memAlloc envid va perm =>
    intro hlegal e pp _ _
    exact ppn_utemp_le (utemp_le_of_legal (by simp [hlegal]))
  | memMap s sv d dv perm =>
    intro hlegal e pp _ _
    exact ppn_utemp_le (utemp_le_of_legal (by simp [hlegal]))
  | memUnmap envid va => exact fun e _ hne => absurd rfl hne
  | envDestroy envid => exact fun e n _ hne => absurd rfl hne
  | ipcTrySend envid v srcva perm =>
    intro h0 c e w hc hw he hrecv _
    have hne := hok h0 c e w hc hw he hrecv
    exact ppn_utemp_le ((hdst e).resolve_left hne)
  | setTrapframe envid tf => exact fun c n pp _ hn _ => hn
  | _ => trivial

/-- Every page that is mapped lies in the window. -/
def Kernel.Windowed (k : Kernel) : Prop := ∀ e n w, k.vm.leaf e n = some w → ppn utemp ≤ n

theorem Micro.windowed (hm : Micro InWindow k k') (h : k.Windowed) : k'.Windowed := by
  have hsame : k'.vm.leaf = k.vm.leaf → k'.Windowed := fun heq e n w hw => by
    rw [heq] at hw
    exact h e n w hw
  cases hm with
  | still hs => exact hsame hs.leaf
  | remap e va o hl hP hf hw hleaf htlb =>
    intro e' n w hw'
    rw [hleaf] at hw'
    split at hw'
    next heq =>
      rw [heq.2]
      exact hP (by rw [hw']; simp)
    next => exact h e' n w hw'
  | refill c va lo hc hlo => exact hsame rfl
  | pgdir p hp hpg hmem hleaf htlb hlive hasid hbit hbase => exact hsame hleaf
  | birth e i hdead hi hclear hasid hbit hlive hother hleaf htlb hmem hpg hbase => exact hsame hleaf
  | death e hl hempty hbit hlive hother hleaf htlb hmem hpg hbase => exact hsame hleaf

/-- **User mappings stay in the window**, in every run in which pages are only sent to envs that gave
an address for them. -/
theorem mappings_in_window (h : Reach Op.WindowOk b k) (hl : k.Live e) (hva : va < utop)
    (hval : has (k.entry e va) pteV = true) : utemp ≤ va := by
  have hw : k.Windowed := by
    refine Reach.keeps (P := InWindow) (I := Kernel.Windowed) ?_ (fun _ _ hm hw => hm.windowed hw) ?_ h
    · intro k hboot e n w hleaf
      obtain ⟨t, ht, -⟩ := Vm.leaf_eq_some.mp hleaf
      obtain ⟨d, hd, -⟩ := Vm.table_eq_some.mp ht
      exact absurd (dir_eq_some.mp hd).1 (hboot.dead e)
    · exact fun k op hr _ hok => places_inWindow hr.legalDst hok
  exact utemp_le_of_ppn (hw e _ _ (leaf_of_entry hl hva hval))

/-- A test for `WindowOk`: programs have no segments, and the receiver gave an address. -/
def windowOkb (k : Kernel) : Op → Bool
  | .envCreate (some img) _ => img.phdrs.isEmpty
  | .ipcTrySend envid _ _ _ => envid != 0 && (k.envs (envx envid)).envIpcDstva != 0
  | _ => true

theorem windowOk_of_test (k : Kernel) (op : Op) (h : windowOkb k op = true) : Op.WindowOk k op := by
  cases op with
  | envCreate binary p =>
    intro img himg ph hph
    subst himg
    have hnil : img.phdrs = [] := by simpa [windowOkb] using h
    rw [hnil] at hph
    cases hph
  | ipcTrySend envid v srcva perm =>
    intro _ c e w _ _ he _
    simp only [windowOkb, Bool.and_eq_true, bne_iff_ne] at h
    simp only [envid2env, get_bind, h.1, if_false] at he
    split at he
    · cases he
    · injection he with he _
      rw [← he]
      exact h.2
  | _ => trivial

/-- Two processes; the second waits for a message, and the first sends it one with a page. -/
def sendRun (dstva : Word) : List Op :=
  [.envCreate (some emptyImage) 1, .envCreate (some emptyImage) 1, .timer, .ipcRecv dstva,
    .memAlloc 0 utext pteD, .ipcTrySend 4097 7 utext pteD]

/-- The second process is alive and has an entry for `va`. -/
def entryTest (va : Word) (k : Kernel) : Bool := decide (k.Live 1) && has (k.entry 1 va) pteV

theorem mappings_in_window_send : ∃ k, Reach Op.WindowOk smallBoot k ∧ k.Live 1 ∧
    has (k.entry 1 utext) pteV = true ∧ utemp ≤ utext := by
  obtain ⟨k, hr, htest⟩ := exists_reach windowOk_of_test smallBoot (sendRun utext)
    (entryTest utext) (by decide +kernel)
  rw [entryTest, Bool.and_eq_true, decide_eq_true_eq] at htest
  exact ⟨k, hr, htest.1, htest.2, mappings_in_window hr htest.1 (by decide) htest.2⟩

/-- A receiver without an address gets a page at address 0. -/
theorem mapping_below_window : ∃ k e va, Reach (fun _ _ => True) smallBoot k ∧ k.Live e ∧
    va < utop ∧ has (k.entry e va) pteV = true ∧ va < utemp := by
  obtain ⟨k, hr, htest⟩ := exists_reach_any smallBoot (sendRun 0) (entryTest 0) (by decide +kernel)
  rw [entryTest, Bool.and_eq_true, decide_eq_true_eq] at htest
  exact ⟨k, 1, 0, hr, htest.1, by decide, htest.2, by decide⟩

end Mos
