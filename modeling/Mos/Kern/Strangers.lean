import Mos.Kern.Envs
import Mos.Kern.Reach

/-!
# System calls touch the caller and its children only

`envid2env` with `checkperm` returns the caller or one of its children, so the calls that take an
env id and check it have no say over other envs: neither over their `struct Env` (`exec_post`) nor
over their address spaces (`exec_via`). The second needs exact reference counts: releasing a frame
must not take it away from an env that still maps it.
-/

namespace Mos

open Lib Prog Function

variable {k k' : Kernel} {c e : EnvPtr} {b : Boot} {ok : Kernel → Op → Prop}
  {P : EnvPtr → Nat → Option Word → Prop}

/-- The calls that act on an env that they check to be the caller or a child of it. -/
def Op.Checked : Op → Prop
  | .memAlloc _ _ _ => True
  | .memMap _ _ _ _ _ => True
  | .memUnmap _ _ => True
  | .setTlbModEntry _ _ => True
  | .setEnvStatus _ _ => True
  | .setTrapframe _ _ => True
  | .envDestroy _ => True
  | _ => False

/-- `e` is neither the current env `c` nor a child of it. -/
def Kernel.Stranger (k : Kernel) (c e : EnvPtr) : Prop :=
  e ≠ c ∧ (k.envs e).envParentId ≠ (k.envs c).envId

/-- Id, status, parent, context, message and handler of an env are the same. -/
structure Env.Unchanged (v v' : Env) : Prop where
  id : v'.envId = v.envId
  status : v'.envStatus = v.envStatus
  parent : v'.envParentId = v.envParentId
  context : v'.envTf = v.envTf
  ipc : v'.ipc = v.ipc
  handler : v'.envUserTlbModEntry = v.envUserTlbModEntry

theorem Env.Unchanged.of_eq {v v' : Env} (h : v' = v) : v.Unchanged v' := by
  subst h
  exact ⟨rfl, rfl, rfl, rfl, rfl, rfl⟩

/-- The number of runs does not count. -/
theorem Env.Unchanged.runs (v : Env) (n : Word) : v.Unchanged { v with envRuns := n } :=
  ⟨rfl, rfl, rfl, rfl, rfl, rfl⟩

/-! ## Envs -/

theorem Kernel.Stranger.ne (h : k.Stranger c e) (hc : k.curenv = some c) {envid : Word}
    {e' : EnvPtr} (he' : envid2env envid true k = .ret e' k) : e ≠ e' := by
  rintro rfl
  rcases related_of_envid2env hc he' with heq | hparent
  · exact h.1 heq
  · exact h.2 hparent

/-- Without a current env there is no context to save. -/
theorem unchanged_switched (hc : k.curenv = none) (h : k.Switched k') (e : EnvPtr) :
    (k.envs e).Unchanged (k'.envs e) := by
  obtain ⟨e', -, hsame⟩ := h
  have hsaved : k.saved = k := by
    unfold Kernel.saved
    rw [hc]
  rw [hsame.envs]
  show (k.envs e).Unchanged (update k.saved.envs e' _ e)
  rw [hsaved]
  by_cases he : e = e'
  · rw [he, update_self]
    exact .runs _ _
  · rw [update_of_ne he]
    exact .of_eq rfl

theorem unchanged_setEnv {f : Env → Env} (h : (k.setEnv e f).SameEnvs k') (hne : c ≠ e) :
    (k.envs c).Unchanged (k'.envs c) :=
  .of_eq (by rw [h.envs, setEnv_envs, update_of_ne hne])

/-- A stranger keeps its `struct Env`. -/
theorem unchanged_step {op : Op} (hop : op.Checked) (hstep : Step op k k')
    (hc : k.curenv = some c) (he : k.Stranger c e) : (k.envs e).Unchanged (k'.envs e) := by
  have hpost := exec_post hstep
  have hsame : k.SameEnvs k' → (k.envs e).Unchanged (k'.envs e) := fun hs => .of_eq (by rw [hs.envs])
  cases op with
  | memAlloc envid va p => exact hsame hpost
  | memMap s sv d dv p => exact hsame hpost
  | memUnmap envid va => exact hsame hpost
  | setTlbModEntry envid f =>
    rcases hpost with rfl | ⟨e', he', rfl⟩
    · exact .of_eq rfl
    · exact unchanged_setEnv (.refl _) (he.ne hc he')
  | setEnvStatus envid st =>
    rcases hpost with rfl | ⟨e', st', he', -, hs⟩
    · exact .of_eq rfl
    · exact unchanged_setEnv hs (he.ne hc he')
  | setTrapframe envid tf =>
    rcases hpost with hs | ⟨e', he', c', ws, k₁, -, -, -, hs, rfl⟩
    · exact hsame hs
    · split
      · exact .of_eq (congrFun hs.envs e)
      · refine .of_eq ?_
        rw [setEnv_envs, update_of_ne (he.ne hc he'), hs.envs]
  | envDestroy envid =>
    rcases hpost with hs | ⟨e', he', hd⟩
    · exact hsame hs
    · have hfree : (k.released e').envs e = k.envs e := update_of_ne (he.ne hc he') _ _
      rcases hd with ⟨-, hs⟩ | ⟨-, hs⟩
      · exact .of_eq (by rw [hs.envs, hfree])
      · have h := unchanged_switched rfl hs e
        rw [show ({ k.released e' with curenv := none } : Kernel).envs e = k.envs e from hfree] at h
        exact h
  | _ => exact hop.elim

/-! ## Address spaces -/

/-- A page that may not get another entry keeps the one it has. -/
theorem Via.leaf_of_spared (h : Via P k k') {n : Nat} (hP : ∀ o, ¬P e n o) :
    k'.vm.leaf e n = k.vm.leaf e n := by
  induction h with
  | refl => rfl
  | tail _ hm ih =>
    rw [← ih]
    cases hm with
    | still hs => rw [hs.leaf]
    | remap e' va o hl hP' hf hw hleaf htlb =>
      rw [hleaf, if_neg]
      rintro ⟨rfl, rfl⟩
      exact hP _ hP'
    | refill c va lo hc hlo => rfl
    | pgdir p hp hpg hmem hleaf htlb hlive hasid hbit hbase => rw [hleaf]
    | birth e' i hdead hi hclear hasid hbit hlive hother hleaf htlb hmem hpg hbase => rw [hleaf]
    | death e' hl hempty hbit hlive hother hleaf htlb hmem hpg hbase => rw [hleaf]

/-- An env of which no page may get another entry keeps its address space. -/
theorem Via.leaf_of_barred (h : Via P k k') (hP : ∀ n o, ¬P e n o) :
    k'.vm.leaf e = k.vm.leaf e :=
  funext fun n => h.leaf_of_spared (hP n)

theorem places_related {op : Op} (hop : op.Checked) (hc : k.curenv = some c) :
    op.Places (fun e _ _ => ¬k.Stranger c e) k := by
  have hrel : ∀ {envid : Word} {e : EnvPtr}, envid2env envid true k = .ret e k →
      ¬k.Stranger c e := fun he hs => hs.ne hc he rfl
  have hself : ¬k.Stranger c c := fun hs => hs.1 rfl
  have hdemand : Demand (fun e _ _ => ¬k.Stranger c e) k := by
    intro c' n pp hc' _
    obtain rfl : c = c' := Option.some.inj (hc.symm.trans hc')
    exact hself
  cases op with
  | memAlloc envid va p => exact fun _ e pp he => hrel he
  | memMap s sv d dv p => exact fun _ e pp he => hrel he
  | memUnmap envid va => exact fun e he => hrel he
  | envDestroy envid => exact fun e n he => hrel he
  | setTrapframe envid tf => exact hdemand
  | setTlbModEntry envid f => trivial
  | setEnvStatus envid st => trivial
  | _ => exact hop.elim

/-- **A call leaves strangers alone**, whether it succeeds or fails: their `struct Env` and the whole
mapping of their pages below `UTOP`. -/
theorem strangers_untouched (h : Reach ok b k) (hc : k.curenv = some c) {op : Op}
    (hop : op.Checked) (hperm : op.Sane k) (hstep : Step op k k') (he : k.Stranger c e) :
    (k.envs e).Unchanged (k'.envs e) ∧ k'.vm.leaf e = k.vm.leaf e := by
  obtain ⟨M, hgood⟩ := h.good
  have hvia := (exec_via hgood.inv hgood.base hgood.dirs op hperm (places_related hop hc)).of_state?
    hstep
  exact ⟨unchanged_step hop hstep hc he, hvia.leaf_of_barred fun _ _ hs => hs he⟩

/-- Two processes; the second runs and asks for a page. -/
theorem strangers_untouched_alloc : ∃ k k', Reach (fun _ _ => True) smallBoot k ∧
    k.curenv = some 1 ∧ Step (.memAlloc 0 utext pteD) k k' ∧ k.Stranger 1 0 ∧ k.Live 0 ∧
    (k.envs 0).Unchanged (k'.envs 0) ∧ k'.vm.leaf 0 = k.vm.leaf 0 := by
  obtain ⟨k, hr, htest⟩ := exists_reach_any smallBoot
    [.envCreate (some emptyImage) 1, .envCreate (some emptyImage) 1, .timer]
    (fun k => k.curenv == some 1 && decide (k.Live 0) &&
      (k.envs 0).envParentId != (k.envs 1).envId &&
      (exec (.memAlloc 0 utext pteD) k).state?.isSome) (by decide +kernel)
  simp only [Bool.and_eq_true, beq_iff_eq, decide_eq_true_eq, bne_iff_ne,
    Option.isSome_iff_exists] at htest
  obtain ⟨⟨⟨hc, hl⟩, hparent⟩, k', hstep⟩ := htest
  have hs : k.Stranger 1 0 := ⟨by decide, hparent⟩
  have hop : Op.Checked (.memAlloc 0 utext pteD) := trivial
  have hsane : Op.Sane k (.memAlloc 0 utext pteD) := show pteD < 4096 by decide
  exact ⟨k, k', hr, hc, hstep, hs, hl, strangers_untouched hr hc hop hsane hstep hs⟩

end Mos
