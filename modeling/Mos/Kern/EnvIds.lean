import Mos.Kern.Envs

/-!
# Env ids

`mkenvid` puts a counter above the index of the env, so an id names its slot and no id is made twice
before the counter wraps. `env_alloc` takes a slot from the free list and leaves an id in it, also when
it fails afterwards; `env_free` leaves the id of a dead env in its slot until the slot is used again.
`env_ids_unforgeable` says that in spite of this `envid2env` accepts exactly the ids of the envs that
are allocated.

A run is recorded with the ids made so far and with those of the envs that were released (`Ids`).
-/

namespace Mos

open Lib Prog Function

variable {k k' k₁ : Kernel} {e e' : EnvPtr} {n m : Word} {b : Boot}

/-! ## `mkenvid` -/

/-- The id that `mkenvid(e)` returns when its counter has reached `n`. -/
def envIdOf (n : Word) (e : EnvPtr) : Word := n <<< 11 ||| BitVec.ofNat 32 e.val

theorem envIdOf_toNat (h : n.toNat < 2 ^ 21) (e : EnvPtr) :
    (envIdOf n e).toNat = n.toNat * 2048 + e.val := by
  have he : e.val < 2 ^ 11 := lt_trans e.isLt (by decide)
  have hshift : (n <<< 11).toNat = n.toNat <<< 11 := by
    rw [BitVec.toNat_shiftLeft, Nat.shiftLeft_eq]
    omega
  have hidx : (BitVec.ofNat 32 e.val).toNat = e.val := by
    rw [BitVec.toNat_ofNat]
    omega
  rw [envIdOf, BitVec.toNat_or, hshift, hidx, ← Nat.shiftLeft_add_eq_or_of_lt he, Nat.shiftLeft_eq]

/-- **An id names its slot.** -/
theorem envx_envIdOf (h : n.toNat < 2 ^ 21) (e : EnvPtr) : envx (envIdOf n e) = e := by
  have he : e.val < 1024 := e.isLt
  apply Fin.ext
  show (envIdOf n e &&& 0x3ff).toNat = e.val
  rw [BitVec.toNat_and, show (0x3ff : Word).toNat = 2 ^ 10 - 1 from rfl,
    Nat.and_two_pow_sub_one_eq_mod, envIdOf_toNat h]
  omega

theorem envIdOf_injective (hn : n.toNat < 2 ^ 21) (hm : m.toNat < 2 ^ 21)
    (h : envIdOf n e = envIdOf m e') : n = m := by
  have he : e.val < 1024 := e.isLt
  have he' : e'.val < 1024 := e'.isLt
  have h' := congrArg BitVec.toNat h
  rw [envIdOf_toNat hn, envIdOf_toNat hm] at h'
  apply BitVec.eq_of_toNat_eq
  omega

/-! ## `env_alloc` and `env_free` -/

/-- The id that a call of `env_alloc` made, if it got that far: for the first env of the free list. -/
def Kernel.newIds (k k' : Kernel) : List (EnvPtr × Word) :=
  match k.envFreeList with
  | [] => []
  | e :: _ => if k'.mkenvidCount = k.mkenvidCount then [] else [(e, (k'.envs e).envId)]

/-- Nothing that ids depend on has changed. -/
structure Kernel.SameIds (k k' : Kernel) : Prop where
  count : k'.mkenvidCount = k.mkenvidCount
  envFreeList : k'.envFreeList = k.envFreeList
  live : ∀ e, k'.Live e ↔ k.Live e
  envId : ∀ e, k.Live e → (k'.envs e).envId = (k.envs e).envId

/-- Where `env_alloc` stops before it has an id for `e`, or goes on. -/
structure Kernel.Numbered (k : Kernel) (e : EnvPtr) (k' : Kernel) : Prop where
  drafted : k.Drafted e k'
  count : k'.mkenvidCount = k.mkenvidCount + 1
  envId : (k'.envs e).envId = envIdOf (k.mkenvidCount + 1) e

theorem Kernel.Numbered.setEnv (h : k.Numbered e k') {f : Env → Env}
    (hst : (f (k'.envs e)).envStatus = (k'.envs e).envStatus)
    (hipc : (f (k'.envs e)).ipc = (k'.envs e).ipc)
    (hid : (f (k'.envs e)).envId = (k'.envs e).envId) : k.Numbered e (k'.setEnv e f) := by
  refine ⟨h.drafted.setEnv hst hipc, h.count, ?_⟩
  rw [setEnv_envs, update_self, hid, h.envId]

theorem Kernel.Drafted.live (h : k.Drafted e k') (e' : EnvPtr) : k'.Live e' ↔ k.Live e' := by
  unfold Kernel.Live
  by_cases hne : e' = e
  · rw [hne, h.status]
  · rw [h.other e' hne]

/-- A function that makes no id. -/
abbrev Uncounted {α : Type} (m : KernM α) : Prop :=
  Keeps (fun k k' : Kernel => k'.mkenvidCount = k.mkenvidCount) m

theorem uncounted_of_framed {α : Type} {m : KernM α} (h : Framed m) : Uncounted m := by
  intro k
  refine (h k).mono ?_ ?_ (fun _ h => h)
  · rintro _ _ ⟨_, _, _, _, _, rfl⟩
    rfl
  · rintro _ _ ⟨_, _, _, _, _, rfl⟩
    rfl

theorem uncounted_bind {α β : Type} {m : KernM α} {f : α → KernM β} (hm : Uncounted m)
    (hf : ∀ a, Uncounted (f a)) : Uncounted (m >>= f) :=
  keeps_bind (fun _ _ _ h h' => h'.trans h) hm hf

theorem uncounted_modify {f : Kernel → Kernel} (h : ∀ k, (f k).mkenvidCount = k.mkenvidCount) :
    Uncounted (modify f : KernM Unit) := keeps_modify h

theorem uncounted_envSetupVm (e : EnvPtr) : Uncounted (envSetupVm e) :=
  uncounted_bind (uncounted_of_framed framed_pageAlloc) fun _ =>
    uncounted_bind (uncounted_modify fun _ => rfl) fun _ => uncounted_modify fun _ => rfl

/-- **`env_alloc`** makes at most one id, for the first env of the free list. -/
theorem envAlloc_numbered (parentId : Word) (k : Kernel) :
    (envAlloc parentId k).Sat
      (fun e k' => (∃ rest, k.envFreeList = e :: rest) ∧
        k'.envFreeList = k.envFreeList.erase e ∧ ∃ k₁, k.Numbered e k₁ ∧ k'.envs = k₁.envs ∧
          k'.mkenvidCount = k₁.mkenvidCount)
      (fun _ k' => k' = k ∨ ∃ e rest, k.envFreeList = e :: rest ∧
        (k.Drafted e k' ∧ k'.mkenvidCount = k.mkenvidCount ∨ k.Numbered e k'))
      (fun _ => True) := by
  rw [envAlloc, get_bind]
  cases hl : k.envFreeList with
  | nil => exact .inl rfl
  | cons e rest =>
    refine sat_call ((envSetupVm_drafted e k).and (uncounted_envSetupVm e k)) ?_
      (fun _ _ h => .inr ⟨e, rest, rfl, .inl h⟩) (fun _ _ => trivial)
    rintro _ k₁ ⟨h₁, hc₁⟩
    simp only [modify_bind, mkenvid_bind]
    have h₂ := h₁.setEnv (f := fun v => { v with envUserTlbModEntry := 0, envRuns := 0 }) rfl rfl
    have hc₂ : (k₁.setEnv e fun v => { v with
        envUserTlbModEntry := 0, envRuns := 0 }).mkenvidCount = k.mkenvidCount := hc₁
    generalize (k₁.setEnv e fun v => { v with envUserTlbModEntry := 0, envRuns := 0 }) = k₂ at h₂ hc₂
    have h₃ : k.Drafted e { k₂ with mkenvidCount := k₂.mkenvidCount + 1 } :=
      h₂.same ⟨rfl, rfl, rfl, rfl⟩
    have h₄ : k.Numbered e (Kernel.setEnv { k₂ with mkenvidCount := k₂.mkenvidCount + 1 } e
        fun v => { v with envId := (k₂.mkenvidCount + 1) <<< 11 ||| BitVec.ofNat 32 e.val }) := by
      refine ⟨h₃.setEnv rfl rfl, ?_, ?_⟩
      · show k₂.mkenvidCount + 1 = _
        rw [hc₂]
      · rw [setEnv_envs, update_self, hc₂]
        rfl
    generalize (Kernel.setEnv _ e _) = k₄ at h₄ ⊢
    refine sat_call (asidAlloc_spec k₄) ?_
      (fun _ k' hk => .inr ⟨e, rest, rfl, .inr (hk ▸ h₄)⟩) (fun _ h => h.elim)
    rintro asid _ ⟨w, rfl⟩
    have h₅ : k.Numbered e { k₄ with asidBitmap := w } :=
      ⟨h₄.drafted.same ⟨rfl, rfl, rfl, rfl⟩, h₄.count, h₄.envId⟩
    have h₆ := h₅.setEnv (f := fun v => { v with
      envAsid := asid
      envParentId := parentId
      envTf := { (v.envTf.setReg 29 (ustacktop - 4 - 4)) with cp0Status := statusUser } })
      rfl rfl rfl
    exact ⟨⟨rest, rfl⟩, (congrArg (·.erase e) h₆.drafted.envFreeList).trans (by rw [hl]), _, h₆,
      rfl, rfl⟩

theorem uncounted_schedRemove (e : EnvPtr) : Uncounted (schedRemove e) := by
  intro k
  simp only [schedRemove, get_bind]
  cases k.envSchedList.remove e with
  | some q => rfl
  | none =>
    simp only [put_bind]
    exact uncounted_of_framed (framed_storeNull _) _

theorem uncounted_envFree (e : EnvPtr) : Uncounted (envFree e) :=
  keeps_get fun _ => uncounted_bind (uncounted_of_framed
      (keeps_loop Kernel.Frame.refl Kernel.Frame.trans (framed_envFreePde _ _) _ _)) fun _ =>
    uncounted_bind (uncounted_of_framed (framed_pa2page _)) fun pp =>
    uncounted_bind (uncounted_of_framed (framed_pageDecref pp)) fun _ =>
    uncounted_bind (uncounted_modify fun _ => rfl) fun _ =>
    uncounted_bind (uncounted_modify fun _ => rfl) fun _ =>
    uncounted_bind (uncounted_modify fun _ => rfl) fun _ =>
    uncounted_bind (uncounted_modify fun _ => rfl) fun _ => uncounted_schedRemove e

/-! ## Runs -/

/-- A run: the kernel, the ids made so far with their slots, the ids of the envs that were released,
and how often `env_alloc` was called. -/
structure Ids where
  kernel : Kernel
  produced : List (EnvPtr × Word)
  released : List Word
  calls : Nat

/-- What can happen: `env_alloc` succeeds, and its caller gives the env a status, or fails;
`env_free` releases an env; or something happens that ids do not depend on. -/
inductive Ids.Run (b : Boot) : Ids → Prop
  | boot {k : Kernel} (h : boot b = .ret () k) : Run b ⟨k, [], [], 0⟩
  | alloc {s : Ids} {k : Kernel} (h : Run b s) (parentId : Word) (e : EnvPtr) (st : Status)
      (hret : envAlloc parentId s.kernel = .ret e k) (hst : st ≠ .free) :
      Run b ⟨k.setEnv e fun v => { v with envStatus := st }, s.produced ++ s.kernel.newIds k,
        s.released, s.calls + 1⟩
  | allocFail {s : Ids} {k : Kernel} (h : Run b s) (parentId : Word) (er : Err)
      (hret : envAlloc parentId s.kernel = .err er k) :
      Run b ⟨k, s.produced ++ s.kernel.newIds k, s.released, s.calls + 1⟩
  | free {s : Ids} {k : Kernel} (h : Run b s) (e : EnvPtr) (hl : s.kernel.Live e)
      (hret : envFree e s.kernel = .ret () k) :
      Run b ⟨k, s.produced, s.released ++ [(s.kernel.envs e).envId], s.calls⟩
  | other {s : Ids} {k : Kernel} (h : Run b s) (hsame : s.kernel.SameIds k) :
      Run b { s with kernel := k }

/-- The ids that were made are those of different counter values, live envs have theirs, and no live
env has an id that was released. -/
structure Ids.Inv (s : Ids) : Prop where
  dead : ∀ e ∈ s.kernel.envFreeList, ¬s.kernel.Live e
  nodup : s.kernel.envFreeList.Nodup
  count : s.kernel.mkenvidCount.toNat ≤ s.calls
  made : ∀ e id, (e, id) ∈ s.produced →
    ∃ n : Word, 0 < n.toNat ∧ n.toNat ≤ s.kernel.mkenvidCount.toNat ∧ id = envIdOf n e
  distinct : (s.produced.map Prod.snd).Nodup
  live : ∀ e, s.kernel.Live e → (e, (s.kernel.envs e).envId) ∈ s.produced
  released : ∀ id ∈ s.released, (∃ e, (e, id) ∈ s.produced) ∧
    ∀ e, s.kernel.Live e → (s.kernel.envs e).envId ≠ id

namespace Ids.Inv

variable {s : Ids} {id : Word}

/-- An id names the slot that it was made for. -/
theorem envx_of_made (h : s.Inv) (hcalls : s.calls < 2 ^ 21) (hid : (e, id) ∈ s.produced) :
    id ≠ 0 ∧ envx id = e := by
  obtain ⟨n, hpos, hle, rfl⟩ := h.made e id hid
  have hcount := h.count
  have hlt : n.toNat < 2 ^ 21 := by omega
  refine ⟨fun hc => ?_, envx_envIdOf hlt e⟩
  have hnat := envIdOf_toNat hlt e
  rw [hc] at hnat
  have hzero : (0 : Word).toNat = 0 := rfl
  omega

/-- The next id was never made before. -/
theorem fresh (h : s.Inv) (hcalls : s.calls + 1 < 2 ^ 21) (e : EnvPtr) :
    envIdOf (s.kernel.mkenvidCount + 1) e ∉ s.produced.map Prod.snd := by
  intro hmem
  obtain ⟨⟨e', id⟩, hid, heq⟩ := List.mem_map.mp hmem
  obtain ⟨n, -, hle, rfl⟩ := h.made e' id hid
  have hcount := h.count
  have hsucc : (s.kernel.mkenvidCount + 1).toNat = s.kernel.mkenvidCount.toNat + 1 := by
    rw [BitVec.toNat_add]
    have hone : (1 : Word).toNat = 1 := rfl
    omega
  have hn := envIdOf_injective (by omega) (by omega) heq
  rw [hn, hsucc] at hle
  omega

/-- `env_alloc` has made an id for the slot `e`, which is free. -/
theorem number (h : s.Inv) (hcalls : s.calls + 1 < 2 ^ 21) (hn : s.kernel.Numbered e k)
    (he : e ∈ s.kernel.envFreeList) :
    Ids.Inv ⟨k, s.produced ++ [(e, (k.envs e).envId)], s.released, s.calls + 1⟩ := by
  have hcount := h.count
  have hsucc : k.mkenvidCount.toNat = s.kernel.mkenvidCount.toNat + 1 := by
    rw [hn.count, BitVec.toNat_add]
    have hone : (1 : Word).toNat = 1 := rfl
    omega
  have hlive : ∀ e', k.Live e' ↔ s.kernel.Live e' := hn.drafted.live
  have hold : ∀ e', k.Live e' → k.envs e' = s.kernel.envs e' := by
    intro e' hl
    refine hn.drafted.other e' ?_
    rintro rfl
    exact h.dead e' he ((hlive e').mp hl)
  refine ⟨?_, ?_, ?_, ?_, ?_, ?_, ?_⟩
  · intro e' he'
    rw [hn.drafted.envFreeList] at he'
    rw [hlive]
    exact h.dead e' he'
  · show k.envFreeList.Nodup
    rw [hn.drafted.envFreeList]
    exact h.nodup
  · show k.mkenvidCount.toNat ≤ s.calls + 1
    omega
  · intro e' id hid
    rcases List.mem_append.mp hid with hid | hid
    · obtain ⟨n, hpos, hle, rfl⟩ := h.made e' id hid
      refine ⟨n, hpos, ?_, rfl⟩
      show n.toNat ≤ k.mkenvidCount.toNat
      omega
    · obtain ⟨rfl, rfl⟩ := Prod.mk.inj (List.mem_singleton.mp hid)
      refine ⟨s.kernel.mkenvidCount + 1, ?_, ?_, hn.envId⟩
      · rw [← hn.count]
        omega
      · rw [← hn.count]
  · rw [List.map_append, List.map_singleton]
    refine List.Nodup.append h.distinct (List.nodup_singleton _) ?_
    rw [List.disjoint_singleton]
    show (k.envs e).envId ∉ _
    rw [hn.envId]
    exact h.fresh hcalls e
  · intro e' hl
    show (e', (k.envs e').envId) ∈ _
    rw [hold e' hl]
    exact List.mem_append_left _ (h.live e' ((hlive e').mp hl))
  · intro id hid
    obtain ⟨⟨e', hmade⟩, hother⟩ := h.released id hid
    refine ⟨⟨e', List.mem_append_left _ hmade⟩, fun e' hl => ?_⟩
    show (k.envs e').envId ≠ id
    rw [hold e' hl]
    exact hother e' ((hlive e').mp hl)

/-- The env whose id was made last leaves the free list and is given a status. -/
theorem revive (h : s.Inv) {l : List (EnvPtr × Word)}
    (hlast : s.produced = l ++ [(e, (s.kernel.envs e).envId)])
    (hrel : ∀ id ∈ s.released, ∃ e', (e', id) ∈ l)
    (hfree : k.envFreeList = s.kernel.envFreeList.erase e)
    (hcount : k.mkenvidCount = s.kernel.mkenvidCount)
    (henvs : ∀ e', e' ≠ e → k.envs e' = s.kernel.envs e')
    (hid : (k.envs e).envId = (s.kernel.envs e).envId) :
    Ids.Inv ⟨k, s.produced, s.released, s.calls⟩ := by
  have hlive : ∀ e', e' ≠ e → k.Live e' → s.kernel.Live e' := by
    intro e' hne hl
    unfold Kernel.Live at hl ⊢
    rwa [henvs e' hne] at hl
  refine ⟨?_, ?_, ?_, ?_, h.distinct, ?_, ?_⟩
  · intro e' he'
    have he'' : e' ∈ s.kernel.envFreeList.erase e := hfree ▸ he'
    rw [h.nodup.mem_erase_iff] at he''
    exact fun hl => h.dead e' he''.2 (hlive e' he''.1 hl)
  · show k.envFreeList.Nodup
    rw [hfree]
    exact h.nodup.erase e
  · show k.mkenvidCount.toNat ≤ s.calls
    rw [hcount]
    exact h.count
  · intro e' id hmade
    obtain ⟨n, hpos, hle, rfl⟩ := h.made e' id hmade
    exact ⟨n, hpos, by rw [hcount]; exact hle, rfl⟩
  · intro e' hl
    show (e', (k.envs e').envId) ∈ s.produced
    by_cases hne : e' = e
    · rw [hne, hid, hlast]
      exact List.mem_append_right _ List.mem_cons_self
    · rw [henvs e' hne]
      exact h.live e' (hlive e' hne hl)
  · intro id hrelid
    refine ⟨(h.released id hrelid).1, fun e' hl => ?_⟩
    show (k.envs e').envId ≠ id
    by_cases hne : e' = e
    · -- the id was made after all those that were released
      obtain ⟨e'', hl'⟩ := hrel id hrelid
      have hdistinct := h.distinct
      rw [hlast, List.map_append, List.map_singleton] at hdistinct
      have hdisj := (List.nodup_append.mp hdistinct).2.2
      rw [hne, hid]
      exact fun heq => hdisj id (List.mem_map_of_mem hl') _ (List.mem_singleton_self _) heq.symm
    · rw [henvs e' hne]
      exact (h.released id hrelid).2 e' (hlive e' hne hl)

/-- **A successful `env_alloc`.** -/
theorem alloc (h : s.Inv) (hcalls : s.calls + 1 < 2 ^ 21) {parentId : Word} {st : Status}
    (hret : envAlloc parentId s.kernel = .ret e k) :
    Ids.Inv ⟨k.setEnv e fun v => { v with envStatus := st }, s.produced ++ s.kernel.newIds k,
      s.released, s.calls + 1⟩ := by
  have hspec := envAlloc_numbered parentId s.kernel
  rw [hret] at hspec
  obtain ⟨⟨rest, hlist⟩, hfree, k₁, hn, henvs, hcount⟩ := hspec
  have he : e ∈ s.kernel.envFreeList := by
    rw [hlist]
    exact List.mem_cons_self
  have hnew : s.kernel.newIds k = [(e, (k₁.envs e).envId)] := by
    have hne : ¬k.mkenvidCount = s.kernel.mkenvidCount := by
      rw [hcount, hn.count]
      simp
    rw [Kernel.newIds, hlist]
    simp only [if_neg hne, henvs]
  rw [hnew]
  refine (h.number hcalls hn he).revive rfl (fun id hid => (h.released id hid).1) ?_ ?_ ?_ ?_
  · show k.envFreeList = k₁.envFreeList.erase e
    rw [hfree, hn.drafted.envFreeList]
  · exact hcount
  · intro e' hne
    rw [setEnv_envs, update_of_ne hne, henvs]
  · rw [setEnv_envs, update_self, henvs]

/-- The state of a run after something that ids do not depend on. -/
theorem same (h : s.Inv) (hsame : s.kernel.SameIds k) {calls : Nat} (hcalls : s.calls ≤ calls) :
    Ids.Inv ⟨k, s.produced, s.released, calls⟩ := by
  refine ⟨?_, ?_, ?_, ?_, h.distinct, ?_, ?_⟩
  · intro e he
    rw [hsame.live]
    exact h.dead e (hsame.envFreeList ▸ he)
  · show k.envFreeList.Nodup
    rw [hsame.envFreeList]
    exact h.nodup
  · show k.mkenvidCount.toNat ≤ calls
    rw [hsame.count]
    exact le_trans h.count hcalls
  · intro e id hid
    obtain ⟨n, hpos, hle, rfl⟩ := h.made e id hid
    exact ⟨n, hpos, by rw [hsame.count]; exact hle, rfl⟩
  · intro e hl
    have hl' := (hsame.live e).mp hl
    show (e, (k.envs e).envId) ∈ s.produced
    rw [hsame.envId e hl']
    exact h.live e hl'
  · intro id hid
    refine ⟨(h.released id hid).1, fun e hl => ?_⟩
    have hl' := (hsame.live e).mp hl
    show (k.envs e).envId ≠ id
    rw [hsame.envId e hl']
    exact (h.released id hid).2 e hl'

/-- **A failed `env_alloc`**, which may have made an id that no env gets. -/
theorem allocFail (h : s.Inv) (hcalls : s.calls + 1 < 2 ^ 21) {parentId : Word} {er : Err}
    (hret : envAlloc parentId s.kernel = .err er k) :
    Ids.Inv ⟨k, s.produced ++ s.kernel.newIds k, s.released, s.calls + 1⟩ := by
  have hspec := envAlloc_numbered parentId s.kernel
  rw [hret] at hspec
  have hnone : k.mkenvidCount = s.kernel.mkenvidCount → s.kernel.newIds k = [] := by
    intro hcount
    unfold Kernel.newIds
    split
    · rfl
    · rw [if_pos hcount]
  rcases hspec with rfl | ⟨e, rest, hlist, ⟨hd, hcount⟩ | hn⟩
  · rw [hnone rfl, List.append_nil]
    exact h.same ⟨rfl, rfl, fun _ => Iff.rfl, fun _ _ => rfl⟩ (by omega)
  · rw [hnone hcount, List.append_nil]
    refine h.same ⟨hcount, hd.envFreeList, hd.live, fun e' hl => ?_⟩ (by omega)
    rw [hd.other e']
    rintro rfl
    exact h.dead e' (by rw [hlist]; exact List.mem_cons_self) hl
  · have he : e ∈ s.kernel.envFreeList := by
      rw [hlist]
      exact List.mem_cons_self
    have hnew : s.kernel.newIds k = [(e, (k.envs e).envId)] := by
      have hne : ¬k.mkenvidCount = s.kernel.mkenvidCount := by
        rw [hn.count]
        simp
      rw [Kernel.newIds, hlist]
      simp only [if_neg hne]
    rw [hnew]
    exact h.number hcalls hn he

/-- **`env_free`**: the id of the env goes to those that were released. -/
theorem free (h : s.Inv) (hcalls : s.calls < 2 ^ 21) (hl : s.kernel.Live e)
    (hret : envFree e s.kernel = .ret () k) :
    Ids.Inv ⟨k, s.produced, s.released ++ [(s.kernel.envs e).envId], s.calls⟩ := by
  have hspec := envFree_released e s.kernel
  rw [hret] at hspec
  have hcount := uncounted_envFree e s.kernel
  rw [hret] at hcount
  have hfree : k.envFreeList = e :: s.kernel.envFreeList := hspec.envFreeList
  have henvs : k.envs = update s.kernel.envs e { s.kernel.envs e with envStatus := .free } :=
    hspec.envs
  have hlive : ∀ e', k.Live e' ↔ e' ≠ e ∧ s.kernel.Live e' := by
    intro e'
    unfold Kernel.Live
    rw [henvs]
    by_cases hne : e' = e
    · rw [hne, update_self]
      simp
    · rw [update_of_ne hne]
      simp [hne]
  have hid : ∀ e', (k.envs e').envId = (s.kernel.envs e').envId := by
    intro e'
    rw [henvs]
    by_cases hne : e' = e
    · rw [hne, update_self]
    · rw [update_of_ne hne]
  have hmade := h.live e hl
  refine ⟨?_, ?_, ?_, ?_, h.distinct, ?_, ?_⟩
  · intro e' he'
    rw [hlive]
    rintro ⟨hne, hl'⟩
    have he'' : e' ∈ e :: s.kernel.envFreeList := hfree ▸ he'
    exact h.dead e' ((List.mem_cons.mp he'').resolve_left hne) hl'
  · show k.envFreeList.Nodup
    rw [hfree]
    exact List.nodup_cons.mpr ⟨fun hc => h.dead e hc hl, h.nodup⟩
  · show k.mkenvidCount.toNat ≤ s.calls
    rw [hcount]
    exact h.count
  · intro e' id hid
    obtain ⟨n, hpos, hle, rfl⟩ := h.made e' id hid
    exact ⟨n, hpos, by rw [hcount]; exact hle, rfl⟩
  · intro e' hl'
    show (e', (k.envs e').envId) ∈ s.produced
    rw [hid]
    exact h.live e' ((hlive e').mp hl').2
  · intro id hrel
    rcases List.mem_append.mp hrel with hrel | hrel
    · refine ⟨(h.released id hrel).1, fun e' hl' => ?_⟩
      show (k.envs e').envId ≠ id
      rw [hid]
      exact (h.released id hrel).2 e' ((hlive e').mp hl').2
    · obtain rfl := List.mem_singleton.mp hrel
      refine ⟨⟨e, hmade⟩, fun e' hl' heq => ?_⟩
      obtain ⟨hne, hl'⟩ := (hlive e').mp hl'
      have heq' : (s.kernel.envs e').envId = (s.kernel.envs e).envId := (hid e').symm.trans heq
      have hx := (h.envx_of_made hcalls hmade).2
      have hx' := (h.envx_of_made hcalls (h.live e' hl')).2
      rw [heq', hx] at hx'
      exact hne hx'.symm

end Ids.Inv

theorem boot_count {k : Kernel} (h : boot b = .ret () k) : k.mkenvidCount = 0 := by
  have hu : Uncounted (envInit b) := by
    refine uncounted_bind (uncounted_modify fun _ => rfl) fun _ => ?_
    refine uncounted_bind ?_ fun p => ?_
    · refine uncounted_bind (keeps_attempt (uncounted_of_framed framed_pageAlloc)) fun r => ?_
      cases r with
      | ok a => exact fun _ => rfl
      | error er => exact keeps_halt _
    refine uncounted_bind (uncounted_modify fun _ => rfl) fun _ => ?_
    refine uncounted_bind (uncounted_modify fun _ => rfl) fun _ => ?_
    exact uncounted_bind (uncounted_of_framed (framed_mapSegment _ _ _ _ _ _)) fun _ =>
      uncounted_of_framed (framed_mapSegment _ _ _ _ _ _)
  have hspec := hu (pageInit b)
  rw [show envInit b (pageInit b) = .ret () k from h] at hspec
  exact hspec

/-- **The invariant holds in every run** with fewer than 2^21 calls of `env_alloc`. -/
theorem Ids.Run.inv {s : Ids} (h : Ids.Run b s) (hcalls : s.calls < 2 ^ 21) : s.Inv := by
  induction h with
  | boot hboot =>
    have hb := booted_of_boot hboot
    refine ⟨fun e _ => hb.dead e, hb.inv.free_nodup, ?_, nofun, List.nodup_nil,
      fun e hl => absurd hl (hb.dead e), nofun⟩
    rw [boot_count hboot]
    rfl
  | alloc _ parentId e st hret hst ih => exact (ih (Nat.lt_of_succ_lt hcalls)).alloc hcalls hret
  | allocFail _ parentId er hret ih => exact (ih (Nat.lt_of_succ_lt hcalls)).allocFail hcalls hret
  | free _ e hl hret ih => exact (ih hcalls).free hcalls hl hret
  | other _ hsame ih => exact (ih hcalls).same hsame (le_refl _)

/-- `envid2env` without a check of the caller. -/
theorem envid2env_slot {id : Word} (h : id ≠ 0) (k : Kernel) :
    envid2env id false k = if k.Live (envx id) ∧ (k.envs (envx id)).envId = id
      then .ret (envx id) k else .err .badEnv k := by
  simp only [envid2env, get_bind, if_neg h, Bool.false_eq_true, if_false]
  unfold Kernel.Live
  by_cases hl : (k.envs (envx id)).envStatus = .free
  · rw [if_pos (.inl hl), if_neg (fun hc => hc.1 hl)]
    rfl
  · by_cases hid : (k.envs (envx id)).envId = id
    · rw [if_neg (not_or.mpr ⟨hl, not_not.mpr hid⟩), if_pos ⟨hl, hid⟩]
      rfl
    · rw [if_pos (.inr hid), if_neg (fun hc => hid hc.2)]
      rfl

/-- **Env ids are unforgeable handles.** Every id that was made is not 0, names its slot and differs
from all others; a non-zero id is accepted exactly if it is the id of an env that is allocated, and
then stands for that env; the id of an env that was released is never accepted again. -/
theorem env_ids_unforgeable {s : Ids} (h : Ids.Run b s) (hcalls : s.calls < 2 ^ 21) :
    (∀ e id, (e, id) ∈ s.produced → id ≠ 0 ∧ envx id = e) ∧
    (s.produced.map Prod.snd).Nodup ∧
    (∀ e, s.kernel.Live e → (e, (s.kernel.envs e).envId) ∈ s.produced) ∧
    (∀ id e, id ≠ 0 → (envid2env id false s.kernel = .ret e s.kernel ↔
      s.kernel.Live e ∧ (s.kernel.envs e).envId = id)) ∧
    (∀ id, id ≠ 0 → (∀ e, ¬(s.kernel.Live e ∧ (s.kernel.envs e).envId = id)) →
      envid2env id false s.kernel = .err .badEnv s.kernel) ∧
    (∀ id ∈ s.released, envid2env id false s.kernel = .err .badEnv s.kernel) := by
  have hinv := h.inv hcalls
  have hreject : ∀ id, id ≠ 0 → (∀ e, ¬(s.kernel.Live e ∧ (s.kernel.envs e).envId = id)) →
      envid2env id false s.kernel = .err .badEnv s.kernel := by
    intro id hid hnone
    rw [envid2env_slot hid, if_neg (hnone _)]
  refine ⟨fun e id hmade => hinv.envx_of_made hcalls hmade, hinv.distinct, hinv.live, ?_, hreject, ?_⟩
  · intro id e hid
    rw [envid2env_slot hid]
    constructor
    · intro heq
      split at heq
      next hl =>
        injection heq with he _
        exact he ▸ hl
      next => cases heq
    · rintro ⟨hl, rfl⟩
      have hx := (hinv.envx_of_made hcalls (hinv.live e hl)).2
      rw [hx, if_pos ⟨hl, rfl⟩]
  · intro id hrel
    obtain ⟨⟨e, hmade⟩, hother⟩ := hinv.released id hrel
    refine hreject id (hinv.envx_of_made hcalls hmade).1 ?_
    rintro e' ⟨hl, hid⟩
    exact hother e' hl hid

/-- An env that runs, on the queue. -/
def Kernel.started (k : Kernel) (e : EnvPtr) : Kernel :=
  { k.setEnv e fun v => { v with envStatus := .runnable } with
    envSchedList := k.envSchedList.insertHead e }

/-- An env is allocated and released, and its slot is used again. -/
def reuseTest : Bool :=
  match boot smallBoot with
  | .ret _ k₀ =>
    match envAlloc 0 k₀ with
    | .ret e k₁ =>
      match envFree e (k₁.started e) with
      | .ret _ k₂ =>
        match envAlloc 0 k₂ with
        | .ret e' k₃ => e == 0 && e' == 0 && (k₁.envs 0).envId == 2048 && (k₃.envs 0).envId == 4096
        | _ => false
      | _ => false
    | _ => false
  | _ => false

theorem env_ids_unforgeable_reuse : ∃ s, Ids.Run smallBoot s ∧ s.kernel.Live 0 ∧
    (s.kernel.envs 0).envId = 4096 ∧ s.released = [2048] ∧
    envid2env 2048 false s.kernel = .err .badEnv s.kernel := by
  have htest : reuseTest = true := by decide +kernel
  unfold reuseTest at htest
  split at htest
  next k₀ hboot =>
    split at htest
    next e k₁ halloc =>
      split at htest
      next k₂ hfree =>
        split at htest
        next e' k₃ halloc' =>
          simp only [Bool.and_eq_true, beq_iff_eq] at htest
          obtain ⟨⟨⟨rfl, rfl⟩, hid⟩, hid'⟩ := htest
          have h₁ := (Ids.Run.boot hboot).alloc 0 0 .runnable halloc (by decide)
          have h₂ := h₁.other (k := k₁.started 0) ⟨rfl, rfl, fun _ => Iff.rfl, fun _ _ => rfl⟩
          have hl : (k₁.started 0).Live 0 := by
            show (update k₁.envs 0 _ 0).envStatus ≠ .free
            rw [update_self]
            exact Status.noConfusion
          have h₃ := h₂.free 0 hl hfree
          have h₄ := h₃.alloc 0 0 .runnable halloc' (by decide)
          have hrel : ((k₁.started 0).envs 0).envId = 2048 := by
            show (update k₁.envs 0 _ 0).envId = 2048
            rw [update_self]
            exact hid
          refine ⟨_, h₄, ?_, ?_, ?_, ?_⟩
          · show (update k₃.envs 0 _ 0).envStatus ≠ .free
            rw [update_self]
            exact Status.noConfusion
          · show (update k₃.envs 0 _ 0).envId = 4096
            rw [update_self]
            exact hid'
          · show [((k₁.started 0).envs 0).envId] = [2048]
            rw [hrel]
          · refine (env_ids_unforgeable h₄ (show 2 < 2 ^ 21 by decide)).2.2.2.2.2 2048 ?_
            show 2048 ∈ [((k₁.started 0).envs 0).envId]
            rw [hrel]
            exact List.mem_singleton_self _
        next => cases htest
      next => cases htest
    next => cases htest
  next => cases htest

end Mos
