import Mathlib.Data.Fintype.Card
import Mathlib.Data.Fintype.Sum
import Mathlib.Data.Fintype.Prod
import Mathlib.Tactic.Common

/-!
# Counting references

Finitely many slots, each empty or holding a reference to a resource. `refCount σ f` is the number of
slots that hold `f`. A reference counter is exact if it agrees with `refCount`; what a proof of that
needs is how the number changes when one slot is written (`refCount_update`), and how the numbers of
different resources compare when their holders are paired up (`refCount_add_le`).
-/

namespace Lib

variable {ι φ : Type} [Fintype ι] [DecidableEq ι] [DecidableEq φ] {σ : ι → Option φ} {f g h : φ}
  {s : ι} {v : Option φ}

/-- The number of slots that hold `f`. -/
def refCount (σ : ι → Option φ) (f : φ) : Nat := (Finset.univ.filter fun s => σ s = some f).card

omit [DecidableEq ι] in
theorem refCount_eq_zero : refCount σ f = 0 ↔ ∀ s, σ s ≠ some f := by
  simp [refCount, Finset.filter_eq_empty_iff]

omit [DecidableEq ι] in
theorem refCount_pos (hs : σ s = some f) : 0 < refCount σ f := by
  rw [Nat.pos_iff_ne_zero]
  exact fun h0 => refCount_eq_zero.mp h0 s hs

/-- **Writing one slot moves the count by what the slot held and what it holds now.** -/
theorem refCount_update (σ : ι → Option φ) (s : ι) (v : Option φ) (f : φ) :
    refCount (Function.update σ s v) f + (if σ s = some f then 1 else 0)
      = refCount σ f + (if v = some f then 1 else 0) := by
  -- both counts split into the slot `s` and all the other slots, on which they agree
  have hsplit : ∀ τ : ι → Option φ, refCount τ f
      = ((Finset.univ.erase s).filter fun t => τ t = some f).card
        + (if τ s = some f then 1 else 0) := by
    intro τ
    unfold refCount
    rw [← Finset.insert_erase (Finset.mem_univ s), Finset.filter_insert]
    split
    · rw [Finset.card_insert_of_notMem (by simp), Finset.erase_insert (by simp)]
    · rw [Finset.erase_insert (by simp), Nat.add_zero]
  have hrest : ((Finset.univ.erase s).filter fun t => Function.update σ s v t = some f)
      = (Finset.univ.erase s).filter fun t => σ t = some f := by
    refine Finset.filter_congr fun t ht => ?_
    rw [Function.update_of_ne (Finset.ne_of_mem_erase ht)]
  rw [hsplit (Function.update σ s v), hsplit σ, hrest, Function.update_self]
  omega

theorem refCount_update_set (hs : σ s ≠ some f) :
    refCount (Function.update σ s (some f)) f = refCount σ f + 1 := by
  have h := refCount_update σ s (some f) f
  rwa [if_neg hs, if_pos rfl, Nat.add_zero] at h

theorem refCount_update_clear (hs : σ s = some f) (hv : v ≠ some f) :
    refCount (Function.update σ s v) f + 1 = refCount σ f := by
  have h := refCount_update σ s v f
  rwa [if_pos hs, if_neg hv, Nat.add_zero] at h

theorem refCount_update_other (hs : σ s ≠ some f) (hv : v ≠ some f) :
    refCount (Function.update σ s v) f = refCount σ f := by
  have h := refCount_update σ s v f
  rwa [if_neg hs, if_neg hv, Nat.add_zero, Nat.add_zero] at h

omit [DecidableEq ι] in
/-- A resource held by a single slot is counted once. -/
theorem refCount_eq_one (hs : σ s = some f) (huniq : ∀ t, σ t = some f → t = s) :
    refCount σ f = 1 := by
  unfold refCount
  rw [Finset.card_eq_one]
  refine ⟨s, ?_⟩
  ext t
  simp only [Finset.mem_filter, Finset.mem_univ, true_and, Finset.mem_singleton]
  exact ⟨huniq t, fun he => he ▸ hs⟩

omit [DecidableEq ι] in
/-- What is counted once is held by a single slot. -/
theorem refCount_one_unique (h : refCount σ f = 1) {s t : ι} (hs : σ s = some f)
    (ht : σ t = some f) : s = t := by
  obtain ⟨u, hu⟩ := Finset.card_eq_one.mp h
  have hmem : ∀ v, σ v = some f → v = u := by
    intro v hv
    have hv' : v ∈ Finset.univ.filter fun s => σ s = some f := by simpa using hv
    rw [hu] at hv'
    exact Finset.mem_singleton.mp hv'
  rw [hmem s hs, hmem t ht]

omit [DecidableEq ι] in
/-- What is counted more than once is held by another slot too. -/
theorem exists_other_of_refCount (h : 1 < refCount σ f) (s : ι) : ∃ t, t ≠ s ∧ σ t = some f := by
  obtain ⟨t, ht, hne⟩ := Finset.exists_mem_ne h s
  exact ⟨t, hne, by simpa using ht⟩

omit [DecidableEq ι] in
theorem one_lt_refCount {s t : ι} (hs : σ s = some f) (ht : σ t = some f) (hne : s ≠ t) :
    1 < refCount σ f :=
  Finset.one_lt_card.mpr ⟨s, by simpa using hs, t, by simpa using ht, hne⟩

omit [DecidableEq ι] in
/-- Holders with different labels are at most as many as there are labels. -/
theorem refCount_le_card {κ : Type} {t : Finset κ} (g : ι → κ) (hmem : ∀ s, σ s = some f → g s ∈ t)
    (hinj : ∀ s u, σ s = some f → σ u = some f → g s = g u → s = u) : refCount σ f ≤ t.card := by
  refine Finset.card_le_card_of_injOn g ?_ ?_
  · intro s hs
    exact hmem s (by simpa using hs)
  · intro s hs u hu heq
    exact hinj s u (by simpa using hs) (by simpa using hu) heq

omit [DecidableEq ι] in
/-- Slots that never hold `f` need not be looked at. -/
theorem refCount_comp {κ : Type} [Fintype κ] (g : κ → ι) (hg : Function.Injective g)
    (hrange : ∀ s, σ s = some f → ∃ t, g t = s) : refCount (fun t => σ (g t)) f = refCount σ f := by
  unfold refCount
  refine Finset.card_bij (fun t _ => g t) ?_ (fun t _ u _ heq => hg heq) ?_
  · intro t ht
    simpa using ht
  · intro s hs
    simp only [Finset.mem_filter, Finset.mem_univ, true_and] at hs
    obtain ⟨t, rfl⟩ := hrange s hs
    exact ⟨t, by simpa using hs, rfl⟩

omit [DecidableEq ι] in
theorem refCount_mono {τ : ι → Option φ} (h : ∀ s, σ s = some f → τ s = some f) :
    refCount σ f ≤ refCount τ f := by
  refine Finset.card_le_card fun s hs => ?_
  simp only [Finset.mem_filter, Finset.mem_univ, true_and] at hs ⊢
  exact h s hs

omit [DecidableEq ι] in
/-- The slots of a set and all the others. -/
theorem refCount_split (σ : ι → Option φ) (p : ι → Prop) [DecidablePred p] (f : φ) :
    refCount (fun s => if p s then σ s else none) f
      + refCount (fun s => if p s then none else σ s) f = refCount σ f := by
  have hsplit := Finset.card_filter_add_card_filter_not (s := Finset.univ.filter (σ · = some f)) p
  rw [Finset.filter_filter, Finset.filter_filter] at hsplit
  have hin : ∀ s, ((if p s then σ s else none) = some f) = (σ s = some f ∧ p s) := by
    intro s
    by_cases hs : p s <;> simp [hs]
  have hout : ∀ s, ((if p s then none else σ s) = some f) = (σ s = some f ∧ ¬p s) := by
    intro s
    by_cases hs : p s <;> simp [hs]
  unfold refCount
  simp only [hin, hout]
  exact hsplit

/-- New holders that all come from a set add at most its size to the count. -/
theorem refCount_le_add {κ : Type} [Fintype κ] {τ : ι → Option φ} (p : κ → Prop)
    [DecidablePred p] (g : κ → ι) (h : ∀ s, τ s = some f → σ s = some f ∨ ∃ c, p c ∧ g c = s) :
    refCount τ f ≤ refCount σ f + (Finset.univ.filter p).card := by
  have hsub : (Finset.univ.filter fun s => τ s = some f)
      ⊆ (Finset.univ.filter fun s => σ s = some f) ∪ (Finset.univ.filter p).image g := by
    intro s hs
    simp only [Finset.mem_filter, Finset.mem_univ, true_and, Finset.mem_union,
      Finset.mem_image] at hs ⊢
    exact h s hs
  calc (Finset.univ.filter fun s => τ s = some f).card
      ≤ ((Finset.univ.filter fun s => σ s = some f) ∪ (Finset.univ.filter p).image g).card :=
        Finset.card_le_card hsub
    _ ≤ _ := Finset.card_union_le _ _
    _ ≤ _ := Nat.add_le_add_left Finset.card_image_le _

/-- New holders, one for each element of a set, add its size to the count. -/
theorem add_le_refCount {κ : Type} [Fintype κ] {τ : ι → Option φ} (p : κ → Prop)
    [DecidablePred p] (g : κ → ι) (hg : Function.Injective g)
    (hold : ∀ s, σ s = some f → τ s = some f)
    (hnew : ∀ c, p c → τ (g c) = some f ∧ σ (g c) ≠ some f) :
    refCount σ f + (Finset.univ.filter p).card ≤ refCount τ f := by
  rw [← Finset.card_image_of_injective _ hg]
  unfold refCount
  rw [← Finset.card_union_of_disjoint]
  · refine Finset.card_le_card fun s hs => ?_
    simp only [Finset.mem_filter, Finset.mem_univ, true_and, Finset.mem_union,
      Finset.mem_image] at hs ⊢
    rcases hs with hs | ⟨c, hc, rfl⟩
    · exact hold s hs
    · exact (hnew c hc).1
  · rw [Finset.disjoint_left]
    intro s hs himage
    simp only [Finset.mem_filter, Finset.mem_univ, true_and, Finset.mem_image] at hs himage
    obtain ⟨c, hc, rfl⟩ := himage
    exact (hnew c hc).2 hs

omit [DecidableEq ι] in
/-- **Pairing.** If every slot that holds `f` or `g` has a partner of its own that holds `h`, then
`h` is held at least as often as `f` and `g` together. -/
theorem refCount_add_le (hfg : f ≠ g) (partner : ι → ι)
    (hp : ∀ s, σ s = some f ∨ σ s = some g → σ (partner s) = some h)
    (hinj : ∀ s t, σ s = some f ∨ σ s = some g → σ t = some f ∨ σ t = some g →
      partner s = partner t → s = t) :
    refCount σ f + refCount σ g ≤ refCount σ h := by
  classical
  unfold refCount
  rw [← Finset.card_union_of_disjoint]
  · refine Finset.card_le_card_of_injOn partner ?_ ?_
    · intro s hs
      simp only [Finset.mem_coe, Finset.mem_union, Finset.mem_filter, Finset.mem_univ,
        true_and] at hs
      simpa using hp s hs
    · intro s hs t ht he
      simp only [Finset.mem_coe, Finset.mem_union, Finset.mem_filter, Finset.mem_univ,
        true_and] at hs ht
      exact hinj s t hs ht he
  · rw [Finset.disjoint_filter]
    intro s _ hs hg
    rw [hs] at hg
    exact hfg (Option.some.inj hg)

/-! ## Counting up to a bound -/

/-- How many numbers below `N` come before `n` and satisfy `p`. -/
def countBelow (N : Nat) (p : Nat → Prop) [DecidablePred p] (n : Nat) : Nat :=
  (Finset.univ.filter fun m : Fin N => m.val < n ∧ p m).card

variable {N n : Nat} {p : Nat → Prop} [DecidablePred p]

theorem countBelow_le {q : Nat → Prop} [DecidablePred q] {n' : Nat}
    (h : ∀ m < N, m < n → p m → m < n' ∧ q m) : countBelow N p n ≤ countBelow N q n' := by
  refine Finset.card_le_card fun m hm => ?_
  simp only [Finset.mem_filter, Finset.mem_univ, true_and] at hm ⊢
  exact h m m.isLt hm.1 hm.2

theorem countBelow_eq_zero (h : ∀ m < n, ¬p m) : countBelow N p n = 0 := by
  rw [countBelow, Finset.card_eq_zero, Finset.filter_eq_empty_iff]
  exact fun m _ hm => h m hm.1 hm.2

theorem countBelow_pos {m : Nat} (hN : m < N) (hn : m < n) (hm : p m) : 0 < countBelow N p n := by
  refine Finset.card_pos.mpr ⟨⟨m, hN⟩, ?_⟩
  simpa using ⟨hn, hm⟩

theorem countBelow_succ_le : countBelow N p (n + 1) ≤ countBelow N p n + 1 := by
  by_cases hn : n < N
  · refine le_trans (Finset.card_le_card (fun m hm => ?_)) (Finset.card_insert_le ⟨n, hn⟩ _)
    simp only [Finset.mem_filter, Finset.mem_univ, true_and, Finset.mem_insert, Fin.ext_iff] at hm ⊢
    rcases Nat.lt_succ_iff_lt_or_eq.mp hm.1 with hlt | heq
    · exact .inr ⟨hlt, hm.2⟩
    · exact .inl heq
  · refine le_trans (Finset.card_le_card (fun m hm => ?_)) (Nat.le_succ _)
    simp only [Finset.mem_filter, Finset.mem_univ, true_and] at hm ⊢
    exact ⟨by omega, hm.2⟩

/-- A sequence that grows by at most one at a time leaves out no value. -/
theorem exists_eq_of_succ_le {a : Nat → Nat} (hstep : ∀ n, a (n + 1) ≤ a n + 1) {v : Nat}
    (hzero : a 0 ≤ v) : ∀ {n : Nat}, v ≤ a n → ∃ m ≤ n, a m = v
  | 0, hn => ⟨0, le_refl 0, le_antisymm hzero hn⟩
  | n + 1, hn => by
    rcases Nat.lt_or_ge (a n) v with hlt | hge
    · have := hstep n
      exact ⟨n + 1, le_refl _, by omega⟩
    · obtain ⟨m, hm, heq⟩ := exists_eq_of_succ_le hstep hzero hge
      exact ⟨m, Nat.le_succ_of_le hm, heq⟩

end Lib
