import Mathlib.Data.Set.Insert
import Mathlib.Tactic.Common

/-!
# Slots that hold resources

A slot holds the resource whose number is in it; the number 0 stands for none. `Holds S v U` says that the
slots in `S` with the values `v` hold resources of `U` only, and no two of them the same one. The lemmas
say how this goes on when a resource is taken into a slot or given back, and when slots come and go.
-/

namespace Lib

open Function

variable {α : Type} {S S' : Set α} {v w : α → Nat} {U U' : Set Nat} {a : α} {r : Nat}

/-- Every slot in `S` is empty or holds a resource of `U`, and no other slot holds the same one. -/
structure Holds (S : Set α) (v : α → Nat) (U : Set Nat) : Prop where
  held : ∀ a ∈ S, v a ≠ 0 → v a ∈ U
  unique : ∀ a ∈ S, ∀ a' ∈ S, v a ≠ 0 → v a = v a' → a = a'

namespace Holds

/-- Only the values of the slots matter, and slots that come in are empty. -/
theorem congr (h : Holds S v U) (hv : ∀ a ∈ S', w a ≠ 0 → a ∈ S ∧ w a = v a) (hU : U ⊆ U') :
    Holds S' w U' where
  held a ha h0 := by
    obtain ⟨haS, heq⟩ := hv a ha h0
    exact hU (heq ▸ h.held a haS (heq ▸ h0))
  unique a ha a' ha' h0 heq := by
    obtain ⟨haS, hva⟩ := hv a ha h0
    obtain ⟨haS', hva'⟩ := hv a' ha' (heq ▸ h0)
    exact h.unique a haS a' haS' (hva ▸ h0) (by rw [← hva, ← hva', heq])

/-- An empty slot takes a new resource. -/
theorem take (h : Holds S v U) (hr : r ∉ U) (hv : ∀ a' ∈ S, a' ≠ a → w a' = v a')
    (hva : w a = r) : Holds S w (insert r U) where
  held a' ha' h0 := by
    by_cases heq : a' = a
    · rw [heq, hva]
      exact Set.mem_insert r U
    · rw [hv a' ha' heq] at h0 ⊢
      exact Set.mem_insert_of_mem r (h.held a' ha' h0)
  unique b hb c hc h0 heq := by
    have hne : ∀ d ∈ S, d ≠ a → w d ≠ 0 → w d ≠ r := by
      intro d hd hda hd0 hdr
      rw [hv d hd hda] at hd0 hdr
      exact hr (hdr ▸ h.held d hd hd0)
    by_cases hba : b = a <;> by_cases hca : c = a
    · rw [hba, hca]
    · rw [hba, hva] at heq h0
      exact absurd heq.symm (hne c hc hca (heq ▸ h0))
    · rw [hca, hva] at heq
      exact absurd heq (hne b hb hba h0)
    · rw [hv b hb hba] at heq h0
      rw [hv c hc hca] at heq
      exact h.unique b hb c hc h0 heq

/-- A slot gives its resource back. -/
theorem give (h : Holds S v U) (ha : a ∈ S) (hv : ∀ a' ∈ S, a' ≠ a → w a' = v a')
    (hva : w a = 0) : Holds S w (U \ {v a}) where
  held b hb h0 := by
    have hba : b ≠ a := by
      rintro rfl
      exact h0 hva
    rw [hv b hb hba] at h0 ⊢
    refine ⟨h.held b hb h0, fun heq => hba ?_⟩
    exact h.unique b hb a ha h0 heq
  unique b hb c hc h0 heq := by
    have hba : b ≠ a := by
      rintro rfl
      exact h0 hva
    have hca : c ≠ a := by
      rintro rfl
      exact h0 (heq.trans hva)
    rw [hv b hb hba] at heq h0
    rw [hv c hc hca] at heq
    exact h.unique b hb c hc h0 heq

end Holds

end Lib
