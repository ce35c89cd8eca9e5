import Mos.User.Cow

/-!
# What the envs read in their pages

An env cannot tell a page that is not mapped from a page of zeros: its first access maps a cleared
page there. `Spaces.word` is what it reads either way. A page that is the only one mapped to its frame
(`Spaces.Sole`) can be written without any other env, or any other page, taking notice, and the calls
of the user library change the words of the page they map and no others.
-/

namespace Mos

open Lib Function

namespace Spaces

/-- The word `i` of page `n`, as `e` reads it. -/
def word (s : Spaces) (e : EnvPtr) (n i : Nat) : Word := (s.load e n i).getD 0

/-- No other page is mapped to the frame of this one. -/
def Sole (s : Spaces) (e : EnvPtr) (n : Nat) : Prop :=
  ∀ w, s.pte e n = some w → ∀ e' n' w', s.pte e' n' = some w' → ppn w' = ppn w → e' = e ∧ n' = n

variable {s : Spaces} {e e' src : EnvPtr} {n n' m f i i' : Nat} {w x perm : Word}

@[simp] theorem word_mapped (h : s.pte e n = some w) (i : Nat) : s.word e n i = s.mem (ppn w) i := by
  simp [word, load, h]

@[simp] theorem word_unmapped (h : s.pte e n = none) (i : Nat) : s.word e n i = 0 := by
  simp [word, load, h]

@[simp] theorem pte_setWord (s : Spaces) (f i : Nat) (x : Word) : (s.setWord f i x).pte = s.pte := rfl

theorem mem_setWord (s : Spaces) (f g i j : Nat) (x : Word) :
    (s.setWord f i x).mem g j = if g = f ∧ j = i then x else s.mem g j := by
  by_cases hg : g = f
  · by_cases hj : j = i <;> simp [setWord, hg, hj]
  · simp [setWord, hg]

/-- A store to a page that shares its frame with no other. -/
theorem word_setWord (hs : s.Sole e n) (h : s.pte e n = some w) (e' : EnvPtr) (n' i i' : Nat)
    (x : Word) : (s.setWord (ppn w) i x).word e' n' i' =
      if e' = e ∧ n' = n ∧ i' = i then x else s.word e' n' i' := by
  cases h' : s.pte e' n' with
  | none =>
    have hne : ¬(e' = e ∧ n' = n ∧ i' = i) := by
      rintro ⟨rfl, rfl, -⟩
      rw [h] at h'
      cases h'
    rw [word_unmapped (by simpa using h'), word_unmapped h', if_neg hne]
  | some w' =>
    rw [word_mapped (s := s.setWord (ppn w) i x) h', word_mapped h', mem_setWord]
    by_cases hp : e' = e ∧ n' = n
    · obtain ⟨rfl, rfl⟩ := hp
      obtain rfl : w' = w := Option.some.inj (h'.symm.trans h)
      simp
    · have hne : ppn w' ≠ ppn w := fun hc => hp (hs w h e' n' w' h' hc)
      rw [if_neg fun hc => hne hc.1, if_neg fun hc => hp ⟨hc.1, hc.2.1⟩]

theorem Sole.congr {t : Spaces} (h : s.Sole e n) (hpte : ∀ e n, t.pte e n = s.pte e n) :
    t.Sole e n := by
  intro w hw e' n' w' hw'
  rw [hpte] at hw hw'
  exact h w hw e' n' w' hw'

/-! ## Allocating -/

theorem pte_memAlloc : (s.memAlloc e n perm f).pte e' n' =
    if e' = e ∧ n' = n then some (pageEntry f perm) else s.pte e' n' := rfl

theorem pte_memAlloc_self : (s.memAlloc e n perm f).pte e n = some (pageEntry f perm) :=
  if_pos ⟨rfl, rfl⟩

/-- A page from `sys_mem_alloc` is full of zeros, and nothing else changes. -/
theorem word_memAlloc (hf : f < 2 ^ 20) (hperm : perm < 4096) (hnew : ∀ e n, s.frame e n ≠ some f)
    (e' : EnvPtr) (n' i : Nat) : (s.memAlloc e n perm f).word e' n' i =
      if e' = e ∧ n' = n then 0 else s.word e' n' i := by
  by_cases hp : e' = e ∧ n' = n
  · obtain ⟨rfl, rfl⟩ := hp
    rw [word_mapped pte_memAlloc_self, ppn_pageEntry hf hperm]
    simp [memAlloc]
  · have hpte : (s.memAlloc e n perm f).pte e' n' = s.pte e' n' := if_neg hp
    rw [if_neg hp]
    cases h' : s.pte e' n' with
    | none => rw [word_unmapped (hpte.trans h'), word_unmapped h']
    | some w =>
      have hne : ppn w ≠ f := fun hc => hnew e' n' (frame_eq_some.mpr ⟨w, h', hc⟩)
      rw [word_mapped (hpte.trans h'), word_mapped h']
      exact congrFun (update_of_ne hne _ _) i

theorem sole_memAlloc (hf : f < 2 ^ 20) (hperm : perm < 4096) (hnew : ∀ e n, s.frame e n ≠ some f) :
    (s.memAlloc e n perm f).Sole e n := by
  intro w hw e' n' w' hw' hppn
  obtain rfl := Option.some.inj (pte_memAlloc_self.symm.trans hw)
  by_contra hp
  rw [pte_memAlloc, if_neg hp] at hw'
  rw [ppn_pageEntry hf hperm] at hppn
  exact hnew e' n' (frame_eq_some.mpr ⟨w', hw', hppn⟩)

/-- Another page is still the only one of its frame. -/
theorem Sole.memAlloc (h : s.Sole src m) (hf : f < 2 ^ 20) (hperm : perm < 4096)
    (hnew : ∀ e n, s.frame e n ≠ some f) (hne : ¬(src = e ∧ m = n)) :
    (s.memAlloc e n perm f).Sole src m := by
  intro w hw e' n' w' hw' hppn
  rw [pte_memAlloc, if_neg hne] at hw
  rw [pte_memAlloc] at hw'
  split at hw'
  · obtain rfl := Option.some.inj hw'
    rw [ppn_pageEntry hf hperm] at hppn
    exact absurd (frame_eq_some.mpr ⟨w, hw, hppn.symm⟩) (hnew src m)
  · exact h w hw e' n' w' hw' hppn

/-! ## Mapping -/

/-- A second mapping of a page reads the same words. -/
theorem word_map (hperm : perm < 4096) (h : s.pte src m = some w) (e' : EnvPtr) (n' i : Nat) :
    (s.setPte e n (some (pageEntry (ppn w) perm))).word e' n' i =
      if e' = e ∧ n' = n then s.word src m i else s.word e' n' i := by
  by_cases hp : e' = e ∧ n' = n
  · obtain ⟨rfl, rfl⟩ := hp
    have hpte : (s.setPte e' n' (some (pageEntry (ppn w) perm))).pte e' n'
        = some (pageEntry (ppn w) perm) := if_pos ⟨rfl, rfl⟩
    rw [word_mapped hpte, ppn_pageEntry (ppn_lt w) hperm, word_mapped h, if_pos ⟨rfl, rfl⟩, mem_setPte]
  · have hpte : (s.setPte e n (some (pageEntry (ppn w) perm))).pte e' n' = s.pte e' n' := if_neg hp
    rw [if_neg hp]
    cases h' : s.pte e' n' with
    | none => rw [word_unmapped (hpte.trans h'), word_unmapped h']
    | some w' => rw [word_mapped (hpte.trans h'), word_mapped h', mem_setPte]

theorem word_memUnmap (e' : EnvPtr) (n' i : Nat) : (s.memUnmap e n).word e' n' i =
    if e' = e ∧ n' = n then 0 else s.word e' n' i := by
  by_cases hp : e' = e ∧ n' = n
  · rw [if_pos hp, word_unmapped (if_pos hp)]
  · have hpte : (s.memUnmap e n).pte e' n' = s.pte e' n' := if_neg hp
    rw [if_neg hp]
    cases h' : s.pte e' n' with
    | none => rw [word_unmapped (hpte.trans h'), word_unmapped h']
    | some w' => rw [word_mapped (hpte.trans h'), word_mapped h', memUnmap, mem_setPte]

/-- A page that is mapped a second time and then unmapped at its old place has moved. -/
theorem sole_moved (hs : s.Sole e m) (hperm : perm < 4096) (h : s.pte e m = some w) (hne : n ≠ m) :
    ((s.setPte e n (some (pageEntry (ppn w) perm))).memUnmap e m).Sole e n := by
  have hself : ((s.setPte e n (some (pageEntry (ppn w) perm))).memUnmap e m).pte e n
      = some (pageEntry (ppn w) perm) := by simp [memUnmap, hne]
  intro w₁ hw₁ e' n' w' hw' hppn
  obtain rfl := Option.some.inj (hself.symm.trans hw₁)
  rw [ppn_pageEntry (ppn_lt w) hperm] at hppn
  by_contra hp
  rw [memUnmap, pte_setPte] at hw'
  split at hw'
  · cases hw'
  next hm =>
    rw [pte_setPte, if_neg hp] at hw'
    exact hm (hs w h e' n' w' hw' hppn)

end Spaces

end Mos
