import Mathlib.Data.List.TakeWhile

/-!
# The pieces of a list between separators

`pieces sep l` are the non-empty parts of `l` between the separators. A scanner that skips separators, takes
what comes up to the next separator, and skips again, finds these parts one after the other: `pieces_cons` is
its step.
-/

namespace Lib

variable {α : Type} [DecidableEq α] {sep c : α} {l m p : List α}

/-- The non-empty parts of `l` between the separators. -/
def pieces (sep : α) (l : List α) : List (List α) := (l.splitOn sep).filter fun p => p ≠ []

@[simp] theorem pieces_nil : pieces sep ([] : List α) = [] := rfl

theorem pieces_append_cons (l m : List α) :
    pieces sep (l ++ sep :: m) = pieces sep l ++ pieces sep m := by
  unfold pieces
  rw [List.splitOn_append_cons_of_beq l m (beq_self_eq_true sep), List.filter_append]

theorem pieces_of_notMem (h : sep ∉ l) (h0 : l ≠ []) : pieces sep l = [l] := by
  unfold pieces
  rw [List.splitOn_eq_singleton h]
  simp [h0]

/-- Separators at the beginning do not matter. -/
theorem pieces_dropWhile (l : List α) : pieces sep (l.dropWhile (· = sep)) = pieces sep l := by
  induction l with
  | nil => rfl
  | cons c l ih =>
    by_cases hc : c = sep
    · subst hc
      rw [List.dropWhile_cons_of_pos (by simp), ih]
      exact (pieces_append_cons [] l).symm
    · rw [List.dropWhile_cons_of_neg (by simpa using hc)]

theorem notMem_takeWhile (l : List α) : sep ∉ l.takeWhile (· ≠ sep) := by
  intro h
  have hc := List.mem_takeWhile_imp h
  simp at hc

omit [DecidableEq α] in
/-- What is left after a run does not go on with the run. -/
theorem head_of_dropWhile {q : α → Bool} (h : l.dropWhile q = c :: m) : q c = false := by
  have hne : l.dropWhile q ≠ [] := by
    rw [h]
    exact List.cons_ne_nil _ _
  have hhead := List.head_dropWhile_not q hne
  simpa only [h, List.head_cons] using hhead

/-- **One step of the scanner.** -/
theorem pieces_cons (hc : c ≠ sep) (l : List α) :
    pieces sep (c :: l) =
      (c :: l).takeWhile (· ≠ sep) :: pieces sep ((c :: l).dropWhile (· ≠ sep)) := by
  have hne : (c :: l).takeWhile (· ≠ sep) ≠ [] := by
    rw [List.takeWhile_cons_of_pos (by simpa using hc)]
    exact List.cons_ne_nil _ _
  have hsplit := List.takeWhile_append_dropWhile (p := fun x => decide (x ≠ sep)) (l := c :: l)
  cases hd : (c :: l).dropWhile (· ≠ sep) with
  | nil =>
    rw [hd, List.append_nil] at hsplit
    have hmem : sep ∉ (c :: l).takeWhile (· ≠ sep) := notMem_takeWhile (c :: l)
    rw [hsplit] at hmem
    rw [hsplit, pieces_of_notMem hmem (List.cons_ne_nil _ _)]
    rfl
  | cons d m =>
    have hdsep : d = sep := by simpa using head_of_dropWhile hd
    subst hdsep
    rw [hd] at hsplit
    calc pieces d (c :: l)
        = pieces d ((c :: l).takeWhile (· ≠ d) ++ d :: m) := by rw [hsplit]
      _ = [(c :: l).takeWhile (· ≠ d)] ++ pieces d m := by
          rw [pieces_append_cons, pieces_of_notMem (notMem_takeWhile _) hne]
      _ = (c :: l).takeWhile (· ≠ d) :: pieces d (d :: m) := by
          rw [show d :: m = [] ++ d :: m from rfl, pieces_append_cons]
          rfl

/-- There are no pieces exactly if there are only separators. -/
theorem pieces_eq_nil_iff : pieces sep l = [] ↔ l.dropWhile (· = sep) = [] := by
  rw [← pieces_dropWhile]
  cases hd : l.dropWhile (· = sep) with
  | nil => simp
  | cons c m =>
    have hc : c ≠ sep := by simpa using head_of_dropWhile hd
    rw [pieces_cons hc]
    simp

theorem mem_splitOn (h : p ∈ l.splitOn sep) : sep ∉ p ∧ ∀ c ∈ p, c ∈ l := by
  induction l generalizing p with
  | nil =>
    rw [List.splitOn_nil, List.mem_singleton] at h
    simp [h]
  | cons x l ih =>
    rw [List.splitOn_cons_eq_if_modifyHead] at h
    by_cases hx : x = sep
    · rw [if_pos (by simpa using hx), List.mem_cons] at h
      rcases h with rfl | h
      · simp
      · exact ⟨(ih h).1, fun c hc => List.mem_cons_of_mem _ ((ih h).2 c hc)⟩
    · rw [if_neg (by simpa using hx)] at h
      cases hs : l.splitOn sep with
      | nil => exact absurd hs (List.splitOn_ne_nil _ _)
      | cons q qs =>
        rw [hs, List.modifyHead_cons, List.mem_cons] at h
        rcases h with rfl | h
        · obtain ⟨hq, hin⟩ := ih (p := q) (by rw [hs]; exact List.mem_cons_self)
          refine ⟨fun hm => (List.mem_cons.mp hm).elim (fun h => hx h.symm) hq, ?_⟩
          intro c hc
          rcases List.mem_cons.mp hc with rfl | hc
          · exact List.mem_cons_self
          · exact List.mem_cons_of_mem _ (hin c hc)
        · obtain ⟨hq, hin⟩ := ih (p := p) (by rw [hs]; exact List.mem_cons_of_mem _ h)
          exact ⟨hq, fun c hc => List.mem_cons_of_mem _ (hin c hc)⟩

/-- A piece is not empty and has no separator in it. -/
theorem mem_pieces (h : p ∈ pieces sep l) : p ≠ [] ∧ sep ∉ p ∧ ∀ c ∈ p, c ∈ l := by
  unfold pieces at h
  rw [List.mem_filter] at h
  exact ⟨by simpa using h.2, mem_splitOn h.1⟩

end Lib
