import Mos.Fs.FatWalk

/-!
# Handing out a new table

`reInitFat` frees all entries of the table but the first two. From then on `alloc_cluster_num` hands out one
group of clusters behind the other, until it comes to the end that it takes for the end of the table.
-/

namespace Mos

open Lib Prog Function

/-- `reInitFat()`. -/
def reInitFat : FatM Unit := do
  let s ← Prog.get
  writeFat 0 fat32Used
  writeFat 1 fat32Used
  Prog.loop (fun i => writeFat i fat32Free) 2 (s.bpb.totSec32 - 2)

/-- `n` calls of `alloc_cluster_num()`, whatever they return. -/
def allocTimes : Nat → Nat → FatM Unit :=
  Prog.loop fun _ => do
    let _ ← Prog.attempt allocClusterNum
    pure ()

variable {s t : FatFs}

namespace FatFs

/-- The table after `reInitFat`. -/
def fresh (s : FatFs) (x : Nat) : Word :=
  if x < 2 then fat32Used else if x < s.bpb.totSec32 then fat32Free else s.fats x

/-- The first cluster of group `n`. -/
def groupAt (s : FatFs) (n : Nat) : Nat := 2 + n * s.bpb.group

theorem groupAt_succ (n : Nat) : s.groupAt (n + 1) = s.groupAt n + s.bpb.group := by
  unfold groupAt
  rw [Nat.succ_mul]
  omega

theorem groupAt_le {m n : Nat} (h : m ≤ n) : s.groupAt m ≤ s.groupAt n := by
  unfold groupAt
  exact Nat.add_le_add_left (Nat.mul_le_mul_right _ h) 2

/-- The table after `n` groups have been asked for. -/
def handed (s : FatFs) : Nat → Nat → Word
  | 0 => s.fresh
  | n + 1 => if s.groupAt n < s.bpb.totSec32 then claimed s.bpb.group (s.groupAt n) (s.handed n)
      else s.handed n

/-- The state after that. -/
def handedOut (s : FatFs) (n : Nat) : FatFs := { s with fats := s.handed n }

/-- The table, with the groups that are handed out, lies between `DISKMAP` and `DISKMAP + PDMAP`. -/
def FitsWindow (s : FatFs) : Prop :=
  ∀ n, s.groupAt n < s.bpb.totSec32 → s.groupAt (n + 1) ≤ fatWords

/-! ## The new table -/

theorem FitsWindow.totSec32_le (h : s.FitsWindow) : s.bpb.totSec32 ≤ fatWords := by
  have hpos := s.bpb.group_pos
  have hwords : 2 ≤ fatWords := by decide
  by_contra hno
  -- the group that holds the first entry outside the window
  have hdiv := Nat.div_add_mod (fatWords - 2) s.bpb.group
  have hmod := Nat.mod_lt (fatWords - 2) hpos
  rw [Nat.mul_comm] at hdiv
  have hle := h ((fatWords - 2) / s.bpb.group) (by unfold groupAt; omega)
  rw [groupAt_succ] at hle
  unfold groupAt at hle
  omega

theorem handed_low {x : Nat} (hx : x < 2) : ∀ n, s.handed n x = fat32Used
  | 0 => if_pos hx
  | n + 1 => by
    rw [handed]
    split
    · rw [claimed_of_not_mem (.inl (by unfold groupAt; omega))]
      exact handed_low hx n
    · exact handed_low hx n

/-- From the next group on, nothing has been written yet. -/
theorem handed_high {x : Nat} : ∀ n, s.groupAt n ≤ x → s.handed n x = s.fresh x
  | 0, _ => rfl
  | n + 1, hx => by
    rw [groupAt_succ] at hx
    rw [handed]
    split
    · rw [claimed_of_not_mem (.inr hx)]
      exact handed_high n (by omega)
    · exact handed_high n (by omega)

/-- The groups that have been handed out are not free. -/
theorem handed_ne_free (h : s.FitsWindow) {x : Nat} (hx : 2 ≤ x) (htot : x < s.bpb.totSec32) :
    ∀ n, x < s.groupAt n → s.handed n x ≠ fat32Free
  | 0, hlt => by
    unfold groupAt at hlt
    omega
  | n + 1, hlt => by
    rw [groupAt_succ] at hlt
    rw [handed]
    split
    next hin =>
      by_cases hbelow : x < s.groupAt n
      · rw [claimed_of_not_mem (.inl hbelow)]
        exact handed_ne_free h hx htot n hbelow
      · have hfit := h n hin
        rw [groupAt_succ] at hfit
        exact claimed_ne_free hfit (by omega) hlt
    next hout => exact handed_ne_free h hx htot n (by omega)

/-- Each group that has been handed out is a chain. -/
theorem handed_chain (h : s.FitsWindow) {i : Nat} (hi : s.groupAt i < s.bpb.totSec32) :
    ∀ n, i < n → FatChain (s.handed n) (s.groupAt i) (List.range' (s.groupAt i) s.bpb.group)
  | 0, hlt => absurd hlt (Nat.not_lt_zero i)
  | n + 1, hlt => by
    have hwords : fatWords < 2 ^ 32 := by decide
    have hfit := h i hi
    rw [groupAt_succ] at hfit
    by_cases hin : i = n
    · subst hin
      rw [handed, if_pos hi]
      exact claimed_chain _ (by omega) _ 0 (Nat.zero_add _) s.bpb.group_pos
    · have hold := handed_chain h hi n (by omega)
      rw [handed]
      split
      · -- the next group lies above
        refine hold.congr fun x hx => ?_
        have hle := s.groupAt_le (show i + 1 ≤ n by omega)
        rw [groupAt_succ] at hle
        rw [List.mem_range'_1] at hx
        rw [claimed_of_not_mem (.inl (by omega))]
      · exact hold

end FatFs

/-- The loop of `reInitFat`. -/
theorem freeLoop_eq : ∀ (n i : Nat) (s : FatFs), i + n ≤ fatWords →
    Prog.loop (fun i => writeFat i fat32Free) i n s =
      .ret () { s with fats := fun x => if i ≤ x ∧ x < i + n then fat32Free else s.fats x } := by
  intro n
  induction n with
  | zero =>
    intro i s _
    have hnone : ∀ x, ¬(i ≤ x ∧ x < i + 0) := by omega
    simp only [hnone, if_false]
    rfl
  | succ n ih =>
    intro i s hle
    rw [Prog.loop, bind_ret (writeFat_eq (by omega) fat32Free s), ih (i + 1) _ (by omega)]
    congr 2
    funext x
    dsimp only
    by_cases hx : x = i
    · subst hx
      rw [if_neg (by omega), update_self, if_pos (by omega)]
    · rw [update_of_ne hx]
      have hiff : (i + 1 ≤ x ∧ x < i + 1 + n) ↔ (i ≤ x ∧ x < i + (n + 1)) := by omega
      simp only [hiff]

theorem reInitFat_eq (h : s.bpb.totSec32 ≤ fatWords) : reInitFat s = .ret () (s.handedOut 0) := by
  have hwords : 2 ≤ fatWords := by decide
  unfold reInitFat
  rw [get_bind, bind_ret (writeFat_eq (by omega) fat32Used s),
    bind_ret (writeFat_eq (by omega) fat32Used _), freeLoop_eq _ _ _ (by omega)]
  congr 1
  unfold FatFs.handedOut FatFs.handed
  congr 1
  funext x
  unfold FatFs.fresh
  dsimp only
  by_cases hx : x < 2
  · rw [if_pos hx, if_neg (by omega)]
    obtain rfl | rfl : x = 0 ∨ x = 1 := by omega
    · rw [update_of_ne (by decide), update_self]
    · rw [update_self]
  · have hiff : (2 ≤ x ∧ x < 2 + (s.bpb.totSec32 - 2)) ↔ x < s.bpb.totSec32 := by omega
    rw [if_neg hx, update_of_ne (by omega), update_of_ne (by omega)]
    simp only [hiff]

/-- With a larger table the loop leaves the window. -/
theorem freeLoop_wild : ∀ (n i : Nat) (s : FatFs), i ≤ fatWords → fatWords < i + n →
    Prog.loop (fun i => writeFat i fat32Free) i n s = .halt .wild := by
  intro n
  induction n with
  | zero => intro i s hi hlt; omega
  | succ n ih =>
    intro i s hi hlt
    rw [Prog.loop]
    by_cases hlast : i = fatWords
    · exact bind_halt (writeFat_wild (by omega) fat32Free s)
    · rw [bind_ret (writeFat_eq (by omega) fat32Free s)]
      exact ih (i + 1) _ (by omega) (by omega)

theorem reInitFat_wild (h : fatWords < s.bpb.totSec32) : reInitFat s = .halt .wild := by
  have hwords : 2 ≤ fatWords := by decide
  unfold reInitFat
  rw [get_bind, bind_ret (writeFat_eq (by omega) fat32Used s),
    bind_ret (writeFat_eq (by omega) fat32Used _)]
  exact freeLoop_wild _ _ _ hwords (by omega)

/-! ## The calls -/

/-- Call `n` finds group `n`, if that begins below the end. -/
theorem allocClusterNum_handed (h : s.FitsWindow) {n : Nat} (hn : s.groupAt n < s.bpb.totSec32) :
    allocClusterNum (s.handedOut n) = .ret (s.groupAt n) (s.handedOut (n + 1)) := by
  have htwo : 2 ≤ s.groupAt n := Nat.le_add_right 2 _
  have hfit := h n hn
  rw [FatFs.groupAt_succ] at hfit
  have hfinds : Finds (s.handedOut n) (s.groupAt n) := by
    refine ⟨⟨htwo, ?_, fun d hd hlt => ?_⟩, hn, hfit⟩
    · show s.handed n (s.groupAt n) = _
      rw [FatFs.handed_high n (le_refl _)]
      unfold FatFs.fresh
      rw [if_neg (by omega), if_pos hn]
    · exact FatFs.handed_ne_free h hd (by omega) n hlt
  have hnext : s.handed (n + 1) = claimed s.bpb.group (s.groupAt n) (s.handed n) := if_pos hn
  rw [allocClusterNum_finds hfinds]
  unfold FatFs.handedOut FatFs.claimAt
  rw [hnext]

/-- After the last group it finds none. -/
theorem allocClusterNum_handed_all (h : s.FitsWindow) {n : Nat} (hn : s.bpb.totSec32 ≤ s.groupAt n) :
    allocClusterNum (s.handedOut n) = .err .noDisk (s.handedOut n) := by
  have hle := h.totSec32_le
  have hnone : ∀ d, 2 ≤ d → d < s.bpb.totSec32 → s.handed n d ≠ fat32Free := fun d hd hlt =>
    FatFs.handed_ne_free h hd hlt n (by omega)
  obtain ⟨c, hc, -, hfirst, -⟩ | ⟨-, -, heq⟩ | ⟨hbig, -, -⟩ := allocClusterNum_cases (s.handedOut n)
  · exact absurd hfirst.free (hnone c hfirst.le hc)
  · exact heq
  · exact absurd hle (Nat.not_le_of_lt hbig)

theorem allocTimes_handed (h : s.FitsWindow) : ∀ n i, allocTimes i n (s.handedOut i) =
    .ret () (s.handedOut (i + n)) := by
  intro n
  induction n with
  | zero => intro i; rfl
  | succ n ih =>
    intro i
    have hstep : (attempt allocClusterNum >>= fun _ => pure () : FatM Unit) (s.handedOut i) =
        .ret () (s.handedOut (i + 1)) := by
      by_cases hi : s.groupAt i < s.bpb.totSec32
      · exact bind_ret (attempt_ret (allocClusterNum_handed h hi))
      · have hsame : s.handed (i + 1) = s.handed i := if_neg hi
        unfold FatFs.handedOut
        rw [hsame]
        exact bind_ret (attempt_err (allocClusterNum_handed_all h (Nat.le_of_not_lt hi)))
    unfold allocTimes at ih ⊢
    rw [Prog.loop, bind_ret hstep, ih (i + 1), show i + 1 + n = i + (n + 1) by omega]

/-- The table has been handed out by the calls `0`, …, `n - 1` without overlap, and call `n` goes on:
it returns the first cluster of group `n`, of which nothing has been written since `reInitFat`, and writes
this group only, or it fails when there is none. -/
def HandsOut (s : FatFs) (n : Nat) : Prop :=
  ∃ u t, reInitFat s = .ret () u ∧ allocTimes 0 n u = .ret () t ∧
    (if s.groupAt n < s.bpb.totSec32 then
      (∀ x ∈ List.range' (s.groupAt n) s.bpb.group, t.fats x = u.fats x) ∧
        ∃ v, allocClusterNum t = .ret (s.groupAt n) v ∧
          ∀ x, x ∉ List.range' (s.groupAt n) s.bpb.group → v.fats x = t.fats x
    else allocClusterNum t = .err .noDisk t) ∧
    (∀ i < n, s.groupAt i < s.bpb.totSec32 →
      FatChain t.fats (s.groupAt i) (List.range' (s.groupAt i) s.bpb.group) ∧
        ∀ j < i, (List.range' (s.groupAt i) s.bpb.group).Disjoint
          (List.range' (s.groupAt j) s.bpb.group)) ∧
    t.fats 0 = fat32Used ∧ t.fats 1 = fat32Used

/-- **A new table is handed out completely and without overlap**, if it lies in the window. -/
theorem handsOut_of_fitsWindow (h : s.FitsWindow) (n : Nat) : HandsOut s n := by
  have htimes := allocTimes_handed h n 0
  rw [Nat.zero_add] at htimes
  refine ⟨s.handedOut 0, s.handedOut n, reInitFat_eq h.totSec32_le, htimes, ?_, fun i hi hlt => ?_,
    FatFs.handed_low (by decide) n, FatFs.handed_low (by decide) n⟩
  · split
    next hn =>
      refine ⟨fun x hx => ?_, s.handedOut (n + 1), allocClusterNum_handed h hn, fun x hx => ?_⟩
      · rw [List.mem_range'_1] at hx
        exact FatFs.handed_high n hx.1
      · rw [List.mem_range'_1] at hx
        show s.handed (n + 1) x = s.handed n x
        rw [FatFs.handed, if_pos hn, claimed_of_not_mem (by omega)]
    next hn => exact allocClusterNum_handed_all h (Nat.le_of_not_lt hn)
  · refine ⟨FatFs.handed_chain h hlt n hi, fun j hj x hx hx' => ?_⟩
    have hle := s.groupAt_le (show j + 1 ≤ i by omega)
    rw [FatFs.groupAt_succ] at hle
    rw [List.mem_range'_1] at hx hx'
    omega

/-- A disk with four clusters to a page hands out its table. -/
theorem handsOut_quarter : HandsOut (.blank quarterClusters) 3 := by
  refine handsOut_of_fitsWindow (fun n hn => ?_) 3
  have hgroup : (FatFs.blank quarterClusters).bpb.group = 4 := by decide
  have htot : (FatFs.blank quarterClusters).bpb.totSec32 = 2048 := rfl
  have hwords : fatWords = 1048576 := rfl
  rw [FatFs.groupAt_succ, hgroup]
  omega

/-- A disk with as many sectors as a positive `int` can count. -/
def hugeDisk : Fat32Bpb where
  bytsPerSec := 512
  secPerClus := 8
  rsvdSecCnt := 32
  numFATs := 1
  totSec32 := 2147483647
  fatSz32 := 2097152
  sector := pageClusters.sector
  cluster := pageClusters.cluster
  width := by decide

/-- `reInitFat` writes over the addresses behind the window, and would go on to those of the kernel. -/
theorem not_handsOut_huge : ¬HandsOut (.blank hugeDisk) 0 := by
  rintro ⟨u, t, hinit, -⟩
  rw [reInitFat_wild (by decide)] at hinit
  cases hinit

end Mos
