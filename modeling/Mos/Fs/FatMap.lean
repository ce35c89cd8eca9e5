import Mos.Fs.FatMem
import Mathlib.Data.Nat.Count

/-!
# Mapping the pages of a cluster

The place of a cluster in memory is fixed. `map_cluster` maps the pages of that place which are not mapped
yet; when the kernel has no memory for one of them, it unmaps pages again, but not the ones that it has
mapped.
-/

namespace Mos

open Lib Prog Function

/-! ## The pages of a cluster -/

namespace Fat32Bpb

variable (bpb : Fat32Bpb) (c : Nat)

/-- The number of pages that hold a cluster. -/
def pages : Nat := max 1 (bpb.bytsPerCluster / 4096)

/-- The address `a` lies in a page that holds the cluster `c`. -/
def Holds (a : Nat) : Prop :=
  bpb.cluster2addr c / 4096 ≤ a / 4096 ∧ a / 4096 < bpb.cluster2addr c / 4096 + bpb.pages

theorem cluster2addr_aligned : bpb.cluster2addr c % 512 = 0 := by
  obtain ⟨n, -, h⟩ := bpb.exists_bytsPerCluster
  unfold cluster2addr
  rw [h, show (c + 2 ^ 32 - 2) * (512 * 2 ^ n) = 512 * ((c + 2 ^ 32 - 2) * 2 ^ n) by ring]
  omega

theorem cluster2addr_aligned_large (h : 4096 < bpb.bytsPerCluster) :
    bpb.cluster2addr c % 4096 = 0 := by
  have hmul := bpb.bytsPerCluster_large h.le
  unfold cluster2addr
  rw [← hmul, show (c + 2 ^ 32 - 2) * (bpb.bytsPerCluster / 4096 * 4096) =
    4096 * ((c + 2 ^ 32 - 2) * (bpb.bytsPerCluster / 4096)) by ring]
  omega

theorem pages_large (h : 4096 < bpb.bytsPerCluster) : bpb.pages = bpb.bytsPerCluster / 4096 := by
  unfold pages
  omega

theorem pages_small (h : bpb.bytsPerCluster ≤ 4096) : bpb.pages = 1 := by
  unfold pages
  omega

end Fat32Bpb

/-! ## Mapping the pages of a large cluster -/

theorem fatMemAlloc_eq (va : Nat) (s : FatFs) : fatMemAlloc va s =
    if s.avail 0 then .ret () (s.asked.mapZero va) else .err .noMem s.asked := by
  unfold fatMemAlloc
  rw [bind_apply]
  dsimp only [askFatPage]
  split <;> rfl

/-- The number of pages that are missing among the first `i` pages from `va` on. -/
def FatFs.absent (s : FatFs) (va i : Nat) : Nat :=
  Nat.count (fun j => s.fatvaIsMapped (va + 4096 * j) = false) i

/-- From `s` to `u`, the first `i` pages from `va` on have been mapped where they were not. -/
structure Stage (s : FatFs) (va i : Nat) (u : FatFs) : Prop where
  mapped : ∀ a, u.fatvaIsMapped a =
    (s.fatvaIsMapped a || decide (va / 4096 ≤ a / 4096 ∧ a / 4096 < va / 4096 + i))
  outside : ∀ a, ¬(va / 4096 ≤ a / 4096 ∧ a / 4096 < va / 4096 + i) →
    u.byte a = s.byte a ∧ u.fatvaIsDirty a = s.fatvaIsDirty a
  avail : ∀ k, u.avail k = s.avail (k + s.absent va i)
  rest : u = { s with cache := u.cache, avail := u.avail }

namespace Stage

variable {s u : FatFs} {va i : Nat}

theorem start (s : FatFs) (va : Nat) : Stage s va 0 s := by
  refine ⟨fun a => ?_, fun _ _ => ⟨rfl, rfl⟩, fun _ => rfl, rfl⟩
  have hno : ¬(va / 4096 ≤ a / 4096 ∧ a / 4096 < va / 4096 + 0) := by omega
  simp only [hno, decide_false, Bool.or_false]

/-- The next page is as it was. -/
theorem mapped_next (h : Stage s va i u) (hva : va % 4096 = 0) :
    u.fatvaIsMapped (va + 4096 * i) = s.fatvaIsMapped (va + 4096 * i) := by
  have hno : ¬(va / 4096 ≤ (va + 4096 * i) / 4096 ∧ (va + 4096 * i) / 4096 < va / 4096 + i) := by
    omega
  rw [h.mapped]
  simp only [hno, decide_false, Bool.or_false]

theorem skip (h : Stage s va i u) (hva : va % 4096 = 0)
    (hm : s.fatvaIsMapped (va + 4096 * i) = true) : Stage s va (i + 1) u := by
  refine ⟨fun a => ?_, fun a ha => h.outside a (by omega), fun k => ?_, h.rest⟩
  · rw [h.mapped]
    by_cases ha : a / 4096 = va / 4096 + i
    · have hpage : s.fatvaIsMapped a = true := by
        rw [FatFs.fatvaIsMapped_congr (a := va + 4096 * i) (by omega), hm]
      rw [hpage, Bool.true_or, Bool.true_or]
    · have hiff : (va / 4096 ≤ a / 4096 ∧ a / 4096 < va / 4096 + i) ↔
          (va / 4096 ≤ a / 4096 ∧ a / 4096 < va / 4096 + (i + 1)) := by omega
      simp only [hiff]
  · have hcount : s.absent va (i + 1) = s.absent va i := by
      unfold FatFs.absent
      rw [Nat.count_succ, if_neg (by simp [hm]), Nat.add_zero]
    rw [h.avail, hcount]

theorem alloc (h : Stage s va i u) (hva : va % 4096 = 0)
    (hm : s.fatvaIsMapped (va + 4096 * i) = false) :
    Stage s va (i + 1) (u.asked.mapZero (va + 4096 * i)) := by
  have hpage : ∀ a, a / 4096 = (va + 4096 * i) / 4096 ↔ a / 4096 = va / 4096 + i := by
    intro a
    omega
  refine ⟨fun a => ?_, fun a ha => ?_, fun k => ?_, ?_⟩
  · rw [FatFs.fatvaIsMapped_mapZero]
    show (u.fatvaIsMapped a || _) = _
    rw [h.mapped, Bool.or_assoc, ← Bool.decide_or]
    congr 2
    rw [hpage]
    apply propext
    omega
  · have hne : a / 4096 ≠ (va + 4096 * i) / 4096 := by omega
    rw [FatFs.byte_mapZero, FatFs.fatvaIsDirty_mapZero, if_neg hne, if_neg hne]
    exact h.outside a (by omega)
  · have hcount : s.absent va (i + 1) = s.absent va i + 1 := by
      unfold FatFs.absent
      rw [Nat.count_succ, if_pos hm]
    show u.avail (k + 1) = _
    rw [h.avail, hcount, Nat.add_right_comm, Nat.add_assoc]
  · rw [h.rest]
    rfl

end Stage

/-- Page `i` of the place at `va` is the first page for which the kernel has no memory. -/
structure Refused (s : FatFs) (va i : Nat) : Prop where
  absent : s.fatvaIsMapped (va + 4096 * i) = false
  refused : s.avail (s.absent va i) = false
  before : ∀ j < i, s.fatvaIsMapped (va + 4096 * j) = false → s.avail (s.absent va j) = true

/-- After the pages up to `i` have been taken back. -/
structure TakenBack (s : FatFs) (va i : Nat) (t : FatFs) : Prop where
  mapped : ∀ a, t.fatvaIsMapped a =
    ((s.fatvaIsMapped a || decide (va / 4096 ≤ a / 4096 ∧ a / 4096 < va / 4096 + i)) &&
      !decide (va / 4096 < a / 4096 ∧ a / 4096 ≤ va / 4096 + i))
  outside : ∀ a, ¬(va / 4096 ≤ a / 4096 ∧ a / 4096 ≤ va / 4096 + i) →
    t.byte a = s.byte a ∧ t.fatvaIsDirty a = s.fatvaIsDirty a
  rest : t = { s with cache := t.cache, avail := t.avail }

/-- The loop that unmaps. -/
theorem rollback_sat {s u : FatFs} {va i : Nat} (hva : va % 4096 = 0) (h : Stage s va i u) :
    (Prog.loop (fun j => Prog.modify fun s => s.unmap (va + 4096 * i - 4096 * j)) 0 i u.asked :
      Outcome FatFs Err FatPanic Unit).Sat (fun _ t => TakenBack s va i t) (fun _ _ => False)
      (fun _ => False) := by
  have hloop := sat_loop (σ := FatFs) (ε := Err) (π := FatPanic)
    (m := fun j => Prog.modify fun s => s.unmap (va + 4096 * i - 4096 * j))
    (I := fun j t => (∀ a, t.fatvaIsMapped a = (u.fatvaIsMapped a &&
        !decide (va / 4096 + (i - j) < a / 4096 ∧ a / 4096 ≤ va / 4096 + i))) ∧
      (∀ a, ¬(va / 4096 + (i - j) < a / 4096 ∧ a / 4096 ≤ va / 4096 + i) →
        t.byte a = u.byte a ∧ t.fatvaIsDirty a = u.fatvaIsDirty a) ∧
      t = { u with cache := t.cache, avail := t.avail })
    (E := fun _ _ => False) (H := fun _ => False) (n := i) (i := 0) (s := u.asked) ?_ ?_
  · refine hloop.mono ?_ (fun _ _ hf => hf) (fun _ hf => hf)
    rintro _ t ⟨hm, hout, hrest⟩
    rw [Nat.zero_add, Nat.sub_self, Nat.add_zero] at hm hout
    refine ⟨fun a => ?_, fun a ha => ?_, ?_⟩
    · rw [hm, h.mapped]
    · have h₁ := hout a (by omega)
      have h₂ := h.outside a (by omega)
      exact ⟨h₁.1.trans h₂.1, h₁.2.trans h₂.2⟩
    · rw [hrest, h.rest]
  · rintro j t - hj ⟨hm, hout, hrest⟩
    have hpage : ∀ a, a / 4096 = (va + 4096 * i - 4096 * j) / 4096 ↔
        a / 4096 = va / 4096 + (i - j) := by
      intro a
      omega
    refine ⟨fun a => ?_, fun a ha => ?_, ?_⟩
    · rw [FatFs.fatvaIsMapped_unmap, hm, Bool.and_assoc]
      congr 1
      rw [Bool.eq_iff_iff]
      simp only [Bool.and_eq_true, Bool.not_eq_true', decide_eq_false_iff_not, decide_eq_true_eq,
        ne_eq, hpage]
      omega
    · have hne : a / 4096 ≠ (va + 4096 * i - 4096 * j) / 4096 := by omega
      have h₁ := hout a (by omega)
      unfold FatFs.byte FatFs.fatvaIsDirty FatFs.unmap
      dsimp only
      rw [update_of_ne hne]
      exact h₁
    · rw [hrest]
      rfl
  · refine ⟨fun a => ?_, fun _ _ => ⟨rfl, rfl⟩, rfl⟩
    have hno : ¬(va / 4096 + (i - 0) < a / 4096 ∧ a / 4096 ≤ va / 4096 + i) := by omega
    simp only [hno, decide_false, Bool.not_false, Bool.and_true]
    rfl

/-- The loop of `map_cluster` over the pages: all of them get mapped, or one is refused. -/
theorem mapPages_sat {s : FatFs} {va : Nat} (hva : va % 4096 = 0) : ∀ n i u, Stage s va i u →
    (∀ j < i, s.fatvaIsMapped (va + 4096 * j) = false → s.avail (s.absent va j) = true) →
    (mapPages va i n u).Sat
      (fun _ t => Stage s va (i + n) t ∧ ∀ j < i + n, ¬Refused s va j)
      (fun _ t => ∃ k < i + n, Refused s va k ∧ TakenBack s va k t)
      (fun _ => False) := by
  intro n
  induction n with
  | zero =>
    intro i u h hbefore
    refine ⟨h, fun j hj hr => ?_⟩
    have hgiven := hbefore j hj hr.absent
    rw [hr.refused] at hgiven
    cases hgiven
  | succ n ih =>
    intro i u h hbefore
    rw [show i + (n + 1) = i + 1 + n by omega]
    rw [mapPages, get_bind, h.mapped_next hva]
    by_cases hm : s.fatvaIsMapped (va + 4096 * i) = true
    · rw [if_pos hm]
      refine ih (i + 1) u (h.skip hva hm) fun j hj hfalse => ?_
      by_cases hji : j = i
      · rw [hji, hm] at hfalse
        cases hfalse
      · exact hbefore j (by omega) hfalse
    · have hm' : s.fatvaIsMapped (va + 4096 * i) = false := by simpa using hm
      have hask : u.avail 0 = s.avail (s.absent va i) := by rw [h.avail, Nat.zero_add]
      rw [if_neg hm, sat_bind, sat_attempt, fatMemAlloc_eq, hask]
      by_cases ha : s.avail (s.absent va i) = true
      · rw [if_pos ha]
        refine ih (i + 1) _ (h.alloc hva hm') fun j hj hfalse => ?_
        by_cases hji : j = i
        · rw [hji, ha]
        · exact hbefore j (by omega) hfalse
      · rw [if_neg ha, Outcome.sat_err, sat_bind]
        refine (rollback_sat hva h).mono ?_ (fun _ _ hf => hf.elim) (fun _ hf => hf)
        intro _ t ht
        exact ⟨i, by omega, ⟨hm', by simpa using ha, hbefore⟩, ht⟩

theorem Refused.unique {s : FatFs} {va i j : Nat} (h : Refused s va i) (h' : Refused s va j) :
    i = j := by
  by_contra hne
  rcases Nat.lt_or_gt_of_ne hne with hlt | hlt
  · have hgiven := h'.before i hlt h.absent
    rw [h.refused] at hgiven
    cases hgiven
  · have hgiven := h.before j hlt h'.absent
    rw [h'.refused] at hgiven
    cases hgiven

theorem mapCluster_large {s : FatFs} {c : Nat} (h : 4096 < s.bpb.bytsPerCluster) :
    mapCluster c s = (do
      mapPages (s.bpb.cluster2addr c) 0 s.bpb.pages
      fatIdeRead (s.bpb.cluster2Sec c) (s.bpb.cluster2addr c) s.bpb.bytsPerCluster : FatM Unit) s := by
  unfold mapCluster
  rw [get_bind, if_pos h, s.bpb.pages_large h]

theorem exists_mapCluster_err {s : FatFs} {c i : Nat} (h : 4096 < s.bpb.bytsPerCluster)
    (hi : i < s.bpb.pages) (hr : Refused s (s.bpb.cluster2addr c) i) :
    ∃ e t, mapCluster c s = .err e t ∧ TakenBack s (s.bpb.cluster2addr c) i t := by
  have hpages := mapPages_sat (s.bpb.cluster2addr_aligned_large c h) s.bpb.pages 0 s
    (Stage.start s _) (by omega)
  rw [mapCluster_large h]
  cases hrun : mapPages (s.bpb.cluster2addr c) 0 s.bpb.pages s with
  | ret _ t =>
    rw [hrun] at hpages
    exact absurd hr (hpages.2 i (by omega))
  | err e t =>
    rw [hrun] at hpages
    obtain ⟨k, -, hk, hback⟩ := hpages
    obtain rfl := hr.unique hk
    exact ⟨e, t, bind_err hrun, hback⟩
  | halt p =>
    rw [hrun] at hpages
    exact hpages.elim

/-! ## A mapping that fails -/

end Mos
