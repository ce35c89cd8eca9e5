import Mos.Fs.FatMap

/-!
# What `map_cluster` runs over

`map_cluster` reads as many sectors as the cluster has bytes, into a range of addresses that all clusters
share. So it reads over the clusters behind the one that it loads.
-/

namespace Mos

open Lib Prog Function

/-! ## The other clusters -/

/-- What can be seen of the pages that do not hold the cluster `c` is the same in `t` as in `s`. -/
def SameElsewhere (s : FatFs) (c : Nat) (t : FatFs) : Prop :=
  ∀ a, ¬s.bpb.Holds c a → t.fatvaIsMapped a = s.fatvaIsMapped a ∧
    t.fatvaIsDirty a = s.fatvaIsDirty a ∧ t.byte a = s.byte a

theorem clusterIsMapped_small {s : FatFs} {c : Nat} (h : s.bpb.bytsPerCluster ≤ 4096) :
    s.clusterIsMapped c = s.fatvaIsMapped (s.bpb.cluster2addr c) := by
  unfold FatFs.clusterIsMapped
  rw [if_pos h]

theorem mapCluster_small {s : FatFs} {c : Nat} (h : s.bpb.bytsPerCluster ≤ 4096)
    (hc : s.clusterIsMapped c = false) :
    mapCluster c s = if s.avail 0
      then fatIdeRead (s.bpb.cluster2Sec c) (s.bpb.cluster2addr c) s.bpb.bytsPerCluster
        (s.asked.mapZero (s.bpb.cluster2addr c))
      else .err .noMem (s.asked.unmap (s.bpb.cluster2addr c)) := by
  rw [clusterIsMapped_small h] at hc
  unfold mapCluster
  rw [get_bind, if_neg (by omega), if_neg (by simp [hc])]
  by_cases ha : s.avail 0 = true
  · rw [if_pos ha]
    exact bind_ret (attempt_ret ((fatMemAlloc_eq _ s).trans (if_pos ha)))
  · rw [if_neg ha]
    exact bind_ret (attempt_err ((fatMemAlloc_eq _ s).trans (if_neg ha)))

/-- One page is mapped. -/
theorem Stage.single {s : FatFs} {va : Nat} (hm : s.fatvaIsMapped va = false) :
    Stage s va 1 (s.asked.mapZero va) := by
  have hiff : ∀ a, (va / 4096 ≤ a / 4096 ∧ a / 4096 < va / 4096 + 1) ↔ a / 4096 = va / 4096 := by
    intro a
    omega
  refine ⟨fun a => ?_, fun a ha => ?_, fun k => ?_, rfl⟩
  · rw [FatFs.fatvaIsMapped_mapZero]
    simp only [hiff]
    rfl
  · rw [hiff] at ha
    rw [FatFs.byte_mapZero, FatFs.fatvaIsDirty_mapZero, if_neg ha, if_neg ha]
    exact ⟨rfl, rfl⟩
  · have hcount : s.absent va 1 = 1 := by
      unfold FatFs.absent
      rw [Nat.count_succ, Nat.count_zero, if_pos (by simpa using hm)]
    rw [hcount]
    rfl

/-- The pages that hold a cluster are those that `map_cluster` maps. -/
theorem Stage.same_elsewhere {s u : FatFs} {c : Nat}
    (h : Stage s (s.bpb.cluster2addr c) s.bpb.pages u) : SameElsewhere s c u := by
  intro a ha
  have hout := h.outside a ha
  refine ⟨?_, hout.2, hout.1⟩
  unfold Fat32Bpb.Holds at ha
  rw [h.mapped]
  simp only [ha, decide_false, Bool.or_false]

theorem TakenBack.same_elsewhere {s t : FatFs} {c k : Nat} (hk : k < s.bpb.pages)
    (h : TakenBack s (s.bpb.cluster2addr c) k t) : SameElsewhere s c t := by
  intro a ha
  unfold Fat32Bpb.Holds at ha
  generalize s.bpb.cluster2addr c = va at h ha
  have h₁ : ¬(va / 4096 ≤ a / 4096 ∧ a / 4096 < va / 4096 + k) := by omega
  have h₂ : ¬(va / 4096 < a / 4096 ∧ a / 4096 ≤ va / 4096 + k) := by omega
  have hout := h.outside a (by omega)
  refine ⟨?_, hout.2, hout.1⟩
  rw [h.mapped]
  simp only [h₁, h₂, decide_false, Bool.or_false, Bool.not_false, Bool.and_true]

/-- `map_cluster` of a small cluster that is not loaded, without memory. -/
theorem mapCluster_small_refused {s : FatFs} {c : Nat} (h : s.bpb.bytsPerCluster ≤ 4096)
    (hc : s.clusterIsMapped c = false) (ha : s.avail 0 = false) :
    ∃ e t, mapCluster c s = .err e t ∧ SameElsewhere s c t := by
  refine ⟨.noMem, s.asked.unmap (s.bpb.cluster2addr c), ?_, fun a hout => ?_⟩
  · rw [mapCluster_small h hc, if_neg (by simp [ha])]
  · have hne : a / 4096 ≠ s.bpb.cluster2addr c / 4096 := by
      unfold Fat32Bpb.Holds at hout
      rw [s.bpb.pages_small h] at hout
      omega
    rw [FatFs.fatvaIsMapped_unmap, FatFs.fatvaIsDirty_unmap hne, FatFs.byte_unmap hne,
      decide_eq_true hne, Bool.and_true]
    exact ⟨rfl, rfl, rfl⟩

theorem refused_zero {s : FatFs} {va : Nat} :
    Refused s va 0 ↔ s.fatvaIsMapped va = false ∧ s.avail 0 = false := by
  have hcount : s.absent va 0 = 0 := Nat.count_zero _
  constructor
  · rintro ⟨hm, ha, -⟩
    rw [hcount] at ha
    exact ⟨hm, ha⟩
  · rintro ⟨hm, ha⟩
    exact ⟨hm, by rw [hcount, ha], fun j hj => absurd hj (Nat.not_lt_zero j)⟩

/-- `map_cluster` of a cluster that is not loaded: a page is refused, or all pages of the cluster get
mapped and the sectors are read. -/
theorem mapCluster_cases {s : FatFs} {c : Nat} (hc : s.clusterIsMapped c = false) :
    (∃ i < s.bpb.pages, Refused s (s.bpb.cluster2addr c) i ∧
      ∃ e t, mapCluster c s = .err e t ∧ SameElsewhere s c t) ∨
    ((∀ i < s.bpb.pages, ¬Refused s (s.bpb.cluster2addr c) i) ∧
      ∃ u, Stage s (s.bpb.cluster2addr c) s.bpb.pages u ∧ mapCluster c s =
        fatIdeRead (s.bpb.cluster2Sec c) (s.bpb.cluster2addr c) s.bpb.bytsPerCluster u) := by
  by_cases h : s.bpb.bytsPerCluster ≤ 4096
  · have hm : s.fatvaIsMapped (s.bpb.cluster2addr c) = false := by rwa [← clusterIsMapped_small h]
    rw [s.bpb.pages_small h]
    by_cases ha : s.avail 0 = true
    · right
      refine ⟨fun i hi hr => ?_, _, Stage.single hm, ?_⟩
      · obtain rfl : i = 0 := by omega
        rw [(refused_zero.mp hr).2] at ha
        cases ha
      · rw [mapCluster_small h hc, if_pos ha]
    · left
      rw [Bool.not_eq_true] at ha
      exact ⟨0, Nat.one_pos, refused_zero.mpr ⟨hm, ha⟩, mapCluster_small_refused h hc ha⟩
  · have hlarge : 4096 < s.bpb.bytsPerCluster := Nat.lt_of_not_le h
    by_cases hr : ∃ i < s.bpb.pages, Refused s (s.bpb.cluster2addr c) i
    · obtain ⟨i, hi, hr⟩ := hr
      obtain ⟨e, t, herr, hback⟩ := exists_mapCluster_err hlarge hi hr
      exact .inl ⟨i, hi, hr, e, t, herr, hback.same_elsewhere hi⟩
    · right
      have hpages := mapPages_sat (s.bpb.cluster2addr_aligned_large c hlarge) s.bpb.pages 0 s
        (Stage.start s _) (fun j hj => absurd hj (Nat.not_lt_zero j))
      rw [Nat.zero_add] at hpages
      refine ⟨fun i hi hri => hr ⟨i, hi, hri⟩, ?_⟩
      cases hrun : mapPages (s.bpb.cluster2addr c) 0 s.bpb.pages s with
      | ret _ u =>
        rw [hrun] at hpages
        exact ⟨u, hpages.1, (mapCluster_large hlarge).trans (bind_ret hrun)⟩
      | err e t =>
        rw [hrun] at hpages
        obtain ⟨k, hk, hrk, -⟩ := hpages
        exact absurd ⟨k, hk, hrk⟩ hr
      | halt p =>
        rw [hrun] at hpages
        exact hpages.elim

end Mos
