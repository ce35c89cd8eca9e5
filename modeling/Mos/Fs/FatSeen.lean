import Mos.Fs.FatGrow
import Mos.Fs.FatRead
import Mos.Fs.FatDir

/-!
# What can be read of a FAT32 disk

A byte of a cluster is in memory, or it will be when the cluster has been loaded. As long as every cluster
that is looked at is in memory, or can be loaded as it is on the disk (`Ready`), loading does not change
what there is to see (`peek`).
-/

namespace Mos

open Lib Prog Function

/-! ## Clusters that can be loaded as they are -/

namespace Fat32Bpb

variable {bpb : Fat32Bpb} {c d : Nat}

theorem cluster2addr_mod (bpb : Fat32Bpb) (c : Nat) : bpb.cluster2addr c % bpb.bytsPerCluster = 0 := by
  obtain ⟨n, hn, hb⟩ := bpb.exists_bytsPerCluster
  have hdvd : bpb.bytsPerCluster ∣ 524288 := by
    rw [hb, show 524288 = 512 * 2 ^ 10 from rfl]
    exact Nat.mul_dvd_mul_left 512 (Nat.pow_dvd_pow 2 hn)
  have hbase : bpb.bytsPerCluster ∣ 0x10400000 := hdvd.trans ⟨520, rfl⟩
  have hword : bpb.bytsPerCluster ∣ 2 ^ 32 := hdvd.trans ⟨8192, rfl⟩
  unfold cluster2addr
  rw [Nat.mod_mod_of_dvd _ hword]
  exact Nat.mod_eq_zero_of_dvd (Nat.dvd_add (Nat.dvd_mul_left _ _) hbase)

/-- The cluster `c` has pages of its own, and neither its address nor its place on the disk overflows. -/
structure Plain (bpb : Fat32Bpb) (c : Nat) : Prop where
  page : 4096 ≤ bpb.bytsPerCluster
  sector : bpb.bytsPerSec = 512
  addr : 0x10400000 + (c - 1) * bpb.bytsPerCluster ≤ 2 ^ 32
  disk : 512 * bpb.dataStartSector + (c - 1) * bpb.bytsPerCluster < 2 ^ 32

namespace Plain

theorem succ (hv : bpb.Valid c) : (c - 1) * bpb.bytsPerCluster =
    (c - 2) * bpb.bytsPerCluster + bpb.bytsPerCluster := by
  obtain ⟨h2, -⟩ := hv
  rw [show c - 1 = c - 2 + 1 by omega, Nat.succ_mul]

theorem cluster2addr_eq (h : bpb.Plain c) (hv : bpb.Valid c) :
    bpb.cluster2addr c = 0x10400000 + (c - 2) * bpb.bytsPerCluster := by
  have haddr := h.addr
  have hpage := h.page
  rw [succ hv] at haddr
  obtain ⟨h2, -⟩ := hv
  unfold cluster2addr
  rw [show c + 2 ^ 32 - 2 = c - 2 + 2 ^ 32 by omega, Nat.add_mul, Nat.mul_comm (2 ^ 32)]
  generalize (c - 2) * bpb.bytsPerCluster = x at *
  omega

theorem cluster2Sec_eq (h : bpb.Plain c) (hv : bpb.Valid c) :
    512 * bpb.cluster2Sec c = 512 * bpb.dataStartSector + (c - 2) * bpb.bytsPerCluster := by
  have hdisk := h.disk
  have hmul : (c - 2) * bpb.bytsPerCluster = 512 * ((c - 2) * bpb.secPerClus) := by
    unfold bytsPerCluster
    rw [h.sector]
    ring
  rw [succ hv] at hdisk
  rw [hmul] at hdisk ⊢
  obtain ⟨h2, -⟩ := hv
  unfold cluster2Sec
  rw [show c + 2 ^ 32 - 2 = c - 2 + 2 ^ 32 by omega, Nat.add_mul, Nat.mul_comm (2 ^ 32)]
  generalize (c - 2) * bpb.secPerClus = x at *
  omega

/-- Two such clusters do not share an address. -/
theorem unique (h : bpb.Plain c) (h' : bpb.Plain d) (hv : bpb.Valid c) (hv' : bpb.Valid d) {a : Nat}
    (ha : bpb.cluster2addr c ≤ a ∧ a < bpb.cluster2addr c + bpb.bytsPerCluster)
    (ha' : bpb.cluster2addr d ≤ a ∧ a < bpb.cluster2addr d + bpb.bytsPerCluster) : c = d := by
  rw [h.cluster2addr_eq hv] at ha
  rw [h'.cluster2addr_eq hv'] at ha'
  have hle : ∀ {m n : Nat}, m * bpb.bytsPerCluster < n * bpb.bytsPerCluster + bpb.bytsPerCluster → m ≤ n := by
    intro m n hlt
    rw [← Nat.succ_mul] at hlt
    exact Nat.le_of_lt_succ (Nat.lt_of_mul_lt_mul_right hlt)
  have h1 := hle (m := c - 2) (n := d - 2) (by omega)
  have h2 := hle (m := d - 2) (n := c - 2) (by omega)
  obtain ⟨hc, -⟩ := hv
  obtain ⟨hd, -⟩ := hv'
  omega

/-- `ide_read` reads the whole cluster. -/
theorem rounds (h : bpb.Plain c) (hv : bpb.Valid c) :
    ideBegin (bpb.cluster2Sec c) = 512 * bpb.cluster2Sec c ∧
      512 * ideRounds (bpb.cluster2Sec c) bpb.secPerClus = bpb.bytsPerCluster := by
  have hsec := h.cluster2Sec_eq hv
  have hdisk := h.disk
  have hmul : bpb.bytsPerCluster = 512 * bpb.secPerClus := by
    unfold bytsPerCluster
    rw [h.sector]
  rw [succ hv] at hdisk
  have hbegin : ideBegin (bpb.cluster2Sec c) = 512 * bpb.cluster2Sec c := by
    unfold ideBegin by2sect
    rw [Nat.mul_comm, Nat.mod_eq_of_lt (by omega)]
  refine ⟨hbegin, ?_⟩
  unfold ideRounds by2sect
  rw [hbegin, Nat.mul_comm bpb.secPerClus, ← hmul, Nat.mod_eq_of_lt (by omega), Nat.add_sub_cancel_left]
  omega

end Plain

end Fat32Bpb

namespace FatFs

variable {s t u : FatFs} {a c d j : Nat}

theorem clusterIsMapped_iff : s.clusterIsMapped c = true ↔
    ∀ j < s.bpb.bytsPerCluster, s.fatvaIsMapped (s.bpb.cluster2addr c + j) = true := by
  have hpos := s.bpb.bytsPerCluster_pos
  by_cases hle : s.bpb.bytsPerCluster ≤ 4096
  · rw [clusterIsMapped_small hle]
    constructor
    · intro h j hj
      rw [fatvaIsMapped_congr (a := s.bpb.cluster2addr c), h]
      -- the cluster does not cross the end of its page
      have hmod := s.bpb.cluster2addr_mod c
      obtain ⟨n, -, hb⟩ := s.bpb.exists_bytsPerCluster
      have hdvd : s.bpb.bytsPerCluster ∣ 4096 := by
        rcases Nat.lt_or_ge s.bpb.bytsPerCluster 4096 with hlt | hge
        · rcases s.bpb.bytsPerCluster_small hlt with h | h | h <;> rw [h] <;> decide
        · rw [show s.bpb.bytsPerCluster = 4096 by omega]
      obtain ⟨m, hm⟩ := hdvd
      obtain ⟨k, hk⟩ := Nat.dvd_of_mod_eq_zero hmod
      rw [hk]
      generalize s.bpb.bytsPerCluster = b at *
      have hpage : ∀ x < b, (b * k + x) / 4096 = k / m := by
        intro x hx
        rw [hm, ← Nat.div_div_eq_div_mul, Nat.mul_add_div hpos, Nat.div_eq_of_lt hx, Nat.add_zero]
      rw [hpage j hj]
      exact (hpage 0 hpos).symm
    · exact fun h => by simpa using h 0 hpos
  · unfold clusterIsMapped
    dsimp only
    rw [if_neg hle, List.all_eq_true]
    have hlarge := s.bpb.bytsPerCluster_large (by omega)
    have hal := s.bpb.cluster2addr_aligned_large c (by omega)
    constructor
    · intro h j hj
      rw [fatvaIsMapped_congr (a := s.bpb.cluster2addr c + 4096 * (j / 4096)) (by omega)]
      exact h _ (List.mem_range.mpr (by omega))
    · intro h i hi
      have := List.mem_range.mp hi
      exact h _ (by omega)

/-- The cluster `c` is in memory, or it is not and can be loaded as it is on the disk. -/
structure Ready (s : FatFs) (c : Nat) : Prop where
  valid : s.bpb.Valid c
  loads : s.clusterIsMapped c = true ∨ s.bpb.Plain c ∧
    ∀ j < s.bpb.bytsPerCluster, s.fatvaIsMapped (s.bpb.cluster2addr c + j) = false

/-- The byte that is at the address `a`, or will be when its cluster has been loaded. -/
def peek (s : FatFs) (a : Nat) : Byte :=
  if s.fatvaIsMapped a then s.byte a else s.disk (512 * s.bpb.dataStartSector + (a - 0x10400000))

theorem peek_mapped (h : s.fatvaIsMapped a = true) : s.peek a = s.byte a := if_pos h

/-- The kernel never runs out of memory. -/
def Stocked (s : FatFs) : Prop := ∀ k, s.avail k = true

/-- From `s` to `t`, clusters may have been loaded, and the `dir` fields of entries changed: those are behind
the 32 bytes that an entry has on the disk. -/
structure Sees (s t : FatFs) : Prop where
  mapped : ∀ a, s.fatvaIsMapped a = true → t.fatvaIsMapped a = true
  byte : ∀ a, s.fatvaIsMapped a = true → a % 64 < 32 → t.byte a = s.byte a
  ready : ∀ c, s.Ready c → t.Ready c
  peek : ∀ c, s.Ready c → ∀ j < s.bpb.bytsPerCluster, (s.bpb.cluster2addr c + j) % 64 < 32 →
    t.peek (s.bpb.cluster2addr c + j) = s.peek (s.bpb.cluster2addr c + j)
  stocked : s.Stocked → t.Stocked
  rest : t = { s with cache := t.cache, avail := t.avail }

namespace Sees

theorem refl (s : FatFs) : s.Sees s :=
  ⟨fun _ h => h, fun _ _ _ => rfl, fun _ h => h, fun _ _ _ _ _ => rfl, fun h => h, rfl⟩

theorem bpb (h : s.Sees t) : t.bpb = s.bpb := by rw [h.rest]

theorem fats (h : s.Sees t) : t.fats = s.fats := by rw [h.rest]

theorem trans (h : s.Sees t) (h' : t.Sees u) : s.Sees u where
  mapped a ha := h'.mapped a (h.mapped a ha)
  byte a ha hk := (h'.byte a (h.mapped a ha) hk).trans (h.byte a ha hk)
  ready c hc := h'.ready c (h.ready c hc)
  peek c hc j hj hk := by
    have h2 := h'.peek c (h.ready c hc) j (by rwa [h.bpb]) (by rwa [h.bpb])
    rw [h.bpb] at h2
    rw [h2, h.peek c hc j hj hk]
  stocked hs := h'.stocked (h.stocked hs)
  rest := by rw [h'.rest, h.rest]

end Sees

end FatFs

/-! ## Loading a cluster -/

namespace FatFs

variable {s t : FatFs} {c : Nat}

theorem tried_mapped {va a : Nat} : (s.tried va).fatvaIsMapped a =
    (s.fatvaIsMapped a || (s.avail 0 && decide (a / 4096 = va / 4096))) := by
  unfold tried
  split
  next h =>
    rw [fatvaIsMapped_mapZero, h, Bool.true_and]
    rfl
  next h =>
    rw [Bool.not_eq_true] at h
    rw [h, Bool.false_and, Bool.or_false]
    rfl

theorem tried_byte {va a : Nat} (h : a / 4096 ≠ va / 4096) : (s.tried va).byte a = s.byte a := by
  unfold tried
  split
  · rw [byte_mapZero, if_neg h]
    rfl
  · rfl

theorem tried_rest (s : FatFs) (va : Nat) :
    s.tried va = { s with cache := (s.tried va).cache, avail := (s.tried va).avail } := by
  unfold tried
  split <;> rfl

/-- A cluster that is not in memory is read into new pages. -/
theorem Ready.sees_of_readIn (h : s.Ready c) (hm : s.clusterIsMapped c = false)
    (hin : ReadIn (512 * s.bpb.cluster2Sec c) (s.bpb.cluster2addr c) 0 s.bpb.secPerClus
      (s.tried (s.bpb.cluster2addr c)) t) (hst : s.Stocked → t.Stocked) :
    s.Sees t ∧ t.clusterIsMapped c = true := by
  obtain ⟨hplain, hout⟩ := h.loads.resolve_left (by simp [hm])
  have hrest : t = { s with cache := t.cache, avail := t.avail } := by
    rw [hin.rest, s.tried_rest]
  have hbpb : t.bpb = s.bpb := by rw [hrest]
  have hdisk : t.disk = s.disk := by rw [hrest]
  have hpage := hplain.page
  have hbytes : 512 * s.bpb.secPerClus = s.bpb.bytsPerCluster := by
    unfold Fat32Bpb.bytsPerCluster
    rw [hplain.sector]
  have hal : s.bpb.cluster2addr c % 4096 = 0 ∧ s.bpb.bytsPerCluster % 4096 = 0 := by
    have hmul := s.bpb.bytsPerCluster_large hpage
    have hdvd : 4096 ∣ s.bpb.bytsPerCluster := ⟨s.bpb.bytsPerCluster / 4096, by omega⟩
    have haddr := hdvd.trans (Nat.dvd_of_mod_eq_zero (s.bpb.cluster2addr_mod c))
    exact ⟨Nat.mod_eq_zero_of_dvd haddr, Nat.mod_eq_zero_of_dvd hdvd⟩
  -- the pages of the cluster are mapped, and no others
  have hmapped : ∀ a, t.fatvaIsMapped a = true ↔ s.fatvaIsMapped a = true ∨
      s.bpb.cluster2addr c ≤ a ∧ a < s.bpb.cluster2addr c + s.bpb.bytsPerCluster := by
    intro a
    rw [hin.mapped, tried_mapped, Bool.or_eq_true, Bool.or_eq_true, Bool.and_eq_true, decide_eq_true_eq,
      decide_eq_true_eq]
    generalize s.bpb.cluster2addr c = va at *
    constructor
    · rintro ((ha | ⟨-, ha⟩) | ⟨k, hk, hlt, hp⟩)
      · exact .inl ha
      · exact .inr (by omega)
      · exact .inr (by omega)
    · rintro (ha | ha)
      · exact .inl (.inl ha)
      · exact .inr ⟨(a - va) / 512, by omega, by omega, by omega⟩
  have hnew : ∀ j < s.bpb.bytsPerCluster, t.byte (s.bpb.cluster2addr c + j) =
      s.disk (512 * s.bpb.cluster2Sec c + j) := by
    intro j hj
    rw [hin.byte_in (Nat.le_add_right _ _) (by omega), Nat.add_sub_cancel_left, tried_disk]
  have hcluster : t.clusterIsMapped c = true := by
    rw [clusterIsMapped_iff, hbpb]
    exact fun j hj => (hmapped _).mpr (.inr ⟨Nat.le_add_right _ _, by omega⟩)
  have hbyte : ∀ a, s.fatvaIsMapped a = true → t.byte a = s.byte a := by
    intro a ha
    have hrange : ¬(s.bpb.cluster2addr c ≤ a ∧ a < s.bpb.cluster2addr c + s.bpb.bytsPerCluster) := by
      rintro ⟨hle, hlt⟩
      have := hout (a - s.bpb.cluster2addr c) (by omega)
      rw [show s.bpb.cluster2addr c + (a - s.bpb.cluster2addr c) = a by omega, ha] at this
      cases this
    rw [hin.byte_out (by rw [hbytes]; exact hrange), tried_byte (by omega)]
  -- another cluster is as it was
  have hother : ∀ d, s.bpb.Valid d → s.bpb.Plain d → d ≠ c →
      ∀ j < s.bpb.bytsPerCluster, t.fatvaIsMapped (s.bpb.cluster2addr d + j) =
        s.fatvaIsMapped (s.bpb.cluster2addr d + j) := by
    intro d hv hd hne j hj
    rw [Bool.eq_iff_iff, hmapped]
    refine ⟨?_, .inl⟩
    rintro (hs | hs)
    · exact hs
    · exact absurd (hd.unique hplain hv h.valid ⟨Nat.le_add_right _ _, by omega⟩ hs) hne
  refine ⟨⟨fun a ha => (hmapped a).mpr (.inl ha), fun a ha _ => hbyte a ha, ?_, ?_, hst, hrest⟩, hcluster⟩
  · intro d hd
    refine ⟨by rw [hbpb]; exact hd.valid, ?_⟩
    by_cases hdc : d = c
    · exact .inl (hdc ▸ hcluster)
    · rcases hd.loads with hload | ⟨hplain', hout'⟩
      · refine .inl ?_
        rw [clusterIsMapped_iff] at hload ⊢
        rw [hbpb]
        exact fun j hj => (hmapped _).mpr (.inl (hload j hj))
      · refine .inr ⟨by rw [hbpb]; exact hplain', ?_⟩
        rw [hbpb]
        exact fun j hj => (hother d hd.valid hplain' hdc j hj).trans (hout' j hj)
  · intro d hd j hj _
    unfold peek
    rw [hbpb, hdisk]
    by_cases hs : s.fatvaIsMapped (s.bpb.cluster2addr d + j) = true
    · rw [if_pos hs, if_pos ((hmapped _).mpr (.inl hs)), hbyte _ hs]
    · have hload : s.clusterIsMapped d ≠ true := fun hd => hs (clusterIsMapped_iff.mp hd j hj)
      have hplain' := (hd.loads.resolve_left hload).1
      rw [if_neg hs]
      by_cases hdc : d = c
      · have hsec := hplain.cluster2Sec_eq h.valid
        have haddr := hplain.cluster2addr_eq h.valid
        have harg : 512 * s.bpb.cluster2Sec c + j =
            512 * s.bpb.dataStartSector + (s.bpb.cluster2addr c + j - 0x10400000) := by omega
        rw [hdc, if_pos ((hmapped _).mpr (.inr ⟨Nat.le_add_right _ _, by omega⟩)), hnew j hj, harg]
      · rw [hother d hd.valid hplain' hdc j hj, if_neg hs]

end FatFs

open FatFs in
/-- `read_cluster` of a cluster that is ready. -/
theorem readCluster_ready {s : FatFs} {c : Nat} (h : s.Ready c) :
    (readCluster c s).Sat (fun p t => p.1 = s.bpb.cluster2addr c ∧ s.Sees t ∧ t.clusterIsMapped c = true)
      (fun _ _ => False) (fun p => p = .noMemory ∧ ¬s.Stocked) := by
  cases hm : s.clusterIsMapped c with
  | true =>
    rw [readCluster_mapped h.valid hm]
    exact ⟨rfl, Sees.refl s, hm⟩
  | false =>
    obtain ⟨hplain, -⟩ := h.loads.resolve_left (by simp [hm])
    obtain ⟨hbegin, hrounds⟩ := hplain.rounds h.valid
    have hspc : ideRounds (s.bpb.cluster2Sec c) s.bpb.secPerClus = s.bpb.secPerClus := by
      unfold Fat32Bpb.bytsPerCluster at hrounds
      rw [hplain.sector] at hrounds
      omega
    rw [readCluster_absent h.valid hm]
    refine sat_call (fatIdeRead_sat (s.bpb.cluster2Sec c) s.bpb.secPerClus (s.bpb.cluster2addr_aligned c)
      (s.tried (s.bpb.cluster2addr c))) ?_ (fun _ _ h => h) ?_
    · rintro _ t ⟨hin, -, havail⟩
      rw [hbegin, hspc] at hin
      refine ⟨rfl, h.sees_of_readIn hm hin fun hs k => ?_⟩
      rw [havail]
      exact (tried_avail s _ _).trans (hs _)
    · rintro p ⟨rfl, k, -, hk⟩
      refine ⟨rfl, fun hs => ?_⟩
      rw [tried_avail, hs] at hk
      cases hk

/-! ## What stays the same -/

/-- The addresses of the clusters in `K`. -/
def Fat32Bpb.area (bpb : Fat32Bpb) (K : Set Nat) : Set Nat :=
  {a | ∃ c ∈ K, ∃ j < bpb.bytsPerCluster, a = bpb.cluster2addr c + j}

namespace FatFs

variable {s t u : FatFs} {K W W' : Set Nat} {a f n : Nat}

/-- From `s` to `t`, nothing that entries have on the disk has changed in the clusters of `K`, apart from the
bytes in `W`. -/
structure Spares (K W : Set Nat) (s t : FatFs) : Prop where
  bpb : t.bpb = s.bpb
  ready : ∀ c ∈ K, s.Ready c → t.Ready c
  mapped : ∀ a ∈ s.bpb.area K, s.fatvaIsMapped a = true → t.fatvaIsMapped a = true
  peek : ∀ a ∈ s.bpb.area K, a % 64 < 32 → a ∉ W → t.peek a = s.peek a

theorem Sees.spares (h : s.Sees t) (hK : ∀ c ∈ K, s.Ready c) : Spares K W s t where
  bpb := h.bpb
  ready c _ := h.ready c
  mapped a _ := h.mapped a
  peek := by
    rintro _ ⟨c, hc, j, hj, rfl⟩ hk -
    exact h.peek c (hK c hc) j hj hk

namespace Spares

theorem trans (h : Spares K W s t) (h' : Spares K W t u) : Spares K W s u where
  bpb := h'.bpb.trans h.bpb
  ready c hc hr := h'.ready c hc (h.ready c hc hr)
  mapped a ha hm := h'.mapped a (by rwa [h.bpb]) (h.mapped a ha hm)
  peek a ha hk hW := (h'.peek a (by rwa [h.bpb]) hk hW).trans (h.peek a ha hk hW)

theorem mono (h : Spares K W s t) (hW : W ⊆ W') : Spares K W' s t :=
  ⟨h.bpb, h.ready, h.mapped, fun a ha hk hW' => h.peek a ha hk fun hw => hW' (hW hw)⟩

end Spares

/-- Stores to mapped bytes. -/
theorem spares_of_bytes (hbpb : t.bpb = s.bpb) (hdisk : t.disk = s.disk)
    (hm : ∀ a, t.fatvaIsMapped a = s.fatvaIsMapped a) (hb : ∀ a, a ∉ W → t.byte a = s.byte a) :
    Spares K W s t where
  bpb := hbpb
  ready c _ hr := by
    refine ⟨by rw [hbpb]; exact hr.valid, ?_⟩
    rw [clusterIsMapped_iff, hbpb]
    simp only [hm]
    rw [← clusterIsMapped_iff]
    exact hr.loads
  mapped a _ h := by rw [hm, h]
  peek a _ _ hW := by
    unfold FatFs.peek
    rw [hm, hbpb, hdisk, hb a hW]

theorem fatvaIsMapped_setByte {b : Byte} : (s.setByte f b).fatvaIsMapped a = s.fatvaIsMapped a :=
  fatvaIsMapped_editPage _

theorem byte_setFileSize (hf : s.IsEntry f) (ha : ¬(f + 28 ≤ a ∧ a < f + 32)) :
    (s.setFileSize f n).byte a = s.byte a := by
  have h1 := hf.setHalf (f + 30) (n / 65536)
  unfold setFileSize
  rw [byte_setHalf (h1.byte_mapped (i := 28) (by decide)) (h1.byte_mapped (i := 29) (by decide)) (by omega)
      (by omega),
    byte_setHalf (hf.byte_mapped (i := 30) (by decide)) (hf.byte_mapped (i := 31) (by decide)) (by omega)
      (by omega)]

theorem byte_setFstClus (hf : s.IsEntry f) (ha : ¬(f + 20 ≤ a ∧ a < f + 28)) :
    (s.setFstClus f n).byte a = s.byte a := by
  have h1 := hf.setHalf (f + 20) (n / 65536)
  unfold setFstClus
  rw [byte_setHalf (h1.byte_mapped (i := 26) (by decide)) (h1.byte_mapped (i := 27) (by decide)) (by omega)
      (by omega),
    byte_setHalf (hf.byte_mapped (i := 20) (by decide)) (hf.byte_mapped (i := 21) (by decide)) (by omega)
      (by omega)]

theorem byte_setDir (hf : s.IsEntry f) (ha : ¬(f + 32 ≤ a ∧ a < f + 36)) :
    (s.setDir f n).byte a = s.byte a := by
  have h1 := hf.setHalf (f + 34) (n / 65536)
  unfold setDir
  rw [byte_setHalf (h1.byte_mapped (i := 32) (by decide)) (h1.byte_mapped (i := 33) (by decide)) (by omega)
      (by omega),
    byte_setHalf (hf.byte_mapped (i := 34) (by decide)) (hf.byte_mapped (i := 35) (by decide)) (by omega)
      (by omega)]

/-- A store to `dir` cannot be seen. -/
theorem sees_setDir (hf : s.IsEntry f) : s.Sees (s.setDir f n) := by
  have hm : ∀ a, (s.setDir f n).fatvaIsMapped a = s.fatvaIsMapped a := fun a => by
    rw [setDir, fatvaIsMapped_setHalf, fatvaIsMapped_setHalf]
  have hal := hf.aligned
  have hb : ∀ a, a % 64 < 32 → (s.setDir f n).byte a = s.byte a := fun a ha =>
    byte_setDir hf (by omega)
  have hp : ∀ a, a % 64 < 32 → (s.setDir f n).peek a = s.peek a := fun a ha => by
    unfold peek
    rw [hm, hb a ha]
    rfl
  refine ⟨fun a h => by rw [hm, h], fun a _ ha => hb a ha, fun c hc => ?_, fun c _ j _ hj => hp _ hj,
    fun h => h, rfl⟩
  exact (spares_of_bytes (s := s) (t := s.setDir f n) (K := Set.univ) (W := Set.univ) rfl rfl hm fun a ha =>
    absurd (Set.mem_univ a) ha).ready c (Set.mem_univ c) hc

/-- A page is marked as dirty: that cannot be seen, either. -/
theorem sees_mark (s : FatFs) (va : Nat) : s.Sees (s.mark va) := by
  have hm : ∀ a, (s.mark va).fatvaIsMapped a = s.fatvaIsMapped a := fun a => fatvaIsMapped_editPage _
  have hb : ∀ a, (s.mark va).byte a = s.byte a := fun a => by
    unfold mark byte editPage
    dsimp only
    by_cases ha : a / 4096 = va / 4096
    · rw [ha, update_self]
      cases s.cache (va / 4096) <;> rfl
    · rw [update_of_ne ha]
  have hp : ∀ a, (s.mark va).peek a = s.peek a := fun a => by
    unfold peek
    rw [hm, hb]
    rfl
  refine ⟨fun a h => by rw [hm, h], fun a _ _ => hb a, fun c hc => ?_, fun c _ j _ _ => hp _, fun h => h,
    rfl⟩
  exact (spares_of_bytes (s := s) (t := s.mark va) (K := Set.univ) (W := ∅) rfl rfl hm
    fun a _ => hb a).ready c (Set.mem_univ c) hc

end FatFs

/-- `dirty_cluster` changes nothing that can be seen. -/
theorem dirtyCluster_sees (s : FatFs) (c : Nat) : Within (s.Sees ·) (fun _ => False) (dirtyCluster c) := by
  have hpage : ∀ va, Within (s.Sees ·) (fun _ => False) (dirtyPage va) := fun va =>
    within_get fun t ht => within_ite (within_fail _)
      (within_ite (within_pure _) (within_put (ht.trans (t.sees_mark va))))
  exact within_get fun t _ => within_ite (hpage _) (within_loop (fun i => hpage _) _ _)

/-! ## Loading a new cluster -/

section Load

variable {s t u : FatFs} {c g a : Nat} {K : Set Nat}

theorem Fat32Bpb.cluster2addr_page (bpb : Fat32Bpb) (c : Nat) (h : 4096 ≤ bpb.bytsPerCluster) :
    bpb.cluster2addr c % 4096 = 0 := by
  have hmul := bpb.bytsPerCluster_large h
  have hdvd : 4096 ∣ bpb.bytsPerCluster := ⟨bpb.bytsPerCluster / 4096, by omega⟩
  exact Nat.mod_eq_zero_of_dvd (hdvd.trans (Nat.dvd_of_mod_eq_zero (bpb.cluster2addr_mod c)))

/-- The pages that are mapped and read are within the reach of the cluster. -/
theorem Stage.unmapped (hpage : 4096 ≤ s.bpb.bytsPerCluster)
    (h : Stage s (s.bpb.cluster2addr c) s.bpb.pages u)
    (hret : fatIdeRead (s.bpb.cluster2Sec c) (s.bpb.cluster2addr c) s.bpb.bytsPerCluster u = .ret () t)
    (hout : ¬s.bpb.Reach c a) : t.fatvaIsMapped a = s.fatvaIsMapped a := by
  have hread := fatIdeRead_sat (s.bpb.cluster2Sec c) s.bpb.bytsPerCluster (s.bpb.cluster2addr_aligned c) u
  rw [hret] at hread
  have hrounds := ideRounds_le (s.bpb.cluster2Sec c) s.bpb.bytsPerCluster
  have hal := s.bpb.cluster2addr_page c hpage
  have hmul := s.bpb.bytsPerCluster_large hpage
  have hpages : s.bpb.pages = s.bpb.bytsPerCluster / 4096 := by
    unfold Fat32Bpb.pages
    omega
  unfold Fat32Bpb.Reach at hout
  rw [hread.1.mapped, h.mapped, hpages]
  generalize s.bpb.cluster2addr c = va at *
  have hno : ¬Touched va 0 (ideRounds (s.bpb.cluster2Sec c) s.bpb.bytsPerCluster) (a / 4096) := by
    rintro ⟨k, -, hk, hp⟩
    omega
  have hno' : ¬(va / 4096 ≤ a / 4096 ∧ a / 4096 < va / 4096 + s.bpb.bytsPerCluster / 4096) := by omega
  rw [decide_eq_false hno, decide_eq_false hno', Bool.or_false, Bool.or_false]

theorem mapCluster_mapped (h : mapCluster c s = .ret () t) : t.clusterIsMapped c = true := by
  have hrest := (mapCluster_loaded h).1.rest
  have hbpb : t.bpb = s.bpb := by rw [hrest]
  obtain ⟨rfl, hc, -⟩ | ⟨-, u, hstage, hread⟩ := mapCluster_stage h
  · exact hc
  · have hsat := fatIdeRead_sat (s.bpb.cluster2Sec c) s.bpb.bytsPerCluster (s.bpb.cluster2addr_aligned c) u
    rw [hread] at hsat
    have hm : ∀ a, s.bpb.Holds c a → t.fatvaIsMapped a = true := by
      rintro a ⟨h1, h2⟩
      rw [hsat.1.mapped, hstage.mapped, decide_eq_true ⟨h1, h2⟩, Bool.or_true, Bool.true_or]
    by_cases hlarge : 4096 < s.bpb.bytsPerCluster
    · rw [FatFs.clusterIsMapped_iff, hbpb]
      intro j hj
      have hal := s.bpb.cluster2addr_aligned_large c hlarge
      have hmul := s.bpb.bytsPerCluster_large hlarge.le
      refine hm _ ?_
      unfold Fat32Bpb.Holds
      rw [s.bpb.pages_large hlarge]
      omega
    · rw [clusterIsMapped_small (by rw [hbpb]; omega), hbpb]
      refine hm _ ⟨le_refl _, ?_⟩
      rw [s.bpb.pages_small (Nat.le_of_not_lt hlarge)]
      omega

/-- The clusters of `K` that are out of the reach of the new one stay as they are. -/
theorem mapCluster_spares (hK : ∀ c ∈ K, s.Ready c) (hout : ∀ a ∈ s.bpb.area K, ¬s.bpb.Reach g a)
    (h : mapCluster g s = .ret () t) : FatFs.Spares K ∅ s t := by
  obtain ⟨hloaded, hmapped⟩ := mapCluster_loaded h
  have hbpb : t.bpb = s.bpb := by rw [hloaded.rest]
  have hdisk : t.disk = s.disk := by rw [hloaded.rest]
  have hun : 4096 ≤ s.bpb.bytsPerCluster → ∀ a, ¬s.bpb.Reach g a → t.fatvaIsMapped a = s.fatvaIsMapped a := by
    intro hpage a ha
    obtain ⟨rfl, -⟩ | ⟨-, u, hstage, hread⟩ := mapCluster_stage h
    · rfl
    · exact hstage.unmapped hpage hread ha
  have harea : ∀ c ∈ K, ∀ j < s.bpb.bytsPerCluster, s.bpb.cluster2addr c + j ∈ s.bpb.area K :=
    fun c hc j hj => ⟨c, hc, j, hj, rfl⟩
  refine ⟨hbpb, fun c hc hr => ⟨by rw [hbpb]; exact hr.valid, ?_⟩, fun a _ => hmapped a, ?_⟩
  · rcases hr.loads with hm | ⟨hplain, hno⟩
    · rw [FatFs.clusterIsMapped_iff] at hm ⊢
      rw [hbpb]
      exact .inl fun j hj => hmapped _ (hm j hj)
    · rw [hbpb]
      refine .inr ⟨hplain, fun j hj => ?_⟩
      rw [hun hplain.page _ (hout _ (harea c hc j hj)), hno j hj]
  · rintro _ ⟨c, hc, j, hj, rfl⟩ - -
    have hno := hout _ (harea c hc j hj)
    unfold FatFs.peek
    rw [hbpb, hdisk]
    by_cases hm : s.fatvaIsMapped (s.bpb.cluster2addr c + j) = true
    · rw [if_pos hm, if_pos (hmapped _ hm), hloaded.byte _ hm hno]
    · have hload : s.clusterIsMapped c ≠ true := fun hd => hm (FatFs.clusterIsMapped_iff.mp hd j hj)
      have hplain := ((hK c hc).loads.resolve_left hload).1
      rw [hun hplain.page _ hno, if_neg hm, if_neg hm]

end Load

end Mos
