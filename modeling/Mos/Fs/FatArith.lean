import Mathlib.Order.CompletePartialOrder
import Mos.Fs.FatAlloc
import Mos.Fs.FatDir

/-!
# Cluster numbers, addresses and sectors

`cluster2Sec`, `addr2cluster` and `cluster2addr` for any geometry: the fields of the boot sector have 8, 16 and 32
bits, and the arithmetic is that of words.
-/

namespace Mos

/-! ## The geometry -/

/-- The fields of `struct Fat32Bpb` that `initFs` reads, with any values of their widths. -/
structure BpbFields where
  bytsPerSec : Nat
  secPerClus : Nat
  rsvdSecCnt : Nat
  numFATs : Nat
  fatSz32 : Nat
  width : bytsPerSec < 2 ^ 16 ∧ secPerClus < 2 ^ 8 ∧ rsvdSecCnt < 2 ^ 16 ∧ numFATs < 2 ^ 8 ∧ fatSz32 < 2 ^ 32

/-- The fields of `fat32fs` that the arithmetic reads. -/
structure Fat32Fs where
  secPerClus : Nat
  dataStartSector : Nat
  bytsPerCluster : Nat

/-- `initFs()`. -/
def initFs (bpb : BpbFields) : Fat32Fs where
  secPerClus := bpb.secPerClus
  dataStartSector := (bpb.rsvdSecCnt + bpb.numFATs * bpb.fatSz32) % 2 ^ 32
  bytsPerCluster := bpb.bytsPerSec * bpb.secPerClus

/-- `DISKMAP + PDMAP`: behind the table. -/
def clusterBase : Nat := 0x10400000

namespace Fat32Fs

/-- `cluster2Sec(clusNo)`. -/
def cluster2Sec (fs : Fat32Fs) (clusNo : Nat) : Nat :=
  ((clusNo + 2 ^ 32 - 2) * fs.secPerClus + fs.dataStartSector) % 2 ^ 32

/-- `addr2cluster(addr)`. -/
def addr2cluster (fs : Fat32Fs) (addr : Nat) : Nat :=
  ((addr + 2 ^ 32 - clusterBase) % 2 ^ 32 / fs.bytsPerCluster + 2) % 2 ^ 32

/-- `cluster2addr(clusno)`. -/
def cluster2addr (fs : Fat32Fs) (clusno : Nat) : Nat :=
  ((clusno + 2 ^ 32 - 2) * fs.bytsPerCluster + clusterBase) % 2 ^ 32

/-- The addresses of the cluster `c` in the cache. -/
def cacheRange (fs : Fat32Fs) (c : Nat) : Set Nat :=
  Set.Ico (fs.cluster2addr c) (fs.cluster2addr c + fs.bytsPerCluster)

/-- The sectors of the cluster `c`. -/
def sectorRange (fs : Fat32Fs) (c : Nat) : Set Nat :=
  Set.Ico (fs.cluster2Sec c) (fs.cluster2Sec c + fs.secPerClus)

/-- `n` clusters have their places below the end of the address space, and their sectors have numbers that are not
negative as an `int`. -/
structure Fits (fs : Fat32Fs) (n : Nat) : Prop where
  cache : (n - 2) * fs.bytsPerCluster + clusterBase < 2 ^ 32
  disk : fs.dataStartSector + (n - 2) * fs.secPerClus < 2 ^ 31

end Fat32Fs

/-- The geometry of a disk with a sector size and a cluster size that are powers of two. -/
def Fat32Bpb.fs (bpb : Fat32Bpb) : Fat32Fs where
  secPerClus := bpb.secPerClus
  dataStartSector := bpb.dataStartSector
  bytsPerCluster := bpb.bytsPerCluster

theorem Fat32Bpb.cluster2addr_fs (bpb : Fat32Bpb) (c : Nat) : bpb.cluster2addr c = bpb.fs.cluster2addr c := rfl

theorem Fat32Bpb.cluster2Sec_fs (bpb : Fat32Bpb) (c : Nat) : bpb.cluster2Sec c = bpb.fs.cluster2Sec c := rfl

theorem Fat32Bpb.addr2cluster_fs (bpb : Fat32Bpb) (a : Nat) : bpb.addr2cluster a = bpb.fs.addr2cluster a := by
  refine (Nat.mod_eq_of_lt ?_).symm
  obtain ⟨n, -, hsize⟩ := bpb.exists_bytsPerCluster
  have hlarge : 512 ≤ bpb.bytsPerCluster := by
    have hpos := Nat.pow_pos (n := n) (show 0 < 2 by decide)
    omega
  have hlt := Nat.mod_lt (a + 2 ^ 32 - clusterBase) (show 0 < 2 ^ 32 by decide)
  have hdiv := Nat.div_le_div_left hlarge (show 0 < 512 by decide) (a := (a + 2 ^ 32 - clusterBase) % 2 ^ 32)
  change (a + 2 ^ 32 - clusterBase) % 2 ^ 32 / bpb.bytsPerCluster + 2 < 2 ^ 32
  omega

namespace Fat32Fs

variable {fs : Fat32Fs} {a c d n : Nat}

/-- Ranges of one length, one behind the other, do not overlap. -/
theorem ico_disjoint {base size c d : Nat} (hne : c ≠ d) :
    Disjoint (Set.Ico (c * size + base) (c * size + base + size))
      (Set.Ico (d * size + base) (d * size + base + size)) := by
  rw [Set.disjoint_left]
  intro a ha hb
  rw [Set.mem_Ico] at ha hb
  rcases Nat.lt_or_gt_of_ne hne with hlt | hlt
  · have hle : (c + 1) * size ≤ d * size := Nat.mul_le_mul_right size hlt
    rw [Nat.succ_mul] at hle
    omega
  · have hle : (d + 1) * size ≤ c * size := Nat.mul_le_mul_right size hlt
    rw [Nat.succ_mul] at hle
    omega

/-- The product of a number that has been made smaller by 2. -/
theorem sub_two_mul (hc : 2 ≤ c) (m base : Nat) (hlt : (c - 2) * m + base < 2 ^ 32) :
    ((c + 2 ^ 32 - 2) * m + base) % 2 ^ 32 = (c - 2) * m + base := by
  have hsplit : (c + 2 ^ 32 - 2) * m = (c - 2) * m + 2 ^ 32 * m := by
    rw [← Nat.add_mul]
    congr 1
    omega
  rw [hsplit, Nat.add_right_comm, Nat.add_mul_mod_self_left, Nat.mod_eq_of_lt hlt]

/-- What the product is smaller than. -/
theorem Fits.lt (h : fs.Fits n) (hc : 2 ≤ c) (hn : c < n) :
    (c - 2) * fs.bytsPerCluster + fs.bytsPerCluster + clusterBase < 2 ^ 32 ∧
      (c - 2) * fs.secPerClus + fs.secPerClus + fs.dataStartSector < 2 ^ 31 := by
  obtain ⟨hcache, hdisk⟩ := h
  have hle : c - 2 + 1 ≤ n - 2 := by omega
  have h1 := Nat.mul_le_mul_right fs.bytsPerCluster hle
  have h2 := Nat.mul_le_mul_right fs.secPerClus hle
  rw [Nat.succ_mul] at h1 h2
  omega

theorem Fits.cluster2addr (h : fs.Fits n) (hc : 2 ≤ c) (hn : c < n) :
    fs.cluster2addr c = (c - 2) * fs.bytsPerCluster + clusterBase :=
  sub_two_mul hc _ _ (by have := (h.lt hc hn).1; omega)

theorem Fits.cluster2Sec (h : fs.Fits n) (hc : 2 ≤ c) (hn : c < n) :
    fs.cluster2Sec c = (c - 2) * fs.secPerClus + fs.dataStartSector :=
  sub_two_mul hc _ _ (by have := (h.lt hc hn).2; omega)

/-- The cluster is found again from any of its addresses. -/
theorem Fits.addr2cluster (h : fs.Fits n) (hc : 2 ≤ c) (hn : c < n) (ha : a ∈ fs.cacheRange c) :
    fs.addr2cluster a = c := by
  have hlt := (h.lt hc hn).1
  rw [cacheRange, h.cluster2addr hc hn, Set.mem_Ico] at ha
  obtain ⟨j, hj, rfl⟩ : ∃ j < fs.bytsPerCluster, a = (c - 2) * fs.bytsPerCluster + clusterBase + j :=
    ⟨a - ((c - 2) * fs.bytsPerCluster + clusterBase), by omega, by omega⟩
  have hpos : 0 < fs.bytsPerCluster := by omega
  have hle := Nat.le_mul_of_pos_right (c - 2) hpos
  have hmod : ((c - 2) * fs.bytsPerCluster + clusterBase + j + 2 ^ 32 - clusterBase) % 2 ^ 32 =
      fs.bytsPerCluster * (c - 2) + j := by
    rw [Nat.mul_comm fs.bytsPerCluster]
    omega
  have hbase : clusterBase = 0x10400000 := rfl
  rw [Fat32Fs.addr2cluster, hmod, Nat.mul_add_div hpos, Nat.div_eq_of_lt hj]
  omega

end Fat32Fs

/-- **Cluster numbers, addresses and sectors agree**, in every geometry and for all clusters that fit: a cluster is
found again from its addresses, two clusters share neither addresses nor sectors, and no cluster lies in the window of
the table. -/
theorem clusters_agree (bpb : BpbFields) (n : Nat) (h : (initFs bpb).Fits n) :
    ∀ c, 2 ≤ c → c < n →
      (∀ a ∈ (initFs bpb).cacheRange c, (initFs bpb).addr2cluster a = c) ∧
        Disjoint ((initFs bpb).cacheRange c) (Set.Ico diskmap clusterBase) ∧
          ∀ d, 2 ≤ d → d < n → c ≠ d →
            Disjoint ((initFs bpb).cacheRange c) ((initFs bpb).cacheRange d) ∧
              Disjoint ((initFs bpb).sectorRange c) ((initFs bpb).sectorRange d) := by
  intro c hc hcn
  refine ⟨fun a ha => h.addr2cluster hc hcn ha, ?_, fun d hd hdn hne => ?_⟩
  · rw [Set.disjoint_left]
    intro a ha hwin
    rw [Fat32Fs.cacheRange, h.cluster2addr hc hcn, Set.mem_Ico] at ha
    rw [Set.mem_Ico] at hwin
    omega
  · have hne' : c - 2 ≠ d - 2 := by omega
    unfold Fat32Fs.cacheRange Fat32Fs.sectorRange
    rw [h.cluster2addr hc hcn, h.cluster2addr hd hdn, h.cluster2Sec hc hcn, h.cluster2Sec hd hdn]
    exact ⟨Fat32Fs.ico_disjoint hne', Fat32Fs.ico_disjoint hne'⟩

/-- A disk with sectors of 512 bytes and clusters of 8 sectors. -/
def smallFields : BpbFields := ⟨512, 8, 32, 2, 64, by decide⟩

theorem clusters_agree_small : (initFs smallFields).addr2cluster ((initFs smallFields).cluster2addr 7 + 100) = 7 :=
  (clusters_agree smallFields 1024 ⟨by decide, by decide⟩ 7 (by decide) (by decide)).1 _
    ⟨by decide, by decide⟩

end Mos
