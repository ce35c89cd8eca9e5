import Mos.Fs.FatOverrun

/-!
# Reading a cluster through the cache

`read_cluster` decides by the pages whether a cluster is loaded. Where a page holds several clusters, one of
them is enough for all to be taken for loaded.
-/

namespace Mos

open Lib Prog Function

/-! ## Reading a cluster -/

/-- Byte `j` of the cluster `c` on the disk. -/
def FatFs.diskByte (s : FatFs) (c j : Nat) : Byte :=
  s.disk (s.bpb.cluster2Sec c * s.bpb.bytsPerSec + j)

/-- `syscall_mem_alloc` has been called for the page of `va`, and its result not looked at. -/
def FatFs.tried (s : FatFs) (va : Nat) : FatFs := if s.avail 0 then s.asked.mapZero va else s.asked

theorem readCluster_mapped {s : FatFs} {c : Nat} (hv : s.bpb.Valid c)
    (hm : s.clusterIsMapped c = true) :
    readCluster c s = .ret (s.bpb.cluster2addr c, false) s := by
  unfold readCluster
  rw [get_bind, bind_ret (assert_pos hv), if_pos hm]
  rfl

theorem readCluster_absent {s : FatFs} {c : Nat} (hv : s.bpb.Valid c)
    (hm : s.clusterIsMapped c = false) :
    readCluster c s = (fatIdeRead (s.bpb.cluster2Sec c) (s.bpb.cluster2addr c) s.bpb.secPerClus >>=
      fun _ => pure (s.bpb.cluster2addr c, true)) (s.tried (s.bpb.cluster2addr c)) := by
  unfold readCluster
  rw [get_bind, bind_ret (assert_pos hv), if_neg (by simp [hm])]
  unfold FatFs.tried
  by_cases ha : s.avail 0 = true
  · rw [if_pos ha]
    exact bind_ret (attempt_ret ((fatMemAlloc_eq _ s).trans (if_pos ha)))
  · rw [if_neg ha]
    exact bind_ret (attempt_err ((fatMemAlloc_eq _ s).trans (if_neg ha)))

/-- What `read_cluster(c)` should show: the cluster with its changes if it has been loaded, and otherwise the
cluster as on the disk. -/
def FatFs.wanted (s : FatFs) (loaded : Nat → Bool) (c j : Nat) : Byte :=
  if loaded c then s.byte (s.bpb.cluster2addr c + j) else s.diskByte c j

/-- `read_cluster(c)` returns an address where the cluster is. -/
def Shows (s : FatFs) (loaded : Nat → Bool) (c : Nat) : Prop :=
  ∃ isnew t, readCluster c s = .ret (s.bpb.cluster2addr c, isnew) t ∧
    ∀ j < s.bpb.bytsPerCluster, t.byte (s.bpb.cluster2addr c + j) = s.wanted loaded c j

/-- The kernel has a page for each page that `read_cluster(c)` touches and that is not mapped. -/
def Supplied (s : FatFs) (c : Nat) : Prop :=
  ∀ k < (missing (s.bpb.cluster2addr c) 0 (ideRounds (s.bpb.cluster2Sec c) s.bpb.secPerClus)
    (s.tried (s.bpb.cluster2addr c))).card, s.avail (k + 1) = true

/-- Sectors have the 512 bytes that `ide_read` counts with, and their addresses on the disk do not
overflow. -/
def SectorsFit (s : FatFs) (c : Nat) : Prop :=
  s.bpb.bytsPerSec = 512 ∧ 512 * (s.bpb.cluster2Sec c + s.bpb.secPerClus) < 2 ^ 32

/-- The sectors that `ide_read` brings, followed by what was there, happen to be the cluster. -/
def Coincide (s : FatFs) (c : Nat) : Prop :=
  ∀ j < s.bpb.bytsPerCluster,
    (if j < 512 * ideRounds (s.bpb.cluster2Sec c) s.bpb.secPerClus
      then s.disk (ideBegin (s.bpb.cluster2Sec c) + j)
      else (s.tried (s.bpb.cluster2addr c)).byte (s.bpb.cluster2addr c + j)) = s.diskByte c j

/-- When `read_cluster(c)` shows the cluster. -/
def Readable (s : FatFs) (loaded : Nat → Bool) (c : Nat) : Prop :=
  loaded c = true ∨
  (s.clusterIsMapped c = true ∧
    ∀ j < s.bpb.bytsPerCluster, s.byte (s.bpb.cluster2addr c + j) = s.diskByte c j) ∨
  (s.clusterIsMapped c = false ∧ Supplied s c ∧ (SectorsFit s c ∨ Coincide s c))

theorem tried_disk (s : FatFs) (va : Nat) : (s.tried va).disk = s.disk := by
  unfold FatFs.tried
  split <;> rfl

theorem tried_avail (s : FatFs) (va k : Nat) : (s.tried va).avail k = s.avail (k + 1) := by
  unfold FatFs.tried
  split <;> rfl

/-- The clusters are read one after the other, as in the scan of a directory, and each is shown. -/
def Scans (loaded : Nat → Bool) : List Nat → FatFs → Prop
  | [], _ => True
  | c :: cs, s => Shows s loaded c ∧ ∀ a t, readCluster c s = .ret a t → Scans loaded cs t

end Mos
