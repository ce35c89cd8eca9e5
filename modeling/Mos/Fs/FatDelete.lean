import Mos.Fs.FatArith
import Mos.Fs.FatCut
import Mos.Fs.FatWalk

/-!
# Freeing a whole chain

`deleteUpdateFat` goes along the chain of a file and destroys the links behind it. It stops at the end marker.
-/

namespace Mos

open Lib Prog Function

/-! ## `fs/fatfs.c` -/

namespace FatFs

/-- A byte of memory from `DISKMAP` on: the table, and the clusters behind it. -/
def windowByte (s : FatFs) (j : Nat) : Byte := if j < 4 * fatWords then s.fatByte j else s.byte (diskmap + j)

end FatFs

/-- `syncFat()`. -/
def syncFat : FatM Unit := do
  let s ← Prog.get
  fatIdeWrite s.bpb.rsvdSecCnt s.windowByte s.bpb.fatSz32

/-- The loop of `deleteUpdateFat`; the fuel is the number of rounds that it may take. -/
def deleteRun : Nat → Nat → FatM Unit
  | 0, _ => Prog.halt .spin
  | fuel + 1, cluno => do
    let t ← readFat cluno
    writeFat cluno fat32Free
    if t = fat32Used then pure () else deleteRun fuel t.toNat

/-- `deleteUpdateFat(f)`. -/
def deleteUpdateFat (fuel f : Nat) : FatM Unit := do
  let s ← Prog.get
  deleteRun fuel (s.fstClus f)
  syncFat
  Prog.modify fun s => s.setFstClus f 0

/-! ## The loop -/

variable {s t u : FatFs} {c f fuel : Nat} {xs : List Nat}

/-- The state with the entries of `xs` free. -/
def FatFs.released (s : FatFs) (xs : List Nat) : FatFs :=
  { s with fats := fun c => if c ∈ xs then fat32Free else s.fats c }

theorem FatFs.released_cons (s : FatFs) (c : Nat) (xs : List Nat) :
    ({ s with fats := update s.fats c fat32Free } : FatFs).released xs = s.released (c :: xs) := by
  unfold released
  congr 1
  funext d
  show (if d ∈ xs then fat32Free else update s.fats c fat32Free d) = _
  by_cases hd : d ∈ xs
  · rw [if_pos hd, if_pos (List.mem_cons_of_mem c hd)]
  · rw [if_neg hd]
    by_cases hdc : d = c
    · rw [hdc, update_self, if_pos List.mem_cons_self]
    · rw [update_of_ne hdc, if_neg (by simp [hdc, hd])]

/-- The loop frees the chain in as many rounds as it has clusters. -/
theorem deleteRun_chain : ∀ (xs : List Nat) c (s : FatFs) n, FatChain s.fats c xs → xs ≠ [] → xs.Nodup →
    (∀ x ∈ xs, x < fatWords) → xs.length ≤ n → deleteRun n c s = .ret () (s.released xs) := by
  intro xs
  induction xs with
  | nil => exact fun _ _ _ _ hne => absurd rfl hne
  | cons x xs ih =>
    intro c s n hchain _ hnd hin hlen
    obtain ⟨rfl, hchain⟩ := hchain
    obtain ⟨hc, hnd⟩ := List.nodup_cons.mp hnd
    obtain ⟨m, rfl⟩ : ∃ m, n = m + 1 := ⟨n - 1, by rw [List.length_cons] at hlen; omega⟩
    have hcw := hin c List.mem_cons_self
    rw [deleteRun, bind_ret (readFat_eq hcw s), bind_ret (writeFat_eq hcw _ s)]
    cases xs with
    | nil =>
      have hused : s.fats c = fat32Used := BitVec.eq_of_toNat_eq hchain
      rw [if_pos hused, ← s.released_cons]
      simp [FatFs.released]
    | cons y ys =>
      have hy := hin y (List.mem_cons_of_mem c List.mem_cons_self)
      have hused : s.fats c ≠ fat32Used := by
        intro heq
        have hnext : (s.fats c).toNat = y := hchain.1
        rw [heq] at hnext
        have := used_wild
        omega
      rw [if_neg hused, ← s.released_cons]
      exact ih _ _ m (FatChain.update hchain hc _) (List.cons_ne_nil y ys) hnd
        (fun z hz => hin z (List.mem_cons_of_mem c hz)) (by simpa using hlen)

/-- It does not stop earlier. -/
theorem deleteRun_spin : ∀ (xs : List Nat) c (s : FatFs) n, FatChain s.fats c xs → xs.Nodup →
    (∀ x ∈ xs, x < fatWords) → n < xs.length → deleteRun n c s = .halt .spin := by
  intro xs
  induction xs with
  | nil => exact fun _ _ _ _ _ _ hn => absurd hn (Nat.not_lt_zero _)
  | cons x xs ih =>
    intro c s n hchain hnd hin hlen
    cases n with
    | zero => rfl
    | succ m =>
      obtain ⟨rfl, hchain⟩ := hchain
      obtain ⟨hc, hnd⟩ := List.nodup_cons.mp hnd
      have hcw := hin c List.mem_cons_self
      have hlen : m < xs.length := by simpa using hlen
      obtain ⟨y, ys, rfl⟩ := List.exists_cons_of_length_pos (Nat.zero_lt_of_lt hlen)
      have hy := hin y (List.mem_cons_of_mem c List.mem_cons_self)
      have hused : s.fats c ≠ fat32Used := by
        intro heq
        have hnext : (s.fats c).toNat = y := hchain.1
        rw [heq] at hnext
        have := used_wild
        omega
      rw [deleteRun, bind_ret (readFat_eq hcw s), bind_ret (writeFat_eq hcw _ s), if_neg hused]
      exact ih _ _ m (FatChain.update hchain hc _) hnd (fun z hz => hin z (List.mem_cons_of_mem c hz)) hlen

/-! ## The whole function -/

/-- `syncFat` only writes. -/
theorem syncFat_ret (s : FatFs) : ∃ t, syncFat s = .ret () t ∧ t.fats = s.fats ∧ t.cache = s.cache := by
  have hloop := sat_loop (σ := FatFs) (ε := Err) (π := FatPanic)
    (m := fun i => Prog.modify fun u => { u with
      disk := writeSector u.disk (ideBegin s.bpb.rsvdSecCnt + by2sect * i) (readSector s.windowByte (by2sect * i))
      written := u.written ++ [(ideBegin s.bpb.rsvdSecCnt + by2sect * i) / by2sect] })
    (I := fun _ t => t.fats = s.fats ∧ t.cache = s.cache) (E := fun _ _ => False) (H := fun _ => False)
    (n := ideRounds s.bpb.rsvdSecCnt s.bpb.fatSz32) (i := 0) (s := s) (fun _ _ _ _ h => h) ⟨rfl, rfl⟩
  show ∃ t, Prog.loop _ 0 (ideRounds s.bpb.rsvdSecCnt s.bpb.fatSz32) s = .ret () t ∧ _
  revert hloop
  generalize Prog.loop _ 0 (ideRounds s.bpb.rsvdSecCnt s.bpb.fatSz32) s = o
  intro hloop
  match o, hloop with
  | .ret _ t, h => exact ⟨t, rfl, h⟩

/-- The chain of `f` from its first cluster on, without repetitions and within the table. -/
structure FatFs.OwnChain (s : FatFs) (f : Nat) (xs : List Nat) : Prop where
  entry : s.IsEntry f
  chain : FatChain s.fats (s.fstClus f) xs
  nonempty : xs ≠ []
  nodup : xs.Nodup
  inside : ∀ x ∈ xs, x < fatWords

theorem deleteUpdateFat_ret (h : s.OwnChain f xs) (hfuel : xs.length ≤ fuel) :
    ∃ t, deleteUpdateFat fuel f s = .ret () t ∧ t.fats = (s.released xs).fats ∧ t.fstClus f = 0 := by
  obtain ⟨u, hu, hfats, hcache⟩ := syncFat_ret (s.released xs)
  have hentry : u.IsEntry f := .congr (s := s) hcache h.entry
  refine ⟨u.setFstClus f 0, ?_, hfats, FatFs.fstClus_setFstClus hentry (by decide)⟩
  rw [deleteUpdateFat, get_bind, bind_ret (deleteRun_chain xs _ s fuel h.chain h.nonempty h.nodup h.inside hfuel),
    bind_ret hu]
  rfl

theorem deleteUpdateFat_spin (h : s.OwnChain f xs) (hfuel : fuel < xs.length) :
    deleteUpdateFat fuel f s = .halt .spin := by
  rw [deleteUpdateFat, get_bind]
  exact bind_halt (deleteRun_spin xs _ s fuel h.chain h.nodup h.inside hfuel)

/-- What `alloc_cluster_num` leaves when it returns. -/
theorem allocClusterNum_ret (h : allocClusterNum s = .ret c t) :
    c + s.bpb.group ≤ fatWords ∧ t.fats = claimed s.bpb.group c s.fats := by
  rcases allocClusterNum_cases s with ⟨d, -, hd, -, heq⟩ | ⟨-, -, heq⟩ | ⟨-, -, heq⟩
  · rw [heq] at h
    by_cases hin : d + s.bpb.group ≤ fatWords
    · rw [bind_ret (claim_eq hin s)] at h
      obtain ⟨rfl, rfl⟩ := Outcome.ret.inj h
      exact ⟨hin, rfl⟩
    · rw [bind_halt (claim_wild (Nat.le_of_lt hd) (by omega) s)] at h
      cases h
  · rw [heq] at h
    cases h
  · rw [heq] at h
    cases h

/-- Releasing the clusters that `alloc_cluster_num` has taken gives the old table back. -/
theorem released_claimed (hfree : ∀ i < s.bpb.group, s.fats (c + i) = fat32Free)
    (hu : u.fats = claimed s.bpb.group c s.fats) :
    (u.released (List.range' c s.bpb.group)).fats = s.fats := by
  funext d
  show (if d ∈ List.range' c s.bpb.group then fat32Free else u.fats d) = s.fats d
  by_cases hd : d ∈ List.range' c s.bpb.group
  · obtain ⟨i, hi, rfl⟩ := List.mem_range'.mp hd
    rw [if_pos hd, Nat.one_mul, hfree i hi]
  · rw [if_neg hd, hu]
    refine claimed_of_not_mem ?_
    rw [List.mem_range'_1] at hd
    omega

/-- **`deleteUpdateFat` takes exactly one round for each cluster of the chain; it frees the chain and nothing
else, and the file has no cluster any more. When one call of `alloc_cluster_num` has made the chain from free
clusters, the table is then what it was before that call.** -/
theorem deleteUpdateFat_exact :
    (∀ (s : FatFs) f xs fuel, s.OwnChain f xs →
      if xs.length ≤ fuel then
        ∃ t, deleteUpdateFat fuel f s = .ret () t ∧ t.fstClus f = 0 ∧ (∀ x ∈ xs, t.fats x = fat32Free) ∧
          ∀ x, x ∉ xs → t.fats x = s.fats x
      else deleteUpdateFat fuel f s = .halt .spin) ∧
    ∀ (s t u : FatFs) c f fuel, allocClusterNum s = .ret c t →
      (∀ i < s.bpb.group, s.fats (c + i) = fat32Free) →
      u.fats = t.fats → u.IsEntry f → u.fstClus f = c → s.bpb.group ≤ fuel →
      ∃ v, deleteUpdateFat fuel f u = .ret () v ∧ v.fats = s.fats := by
  refine ⟨fun s f xs fuel h => ?_, fun s t u c f fuel halloc hfree hu hf hc hfuel => ?_⟩
  · split
    next hfuel =>
      obtain ⟨t, ht, hfats, hfst⟩ := deleteUpdateFat_ret h hfuel
      refine ⟨t, ht, hfst, fun x hx => ?_, fun x hx => ?_⟩
      · rw [hfats]
        exact if_pos hx
      · rw [hfats]
        exact if_neg hx
    next hfuel => exact deleteUpdateFat_spin h (Nat.lt_of_not_le hfuel)
  · obtain ⟨hin, hclaimed⟩ := allocClusterNum_ret halloc
    have hpos := s.bpb.group_pos
    have hwords : fatWords < 2 ^ 32 := by decide
    have hchain := claimed_chain (n := s.bpb.group) (c := c) s.fats (by omega) s.bpb.group 0 (by omega) hpos
    have hown : u.OwnChain f (List.range' c s.bpb.group) := by
      refine ⟨hf, ?_, ?_, List.nodup_range', fun x hx => ?_⟩
      · rw [hu, hclaimed, hc]
        exact hchain
      · rw [ne_eq, List.range'_eq_nil_iff]
        omega
      · rw [List.mem_range'_1] at hx
        omega
    obtain ⟨v, hv, hfats, -⟩ := deleteUpdateFat_ret hown
      (show _ ≤ fuel by rwa [List.length_range'])
    exact ⟨v, hv, hfats.trans (released_claimed hfree (hu.trans hclaimed))⟩

/-- `mountedEmpty` after its next free cluster has become that of the entry. -/
def grownOnce : FatFs :=
  ({ mountedEmpty with fats := update mountedEmpty.fats 6 fat32Used } : FatFs).setFstClus 0x10400040 6

/-- The chain 3, 4, 5 is freed in three rounds; the cluster 6 is taken and given back. -/
theorem deleteUpdateFat_exact_three :
    (∃ t, deleteUpdateFat 3 0x10400040 threeClusters = .ret () t ∧ t.fats 4 = fat32Free ∧
      t.fats 2 = threeClusters.fats 2) ∧
    ∃ v, deleteUpdateFat 1 0x10400040 grownOnce = .ret () v ∧ v.fats = mountedEmpty.fats := by
  have hthree : threeClusters.OwnChain 0x10400040 [3, 4, 5] := by
    have h := threeClusters_fileChain
    refine ⟨(mountedEmpty_isEntry.setHalf _ _).setHalf _ _ |>.setFileSize _, ?_, by simp, h.nodup, by decide⟩
    exact h.chain.resolve_left (by simp) |>.2
  have hempty : ({ mountedEmpty with fats := update mountedEmpty.fats 6 fat32Used } : FatFs).IsEntry 0x10400040 :=
    .congr (s := mountedEmpty) rfl mountedEmpty_isEntry
  have hone : grownOnce.IsEntry 0x10400040 := (hempty.setHalf _ _).setHalf _ _
  constructor
  · have h := deleteUpdateFat_exact.1 _ _ _ 3 hthree
    rw [if_pos (by decide)] at h
    obtain ⟨t, ht, -, hfree, hrest⟩ := h
    exact ⟨t, ht, hfree 4 (by decide), hrest 2 (by decide)⟩
  · exact deleteUpdateFat_exact.2 mountedEmpty { mountedEmpty with fats := update mountedEmpty.fats 6 fat32Used }
      grownOnce 6 0x10400040 1 rfl (fun i hi => by
        have : mountedEmpty.bpb.group = 1 := rfl
        obtain rfl : i = 0 := by omega
        rfl) rfl hone
      (FatFs.fstClus_setFstClus hempty (by decide)) (by decide)

end Mos
