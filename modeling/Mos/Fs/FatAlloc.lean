import Mos.Fs.Fat
import Mos.Lib.Path
import Mathlib.Tactic.IntervalCases
import Mathlib.Tactic.Ring

/-!
# Cluster sizes and the allocation of clusters

A cluster is a part of a page, a page, or several pages. `fatfile_get_block` has a formula for each case,
and `alloc_cluster_num` takes as many clusters as a page holds; it tests the first of them only.
-/

namespace Mos

open Lib Prog Function

/-! ## Cluster sizes -/

namespace Fat32Bpb

variable (bpb : Fat32Bpb)

theorem exists_bytsPerCluster : ∃ n ≤ 10, bpb.bytsPerCluster = 512 * 2 ^ n := by
  obtain ⟨i, hi, hsec⟩ := bpb.sector
  obtain ⟨j, hj, hclus⟩ := bpb.cluster
  refine ⟨i + j, by omega, ?_⟩
  rw [bytsPerCluster, hsec, hclus, Nat.pow_add]
  ring

theorem bytsPerCluster_pos : 0 < bpb.bytsPerCluster := by
  obtain ⟨n, -, h⟩ := bpb.exists_bytsPerCluster
  rw [h]
  exact Nat.pos_of_ne_zero (by simp)

theorem secPerClus_pos : 0 < bpb.secPerClus := by
  obtain ⟨j, -, h⟩ := bpb.cluster
  rw [h]
  exact Nat.pos_of_ne_zero (by simp)

/-- The sizes below a page. -/
theorem bytsPerCluster_small (h : bpb.bytsPerCluster < 4096) :
    bpb.bytsPerCluster = 512 ∨ bpb.bytsPerCluster = 1024 ∨ bpb.bytsPerCluster = 2048 := by
  obtain ⟨n, -, heq⟩ := bpb.exists_bytsPerCluster
  have hn : n < 3 := by
    by_contra hn
    have hpow : 2 ^ 3 ≤ 2 ^ n := Nat.pow_le_pow_right (by decide) (by omega)
    omega
  rw [heq]
  interval_cases n <;> decide

theorem bytsPerCluster_large (h : 4096 ≤ bpb.bytsPerCluster) :
    bpb.bytsPerCluster / 4096 * 4096 = bpb.bytsPerCluster := by
  obtain ⟨n, -, heq⟩ := bpb.exists_bytsPerCluster
  have hn : 3 ≤ n := by
    by_contra hn
    have hpow : 2 ^ n ≤ 2 ^ 2 := Nat.pow_le_pow_right (by decide) (by omega)
    omega
  refine Nat.div_mul_cancel ?_
  rw [heq, show n = 3 + (n - 3) by omega, Nat.pow_add]
  exact ⟨2 ^ (n - 3), by ring⟩

theorem bytsPerSec_div : bpb.bytsPerSec / 4096 = if bpb.bytsPerSec = 4096 then 1 else 0 := by
  obtain ⟨i, hi, h⟩ := bpb.sector
  rw [h]
  interval_cases i <;> decide

end Fat32Bpb

/-! ## The position of a block -/

/-- `fatfile_get_block` divides by no zero, and the cluster `fileclusno` and the page `inbno` in it are the
place of block `filebno` in the file. -/
def Fat32Bpb.Places (bpb : Fat32Bpb) (filebno : Nat) (s : FatFs) : Prop :=
  ∃ fileclusno inbno, fatBlockPos bpb filebno s = .ret (fileclusno, inbno) s ∧
    fileclusno * bpb.bytsPerCluster + inbno * 4096 = filebno * 4096 ∧
    inbno * 4096 < max bpb.bytsPerCluster 4096

theorem fatBlockPos_small {bpb : Fat32Bpb} (h : bpb.bytsPerCluster < 4096) (filebno : Nat)
    (s : FatFs) : bpb.Places filebno s ↔ filebno * (4096 / bpb.bytsPerCluster) < 2 ^ 32 := by
  have hpos := bpb.bytsPerCluster_pos
  have hdiv : 4096 / bpb.bytsPerCluster * bpb.bytsPerCluster = 4096 := by
    obtain hb | hb | hb := bpb.bytsPerCluster_small h <;> rw [hb]
  have hret : fatBlockPos bpb filebno s =
      .ret (filebno * (4096 / bpb.bytsPerCluster) % 2 ^ 32, 0) s := by
    unfold fatBlockPos
    rw [if_pos h]
    rfl
  constructor
  · rintro ⟨k, i, heq, hplace, -⟩
    rw [hret] at heq
    cases heq
    by_contra hge
    have hlt : filebno * (4096 / bpb.bytsPerCluster) % 2 ^ 32 <
        filebno * (4096 / bpb.bytsPerCluster) :=
      lt_of_lt_of_le (Nat.mod_lt _ (by decide)) (Nat.le_of_not_lt hge)
    have hprod := Nat.mul_lt_mul_of_pos_right hlt hpos
    rw [Nat.mul_assoc filebno, hdiv] at hprod
    omega
  · intro hlt
    refine ⟨_, _, hret, ?_, ?_⟩
    · rw [Nat.mod_eq_of_lt hlt, Nat.mul_assoc, hdiv]
      omega
    · simp

theorem fatBlockPos_large {bpb : Fat32Bpb} (h : 4096 ≤ bpb.bytsPerCluster) (filebno : Nat)
    (s : FatFs) :
    bpb.Places filebno s ↔ bpb.bytsPerSec = 4096 ∧ filebno % bpb.secPerClus = 0 := by
  have hpos : 0 < bpb.bytsPerCluster / 4096 := Nat.div_pos h (by decide)
  by_cases hsec : bpb.bytsPerSec = 4096
  · have hquot : bpb.bytsPerCluster / 4096 = bpb.secPerClus := by
      rw [Fat32Bpb.bytsPerCluster, hsec, Nat.mul_div_cancel_left _ (by decide)]
    have hret : fatBlockPos bpb filebno s = .ret (filebno / bpb.secPerClus, 0) s := by
      unfold fatBlockPos
      rw [if_neg (by omega), if_neg (by omega), bpb.bytsPerSec_div, if_pos hsec, hquot, Nat.mod_one]
      rfl
    have hsplit := Nat.div_add_mod filebno bpb.secPerClus
    have hscale : filebno / bpb.secPerClus * bpb.bytsPerCluster =
        bpb.secPerClus * (filebno / bpb.secPerClus) * 4096 := by
      rw [Fat32Bpb.bytsPerCluster, hsec]
      ring
    constructor
    · rintro ⟨k, i, heq, hplace, -⟩
      rw [hret] at heq
      cases heq
      exact ⟨hsec, by omega⟩
    · rintro ⟨-, hmod⟩
      refine ⟨filebno / bpb.secPerClus, 0, hret, ?_, by simp⟩
      rw [hscale]
      omega
  · have hhalt : fatBlockPos bpb filebno s = .halt .divisionByZero := by
      unfold fatBlockPos
      rw [if_neg (by omega), if_neg (by omega), bpb.bytsPerSec_div, if_neg hsec]
      rfl
    constructor
    · rintro ⟨k, i, heq, -⟩
      rw [hhalt] at heq
      cases heq
    · rintro ⟨hsec', -⟩
      exact absurd hsec' hsec

/-- **`fatfile_get_block` finds the place of a block in two cases only.** Clusters are smaller than a page
and the cluster number does not overflow, or sectors are as large as pages and the block is the first of
its cluster. Clusters of a page or more that are made of smaller sectors end in a remainder by zero. -/
theorem fatBlockPos_places_iff (bpb : Fat32Bpb) (filebno : Word) (s : FatFs) :
    bpb.Places filebno.toNat s ↔
      (bpb.bytsPerCluster < 4096 ∧ filebno.toNat * (4096 / bpb.bytsPerCluster) < 2 ^ 32) ∨
      (bpb.bytsPerSec = 4096 ∧ filebno.toNat % bpb.secPerClus = 0) := by
  by_cases h : bpb.bytsPerCluster < 4096
  · have hne : bpb.bytsPerSec ≠ 4096 := by
      intro hsec
      have hle := Nat.le_mul_of_pos_right bpb.bytsPerSec bpb.secPerClus_pos
      unfold Fat32Bpb.bytsPerCluster at h
      omega
    rw [fatBlockPos_small h]
    simp [h, hne]
  · rw [fatBlockPos_large (by omega)]
    simp [h]

/-- A disk of 4 MiB with clusters of one page. -/
def pageClusters : Fat32Bpb where
  bytsPerSec := 512
  secPerClus := 8
  rsvdSecCnt := 32
  numFATs := 1
  totSec32 := 8192
  fatSz32 := 8
  sector := ⟨0, by decide, rfl⟩
  cluster := ⟨3, by decide, rfl⟩
  width := by decide

/-- Already block 0 of a file on such a disk has no place. -/
theorem fatBlockPos_divides_by_zero : ¬pageClusters.Places (0 : Word).toNat (.blank pageClusters) := by
  rw [fatBlockPos_large (by decide)]
  decide

/-! ## Taking clusters -/

/-- The number of entries that `alloc_cluster_num` takes. -/
def Fat32Bpb.group (bpb : Fat32Bpb) : Nat :=
  if bpb.bytsPerCluster ≥ 4096 then 1 else 4096 / bpb.bytsPerCluster

theorem Fat32Bpb.group_pos (bpb : Fat32Bpb) : 0 < bpb.group := by
  unfold group
  split
  next => decide
  next h => obtain hb | hb | hb := bpb.bytsPerCluster_small (by omega) <;> rw [hb] <;> decide

/-- The clusters that are taken fill a page at least. -/
theorem Fat32Bpb.le_group_mul (bpb : Fat32Bpb) : 4096 ≤ bpb.group * bpb.bytsPerCluster := by
  unfold group
  split
  next h => omega
  next h => obtain hb | hb | hb := bpb.bytsPerCluster_small (by omega) <;> rw [hb]

/-- From `a`, the table leads through the clusters `xs` to `FAT32_USED`. -/
def FatChain (fats : Nat → Word) (a : Nat) (xs : List Nat) : Prop :=
  Path (fun c => (fats c).toNat) a xs fat32Used.toNat

/-- The table with `n` entries from `c` on linked, the last one ended. -/
def claimed (n c : Nat) (fats : Nat → Word) : Nat → Word := fun i =>
  if c ≤ i ∧ i < c + n then if i + 1 < c + n then BitVec.ofNat 32 (i + 1) else fat32Used else fats i

theorem claimed_of_lt {n c i : Nat} {fats : Nat → Word} (h : c ≤ i) (h' : i + 1 < c + n) :
    claimed n c fats i = BitVec.ofNat 32 (i + 1) := by
  unfold claimed
  rw [if_pos (by omega), if_pos h']

theorem claimed_last {n c : Nat} {fats : Nat → Word} (h : 0 < n) :
    claimed n c fats (c + (n - 1)) = fat32Used := by
  unfold claimed
  rw [if_pos (by omega), if_neg (by omega)]

theorem claimed_of_not_mem {n c i : Nat} {fats : Nat → Word} (h : i < c ∨ c + n ≤ i) :
    claimed n c fats i = fats i := by
  unfold claimed
  rw [if_neg (by omega)]

theorem writeFat_eq {c : Nat} (h : c < fatWords) (w : Word) (s : FatFs) :
    writeFat c w s = .ret () { s with fats := update s.fats c w } := by
  unfold writeFat
  rw [if_pos h]
  rfl

theorem writeFat_wild {c : Nat} (h : fatWords ≤ c) (w : Word) (s : FatFs) :
    writeFat c w s = .halt .wild := by
  unfold writeFat
  rw [if_neg (by omega)]
  rfl

theorem readFat_eq {c : Nat} (h : c < fatWords) (s : FatFs) : readFat c s = .ret (s.fats c) s := by
  unfold readFat
  rw [get_bind, if_pos h]
  rfl

theorem readFat_wild {c : Nat} (h : fatWords ≤ c) (s : FatFs) : readFat c s = .halt .wild := by
  unfold readFat
  rw [get_bind, if_neg (by omega)]
  rfl

/-- The loop of `claim`. -/
def linkRun (c n : Nat) : Nat → Nat → FatM Unit := Prog.loop fun i =>
  if i < n - 1 then writeFat (c + i) (BitVec.ofNat 32 (c + i + 1)) else writeFat (c + i) fat32Used

theorem linkRun_succ (c n i m : Nat) (s : FatFs) (h : i < n) :
    linkRun c n i (m + 1) s = (writeFat (c + i)
      (if c + i + 1 < c + n then BitVec.ofNat 32 (c + i + 1) else fat32Used) >>= fun _ =>
        linkRun c n (i + 1) m) s := by
  unfold linkRun
  rw [loop]
  by_cases hi : i < n - 1
  · rw [if_pos hi, if_pos (by omega)]
  · rw [if_neg hi, if_neg (by omega)]

theorem linkRun_eq {c n : Nat} (h : c + n ≤ fatWords) : ∀ m i (s : FatFs), i + m = n →
    linkRun c n i m s = .ret () { s with
      fats := fun j => if c + i ≤ j then claimed n c s.fats j else s.fats j } := by
  intro m
  induction m with
  | zero =>
    intro i s hi
    show Outcome.ret () s = _
    congr 1
    have hfats : s.fats = fun j => if c + i ≤ j then claimed n c s.fats j else s.fats j := by
      funext j
      split
      next hj => rw [claimed_of_not_mem (by omega)]
      next => rfl
    rw [← hfats]
  | succ m ih =>
    intro i s hi
    rw [linkRun_succ c n i m s (by omega), bind_ret (writeFat_eq (by omega) _ s), ih (i + 1) _ (by omega)]
    congr 2
    funext j
    dsimp only
    by_cases hj : j = c + i
    · subst hj
      rw [if_neg (by omega), update_self, if_pos (le_refl _), claimed,
        if_pos (⟨by omega, by omega⟩ : c ≤ c + i ∧ c + i < c + n)]
    · by_cases hlt : c + i ≤ j
      · rw [if_pos (by omega), if_pos hlt]
        unfold claimed
        rw [update_of_ne hj]
      · rw [if_neg (by omega), if_neg hlt, update_of_ne hj]

theorem linkRun_wild {c n : Nat} (h : fatWords < c + n) : ∀ m i (s : FatFs), i + m = n →
    c + i ≤ fatWords → linkRun c n i m s = .halt .wild := by
  intro m
  induction m with
  | zero => intro i s hi hc; omega
  | succ m ih =>
    intro i s hi hc
    rw [linkRun_succ c n i m s (by omega)]
    by_cases hlast : c + i = fatWords
    · exact bind_halt (writeFat_wild (by omega) _ s)
    · rw [bind_ret (writeFat_eq (by omega) _ s), ih (i + 1) _ (by omega) (by omega)]

theorem claim_large {bpb : Fat32Bpb} (h : bpb.bytsPerCluster ≥ 4096) (c : Nat) (s : FatFs) :
    claim bpb c s = linkRun c 1 0 1 s := by
  unfold claim
  rw [if_pos h, linkRun_succ c 1 0 0 s (by decide), if_neg (by omega)]
  unfold linkRun
  rw [bind_apply]
  cases writeFat c fat32Used s <;> rfl

theorem claim_run (bpb : Fat32Bpb) (c : Nat) (s : FatFs) :
    claim bpb c s = linkRun c bpb.group 0 bpb.group s := by
  unfold Fat32Bpb.group
  split
  next h => exact claim_large h c s
  next h =>
    unfold claim
    rw [if_neg h]
    rfl

theorem claim_eq {bpb : Fat32Bpb} {c : Nat} (h : c + bpb.group ≤ fatWords) (s : FatFs) :
    claim bpb c s = .ret () { s with fats := claimed bpb.group c s.fats } := by
  rw [claim_run, linkRun_eq h _ _ s (Nat.zero_add _)]
  congr 2
  funext j
  by_cases hj : c + 0 ≤ j
  · rw [if_pos hj]
  · rw [if_neg hj, claimed_of_not_mem (by omega)]

theorem claim_wild {bpb : Fat32Bpb} {c : Nat} (hc : c ≤ fatWords) (h : fatWords < c + bpb.group)
    (s : FatFs) : claim bpb c s = .halt .wild := by
  rw [claim_run]
  exact linkRun_wild h _ _ s (Nat.zero_add _) hc

/-! ## The search -/

/-- `c` is the first free entry of the table from `a` on. -/
structure FirstFree (fats : Nat → Word) (a c : Nat) : Prop where
  le : a ≤ c
  free : fats c = fat32Free
  before : ∀ d, a ≤ d → d < c → fats d ≠ fat32Free

theorem FirstFree.unique {fats : Nat → Word} {a c d : Nat} (h : FirstFree fats a c)
    (h' : FirstFree fats a d) : c = d := by
  by_contra hne
  rcases Nat.lt_or_gt_of_ne hne with hlt | hlt
  · exact h'.before c h.le hlt h.free
  · exact h.before d h'.le hlt h'.free

/-- There is a first free entry below `b`, or none is free. -/
theorem exists_firstFree (fats : Nat → Word) (a b : Nat) :
    (∃ c < b, FirstFree fats a c) ∨ ∀ d, a ≤ d → d < b → fats d ≠ fat32Free := by
  by_cases h : ∃ c, a ≤ c ∧ c < b ∧ fats c = fat32Free
  · left
    classical
    have hmin := Nat.find_spec h
    refine ⟨Nat.find h, hmin.2.1, hmin.1, hmin.2.2, fun d had hd hfree => ?_⟩
    exact Nat.find_min h hd ⟨had, hd.trans hmin.2.1, hfree⟩
  · right
    intro d had hd hfree
    exact h ⟨d, had, hd, hfree⟩

theorem allocClusterFrom_found {s : FatFs} {c : Nat} (hc : c < fatWords) : ∀ n a, c < a + n →
    FirstFree s.fats a c →
    allocClusterFrom a n s = (claim s.bpb c >>= fun _ => pure c) s := by
  intro n
  induction n with
  | zero =>
    intro a hlt h
    have := h.le
    omega
  | succ n ih =>
    intro a hlt h
    have hle := h.le
    rw [allocClusterFrom, bind_ret (readFat_eq (by omega) s)]
    by_cases hac : a = c
    · subst hac
      rw [if_pos h.free]
      rfl
    · rw [if_neg (h.before a (le_refl a) (by omega))]
      exact ih (a + 1) (by omega) ⟨by omega, h.free, fun d hd => h.before d (by omega)⟩

theorem allocClusterFrom_none {s : FatFs} : ∀ n a, a + n ≤ fatWords →
    (∀ d, a ≤ d → d < a + n → s.fats d ≠ fat32Free) → allocClusterFrom a n s = .err .noDisk s := by
  intro n
  induction n with
  | zero => intro a _ _; rfl
  | succ n ih =>
    intro a hle h
    rw [allocClusterFrom, bind_ret (readFat_eq (by omega) s), if_neg (h a (le_refl a) (by omega))]
    exact ih (a + 1) (by omega) fun d hd hlt => h d (by omega) (by omega)

theorem allocClusterFrom_wild {s : FatFs} : ∀ n a, a ≤ fatWords → fatWords < a + n →
    (∀ d, a ≤ d → d < fatWords → s.fats d ≠ fat32Free) →
    allocClusterFrom a n s = .halt .wild := by
  intro n
  induction n with
  | zero => intro a h h' _; omega
  | succ n ih =>
    intro a hle hlt h
    rw [allocClusterFrom]
    by_cases ha : a = fatWords
    · exact bind_halt (readFat_wild (by omega) s)
    · rw [bind_ret (readFat_eq (by omega) s), if_neg (h a (le_refl a) (by omega))]
      exact ih (a + 1) (by omega) (by omega) fun d hd => h d (by omega)

/-- The three ways in which `alloc_cluster_num` can go: it finds a free entry, there is none, or it leaves
the table. -/
theorem allocClusterNum_cases (s : FatFs) :
    (∃ c, c < s.bpb.totSec32 ∧ c < fatWords ∧ FirstFree s.fats 2 c ∧
      allocClusterNum s = (claim s.bpb c >>= fun _ => pure c) s) ∨
    (s.bpb.totSec32 ≤ fatWords ∧ (∀ d, 2 ≤ d → d < s.bpb.totSec32 → s.fats d ≠ fat32Free) ∧
      allocClusterNum s = .err .noDisk s) ∨
    (fatWords < s.bpb.totSec32 ∧ (∀ d, 2 ≤ d → d < fatWords → s.fats d ≠ fat32Free) ∧
      allocClusterNum s = .halt .wild) := by
  have hdef : allocClusterNum s = allocClusterFrom 2 (s.bpb.totSec32 - 2) s := rfl
  have h2 : 2 < fatWords := by decide
  rcases exists_firstFree s.fats 2 (min s.bpb.totSec32 fatWords) with ⟨c, hc, hfirst⟩ | hnone
  · have hle := hfirst.le
    left
    refine ⟨c, by omega, by omega, hfirst, ?_⟩
    rw [hdef]
    exact allocClusterFrom_found (by omega) _ _ (by omega) hfirst
  · right
    by_cases hfit : s.bpb.totSec32 ≤ fatWords
    · left
      refine ⟨hfit, fun d hd hlt => hnone d hd (by omega), ?_⟩
      rw [hdef]
      exact allocClusterFrom_none _ _ (by omega) fun d hd hlt => hnone d hd (by omega)
    · right
      refine ⟨by omega, fun d hd hlt => hnone d hd (by omega), ?_⟩
      rw [hdef]
      exact allocClusterFrom_wild _ _ (by omega) (by omega) fun d hd hlt => hnone d hd (by omega)

/-! ## What is taken -/

theorem Fat32Bpb.Valid.lt_used {bpb : Fat32Bpb} {c : Nat} (h : bpb.Valid c) :
    c < fat32Used.toNat := by
  have hle : bpb.nclus ≤ bpb.totSec32 := Nat.div_le_self _ _
  have hlt := bpb.width.2.2.1
  have hc := h.2
  have hused : fat32Used.toNat = 2 ^ 32 - 1 := by decide
  omega

/-- The entries from `c` on are a chain after they have been taken. -/
theorem claimed_chain {n c : Nat} (fats : Nat → Word) (h : c + n < 2 ^ 32) : ∀ m i, i + m = n → 0 < m →
    FatChain (claimed n c fats) (c + i) (List.range' (c + i) m) := by
  intro m
  induction m with
  | zero => intro i _ h0; exact absurd h0 (by decide)
  | succ m ih =>
    intro i hi _
    refine ⟨rfl, ?_⟩
    by_cases hm : m = 0
    · subst hm
      have hlast : c + i = c + (n - 1) := by omega
      show (claimed n c fats (c + i)).toNat = fat32Used.toNat
      rw [hlast, claimed_last (by omega)]
    · have hnext : (claimed n c fats (c + i)).toNat = c + (i + 1) := by
        rw [claimed_of_lt (by omega) (by omega), BitVec.toNat_ofNat, Nat.mod_eq_of_lt (by omega)]
        omega
      rw [show c + i + 1 = c + (i + 1) by omega]
      show FatChain _ ((claimed n c fats (c + i)).toNat) _
      rw [hnext]
      exact ih (i + 1) (by omega) (by omega)

/-- The entries `xs` were free and valid; now they are a chain from `c` on that fills a page at least, and
the rest of the table is as it was. -/
structure Taken (s t : FatFs) (c : Nat) (xs : List Nat) : Prop where
  chain : FatChain t.fats c xs
  free : ∀ x ∈ xs, s.fats x = fat32Free ∧ s.bpb.Valid x
  others : ∀ x, x ∉ xs → t.fats x = s.fats x
  covers : 4096 ≤ xs.length * s.bpb.bytsPerCluster

/-- What `alloc_cluster_num` is for: it takes free clusters, or fails with `-E_NO_DISK` and changes
nothing. -/
def AllocSound (s : FatFs) : Prop :=
  (allocClusterNum s).Sat (fun c t => ∃ xs, Taken s t c xs)
    (fun e t => e = .noDisk ∧ t.fats = s.fats) (fun _ => False)

/-- From `c` on there are as many free and valid entries as `alloc_cluster_num` takes. -/
structure FreeRun (s : FatFs) (c : Nat) : Prop where
  inside : c + s.bpb.group ≤ min s.bpb.nclus fatWords
  free : ∀ i < s.bpb.group, s.fats (c + i) = fat32Free

theorem claim_taken {s : FatFs} {c : Nat} (h2 : 2 ≤ c) (h : FreeRun s c) :
    Taken s { s with fats := claimed s.bpb.group c s.fats } c (List.range' c s.bpb.group) := by
  have hin := h.inside
  have hwords : fatWords < 2 ^ 32 := by decide
  refine ⟨?_, ?_, ?_, ?_⟩
  · exact claimed_chain s.fats (by omega) _ 0 (Nat.zero_add _) s.bpb.group_pos
  · intro x hx
    obtain ⟨i, hi, rfl⟩ := List.mem_range'.mp hx
    rw [Nat.one_mul]
    exact ⟨h.free i hi, by omega, by omega⟩
  · intro x hx
    refine claimed_of_not_mem ?_
    rw [List.mem_range'_1] at hx
    omega
  · rw [List.length_range']
    exact s.bpb.le_group_mul

theorem freeRun_of_taken {s : FatFs} {c : Nat} {xs : List Nat} (hw : c + s.bpb.group ≤ fatWords)
    (h : Taken s { s with fats := claimed s.bpb.group c s.fats } c xs) : FreeRun s c := by
  have hwords : fatWords < fat32Used.toNat := by decide
  have hwords' : fatWords < 2 ^ 32 := by decide
  have hpos := s.bpb.group_pos
  have hchain := claimed_chain s.fats (by omega : c + s.bpb.group < 2 ^ 32) s.bpb.group 0
    (Nat.zero_add _) hpos
  have hxs : xs = List.range' c s.bpb.group := by
    refine h.chain.unique hchain ?_ ?_
    · intro hm
      exact absurd (h.free _ hm).2.lt_used (lt_irrefl _)
    · intro hm
      rw [List.mem_range'_1] at hm
      omega
  have hmem : ∀ i < s.bpb.group, c + i ∈ xs := by
    intro i hi
    rw [hxs, List.mem_range'_1]
    omega
  refine ⟨?_, fun i hi => (h.free _ (hmem i hi)).1⟩
  have hlast := (h.free _ (hmem (s.bpb.group - 1) (by omega))).2.2
  omega

/-- **`alloc_cluster_num` takes free clusters if and only if the free entry that it finds begins a page's
worth of free and valid ones.** It tests that one entry only, and looks for it up to `BPB_TotSec32`, which
counts sectors. -/
theorem allocClusterNum_sound_iff (s : FatFs) :
    AllocSound s ↔
      (s.bpb.totSec32 ≤ fatWords ∧ ∀ d, 2 ≤ d → d < s.bpb.totSec32 → s.fats d ≠ fat32Free) ∨
      ∃ c, c < s.bpb.totSec32 ∧ FirstFree s.fats 2 c ∧ FreeRun s c := by
  unfold AllocSound
  obtain ⟨c, hc, hw, hfirst, heq⟩ | ⟨hfit, hnone, heq⟩ | ⟨hbig, hnone, heq⟩ := allocClusterNum_cases s
  · have hrun : (allocClusterNum s).Sat (fun c t => ∃ xs, Taken s t c xs)
        (fun e t => e = .noDisk ∧ t.fats = s.fats) (fun _ => False) ↔ FreeRun s c := by
      rw [heq]
      by_cases hin : c + s.bpb.group ≤ fatWords
      · rw [bind_ret (claim_eq hin s)]
        constructor
        · rintro ⟨xs, h⟩
          exact freeRun_of_taken hin h
        · intro h
          exact ⟨_, claim_taken hfirst.le h⟩
      · rw [bind_halt (claim_wild (by omega) (by omega) s)]
        constructor
        · intro h
          exact h.elim
        · intro h
          have := h.inside
          omega
    rw [hrun]
    constructor
    · intro h
      exact .inr ⟨c, hc, hfirst, h⟩
    · rintro (⟨-, hall⟩ | ⟨d, -, hd, h⟩)
      · exact absurd hfirst.free (hall c hfirst.le hc)
      · rwa [hfirst.unique hd]
  · rw [heq]
    constructor
    · intro _
      exact .inl ⟨hfit, hnone⟩
    · intro _
      exact ⟨rfl, rfl⟩
  · rw [heq]
    constructor
    · intro h
      exact h.elim
    · rintro (⟨hfit, -⟩ | ⟨c, hc, hfirst, h⟩)
      · omega
      · have hpos := s.bpb.group_pos
        have hin := h.inside
        exact absurd hfirst.free (hnone c hfirst.le (by omega))

/-- A disk of 1 MiB with four clusters to a page. -/
def quarterClusters : Fat32Bpb where
  bytsPerSec := 512
  secPerClus := 2
  rsvdSecCnt := 32
  numFATs := 1
  totSec32 := 2048
  fatSz32 := 8
  sector := ⟨0, by decide, rfl⟩
  cluster := ⟨1, by decide, rfl⟩
  width := by decide

/-- Cluster 2 is free, cluster 3 belongs to a file. -/
def thirdTaken : FatFs :=
  { FatFs.blank quarterClusters with fats := fun c => if c = 2 ∨ 3 < c then 0 else fat32Used }

/-- The file loses its cluster. -/
theorem allocClusterNum_takes_used : ¬AllocSound thirdTaken := by
  have hfirst : FirstFree thirdTaken.fats 2 2 := ⟨le_refl 2, by decide, by omega⟩
  unfold AllocSound
  obtain ⟨c, -, hw, hc, heq⟩ | ⟨-, hnone, -⟩ | ⟨hbig, -, -⟩ := allocClusterNum_cases thirdTaken
  · obtain rfl := hfirst.unique hc
    rw [heq, bind_ret (claim_eq (by decide) thirdTaken)]
    rintro ⟨xs, h⟩
    have hfree := (freeRun_of_taken (by decide) h).free 1 (by decide)
    exact absurd hfree (by decide)
  · exact absurd hfirst.free (hnone 2 (le_refl 2) (by decide))
  · exact absurd hbig (by decide)

end Mos
