import Mos.Fs.FatSeen
import Mos.Fs.Tree

/-!
# The directories of a FAT32 disk

A well-formed directory has a chain of clusters, which are full of entries. A tree of such directories is
looked at as it can be seen (`peek`): what a path stands for does not depend on what has been loaded so far.
-/

namespace Mos

open Lib Prog Function

/-! ## Entries -/

/-- The entries of the clusters `xs`, in their order. -/
def Fat32Bpb.slots (bpb : Fat32Bpb) (xs : List Nat) : List Nat :=
  xs.flatMap fun c => (List.range bpb.entries).map (fatEntry (bpb.cluster2addr c))

namespace FatFs

/-- A `uint16_t` that can be seen. -/
def peekHalf (s : FatFs) (va : Nat) : Nat := (s.peek va).toNat + 256 * (s.peek (va + 1)).toNat

/-- The first cluster in an entry. -/
def peekFst (s : FatFs) (f : Nat) : Nat := s.peekHalf (f + 20) * 65536 + s.peekHalf (f + 26)

/-- `DIR_FileSize` in an entry. -/
def peekSize (s : FatFs) (f : Nat) : Nat := s.peekHalf (f + 30) * 65536 + s.peekHalf (f + 28)

/-- `DIR_Attr` says that the entry is a directory. -/
def IsFatDir (s : FatFs) (d : Nat) : Prop := s.peek (d + 11) = attrDirectory

instance (s : FatFs) (d : Nat) : Decidable (s.IsFatDir d) := inferInstanceAs (Decidable (_ = _))

/-- The string at `DIR_Name` is `name`. -/
def HasFatName (s : FatFs) (f : Nat) (name : List Byte) : Prop :=
  name.length < 20 ∧ ∀ k < name.length + 1, s.peek (f + k) = name.getD k 0

instance (s : FatFs) (f : Nat) (name : List Byte) : Decidable (s.HasFatName f name) :=
  inferInstanceAs (Decidable (_ ∧ _))

/-- The entries of `d` that are looked at, if `d` has the clusters `xs`: those of as many clusters as
`DIR_FileSize` promises. -/
def listing (s : FatFs) (xs : List Nat) (d : Nat) : List Nat :=
  s.bpb.slots (xs.take (s.peekSize d / s.bpb.bytsPerCluster))

/-- The first entry of `d` with a name. -/
def fatFind (s : FatFs) (xs : List Nat) (d : Nat) (name : List Byte) : Option Nat :=
  (s.listing xs d).find? fun f => s.HasFatName f name

/-- `f` is an entry in a cluster that can be loaded. -/
def Placed (s : FatFs) (f : Nat) : Prop := ∃ c, s.Ready c ∧ f ∈ s.bpb.slots [c]

/-- `d` is a directory, as far as its clusters `xs`: they are linked one to the next from the first cluster of
`d` on, they can be loaded, and in each entry a zero ends the name. -/
structure FatDir (s : FatFs) (xs : List Nat) (d : Nat) : Prop where
  place : s.Placed d
  path : ∃ m, Path (fun c => (s.fats c).toNat) (s.peekFst d) xs m
  inside : ∀ c ∈ xs, c < fatWords
  ready : ∀ c ∈ xs, s.Ready c
  ended : ∀ f ∈ s.bpb.slots xs, ∃ k < 20, s.peek (f + k) = 0

end FatFs

section Slots

variable {bpb : Fat32Bpb} {xs ys : List Nat} {c f j k : Nat}

namespace Fat32Bpb

theorem mem_slots : f ∈ bpb.slots xs ↔
    ∃ c ∈ xs, ∃ j < bpb.entries, f = fatEntry (bpb.cluster2addr c) j := by
  unfold slots
  rw [List.mem_flatMap]
  refine exists_congr fun c => and_congr_right fun _ => ?_
  rw [List.mem_map]
  constructor
  · rintro ⟨j, hj, rfl⟩
    exact ⟨j, List.mem_range.mp hj, rfl⟩
  · rintro ⟨j, hj, rfl⟩
    exact ⟨j, List.mem_range.mpr hj, rfl⟩

theorem slots_append (xs ys : List Nat) : bpb.slots (xs ++ ys) = bpb.slots xs ++ bpb.slots ys :=
  List.flatMap_append

theorem slots_cons (c : Nat) (xs : List Nat) : bpb.slots (c :: xs) =
    (List.range bpb.entries).map (fatEntry (bpb.cluster2addr c)) ++ bpb.slots xs := List.flatMap_cons

/-- A cluster is full of entries of 64 bytes. -/
theorem entries_mul (bpb : Fat32Bpb) : 64 * bpb.entries = bpb.bytsPerCluster := by
  obtain ⟨n, -, hb⟩ := bpb.exists_bytsPerCluster
  unfold entries fatdirby2file
  omega

theorem first_slot : fatEntry (bpb.cluster2addr c) 0 ∈ bpb.slots [c] := by
  have hpos := bpb.bytsPerCluster_pos
  have hmul := bpb.entries_mul
  exact mem_slots.mpr ⟨c, List.mem_singleton_self c, 0, by omega, rfl⟩

theorem slots_mono (h : xs ⊆ ys) (hf : f ∈ bpb.slots xs) : f ∈ bpb.slots ys := by
  obtain ⟨c, hc, j, hj, rfl⟩ := mem_slots.mp hf
  exact mem_slots.mpr ⟨c, h hc, j, hj, rfl⟩

/-- Byte `k` of an entry in the cluster `c`. -/
theorem slot_byte (hj : j < bpb.entries) (hk : k < 64) :
    fatEntry (bpb.cluster2addr c) j + k = bpb.cluster2addr c + (64 * j + k) ∧
      64 * j + k < bpb.bytsPerCluster ∧ (fatEntry (bpb.cluster2addr c) j + k) % 64 = k := by
  have hal := bpb.cluster2addr_aligned c
  have hmul := bpb.entries_mul
  unfold fatEntry fatdirby2file
  omega

theorem slot_aligned (hf : f ∈ bpb.slots xs) : f % 64 = 0 := by
  obtain ⟨c, -, j, hj, rfl⟩ := mem_slots.mp hf
  have hmod := (slot_byte (c := c) (k := 0) hj (by decide)).2.2
  rwa [Nat.add_zero] at hmod

theorem slot_mem_area {K : Set Nat} (hK : ∀ c ∈ xs, c ∈ K) (hf : f ∈ bpb.slots xs) (hk : k < 64) :
    f + k ∈ bpb.area K := by
  obtain ⟨c, hc, j, hj, rfl⟩ := mem_slots.mp hf
  obtain ⟨h1, h2, -⟩ := slot_byte (c := c) (k := k) hj hk
  exact ⟨c, hK c hc, _, h2, h1⟩

/-- Entries at one address are in clusters at one address. -/
theorem slot_unique {d : Nat} (hc : fatEntry (bpb.cluster2addr c) j = fatEntry (bpb.cluster2addr d) k)
    (hj : j < bpb.entries) (hk : k < bpb.entries) : bpb.cluster2addr c = bpb.cluster2addr d := by
  have hmul := bpb.entries_mul
  have hpos := bpb.bytsPerCluster_pos
  obtain ⟨m, hm⟩ := Nat.dvd_of_mod_eq_zero (bpb.cluster2addr_mod c)
  obtain ⟨n, hn⟩ := Nat.dvd_of_mod_eq_zero (bpb.cluster2addr_mod d)
  unfold fatEntry fatdirby2file at hc
  rw [hm, hn] at hc ⊢
  have hm' : (bpb.bytsPerCluster * m + 64 * j) / bpb.bytsPerCluster = m := by
    rw [Nat.mul_add_div hpos, Nat.div_eq_of_lt (by omega), Nat.add_zero]
  have hn' : (bpb.bytsPerCluster * n + 64 * k) / bpb.bytsPerCluster = n := by
    rw [Nat.mul_add_div hpos, Nat.div_eq_of_lt (by omega), Nat.add_zero]
  rw [hc, hn'] at hm'
  rw [hm']

end Fat32Bpb

end Slots

namespace FatFs

variable {s t u : FatFs} {xs : List Nat} {c d f k n : Nat} {name : List Byte}

theorem HasFatName.congr (h : ∀ k < 20, t.peek (f + k) = s.peek (f + k)) :
    t.HasFatName f name ↔ s.HasFatName f name := by
  refine and_congr_right fun hlen => forall_congr' fun k => forall_congr' fun hk => ?_
  rw [h k (by omega)]

/-- A name that is not empty begins with a byte that is not zero. -/
theorem HasFatName.ne_zero (h : s.HasFatName f name) (hne : name ≠ []) (hz : 0 ∉ name) : s.peek f ≠ 0 := by
  have h0 := h.2 0 (Nat.succ_pos _)
  cases name with
  | nil => exact absurd rfl hne
  | cons x xs =>
    rw [Nat.add_zero, List.getD_cons_zero] at h0
    rw [h0]
    exact fun hx => hz (hx ▸ List.mem_cons_self)

namespace Sees

theorem slot (h : s.Sees t) (hr : ∀ c ∈ xs, s.Ready c) (hf : f ∈ s.bpb.slots xs) (hk : k < 32) :
    t.peek (f + k) = s.peek (f + k) := by
  obtain ⟨c, hc, j, hj, rfl⟩ := Fat32Bpb.mem_slots.mp hf
  obtain ⟨h1, h2, h3⟩ := Fat32Bpb.slot_byte (c := c) (k := k) hj (by omega)
  rw [h1]
  exact h.peek c (hr c hc) _ h2 (by omega)

end Sees

namespace Placed

theorem isEntry (h : s.Placed f) (hm : t.fatvaIsMapped f = true) : t.IsEntry f := by
  obtain ⟨c, -, hmem⟩ := h
  exact ⟨Fat32Bpb.slot_aligned hmem, hm⟩

theorem peek (h : s.Placed f) (hs : s.Sees t) (hk : k < 32) : t.peek (f + k) = s.peek (f + k) := by
  obtain ⟨c, hc, hmem⟩ := h
  exact hs.slot (by simpa using hc) hmem hk

theorem byte (h : s.Placed f) (hs : s.Sees t) (hm : t.fatvaIsMapped f = true) (hk : k < 32) :
    t.byte (f + k) = s.peek (f + k) := by
  rw [← peek_mapped ((h.isEntry hm).byte_mapped (by omega)), h.peek hs hk]

theorem half (h : s.Placed f) (hs : s.Sees t) (hm : t.fatvaIsMapped f = true) (hk : k < 31) :
    t.half (f + k) = s.peekHalf (f + k) := by
  unfold FatFs.half peekHalf
  rw [h.byte hs hm (by omega), Nat.add_assoc, h.byte hs hm (by omega)]

theorem fstClus (h : s.Placed f) (hs : s.Sees t) (hm : t.fatvaIsMapped f = true) :
    t.fstClus f = s.peekFst f := by
  unfold FatFs.fstClus peekFst
  rw [h.half hs hm (by decide), h.half hs hm (by decide)]

theorem fileSize (h : s.Placed f) (hs : s.Sees t) (hm : t.fatvaIsMapped f = true) :
    t.fileSize f = s.peekSize f := by
  unfold FatFs.fileSize peekSize
  rw [h.half hs hm (by decide), h.half hs hm (by decide)]

end Placed

namespace FatDir

theorem placed (h : s.FatDir xs d) (hf : f ∈ s.bpb.slots xs) : s.Placed f := by
  obtain ⟨c, hc, j, hj, rfl⟩ := Fat32Bpb.mem_slots.mp hf
  exact ⟨c, h.ready c hc, Fat32Bpb.mem_slots.mpr ⟨c, List.mem_singleton_self c, j, hj, rfl⟩⟩

/-- The clusters in front of another one do not end the chain. -/
theorem ne_used (h : s.FatDir xs d) {i : Nat} (hi : i < xs.length) :
    ∀ x ∈ xs.take i, s.fats x ≠ fat32Used := by
  intro x hx hused
  obtain ⟨m, hpath⟩ := h.path
  obtain ⟨l, l', hl⟩ := List.append_of_mem hx
  have hsplit : xs = (l ++ [x]) ++ (l' ++ xs.drop i) := by
    have htd := List.take_append_drop i xs
    rw [hl, List.append_assoc, List.cons_append] at htd
    rw [List.append_assoc, List.singleton_append]
    exact htd.symm
  have hne : l' ++ xs.drop i ≠ [] := by
    intro hnil
    have := congrArg List.length (List.append_eq_nil_iff.mp hnil).2
    rw [List.length_drop, List.length_nil] at this
    omega
  -- what follows would begin with the end marker
  obtain ⟨y, ys, hys⟩ := List.exists_cons_of_ne_nil hne
  rw [hys] at hsplit
  rw [hsplit] at hpath
  obtain ⟨z, hleft, hright⟩ := Path.append_iff.mp hpath
  obtain ⟨_, -, hlast⟩ := Path.append_iff.mp hleft
  have hz : z = fat32Used.toNat := by
    rw [← hused]
    exact hlast.2.symm
  have hy : y = fat32Used.toNat := hright.1.symm.trans hz
  have hready := h.ready y (by rw [hsplit]; simp)
  exact absurd hready.valid.lt_used (by rw [hy]; exact lt_irrefl _)

end FatDir

end FatFs

/-! ## Looking a name up -/

section Lookup

variable {s t u : FatFs} {xs : List Nat} {c d f i n : Nat} {name : List Byte}

/-- `fatfile_map_cluster` of a cluster that the directory has. -/
theorem fatfileMapCluster_dir (h : s.FatDir xs d) (hfst : t.fstClus d = s.peekFst d) (hfats : t.fats = s.fats)
    (hi : i < xs.length) : fatfileMapCluster d i true t = .ret xs[i] t := by
  have hvalid := (h.ready _ (List.getElem_mem hi)).valid.1
  -- the walk goes along the chain
  obtain ⟨m, hpath⟩ := h.path
  have hsplit : xs = xs.take i ++ xs[i] :: xs.drop (i + 1) := by
    rw [← List.drop_eq_getElem_cons hi, List.take_append_drop]
  rw [hsplit] at hpath
  obtain ⟨x, htake, hx, -⟩ := Path.append_iff.mp hpath
  rw [hx, ← hfats] at htake
  have hwalk : clusterWalk d i true 0 ((xs.take i).length + 0) (t.fstClus d) t =
      clusterWalk d i true (0 + (xs.take i).length) 0 xs[i] t := by
    rw [hfst]
    refine clusterWalk_path (xs.take i) _ _ 0 0 htake fun y hy => ⟨h.inside y (List.mem_of_mem_take hy), ?_⟩
    rw [hfats]
    exact h.ne_used hi y hy
  rw [Nat.add_zero, List.length_take, Nat.min_eq_left hi.le] at hwalk
  exact fatfileMapCluster_walk hwalk (by omega)

/-- `fatfile_get_cluster` of a cluster that the directory has. -/
theorem fatfileGetCluster_inside (h : s.FatDir xs d) (hs : s.Sees t) (hm : t.fatvaIsMapped d = true)
    (hi : i < xs.length) :
    (fatfileGetCluster d i t).Sat
      (fun b u => b = s.bpb.cluster2addr xs[i] ∧ t.Sees u ∧ u.clusterIsMapped xs[i] = true)
      (fun _ _ => False) (fun p => p = .noMemory ∧ ¬s.Stocked) := by
  have hready := hs.ready _ (h.ready _ (List.getElem_mem hi))
  rw [fatfileGetCluster, bind_ret (fatfileMapCluster_dir h (h.place.fstClus hs hm) hs.fats hi), sat_bind]
  refine (readCluster_ready hready).mono ?_ (fun _ _ h => h) (fun p hp => ⟨hp.1, fun h' => hp.2 (hs.stocked h')⟩)
  rintro ⟨b, isnew⟩ u ⟨hb, hu, hcm⟩
  rw [hs.bpb] at hb
  exact ⟨hb, hu, hcm⟩

/-- The inner loop, for a test that changes nothing. -/
theorem findEntry_pure {blk : Nat} {test : Nat → FatM Bool} {q : Nat → Bool} : ∀ n j,
    (∀ i, j ≤ i → i < j + n → test (fatEntry blk i) s = .ret (q (fatEntry blk i)) s) →
    findEntry blk test j n s = .ret (((List.range' j n).map (fatEntry blk)).find? q) s := by
  intro n
  induction n with
  | zero => exact fun _ _ => rfl
  | succ n ih =>
    intro j h
    rw [findEntry, bind_ret (h j (le_refl j) (by omega)), List.range'_succ, List.map_cons, List.find?_cons]
    cases q (fatEntry blk j) with
    | true => rfl
    | false => exact ih (j + 1) fun i h1 h2 => h i (by omega) (by omega)

theorem loadFatByte_mapped {va : Nat} (hm : s.fatvaIsMapped va = true) :
    loadFatByte va s = .ret (s.byte va) s := by
  rw [loadFatByte, bind_ret (touchPage_mapped hm)]
  rfl

/-- `strcmp` with the name of an entry. -/
theorem fatStrEq_entry (hf : s.IsEntry f) {z : Nat} (hz : z < 20) (hzero : s.byte (f + z) = 0) :
    ∀ cs k, 0 ∉ cs → k ≤ z → fatStrEq (f + k) cs s =
      .ret (decide (k + cs.length < 20 ∧ ∀ i < cs.length + 1, s.byte (f + (k + i)) = cs.getD i 0)) s := by
  intro cs
  induction cs with
  | nil =>
    intro k _ hk
    rw [fatStrEq, bind_ret (loadFatByte_mapped (hf.byte_mapped (by omega))), Prog.pure_apply]
    congr 1
    refine decide_eq_decide.mpr ⟨fun h => ⟨by simp; omega, fun i hi => ?_⟩, fun h => h.2 0 (by simp)⟩
    obtain rfl : i = 0 := by simpa using hi
    exact h
  | cons c cs ih =>
    intro k hcs hk
    rw [List.mem_cons, not_or] at hcs
    rw [fatStrEq, bind_ret (loadFatByte_mapped (hf.byte_mapped (by omega)))]
    by_cases hc : s.byte (f + k) = c
    · -- the zero comes later
      have hlt : k + 1 ≤ z := by
        rcases Nat.lt_or_ge k z with h | h
        · exact h
        · obtain rfl : k = z := by omega
          exact absurd (hzero.symm.trans hc) hcs.1
      rw [if_pos hc, Nat.add_assoc, ih (k + 1) hcs.2 hlt]
      congr 1
      refine decide_eq_decide.mpr (and_congr (by rw [List.length_cons]; omega) ?_)
      constructor
      · intro h i hi
        cases i with
        | zero => exact hc
        | succ i =>
          rw [List.length_cons] at hi
          rw [List.getD_cons_succ, ← h i (by omega), Nat.add_assoc, Nat.add_comm 1 i]
      · intro h i hi
        have := h (i + 1) (by rw [List.length_cons]; omega)
        rwa [List.getD_cons_succ, Nat.add_comm i 1, ← Nat.add_assoc k 1 i] at this
    · rw [if_neg hc, Prog.pure_apply]
      congr 1
      refine (decide_eq_false fun h => hc ?_).symm
      exact h.2 0 (by simp)

/-- What `strcmp` finds out about an entry of a directory. -/
theorem fatStrEq_slot (h : s.FatDir xs d) (hs : s.Sees t) (hf : f ∈ s.bpb.slots xs)
    (hm : t.fatvaIsMapped f = true) (hz : 0 ∉ name) :
    fatStrEq f name t = .ret (decide (s.HasFatName f name)) t := by
  have hplace := h.placed hf
  have hbyte : ∀ k < 20, t.byte (f + k) = s.peek (f + k) := fun k hk => hplace.byte hs hm (by omega)
  obtain ⟨z, hlt, hzero⟩ := h.ended f hf
  have heq := fatStrEq_entry (hplace.isEntry hm) hlt (by rw [hbyte z hlt, hzero]) name 0 hz (Nat.zero_le z)
  rw [Nat.add_zero] at heq
  rw [heq]
  congr 1
  refine decide_eq_decide.mpr ?_
  simp only [Nat.zero_add]
  refine and_congr_right fun hlen => forall_congr' fun k => forall_congr' fun hk => ?_
  rw [hbyte k (by omega)]

/-- The entries of a loaded cluster are in memory. -/
theorem slot_mapped (hbpb : t.bpb = s.bpb) (hc : t.clusterIsMapped c = true) (hf : f ∈ s.bpb.slots [c]) :
    t.fatvaIsMapped f = true := by
  obtain ⟨c', hc', j, hj, rfl⟩ := Fat32Bpb.mem_slots.mp hf
  obtain rfl := List.mem_singleton.mp hc'
  obtain ⟨-, hlt, -⟩ := Fat32Bpb.slot_byte (c := c') (k := 0) hj (by decide)
  have hm := FatFs.clusterIsMapped_iff.mp hc (64 * j) (by rw [hbpb]; omega)
  rwa [hbpb] at hm

/-- The loop of `fatdir_lookup` searches the entries of the clusters. It may come upon a cluster that the
directory does not have, but not before it has looked at those that the directory has. -/
theorem fatLookupFrom_find (h : s.FatDir xs d) (hz : 0 ∉ name) : ∀ n m i t, s.Sees t →
    t.fatvaIsMapped d = true → i + m ≤ xs.length → m ≤ n →
    (m = n ∨ ((s.bpb.slots ((xs.drop i).take m)).find? fun f => s.HasFatName f name).isSome = true) →
    (fatLookupFrom d name i n t).Sat
      (fun f u => t.Sees u ∧ u.fatvaIsMapped f = true ∧
        ((s.bpb.slots ((xs.drop i).take m)).find? fun f => s.HasFatName f name) = some f)
      (fun e u => e = .notFound ∧ t.Sees u ∧
        ((s.bpb.slots ((xs.drop i).take m)).find? fun f => s.HasFatName f name) = none)
      (fun p => p = .noMemory ∧ ¬s.Stocked) := by
  intro n
  induction n with
  | zero =>
    intro m i t hs _ _ hmn _
    obtain rfl := Nat.le_zero.mp hmn
    exact ⟨rfl, FatFs.Sees.refl t, rfl⟩
  | succ n ih =>
    intro m i t hs hm hlen hmn hend
    cases m with
    | zero =>
      rcases hend with h0 | h0
      · omega
      · cases h0
    | succ m =>
      have hi : i < xs.length := by omega
      rw [List.drop_eq_getElem_cons hi, List.take_succ_cons, Fat32Bpb.slots_cons, List.find?_append] at hend ⊢
      rw [fatLookupFrom, get_bind]
      refine sat_call (fatfileGetCluster_inside h hs hm hi) ?_ (fun _ _ h => h.elim) (fun _ h => h)
      rintro b u ⟨hb, htu, hcm⟩
      have hu := hs.trans htu
      have hslot : ∀ j < s.bpb.entries, fatEntry (s.bpb.cluster2addr xs[i]) j ∈ s.bpb.slots [xs[i]] :=
        fun j hj => Fat32Bpb.mem_slots.mpr ⟨_, List.mem_singleton_self _, j, hj, rfl⟩
      have hsub : ∀ {f}, f ∈ s.bpb.slots [xs[i]] → f ∈ s.bpb.slots xs := fun hf =>
        Fat32Bpb.slots_mono (by simp) hf
      rw [hb, hs.bpb, bind_ret (findEntry_pure (q := fun f => decide (s.HasFatName f name)) _ 0 fun j _ hj =>
        fatStrEq_slot h hu (hsub (hslot j (by omega))) (slot_mapped hu.bpb hcm (hslot j (by omega))) hz),
        ← List.range_eq_range']
      cases hfind : ((List.range s.bpb.entries).map (fatEntry (s.bpb.cluster2addr xs[i]))).find?
          (fun f => decide (s.HasFatName f name)) with
      | some f =>
        obtain ⟨j, hj, hfj⟩ := List.mem_map.mp (List.mem_of_find?_eq_some hfind)
        have hf : f ∈ s.bpb.slots [xs[i]] := hfj ▸ hslot j (List.mem_range.mp hj)
        have hset : u.Sees (u.setDir f d) := FatFs.sees_setDir ⟨Fat32Bpb.slot_aligned hf, slot_mapped hu.bpb hcm hf⟩
        have hdirty : ∀ c, (Prog.attempt (dirtyCluster c) (u.setDir f d)).Sat (fun _ => (u.setDir f d).Sees)
            (fun _ _ => False) (fun _ => False) := fun c =>
          sat_attempt.mpr (dirtyCluster_sees _ c _ (FatFs.Sees.refl _))
        dsimp only
        rw [modify_bind]
        refine sat_call (hdirty _) ?_ (fun _ _ h => h.elim) (fun _ h => h.elim)
        intro r v hv
        exact ⟨htu.trans (hset.trans hv), hv.mapped f (hset.mapped f (slot_mapped hu.bpb hcm hf)), rfl⟩
      | none =>
        rw [hfind] at hend
        refine (ih m (i + 1) u hu (htu.mapped d hm) (by omega) (by omega) (hend.imp (by omega) id)).mono ?_ ?_
          (fun _ h => h)
        · rintro f v ⟨hv, hmf, hfound⟩
          exact ⟨htu.trans hv, hmf, hfound⟩
        · rintro e v ⟨rfl, hv, hnone⟩
          exact ⟨rfl, htu.trans hv, hnone⟩

/-- `fatdir_lookup` finds the first entry with the name, and only fails with `-E_NOT_FOUND` if there is none. -/
theorem fatdirLookup_find (h : s.FatDir xs d) (hz : 0 ∉ name) (hs : s.Sees t)
    (hm : t.fatvaIsMapped d = true)
    (hend : s.peekSize d / s.bpb.bytsPerCluster ≤ xs.length ∨ (s.fatFind xs d name).isSome = true) :
    (fatdirLookup d name t).Sat
      (fun f u => t.Sees u ∧ u.fatvaIsMapped f = true ∧ s.fatFind xs d name = some f)
      (fun e u => e = .notFound ∧ t.Sees u ∧ s.fatFind xs d name = none)
      (fun p => p = .noMemory ∧ ¬s.Stocked) := by
  have htake : xs.take (min (s.peekSize d / s.bpb.bytsPerCluster) xs.length) =
      xs.take (s.peekSize d / s.bpb.bytsPerCluster) := by
    rw [List.take_eq_take_iff]
    omega
  have hloop := fatLookupFrom_find h hz (s.peekSize d / s.bpb.bytsPerCluster)
    (min (s.peekSize d / s.bpb.bytsPerCluster) xs.length) 0 t hs hm (by omega) (Nat.min_le_left _ _)
  rw [List.drop_zero, htake] at hloop
  rw [fatdirLookup, get_bind, h.place.fileSize hs hm, hs.bpb]
  exact hloop (hend.imp (fun hle => by omega) id)

theorem fatIsDir_spec (h : s.Placed f) (hs : s.Sees t) (hm : t.fatvaIsMapped f = true) :
    fatIsDir f t = .ret (decide (s.IsFatDir f)) t := by
  rw [fatIsDir, bind_ret (loadFatByte_mapped ((h.isEntry hm).byte_mapped (by decide))),
    h.byte hs hm (by decide)]
  rfl

end Lookup

/-! ## Trees -/

namespace FatFs

/-- What a path stands for, where the directory `d` has the clusters `clus d`. -/
def fatResolve (s : FatFs) (clus : Nat → List Nat) (root : Nat) (names : List (List Byte)) : Except Err Walk :=
  resolve s.IsFatDir (fun d => s.fatFind (clus d) d) none root names

/-- Paths can be followed from `root` on. `F` are the files that are met on the way, and `clus d` are the
clusters of the directory `d`: `DIR_FileSize` promises no more of them than there are. -/
structure Walkable (s : FatFs) (root : Nat) (clus : Nat → List Nat) (F : Set Nat) : Prop where
  root_mem : root ∈ F
  loaded : s.fatvaIsMapped root = true
  placed : ∀ f ∈ F, s.Placed f
  closed : ∀ d ∈ F, s.IsFatDir d → ∀ f ∈ s.listing (clus d) d, s.peek f ≠ 0 → f ∈ F
  dir : ∀ d ∈ F, s.IsFatDir d → s.FatDir (clus d) d
  long : ∀ d ∈ F, s.IsFatDir d → s.peekSize d / s.bpb.bytsPerCluster ≤ (clus d).length

/-- The directories below `root` are well formed: the files are in their clusters, the clusters of a directory
are the whole chain, and no cluster belongs to two directories. -/
structure FatTree (s : FatFs) (root : Nat) (clus : Nat → List Nat) (F : Set Nat) : Prop
    extends s.Walkable root clus F where
  home : ∀ f ∈ F, ∃ d ∈ F, s.IsFatDir d ∧ f ∈ s.bpb.slots (clus d)
  chain : ∀ d ∈ F, s.IsFatDir d → (clus d = [] ∧ s.peekFst d = 0) ∨
    (clus d ≠ [] ∧ FatChain s.fats (s.peekFst d) (clus d))
  nodup : ∀ d ∈ F, s.IsFatDir d → (clus d).Nodup
  apart : ∀ d ∈ F, s.IsFatDir d → ∀ d' ∈ F, s.IsFatDir d' → ∀ c ∈ clus d, ∀ c' ∈ clus d',
    s.bpb.cluster2addr c = s.bpb.cluster2addr c' → d = d' ∧ c = c'

/-- In `t` the directories in `F` still have what they had in `s`. -/
structure Outlives (root : Nat) (F : Set Nat) (s : FatFs) (clus : Nat → List Nat) (t : FatFs)
    (clus' : Nat → List Nat) : Prop where
  loaded : t.fatvaIsMapped root = true
  isDir : ∀ d ∈ F, s.IsFatDir d → t.IsFatDir d
  dir : ∀ d ∈ F, s.IsFatDir d → t.FatDir (clus' d) d
  finds : ∀ d ∈ F, s.IsFatDir d → ∀ name, name ≠ [] → 0 ∉ name → ∀ f,
    s.fatFind (clus d) d name = some f → t.fatFind (clus' d) d name = some f

end FatFs

section Tree

variable {s t u : FatFs} {root d f g : Nat} {clus clus' : Nat → List Nat} {F : Set Nat}
  {rootName rest name : List Byte} {o : Option Nat}

namespace FatFs

theorem fatFind_spec {xs : List Nat} (h : s.fatFind xs d name = some f) :
    f ∈ s.listing xs d ∧ s.HasFatName f name :=
  ⟨List.mem_of_find?_eq_some h, by simpa using List.find?_some h⟩

theorem listing_subset {xs : List Nat} (hf : f ∈ s.listing xs d) : f ∈ s.bpb.slots xs :=
  Fat32Bpb.slots_mono (List.take_subset _ _) hf

/-- What is found by a name is a file of the tree. -/
theorem Walkable.mem_of_find (h : s.Walkable root clus F) (hd : d ∈ F) (hdir : s.IsFatDir d) (hne : name ≠ [])
    (hz : 0 ∉ name) (hf : s.fatFind (clus d) d name = some f) : f ∈ F := by
  obtain ⟨hmem, hname⟩ := fatFind_spec hf
  exact h.closed d hd hdir f hmem (hname.ne_zero hne hz)

/-- The names of a path. -/
theorem names_of_path (hz : 0 ∉ rest) : ∀ n ∈ pieces slash rest, n ≠ [] ∧ 0 ∉ n :=
  fun _ hn => ⟨(mem_pieces hn).1, fun h0 => hz ((mem_pieces hn).2.2 0 h0)⟩

/-- Where the last name of a path is missing. -/
theorem Walkable.of_missing (h : s.Walkable root clus F) (hz : 0 ∉ rest)
    (hr : s.fatResolve clus root (pieces slash rest) = .ok (.missing d name)) :
    d ∈ F ∧ s.IsFatDir d ∧ s.fatFind (clus d) d name = none ∧ name ≠ [] ∧ 0 ∉ name :=
  resolve_missing (fun d => s.fatFind (clus d) d) (· ∈ F) (fun n => n ≠ [] ∧ 0 ∉ n)
    (fun _ _ _ hd hdir hn hf => h.mem_of_find hd hdir hn.1 hn.2 hf) _ none root h.root_mem (names_of_path hz) hr

end FatFs

open FatFs in
/-- `fatwalk_path` in a well-formed tree: the result is what the path stands for. -/
theorem fatwalkPath_resolve (h : s.Walkable root clus F) (hroot : rootName.length = 6) (hz : 0 ∉ rest) :
    (fatwalkPath root (rootName ++ rest) s).Sat
      (fun w t => s.Sees t ∧ s.fatResolve clus root (pieces slash rest) = .ok w ∧
        match w with
        | .found _ g => g ∈ F ∧ t.fatvaIsMapped g = true
        | .missing d _ => t.fatvaIsMapped d = true)
      (fun e t => s.Sees t ∧ s.fatResolve clus root (pieces slash rest) = .error e)
      (fun p => p = .noMemory ∧ ¬s.Stocked) := by
  rw [fatwalkPath_eq_descend hroot]
  refine (descend_resolve s.IsFatDir (fun d => s.fatFind (clus d) d) s.Sees
    (fun f t => f ∈ F ∧ t.fatvaIsMapped f = true) (fun n => n ≠ [] ∧ 0 ∉ n) ?_ ?_ _ none root s
    (names_of_path hz) (Sees.refl s) ⟨h.root_mem, h.loaded⟩).mono ?_ (fun _ _ h => h) (fun _ h => h)
  · rintro f t hs ⟨hf, hm⟩
    rw [fatIsDir_spec (h.placed f hf) hs hm]
    exact ⟨rfl, decide_eq_true_iff⟩
  · rintro d name t hs ⟨hd, hm⟩ hdir ⟨hne, hzn⟩ -
    refine (fatdirLookup_find (h.dir d hd hdir) hzn hs hm (.inl (h.long d hd hdir))).mono ?_ ?_
      (fun _ h => h)
    · rintro g u ⟨hu, hmg, hfind⟩
      exact ⟨hs.trans hu, ⟨h.mem_of_find hd hdir hne hzn hfind, hmg⟩, hfind⟩
    · rintro e u ⟨rfl, hu, hnone⟩
      exact ⟨hs.trans hu, ⟨hd, hu.mapped d hm⟩, rfl, hnone⟩
  · rintro w t ⟨hs, hr, hw⟩
    refine ⟨hs, hr, ?_⟩
    cases w with
    | found o g => exact hw
    | missing d name => exact hw.1.2

namespace FatFs.Outlives

/-- What a path has led to, it leads to, and the walk may go on from there. -/
theorem descend_append (h : s.Walkable root clus F) (ht : Outlives root F s clus t clus')
    {names names' : List (List Byte)} (hn : ∀ n ∈ names, n ≠ [] ∧ 0 ∉ n)
    (hr : s.fatResolve clus root names = .ok (.found o g)) {Q : Walk → FatFs → Prop} {E : Err → FatFs → Prop}
    (hrest : ∀ u, t.Sees u → g ∈ F → u.fatvaIsMapped g = true →
      (descend fatIsDir fatdirLookup o g names' u).Sat Q E (fun p => p = .noMemory ∧ ¬t.Stocked)) :
    (descend fatIsDir fatdirLookup none root (names ++ names') t).Sat Q E
      (fun p => p = .noMemory ∧ ¬t.Stocked) := by
  refine sat_descend_append (o := o) (g := g) names none root t ((descend_found s.IsFatDir
    (fun d => s.fatFind (clus d) d) t.Sees
    (fun f u => f ∈ F ∧ u.fatvaIsMapped f = true) (fun n => n ≠ [] ∧ 0 ∉ n) ?_ ?_ names none root o g
    t hn (Sees.refl t) ⟨h.root_mem, ht.loaded⟩ hr).mono ?_ (fun _ _ h => h) (fun _ h => h))
  · rintro d u hu ⟨hd, hm⟩ hdir
    rw [fatIsDir_spec (ht.dir d hd hdir).place hu hm]
    exact ⟨decide_eq_true (ht.isDir d hd hdir), rfl⟩
  · rintro d name f u hu ⟨hd, hm⟩ hdir ⟨hne, hzn⟩ - hfind
    have hfind' := ht.finds d hd hdir name hne hzn f hfind
    refine (fatdirLookup_find (ht.dir d hd hdir) hzn hu hm (.inr (by rw [hfind']; rfl))).mono ?_ ?_
      (fun _ h => h)
    · rintro f' v ⟨hv, hmf, heq⟩
      rw [hfind'] at heq
      obtain rfl := Option.some.inj heq
      exact ⟨rfl, hu.trans hv, h.mem_of_find hd hdir hne hzn hfind, hmf⟩
    · rintro e v ⟨-, -, hnone⟩
      rw [hfind'] at hnone
      cases hnone
  · rintro w u ⟨hw, hu, hg, hm⟩
    exact ⟨hw, hrest u hu hg hm⟩

/-- What a path has led to, it leads to. -/
theorem walk (h : s.Walkable root clus F) (ht : Outlives root F s clus t clus') (hroot : rootName.length = 6)
    (hz : 0 ∉ rest) (hr : s.fatResolve clus root (pieces slash rest) = .ok (.found o g)) :
    (fatwalkPath root (rootName ++ rest) t).Sat (fun w _ => w = .found o g) (fun _ _ => False)
      (fun p => p = .noMemory ∧ ¬t.Stocked) := by
  rw [fatwalkPath_eq_descend hroot, ← List.append_nil (pieces slash rest)]
  refine descend_append h ht (names_of_path hz) hr ?_
  exact fun u _ _ _ => rfl

end FatFs.Outlives

end Tree

end Mos
