import Mos.Fs.FatCreate

/-!
# What `fatfile_create` does to the entries

An entry that is made must be found by its path, and nothing but its name may change. Both fail where the
directory is made longer: its size is counted in clusters when a name is looked up, but it grows by a sector.
-/

namespace Mos

open Lib Prog Function FatFs

variable {s t u : FatFs} {root d d' e f g n : Nat} {clus : Nat → List Nat} {F : Set Nat}
  {rootName rest name : List Byte} {o : Option Nat}

/-! ## A small tree -/

/-- The first page of the root directory: its own entry, and that of an empty directory `d`. -/
def smallTreePage : Nat → Byte
  | 0 => 0x2f | 1 => 0x72 | 2 => 0x6f | 3 => 0x6f | 4 => 0x74 | 5 => 0x32
  | 11 => 0x10 | 26 => 2 | 29 => 0x10 | 64 => 0x64 | 75 => 0x10 | _ => 0

/-- The root directory has one cluster, `d` has none. -/
def smallTree : FatFs :=
  { FatFs.blank pageClusters with
    fats := fun c => if c < 3 then fat32Used else 0
    cache := fun p => if p = 0x10400 then some ⟨smallTreePage, false⟩ else none }

def smallTreeClus (d : Nat) : List Nat := if d = 0x10400000 then [2] else []

def smallTreeFiles : Set Nat := {0x10400000, 0x10400040}

theorem smallTree_ready : smallTree.Ready 2 := ⟨by decide, .inl (by decide)⟩

theorem smallTree_slots {f : Nat} : f ∈ smallTree.bpb.slots [2] ↔ ∃ j < 64, f = 0x10400000 + 64 * j := by
  have haddr : smallTree.bpb.cluster2addr 2 = 0x10400000 := by decide
  have hentries : smallTree.bpb.entries = 64 := by decide
  rw [Fat32Bpb.mem_slots]
  simp only [List.mem_singleton, exists_eq_left, haddr, hentries]
  rfl

theorem smallTree_file {f : Nat} (hf : f ∈ smallTreeFiles) : f ∈ smallTree.bpb.slots [2] := by
  rw [smallTree_slots]
  rcases hf with rfl | rfl
  · exact ⟨0, by decide, rfl⟩
  · exact ⟨1, by decide, rfl⟩

theorem smallTree_clus {d c : Nat} (hc : c ∈ smallTreeClus d) : d = 0x10400000 ∧ c = 2 := by
  unfold smallTreeClus at hc
  split at hc
  next h => exact ⟨h, List.mem_singleton.mp hc⟩
  next => cases hc

theorem smallTree_fatTree : smallTree.FatTree 0x10400000 smallTreeClus smallTreeFiles where
  root_mem := .inl rfl
  loaded := by decide
  placed f hf := ⟨2, smallTree_ready, smallTree_file hf⟩
  closed d hd _ f hf hne := by
    have hsub := listing_subset hf
    unfold smallTreeClus at hsub
    split at hsub
    next =>
      obtain ⟨j, hj, rfl⟩ := smallTree_slots.mp hsub
      have hnamed : ∀ j < 64, smallTree.peek (0x10400000 + 64 * j) ≠ 0 → j = 0 ∨ j = 1 := by decide +kernel
      rcases hnamed j hj hne with rfl | rfl
      · exact .inl rfl
      · exact .inr rfl
    next => cases hsub
  dir d hd _ := by
    refine ⟨⟨2, smallTree_ready, smallTree_file hd⟩, ?_, ?_, ?_, ?_⟩
    · rcases hd with rfl | rfl
      · exact ⟨_, by decide, rfl⟩
      · exact ⟨_, rfl⟩
    · intro c hc
      rw [(smallTree_clus hc).2]
      decide
    · intro c hc
      rw [(smallTree_clus hc).2]
      exact smallTree_ready
    · intro f hf
      have hmem : f ∈ smallTree.bpb.slots [2] :=
        Fat32Bpb.slots_mono (fun c hc => by rw [(smallTree_clus hc).2]; exact List.mem_singleton_self 2) hf
      obtain ⟨j, hj, rfl⟩ := smallTree_slots.mp hmem
      have hended : ∀ j < 64, smallTree.peek (0x10400000 + 64 * j + 6) = 0 := by decide +kernel
      exact ⟨6, by decide, hended j hj⟩
  long d hd _ := by
    rcases hd with rfl | rfl <;> decide
  home f hf := ⟨0x10400000, .inl rfl, by decide, smallTree_file hf⟩
  chain d hd _ := by
    rcases hd with rfl | rfl
    · exact .inr ⟨by decide, by decide, rfl⟩
    · exact .inl ⟨rfl, by decide⟩
  nodup d hd _ := by
    rcases hd with rfl | rfl <;> decide
  apart d _ _ d' _ _ c hc c' hc' _ := by
    rw [(smallTree_clus hc).1, (smallTree_clus hc).2, (smallTree_clus hc').1, (smallTree_clus hc').2]
    exact ⟨rfl, rfl⟩

/-- `/root2`. -/
def root2 : List Byte := [0x2f, 0x72, 0x6f, 0x6f, 0x74, 0x32]

/-- Where a name in the root directory is missing. -/
theorem smallTree_missing_root (name : List Byte) (hlen : name.length < maxnamelen)
    (hfind : smallTree.fatFind (smallTreeClus 0x10400000) 0x10400000 name = none) :
    smallTree.fatResolve smallTreeClus 0x10400000 [name] = .ok (.missing 0x10400000 name) := by
  refine resolve_singleton.mpr ⟨hlen, by decide, ?_⟩
  rw [hfind]
  rfl

/-- The entries of all directories. -/
def FatFs.fatEntries (s : FatFs) (clus : Nat → List Nat) (F : Set Nat) : Set Nat :=
  {e | ∃ d ∈ F, s.IsFatDir d ∧ e ∈ s.bpb.slots (clus d)}

/-- `fatfile_create` changes the `DIR_Name` of the entry that it returns, or fails and changes no entry. It comes
back, unless memory runs out. -/
def NamesStay (s : FatFs) (root : Nat) (clus : Nat → List Nat) (F : Set Nat) (path : List Byte) : Prop :=
  (fatfileCreate root path s).Sat
    (fun f t => ∀ e ∈ s.fatEntries clus F, ∀ k < 32, ¬(f ≤ e + k ∧ e + k < f + 11) →
      t.peek (e + k) = s.peek (e + k))
    (fun _ t => ∀ e ∈ s.fatEntries clus F, ∀ k < 32, t.peek (e + k) = s.peek (e + k))
    (fun p => p = .noMemory ∧ ¬s.Stocked)

/-- A path that leads to a file or over a missing directory: nothing is created. -/
theorem fatfileCreate_not_missing (h : s.FatTree root clus F) (hroot : rootName.length = 6) (hz : 0 ∉ rest)
    (hr : ∀ d name, s.fatResolve clus root (pieces slash rest) ≠ .ok (.missing d name)) :
    (fatfileCreate root (rootName ++ rest) s).Sat (fun _ _ => False) (fun _ => s.Sees)
      (fun p => p = .noMemory ∧ ¬s.Stocked) := by
  rw [fatfileCreate]
  refine sat_call (fatwalkPath_resolve h.toWalkable hroot hz) ?_ (fun _ _ h => h.1) (fun _ h => h)
  rintro w u ⟨hs, hres, -⟩
  cases w with
  | found o g => exact hs
  | missing d name => exact absurd hres (hr d name)

theorem FatFs.Spares.slot {W : Set Nat} (h : Spares (s.held clus F) W s t) (he : e ∈ s.fatEntries clus F) {k : Nat}
    (hk : k < 32) (hW : e + k ∉ W) : t.peek (e + k) = s.peek (e + k) := by
  obtain ⟨d, hd, hdir, hmem⟩ := he
  have hal := Fat32Bpb.slot_aligned hmem
  exact h.peek _ (FatTree.slot_held hd hdir hmem (by omega)) (by omega) hW

theorem FatFs.FatTree.mem_fatEntries (h : s.FatTree root clus F) (hf : f ∈ F) : f ∈ s.fatEntries clus F :=
  h.home f hf

/-- The directory does not get its old size. -/
theorem FatFs.grownSize_ne (s : FatFs) (d : Nat) : s.grownSize d ≠ s.peekSize d := by
  have hlt : ∀ va, s.peekHalf va < 65536 := fun va => by
    have h1 := (s.peek va).isLt
    have h2 := (s.peek (va + 1)).isLt
    unfold peekHalf
    omega
  have hsize : s.peekSize d < 2 ^ 32 := by
    have h1 := hlt (d + 30)
    have h2 := hlt (d + 28)
    unfold peekSize
    omega
  have hgrow : 0 < s.bpb.dirGrowth ∧ s.bpb.dirGrowth ≤ 4096 := by
    obtain ⟨i, hi, hb⟩ := s.bpb.sector
    unfold Fat32Bpb.dirGrowth
    split
    · rw [hb]
      interval_cases i <;> decide
    · decide
  unfold grownSize
  omega

/-- A new size is not just a new name. -/
theorem NamesStay.size (h : s.FatTree root clus F) (hd : d ∈ F) (hal : f % 64 = 0)
    (hstay : ∀ e ∈ s.fatEntries clus F, ∀ k < 32, ¬(f ≤ e + k ∧ e + k < f + 11) →
      t.peek (e + k) = s.peek (e + k)) : t.peekSize d = s.peekSize d := by
  have hald := h.aligned hd
  exact peekSize_congr fun k hk hk' => hstay d (h.mem_fatEntries hd) k hk' (by omega)

/-- A name that stays inside its field is short. -/
theorem NamesStay.short (h : s.FatTree root clus F) (hroot : rootName.length = 6) (hz : 0 ∉ rest)
    (hr : s.fatResolve clus root (pieces slash rest) = .ok (.missing d name)) (hst : s.Stocked)
    (hstay : NamesStay s root clus F (rootName ++ rest)) : name.length < maxfatnamelen := by
  by_contra hlong
  have hrun := fatfileCreate_long h hroot hz hr hlong
  unfold NamesStay at hstay
  cases hc : fatfileCreate root (rootName ++ rest) s with
  | ret f t => rw [hc] at hrun; exact hrun
  | err x t => rw [hc] at hrun; exact hrun
  | halt p => rw [hc] at hstay; exact hstay.2 hst

/-- **A name stays inside its field if and only if it has at most 10 bytes and there is a free entry among
those that the directory lists.** Otherwise `fatwalk_path` writes past the local array, or the directory is
made longer: then its `DIR_FileSize` changes, or the server panics. -/
theorem create_changes_name_only (h : s.FatTree root clus F) (hroot : rootName.length = 6) (hz : 0 ∉ rest) :
    ((∀ d name, s.fatResolve clus root (pieces slash rest) = .ok (.missing d name) →
        name.length < maxfatnamelen ∧ (s.freeSlot (clus d) d).isSome = true) →
      NamesStay s root clus F (rootName ++ rest)) ∧
    (s.Stocked → (∀ d name, s.fatResolve clus root (pieces slash rest) = .ok (.missing d name) →
        clus d = [] → s.Roomy (s.held clus F)) →
      NamesStay s root clus F (rootName ++ rest) →
      ∀ d name, s.fatResolve clus root (pieces slash rest) = .ok (.missing d name) →
        name.length < maxfatnamelen ∧ (s.freeSlot (clus d) d).isSome = true) := by
  constructor
  · intro hcond
    by_cases hmissing : ∃ d name, s.fatResolve clus root (pieces slash rest) = .ok (.missing d name)
    · obtain ⟨d, name, hr⟩ := hmissing
      obtain ⟨hlen, hfree⟩ := hcond d name hr
      obtain ⟨e, he⟩ := Option.isSome_iff_exists.mp hfree
      refine (fatfileCreate_free h hroot hz hr hlen he).mono ?_ (fun _ _ h => h.elim) (fun _ h => h)
      rintro f t ⟨rfl, hsp, -⟩ x hx k hk hout
      exact hsp.slot hx hk (by rwa [Set.mem_Ico])
    · refine (fatfileCreate_not_missing h hroot hz fun d name hr => hmissing ⟨d, name, hr⟩).mono
        (fun _ _ h => h.elim) ?_ (fun _ h => h)
      intro _ t hs x hx k hk
      exact (hs.spares (W := ∅) h.held_ready).slot hx hk (Set.notMem_empty _)
  · intro hst hroom hstay d name hr
    obtain ⟨hd, hdir, -⟩ := h.of_missing hz hr
    have hlen := hstay.short h hroot hz hr hst
    refine ⟨hlen, ?_⟩
    by_contra hno
    rw [Option.not_isSome_iff_eq_none] at hno
    have hne := s.grownSize_ne d
    have hsized : (fatfileCreate root (rootName ++ rest) s).Sat
        (fun f t => f % 64 = 0 ∧ t.peekSize d = s.grownSize d) (fun _ t => t.peekSize d = s.grownSize d)
        (fun p => p ≠ .noMemory) := by
      by_cases hnil : clus d = []
      · refine (fatfileCreate_first h hroot hz hr hlen hno hnil (hroom d name hr hnil)).mono ?_
          (fun _ _ h => (h hst).1) (fun _ h => (h hst).1)
        rintro f t ⟨g, -, hf, -, hsize, -⟩
        exact ⟨by rw [hf]; exact Fat32Bpb.slot_aligned Fat32Bpb.first_slot, hsize⟩
      · rcases Nat.lt_or_eq_of_le (h.long d hd hdir) with hlt | heq
        · refine (fatfileCreate_inside h hroot hz hr hlen hno hlt).mono ?_ (fun _ _ h => h.elim)
            (fun _ h => absurd hst h.2)
          rintro f t ⟨hf, -, hsize, -⟩
          exact ⟨by rw [hf]; exact Fat32Bpb.slot_aligned Fat32Bpb.first_slot, hsize⟩
        · exact (fatfileCreate_end h hroot hz hr hlen hno heq hnil).mono (fun _ _ h => h.elim)
            (fun _ _ h => h.elim) (fun p hp hm => hp hm hst)
    unfold NamesStay at hstay
    cases hc : fatfileCreate root (rootName ++ rest) s with
    | ret f t =>
      rw [hc] at hsized hstay
      exact hne (hsized.2.symm.trans (NamesStay.size h hd hsized.1 hstay))
    | err x t =>
      rw [hc] at hsized hstay
      refine hne (hsized.symm.trans (peekSize_congr fun k _ hk => ?_))
      exact hstay d (h.mem_fatEntries hd) k hk
    | halt p =>
      rw [hc] at hsized hstay
      exact hsized hstay.1

/-- `/root2/f`. -/
theorem create_changes_name_only_small :
    NamesStay smallTree 0x10400000 smallTreeClus smallTreeFiles (root2 ++ [0x2f, 0x66]) := by
  have hpieces : pieces slash [0x2f, 0x66] = [[0x66]] := by decide
  refine (create_changes_name_only smallTree_fatTree rfl (by decide)).1 fun d name hr => ?_
  rw [hpieces, smallTree_missing_root _ (by decide) (by decide +kernel)] at hr
  obtain ⟨rfl, rfl⟩ := Walk.missing.inj (Except.ok.inj hr)
  exact ⟨by decide, by decide +kernel⟩

/-- `/root2/fffffffffff`. -/
theorem long_name_leaves_field :
    ¬NamesStay smallTree 0x10400000 smallTreeClus smallTreeFiles (root2 ++ slash :: List.replicate 11 0x66) := by
  have hpieces : pieces slash (slash :: List.replicate 11 0x66) = [List.replicate 11 0x66] := by decide
  have hr := smallTree_missing_root (List.replicate 11 0x66) (by decide) (by decide +kernel)
  rw [← hpieces] at hr
  intro hstay
  exact absurd (hstay.short smallTree_fatTree rfl (by decide) hr fun _ => rfl) (by decide)

/-! ## A new entry is found -/

/-- An entry that `fatfile_create` returns is found by its path, and what had been found before is found
again. -/
def CreateFinds (s : FatFs) (root : Nat) (rootName rest : List Byte) : Prop :=
  ∀ e t, fatfileCreate root (rootName ++ rest) s = .ret e t →
    (fatwalkPath root (rootName ++ rest) t).Sat (fun w _ => ∃ o, w = .found o e) (fun _ _ => False)
      (fun p => p = .noMemory ∧ ¬t.Stocked) ∧
    ∀ rest' o f u, 0 ∉ rest' → fatwalkPath root (rootName ++ rest') s = .ret (.found o f) u →
      (fatwalkPath root (rootName ++ rest') t).Sat (fun w _ => w = .found o f) (fun _ _ => False)
        (fun p => p = .noMemory ∧ ¬t.Stocked)

/-- No entry is made in the directory `d` with the clusters `xs`, or one that `d` lists: there is a free one, or
the new `DIR_FileSize` counts more clusters than the old one. -/
def FatFs.Listed (s : FatFs) (xs : List Nat) (d : Nat) : Prop :=
  (s.freeSlot xs d).isSome = true ∨ (xs ≠ [] ∧ s.counted d = xs.length) ∨ (xs = [] ∧ ¬∃ g, Finds s g) ∨
    s.counted d < s.grownSize d / s.bpb.bytsPerCluster

namespace FatFs

namespace Created

variable (h : s.FatTree root clus F) (hd : d ∈ F) (hdir : s.IsFatDir d) (hc : Created clus F d e n name s t)
  (hlen : name.length < maxfatnamelen) (hz : 0 ∉ name) (hnone : s.fatFind (clus d) d name = none)

include h hd hdir hc hlen hnone

include hz

end Created

end FatFs

section Cases

variable (h : s.FatTree root clus F) (hd : d ∈ F) (hdir : s.IsFatDir d)

include h hd hdir

/-- A free entry. -/
theorem created_free (he : s.freeSlot (clus d) d = some e)
    (hsp : Spares (s.held clus F) (Set.Ico e (e + 11)) s t)
    (hnamed : ∀ k < name.length + 1, t.peek (e + k) = name.getD k 0) (hfats : t.fats = s.fats) :
    Created clus F d e (s.peekSize d) name s t := by
  have hmem := List.mem_of_find?_eq_some he
  have hzero : s.peek e = 0 := by simpa using List.find?_some he
  obtain ⟨c, hc, j, hj, heq⟩ := Fat32Bpb.mem_slots.mp (listing_subset hmem)
  have hin : e ∈ s.bpb.slots [c] := Fat32Bpb.mem_slots.mpr ⟨c, List.mem_singleton_self c, j, hj, heq⟩
  have hale := Fat32Bpb.slot_aligned hin
  have hald := h.aligned hd
  -- neither the size nor the first cluster of `d` is part of a name
  have hkeep : ∀ k, 20 ≤ k → k < 32 → t.peek (d + k) = s.peek (d + k) := fun k hk hk' =>
    hsp.peek _ (h.mem_held hd (by omega)) (by omega) (by rw [Set.mem_Ico]; omega)
  exact {
    aligned := hale
    free := fun _ => hzero
    own := fun d' hd' hdir' hne he' =>
      hne (h.slot_own hd hdir hd' hdir' hc hin (List.Subset.refl _) he').1.symm
    spares := hsp.mono Set.subset_union_right
    fats := fun c _ => by rw [hfats]
    first := fun _ => peekFst_congr fun k hk hk' => hkeep k hk (by omega)
    size := peekSize_congr fun k hk hk' => hkeep k (by omega) hk'
    named := hnamed }

/-- The first entry of another cluster of the directory. -/
theorem created_inside (hk : s.counted d < (clus d).length)
    (he : e = fatEntry (s.bpb.cluster2addr (clus d)[s.counted d]) 0)
    (hsp : Spares (s.held clus F) (Set.Ico (d + 28) (d + 32) ∪ Set.Ico e (e + 11)) s t)
    (hsize : t.peekSize d = s.grownSize d) (hnamed : ∀ k < name.length + 1, t.peek (e + k) = name.getD k 0)
    (hfats : t.fats = s.fats) :
    Created clus F d e (s.grownSize d) name s t ∧ ∀ m ≤ s.counted d, e ∉ s.bpb.slots ((clus d).take m) := by
  have hin : e ∈ s.bpb.slots [(clus d)[s.counted d]] := he ▸ Fat32Bpb.first_slot
  have hale := Fat32Bpb.slot_aligned hin
  have hald := h.aligned hd
  -- the clusters of a directory are different
  have hout : ∀ m ≤ s.counted d, e ∉ s.bpb.slots ((clus d).take m) := by
    intro m hm hmem
    have htake := (h.slot_own hd hdir hd hdir (List.getElem_mem hk) hin (List.take_subset _ _) hmem).2
    obtain ⟨i, hi, heq⟩ := List.mem_take_iff_getElem.mp htake
    have := (h.nodup d hd hdir).getElem_inj_iff.mp heq
    omega
  refine ⟨⟨hale, fun hmem => absurd hmem (hout _ (le_refl _)), ?_, ?_, ?_, ?_, hsize, hnamed⟩, hout⟩
  · exact fun d' hd' hdir' hne he' =>
      hne (h.slot_own hd hdir hd' hdir' (List.getElem_mem hk) hin (List.Subset.refl _) he').1.symm
  · exact hsp.mono (Set.union_subset_union_left _ (Set.Ico_subset_Ico_left (by omega)))
  · exact fun c _ => by rw [hfats]
  · exact fun _ => peekFst_congr fun k hk hk' =>
      hsp.peek _ (h.mem_held hd (by omega)) (by omega) (by rw [Set.mem_union, Set.mem_Ico, Set.mem_Ico]; omega)

omit hd hdir in
/-- The first entry of the first cluster of the directory. -/
theorem created_first (hnil : clus d = []) (hroom : s.Roomy (s.held clus F)) (hg : Finds s g)
    (he : e = fatEntry (s.bpb.cluster2addr g) 0) (hsp : Spares (s.held clus F) (createArea d e) s t)
    (hsize : t.peekSize d = s.grownSize d) (hnamed : ∀ k < name.length + 1, t.peek (e + k) = name.getD k 0)
    (hfats : ∀ c, s.fats c ≠ fat32Free → t.fats c = s.fats c) :
    Created clus F d e (s.grownSize d) name s t := by
  have hin : e ∈ s.bpb.slots [g] := he ▸ Fat32Bpb.first_slot
  have hreach : s.bpb.Reach g e := by
    have hpos := s.bpb.bytsPerCluster_pos
    rw [he]
    unfold fatEntry Fat32Bpb.Reach
    omega
  refine ⟨Fat32Bpb.slot_aligned hin, ?_, ?_, hsp, ?_, ?_, hsize, hnamed⟩
  · intro hmem
    unfold listing at hmem
    rw [hnil, List.take_nil] at hmem
    cases hmem
  · intro d' hd' hdir' _ he'
    have harea := FatTree.slot_held hd' hdir' he' (k := 0) (by decide)
    exact (hroom g hg).2 _ harea hreach
  · rintro c ⟨d', hd', hdir', hc⟩
    refine hfats c (FatChain.ne_free
      ((h.chain d' hd' hdir').resolve_left fun hx => List.ne_nil_of_mem hc hx.1).2 (fun x hx => ?_) c hc)
    have := ((h.dir d' hd' hdir').ready x hx).valid.1
    omega
  · exact fun hne => absurd hnil hne

end Cases

/-- What `fatfile_create` has done when it returns an entry: the entry was free, or it is the first one in
another cluster of the directory, or in the first cluster that the directory has been given. -/
theorem fatfileCreate_created (h : s.FatTree root clus F) (hroot : rootName.length = 6) (hz : 0 ∉ rest)
    (hr : s.fatResolve clus root (pieces slash rest) = .ok (.missing d name)) (hlen : name.length < maxfatnamelen)
    (hroom : clus d = [] → s.Roomy (s.held clus F))
    (hret : fatfileCreate root (rootName ++ rest) s = .ret e t) :
    (s.Stocked → t.Stocked) ∧
      (s.freeSlot (clus d) d = some e ∧ Created clus F d e (s.peekSize d) name s t ∨
      s.freeSlot (clus d) d = none ∧ Created clus F d e (s.grownSize d) name s t ∧
        ((∃ hk : s.counted d < (clus d).length, e = fatEntry (s.bpb.cluster2addr (clus d)[s.counted d]) 0 ∧
          ∀ m ≤ s.counted d, e ∉ s.bpb.slots ((clus d).take m)) ∨
        clus d = [] ∧ Finds s (t.peekFst d) ∧ e = fatEntry (s.bpb.cluster2addr (t.peekFst d)) 0 ∧
          t.clusterIsMapped (t.peekFst d) = true)) := by
  obtain ⟨hd, hdir, -, -, -⟩ := h.of_missing hz hr
  cases hfree : s.freeSlot (clus d) d with
  | some f =>
    have hrun := fatfileCreate_free h hroot hz hr hlen hfree
    rw [hret] at hrun
    obtain ⟨rfl, hsp, hnamed, hfats, hst⟩ := hrun
    exact ⟨hst, .inl ⟨rfl, created_free h hd hdir hfree hsp hnamed hfats⟩⟩
  | none =>
    by_cases hnil : clus d = []
    · have hrun := fatfileCreate_first h hroot hz hr hlen hfree hnil (hroom hnil)
      rw [hret] at hrun
      obtain ⟨g, hg, he, hsp, hsize, rfl, hcm, hnamed, hfats, hst⟩ := hrun
      exact ⟨hst, .inr ⟨rfl, created_first h hnil (hroom hnil) hg he hsp hsize hnamed hfats,
        .inr ⟨hnil, hg, he, hcm⟩⟩⟩
    · rcases Nat.lt_or_eq_of_le (h.long d hd hdir) with hlt | heq
      · have hrun := fatfileCreate_inside h hroot hz hr hlen hfree hlt
        rw [hret] at hrun
        obtain ⟨he, hsp, hsize, hnamed, hfats, hst⟩ := hrun
        obtain ⟨hc, hout⟩ := created_inside h hd hdir hlt he hsp hsize hnamed hfats
        exact ⟨hst, .inr ⟨rfl, hc, .inl ⟨hlt, he, hout⟩⟩⟩
      · have hrun := fatfileCreate_end h hroot hz hr hlen hfree heq hnil
        rw [hret] at hrun
        exact hrun.elim

/-- If the entry is found, it is listed. -/
theorem CreateFinds.listed (h : s.FatTree root clus F) (hroot : rootName.length = 6) (hz : 0 ∉ rest)
    (hr : s.fatResolve clus root (pieces slash rest) = .ok (.missing d name)) (hlen : name.length < maxfatnamelen)
    (hroom : clus d = [] → s.Roomy (s.held clus F)) (hst : s.Stocked)
    (hfinds : CreateFinds s root rootName rest) : s.Listed (clus d) d := by
  obtain ⟨hd, hdir, -, -, -⟩ := h.of_missing hz hr
  by_contra hnot
  unfold Listed at hnot
  simp only [not_or, Option.not_isSome_iff_eq_none] at hnot
  obtain ⟨hfree, hend, hfirst, hgrown⟩ := hnot
  -- an entry is made
  obtain ⟨e, t, hret⟩ : ∃ e t, fatfileCreate root (rootName ++ rest) s = .ret e t := by
    have hrun : (fatfileCreate root (rootName ++ rest) s).Sat (fun _ _ => True) (fun _ _ => False)
        (fun _ => False) := by
      by_cases hnil : clus d = []
      · obtain ⟨g, hg⟩ := not_not.mp fun hno => hfirst ⟨hnil, hno⟩
        exact (fatfileCreate_first h hroot hz hr hlen hfree hnil (hroom hnil)).mono (fun _ _ _ => trivial)
          (fun _ _ h => (h hst).2 ⟨g, hg⟩) (fun _ h => (h hst).2 ⟨g, hg⟩)
      · have hlt := Nat.lt_of_le_of_ne (h.long d hd hdir) fun heq => hend ⟨hnil, heq⟩
        exact (fatfileCreate_inside h hroot hz hr hlen hfree hlt).mono (fun _ _ _ => trivial)
          (fun _ _ h => h) (fun _ h => h.2 hst)
    cases hc : fatfileCreate root (rootName ++ rest) s with
    | ret e t => exact ⟨e, t, rfl⟩
    | err x t => rw [hc] at hrun; exact hrun.elim
    | halt p => rw [hc] at hrun; exact hrun.elim
  obtain ⟨hst', hcases⟩ := fatfileCreate_created h hroot hz hr hlen hroom hret
  rcases hcases with ⟨hsome, -⟩ | ⟨-, hc, hplace⟩
  · rw [hfree] at hsome
    cases hsome
  -- but not in a listed place
  have hle := Nat.le_of_not_lt hgrown
  have hout : e ∉ s.bpb.slots ((clus d).take (s.grownSize d / s.bpb.bytsPerCluster)) := by
    rcases hplace with ⟨-, -, hout⟩ | ⟨hnil, -⟩
    · exact hout _ hle
    · rw [hnil, List.take_nil]
      exact List.not_mem_nil
  have hlost := hc.not_found h hd hdir hlen hle hout hroot hz hr
  have hfound := (hfinds e t hret).1
  cases hw : fatwalkPath root (rootName ++ rest) t with
  | ret w u =>
    rw [hw] at hlost hfound
    obtain ⟨o, rfl⟩ := hfound
    exact hlost o e rfl
  | err x u => rw [hw] at hfound; exact hfound
  | halt p => rw [hw] at hfound; exact hfound.2 (hst' hst)

end Mos
