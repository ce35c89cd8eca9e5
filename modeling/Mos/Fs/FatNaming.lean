import Mos.Fs.FatTree

/-!
# A new name on a FAT32 disk

What paths lead to when an entry of one directory has been given a name, and this directory perhaps another
size. The entries that had been found are still found if the directory has not become shorter; the new one is
found if it is among those that the directory lists.
-/

namespace Mos

open Lib Prog Function

/-! ## A new name -/

namespace FatFs

/-- The clusters of the directories. -/
def held (s : FatFs) (clus : Nat → List Nat) (F : Set Nat) : Set Nat :=
  {c | ∃ d ∈ F, s.IsFatDir d ∧ c ∈ clus d}

/-- What may change when the entry `e` is made in the directory `d`: the first cluster and the size of `d`, and
the name of `e`. -/
def createArea (d e : Nat) : Set Nat := Set.Ico (d + 20) (d + 32) ∪ Set.Ico e (e + 11)

/-- From `s` to `t` the entry `e` of the directory `d` got a name, and `d` the size `n`. -/
structure Created (clus : Nat → List Nat) (F : Set Nat) (d e n : Nat) (name : List Byte) (s t : FatFs) :
    Prop where
  aligned : e % 64 = 0
  free : e ∈ s.listing (clus d) d → s.peek e = 0
  own : ∀ d' ∈ F, s.IsFatDir d' → d' ≠ d → e ∉ s.bpb.slots (clus d')
  spares : Spares (s.held clus F) (createArea d e) s t
  fats : ∀ c ∈ s.held clus F, t.fats c = s.fats c
  first : clus d ≠ [] → t.peekFst d = s.peekFst d
  size : t.peekSize d = n
  named : ∀ k < name.length + 1, t.peek (e + k) = name.getD k 0

variable {s t u : FatFs} {root d d' e f g k n : Nat} {clus : Nat → List Nat} {F : Set Nat}
  {name nm : List Byte}

namespace FatTree

theorem slot_held (hd : d ∈ F) (hdir : s.IsFatDir d) (hf : f ∈ s.bpb.slots (clus d)) (hk : k < 64) :
    f + k ∈ s.bpb.area (s.held clus F) :=
  Fat32Bpb.slot_mem_area (fun _ hc => ⟨d, hd, hdir, hc⟩) hf hk

theorem mem_held (h : s.FatTree root clus F) (hf : f ∈ F) (hk : k < 64) :
    f + k ∈ s.bpb.area (s.held clus F) := by
  obtain ⟨d, hd, hdir, hmem⟩ := h.home f hf
  exact slot_held hd hdir hmem hk

theorem held_ready (h : s.FatTree root clus F) : ∀ c ∈ s.held clus F, s.Ready c := by
  rintro c ⟨d, hd, hdir, hc⟩
  exact (h.dir d hd hdir).ready c hc

theorem aligned (h : s.FatTree root clus F) (hf : f ∈ F) : f % 64 = 0 := by
  obtain ⟨d, -, -, hmem⟩ := h.home f hf
  exact Fat32Bpb.slot_aligned hmem

/-- An entry is in the clusters of one directory only. -/
theorem slot_own (h : s.FatTree root clus F) (hd : d ∈ F) (hdir : s.IsFatDir d) (hd' : d' ∈ F)
    (hdir' : s.IsFatDir d') {c : Nat} (hc : c ∈ clus d) (hf : f ∈ s.bpb.slots [c]) {xs : List Nat}
    (hxs : xs ⊆ clus d') (hf' : f ∈ s.bpb.slots xs) : d = d' ∧ c ∈ xs := by
  obtain ⟨c₁, hc₁, j, hj, rfl⟩ := Fat32Bpb.mem_slots.mp hf
  obtain rfl := List.mem_singleton.mp hc₁
  obtain ⟨c', hc', j', hj', heq⟩ := Fat32Bpb.mem_slots.mp hf'
  obtain ⟨rfl, rfl⟩ := h.apart d hd hdir d' hd' hdir' c₁ hc c' (hxs hc') (Fat32Bpb.slot_unique heq hj hj')
  exact ⟨rfl, hc'⟩

end FatTree

namespace Created

section

variable (h : s.FatTree root clus F) (hd : d ∈ F) (hc : Created clus F d e n name s t)

include h hd hc

/-- What stays. -/
theorem peek (hf : f ∈ s.bpb.area (s.held clus F)) (hal : f % 64 = 0) (hk : k < 32) (hfd : f = d → k < 20)
    (hfe : f = e → 11 ≤ k) : t.peek (f + k) = s.peek (f + k) := by
  have hald := h.aligned hd
  have hale := hc.aligned
  obtain ⟨c, hcK, j, hj, rfl⟩ := hf
  have hlt : j + k < s.bpb.bytsPerCluster := by
    obtain ⟨m, -, hb⟩ := s.bpb.exists_bytsPerCluster
    have hva := s.bpb.cluster2addr_aligned c
    omega
  refine hc.spares.peek _ ⟨c, hcK, j + k, hlt, by rw [Nat.add_assoc]⟩ (by omega) ?_
  rintro (⟨h1, h2⟩ | ⟨h1, h2⟩)
  · have := hfd (by omega)
    omega
  · have := hfe (by omega)
    omega

theorem peek_file (hf : f ∈ F) (hk : k < 32) (hfd : f = d → k < 20) (hfe : f = e → 11 ≤ k) :
    t.peek (f + k) = s.peek (f + k) := by
  have harea := h.mem_held hf (k := 0) (by decide)
  rw [Nat.add_zero] at harea
  exact hc.peek h hd harea (h.aligned hf) hk hfd hfe

theorem peek_slot (hd' : d' ∈ F) (hdir' : s.IsFatDir d') (hf : f ∈ s.bpb.slots (clus d')) (hk : k < 20)
    (hfe : f = e → 11 ≤ k) : t.peek (f + k) = s.peek (f + k) := by
  have harea := FatTree.slot_held hd' hdir' hf (k := 0) (by decide)
  rw [Nat.add_zero] at harea
  exact hc.peek h hd harea (Fat32Bpb.slot_aligned hf) (by omega) (fun _ => hk) hfe

theorem isDir_iff (hf : f ∈ F) : t.IsFatDir f ↔ s.IsFatDir f := by
  unfold IsFatDir
  rw [hc.peek_file h hd hf (by decide) (fun _ => by decide) fun _ => le_refl _]

theorem peekHalf (hf : f ∈ F) (hne : f ≠ d) (hk : 11 ≤ k) (hk' : k < 31) :
    t.peekHalf (f + k) = s.peekHalf (f + k) := by
  unfold FatFs.peekHalf
  rw [hc.peek_file h hd hf (by omega) (fun heq => absurd heq hne) fun _ => hk, Nat.add_assoc,
    hc.peek_file h hd hf (by omega) (fun heq => absurd heq hne) fun _ => by omega]

theorem peekSize_ne (hf : f ∈ F) (hne : f ≠ d) : t.peekSize f = s.peekSize f := by
  unfold peekSize
  rw [hc.peekHalf h hd hf hne (by decide) (by decide), hc.peekHalf h hd hf hne (by decide) (by decide)]

theorem peekFst_eq (hf : f ∈ F) (hx : clus f ≠ []) : t.peekFst f = s.peekFst f := by
  by_cases hne : f = d
  · rw [hne] at hx ⊢
    exact hc.first hx
  · unfold peekFst
    rw [hc.peekHalf h hd hf hne (by decide) (by decide), hc.peekHalf h hd hf hne (by decide) (by decide)]

theorem hasFatName_iff (hd' : d' ∈ F) (hdir' : s.IsFatDir d') (hf : f ∈ s.bpb.slots (clus d')) (hne : f ≠ e) :
    t.HasFatName f nm ↔ s.HasFatName f nm :=
  HasFatName.congr fun _ hk => hc.peek_slot h hd hd' hdir' hf hk fun heq => absurd heq hne

omit hd in
theorem placed (hf : f ∈ F) : t.Placed f := by
  obtain ⟨d', hd', hdir', hmem⟩ := h.home f hf
  obtain ⟨c, hcx, j, hj, rfl⟩ := Fat32Bpb.mem_slots.mp hmem
  refine ⟨c, hc.spares.ready c ⟨d', hd', hdir', hcx⟩ ((h.dir d' hd' hdir').ready c hcx), ?_⟩
  rw [hc.spares.bpb]
  exact Fat32Bpb.mem_slots.mpr ⟨c, List.mem_singleton_self c, j, hj, rfl⟩

/-- The directories are still well formed. -/
theorem dir (hlen : name.length < maxfatnamelen) (hd' : d' ∈ F) (hdir' : s.IsFatDir d') :
    t.FatDir (clus d') d' := by
  have hold := h.dir d' hd' hdir'
  have hheld : ∀ c ∈ clus d', c ∈ s.held clus F := fun c hcx => ⟨d', hd', hdir', hcx⟩
  refine ⟨hc.placed h hd', ?_, hold.inside, fun c hcx => hc.spares.ready c (hheld c hcx) (hold.ready c hcx),
    fun f hf => ?_⟩
  · obtain ⟨m, hpath⟩ := hold.path
    by_cases hx : clus d' = []
    · rw [hx]
      exact ⟨_, rfl⟩
    · rw [hc.peekFst_eq h hd hd' hx]
      exact ⟨m, hpath.congr fun x hx => by rw [hc.fats x (hheld x hx)]⟩
  · rw [hc.spares.bpb] at hf
    unfold maxfatnamelen at hlen
    by_cases hfe : f = e
    · refine ⟨name.length, by omega, ?_⟩
      rw [hfe, hc.named _ (Nat.lt_succ_self _), List.getD_eq_default _ _ (le_refl _)]
    · obtain ⟨k, hk, hzero⟩ := hold.ended f hf
      exact ⟨k, hk, by rw [hc.peek_slot h hd hd' hdir' hf hk fun heq => absurd heq hfe, hzero]⟩

omit hd in
theorem loaded : t.fatvaIsMapped root = true := by
  have harea := h.mem_held h.root_mem (k := 0) (by decide)
  exact hc.spares.mapped _ harea h.loaded

/-- Other directories list the same entries. -/
theorem listing_ne (hf : f ∈ F) (hne : f ≠ d) : t.listing (clus f) f = s.listing (clus f) f := by
  unfold listing
  rw [hc.peekSize_ne h hd hf hne, hc.spares.bpb]

theorem fatFind_ne (hf : f ∈ F) (hdir : s.IsFatDir f) (hne : f ≠ d) :
    t.fatFind (clus f) f nm = s.fatFind (clus f) f nm := by
  unfold fatFind
  rw [hc.listing_ne h hd hf hne]
  refine List.find?_congr fun x hx => decide_eq_decide.mpr ?_
  have hx := listing_subset hx
  exact hc.hasFatName_iff h hd hf hdir hx fun heq => hc.own f hf hdir hne (heq ▸ hx)

end

theorem listing_dir (hc : Created clus F d e n name s t) :
    t.listing (clus d) d = s.bpb.slots ((clus d).take (n / s.bpb.bytsPerCluster)) := by
  unfold listing
  rw [hc.size, hc.spares.bpb]

/-- What is in the first clusters is listed first. -/
theorem slots_take_le (bpb : Fat32Bpb) (xs : List Nat) {m n : Nat} (hmn : m ≤ n) :
    ∃ ys, bpb.slots (xs.take n) = bpb.slots (xs.take m) ++ ys := by
  refine ⟨bpb.slots ((xs.take n).drop m), ?_⟩
  rw [← Fat32Bpb.slots_append]
  congr 1
  have htd := List.take_append_drop m (xs.take n)
  rw [List.take_take, Nat.min_eq_left hmn] at htd
  exact htd.symm

section

variable (h : s.FatTree root clus F) (hd : d ∈ F) (hdir : s.IsFatDir d) (hc : Created clus F d e n name s t)
  (hlen : name.length < maxfatnamelen) (hz : 0 ∉ name) (hnone : s.fatFind (clus d) d name = none)

include h hd hdir hc hlen hz hnone

end

section

variable (h : s.FatTree root clus F) (hd : d ∈ F) (hdir : s.IsFatDir d) (hc : Created clus F d e n name s t)
  (hlen : name.length < maxfatnamelen) (hle : n / s.bpb.bytsPerCluster ≤ s.peekSize d / s.bpb.bytsPerCluster)
  (he : e ∉ s.bpb.slots ((clus d).take (n / s.bpb.bytsPerCluster)))

include h hd hdir hc hle he

/-- If the directory has not become longer and does not list the entry, nothing is found that has not been
found before. -/
theorem fatFind_of_not_longer {d' : Nat} (hd' : d' ∈ F) (hdir' : s.IsFatDir d')
    (hf : t.fatFind (clus d') d' nm = some f) : s.fatFind (clus d') d' nm = some f := by
  by_cases hdd : d' = d
  · rw [hdd] at hf ⊢
    obtain ⟨ys, hys⟩ := slots_take_le s.bpb (clus d) hle
    have hsame : (s.bpb.slots ((clus d).take (n / s.bpb.bytsPerCluster))).find?
        (fun f => s.HasFatName f nm) = t.fatFind (clus d) d nm := by
      unfold fatFind
      rw [hc.listing_dir]
      refine List.find?_congr fun x hx => decide_eq_decide.mpr ?_
      have hx' : x ∈ s.bpb.slots (clus d) := Fat32Bpb.slots_mono (List.take_subset _ _) hx
      exact (hc.hasFatName_iff h hd hd hdir hx' fun heq => he (heq ▸ hx)).symm
    unfold fatFind listing
    rw [hys, List.find?_append, hsame, hf]
    rfl
  · rwa [hc.fatFind_ne h hd hd' hdir' hdd] at hf

include hlen

omit hdir in
theorem walkable : t.Walkable root clus F where
  root_mem := h.root_mem
  loaded := hc.loaded h
  placed f hf := hc.placed h hf
  dir f hf hdir := hc.dir h hd hlen hf ((hc.isDir_iff h hd hf).mp hdir)
  long := by
    intro f hf hdirf
    rw [hc.isDir_iff h hd hf] at hdirf
    have hlong := h.long f hf hdirf
    rw [hc.spares.bpb]
    by_cases hfd : f = d
    · rw [hfd] at hlong ⊢
      rw [hc.size]
      omega
    · rwa [hc.peekSize_ne h hd hf hfd]
  closed := by
    intro d' hd' hdir' f hf hne
    rw [hc.isDir_iff h hd hd'] at hdir'
    have hold : f ∈ s.listing (clus d') d' ∧ f ≠ e := by
      by_cases hdd : d' = d
      · rw [hdd, hc.listing_dir] at hf
        obtain ⟨ys, hys⟩ := slots_take_le s.bpb (clus d) hle
        refine ⟨?_, fun heq => he (heq ▸ hf)⟩
        unfold listing
        rw [hdd, hys]
        exact List.mem_append_left _ hf
      · rw [hc.listing_ne h hd hd' hdd] at hf
        exact ⟨hf, fun heq => hc.own d' hd' hdir' hdd (heq ▸ listing_subset hf)⟩
    refine h.closed d' hd' hdir' f hold.1 ?_
    have hk := hc.peek_slot h hd hd' hdir' (listing_subset hold.1) (k := 0) (by decide)
      fun heq => absurd heq hold.2
    rw [Nat.add_zero] at hk
    rwa [← hk]

/-- Then the path of the new file does not lead to it. -/
theorem not_found {rootName rest : List Byte} (hroot : rootName.length = 6) (hz : 0 ∉ rest)
    (hr : s.fatResolve clus root (pieces slash rest) = .ok (.missing d name)) :
    (fatwalkPath root (rootName ++ rest) t).Sat (fun w _ => ∀ o g, w ≠ .found o g) (fun _ _ => True)
      (fun p => p = .noMemory ∧ ¬t.Stocked) := by
  refine (fatwalkPath_resolve (hc.walkable h hd hlen hle he) hroot hz).mono ?_ (fun _ _ _ => trivial)
    (fun _ h => h)
  rintro w u ⟨-, hres, -⟩ o g rfl
  have hmono := resolve_mono s.IsFatDir (fun d => s.fatFind (clus d) d) (· ∈ F)
    (fun n => n ≠ [] ∧ 0 ∉ n) (fun f hf => (hc.isDir_iff h hd hf).mp)
    (fun d' nm f hd' hdir' hn hf => by
      have hdir' := (hc.isDir_iff h hd hd').mp hdir'
      have hfind := hc.fatFind_of_not_longer h hd hdir hle he hd' hdir' hf
      exact ⟨hfind, h.mem_of_find hd' hdir' hn.1 hn.2 hfind⟩)
    (pieces slash rest) none root h.root_mem
    (names_of_path hz) hres
  have heq := hr.symm.trans hmono
  cases heq

end

end Created

end FatFs

end Mos
