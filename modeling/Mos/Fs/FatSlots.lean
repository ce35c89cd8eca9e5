import Mos.Fs.FatEntries
import Mos.Fs.Serv

/-!
# What an entry of a new file holds

`fatfile_create` writes the name of the new entry, and nothing else: the attributes, the first cluster and the size
are those that the entry had. In a directory without clusters the entry is the first one of a new cluster, and its
bytes are those that the cluster has on the disk or in the cache.
-/

namespace Mos

open Lib Prog Function FatFs

/-- The bytes of an entry say that it is an empty file: no directory, no clusters and the size 0. -/
def EmptyEntry (b : Nat → Byte) : Prop :=
  b 11 &&& attrDirectory = 0 ∧ ∀ k ∈ [20, 21, 26, 27, 28, 29, 30, 31], b k = 0

instance (b : Nat → Byte) : Decidable (EmptyEntry b) := inferInstanceAs (Decidable (_ ∧ _))

theorem EmptyEntry.congr {b c : Nat → Byte} (h : ∀ k, 11 ≤ k → k < 32 → c k = b k) :
    EmptyEntry c ↔ EmptyEntry b := by
  unfold EmptyEntry
  rw [h 11 (by decide) (by decide)]
  refine and_congr_right fun _ => forall_congr' fun k => forall_congr' fun hk => ?_
  have hin : 11 ≤ k ∧ k < 32 := by
    simp only [List.mem_cons, List.not_mem_nil, or_false] at hk
    omega
  rw [h k hin.1 hin.2]

namespace FatFs

/-- `f` is the entry of an empty file. -/
def EmptyFatFile (s : FatFs) (f : Nat) : Prop := EmptyEntry fun k => s.peek (f + k)

instance (s : FatFs) (f : Nat) : Decidable (s.EmptyFatFile f) := inferInstanceAs (Decidable (EmptyEntry _))

/-- What `map_cluster` finds at the beginning of the cluster `g`. A large cluster is read again when it is mapped. -/
def fetched (s : FatFs) (g k : Nat) : Byte :=
  if s.bpb.bytsPerCluster ≤ 4096 ∧ s.clusterIsMapped g = true then s.byte (s.bpb.cluster2addr g + k)
  else s.disk (512 * s.bpb.cluster2Sec g + k)

/-- Nothing of a small cluster `g` is loaded, or all of it, and the bytes that are read are within 4 GiB. -/
def Fetches (s : FatFs) (g : Nat) : Prop :=
  (s.bpb.bytsPerCluster ≤ 4096 → s.Ready g) ∧ 512 * s.bpb.cluster2Sec g + 512 * s.bpb.bytsPerCluster < 2 ^ 32

/-- The entry that a new file in `d` takes is that of an empty file. -/
def BlankSlot (s : FatFs) (xs : List Nat) (d : Nat) : Prop :=
  match s.freeSlot xs d with
  | some e => s.EmptyFatFile e
  | none =>
    match xs[s.counted d]? with
    | some c => s.EmptyFatFile (fatEntry (s.bpb.cluster2addr c) 0)
    | none => ∀ g, Finds s g → EmptyEntry (s.fetched g)

end FatFs

/-! ## Loading a new cluster -/

section Load

variable {s t u : FatFs} {c d g n : Nat}

/-- What `map_cluster` has loaded. -/
theorem mapCluster_fetched (hfit : 512 * s.bpb.cluster2Sec g + 512 * s.bpb.bytsPerCluster < 2 ^ 32)
    (h : mapCluster g s = .ret () t) {k : Nat} (hk : k < 64) : t.byte (s.bpb.cluster2addr g + k) = s.fetched g k := by
  unfold fetched
  have hbytes := s.bpb.bytsPerCluster_pos
  obtain ⟨rfl, hm, hsmall⟩ | ⟨hc, u, hstage, hread⟩ := mapCluster_stage h
  · rw [if_pos ⟨hsmall, hm⟩]
  · rw [if_neg]
    · have hsat := fatIdeRead_sat (s.bpb.cluster2Sec g) s.bpb.bytsPerCluster (s.bpb.cluster2addr_aligned g) u
      rw [hread] at hsat
      have hbegin : ideBegin (s.bpb.cluster2Sec g) = 512 * s.bpb.cluster2Sec g := by
        unfold ideBegin by2sect
        omega
      have hrounds : 1 ≤ ideRounds (s.bpb.cluster2Sec g) s.bpb.bytsPerCluster := by
        unfold ideRounds
        rw [hbegin]
        unfold by2sect
        omega
      rw [hsat.1.byte_in (by omega) (by omega), hbegin, Nat.add_sub_cancel_left]
      rw [hstage.rest]
    · rintro ⟨hsmall, hm⟩
      rcases hc with hc | hc
      · rw [hm] at hc
        cases hc
      · omega

/-- A walk does not change what `map_cluster` would find. -/
theorem FatFs.Sees.fetched (h : s.Sees t) (hg : s.Fetches g) {k : Nat} (hk : k < 32) :
    t.fetched g k = s.fetched g k := by
  have hal := s.bpb.cluster2addr_mod g
  have hent := s.bpb.entries_mul
  have hpos := s.bpb.bytsPerCluster_pos
  have hdvd : 64 ∣ s.bpb.cluster2addr g := Nat.dvd_trans ⟨_, hent.symm⟩ (Nat.dvd_of_mod_eq_zero hal)
  have hmod : (s.bpb.cluster2addr g + k) % 64 < 32 := by omega
  have hkb : k < s.bpb.bytsPerCluster := by omega
  have hdisk : t.disk = s.disk := by rw [h.rest]
  unfold FatFs.fetched
  rw [h.bpb, hdisk]
  by_cases hsmall : s.bpb.bytsPerCluster ≤ 4096
  · have hready := hg.1 hsmall
    have hpeek := h.peek g hready k hkb hmod
    by_cases hm : s.clusterIsMapped g = true
    · have hmk := FatFs.clusterIsMapped_iff.mp hm
      have hmt : t.clusterIsMapped g = true := by
        rw [FatFs.clusterIsMapped_iff, h.bpb]
        exact fun j hj => h.mapped _ (hmk j hj)
      rw [if_pos ⟨hsmall, hmt⟩, if_pos ⟨hsmall, hm⟩, h.byte _ (hmk k hkb) hmod]
    · obtain ⟨hplain, hout⟩ := hready.loads.resolve_left hm
      rw [if_neg (c := _ ∧ s.clusterIsMapped g = true) fun hc => hm hc.2]
      split
      next hc =>
        have hmt := FatFs.clusterIsMapped_iff.mp hc.2
        rw [h.bpb] at hmt
        replace hmt := hmt k hkb
        have haddr := hplain.cluster2addr_eq hready.valid
        have hsec := hplain.cluster2Sec_eq hready.valid
        rw [← FatFs.peek_mapped hmt, hpeek]
        unfold FatFs.peek
        rw [hout k hkb, if_neg Bool.false_ne_true]
        exact congrArg s.disk (by omega)
      next => rfl
  · rw [if_neg fun hc => hsmall hc.1, if_neg fun hc => hsmall hc.1]

/-- A new size does not change it either, if the entry is in another cluster. -/
theorem FatFs.fetched_setFileSize (hd : s.IsEntry d) (hout : ∀ k < 64, ¬s.bpb.Reach g (d + k)) {k : Nat}
    (hk : k < 64) : (s.setFileSize d n).fetched g k = s.fetched g k := by
  have hm : (s.setFileSize d n).clusterIsMapped g = s.clusterIsMapped g := by
    rw [Bool.eq_iff_iff, FatFs.clusterIsMapped_iff, FatFs.clusterIsMapped_iff]
    refine forall_congr' fun j => forall_congr' fun _ => ?_
    rw [FatFs.setFileSize, fatvaIsMapped_setHalf, fatvaIsMapped_setHalf]
    rfl
  have hpos := s.bpb.bytsPerCluster_pos
  have hbyte : (s.setFileSize d n).byte (s.bpb.cluster2addr g + k) = s.byte (s.bpb.cluster2addr g + k) := by
    refine byte_setFileSize hd fun ha => ?_
    have := hout (s.bpb.cluster2addr g + k - d) (by omega)
    unfold Fat32Bpb.Reach at this
    omega
  unfold FatFs.fetched
  rw [hm]
  change (if _ then (s.setFileSize d n).byte (s.bpb.cluster2addr g + k) else _) = _
  rw [hbyte]
  rfl

/-- `fatfile_get_cluster(d, 0)` of a directory without clusters brings the new cluster in. -/
theorem fatfileGetCluster_fetched {K : Set Nat} (hK : ∀ c ∈ K, s.Ready c) (hd : s.IsEntry d)
    (hdK : ∀ k < 64, d + k ∈ s.bpb.area K) (h0 : s.fstClus d = 0) (hroom : s.Roomy K)
    (hfit : ∀ g, Finds s g → 512 * s.bpb.cluster2Sec g + 512 * s.bpb.bytsPerCluster < 2 ^ 32) :
    (fatfileGetCluster d 0 s).Sat
      (fun b t => ∃ g, Finds s g ∧ b = s.bpb.cluster2addr g ∧ t.bpb = s.bpb ∧ t.clusterIsMapped g = true ∧
        ∀ k < 64, t.byte (b + k) = s.fetched g k) (fun _ _ => True) (fun _ => True) := by
  refine ((fatfileGetCluster_first hK hd hdK h0 hroom).and (Outcome.sat_self _)).mono ?_
    (fun _ _ _ => trivial) (fun _ _ => trivial)
  rintro b t ⟨⟨g, hg, hb, hsp, -, hcm, -⟩, hret⟩
  refine ⟨g, hg, hb, hsp.bpb, hcm, fun k hk => ?_⟩
  rw [fatfileGetCluster, bind_apply, fatfileMapCluster_first h0, allocCluster_finds hg] at hret
  cases hmap : mapCluster g (s.claimAt g) with
  | ret _ u =>
    rw [hmap] at hret
    have hrest := (mapCluster_loaded hmap).1.rest
    have hm := mapCluster_mapped hmap
    have hbytes := mapCluster_fetched (s := s.claimAt g) (hfit g hg) hmap hk
    -- the entry of the directory is out of reach
    have hset : (u.setFstClus d g).byte (s.bpb.cluster2addr g + k) = u.byte (s.bpb.cluster2addr g + k) :=
      byte_setFstClus ⟨hd.aligned, (mapCluster_loaded hmap).2 d hd.mapped⟩ fun ha => by
        have := (hroom g hg).2 _ (hdK (s.bpb.cluster2addr g + k - d) (by omega))
        have hpos := s.bpb.bytsPerCluster_pos
        unfold Fat32Bpb.Reach at this
        omega
    have hsetm : ∀ a, (u.setFstClus d g).fatvaIsMapped a = u.fatvaIsMapped a := fun a => by
      rw [setFstClus, fatvaIsMapped_setHalf, fatvaIsMapped_setHalf]
    generalize hv : (if u.fstClus d = 0 then u.setFstClus d g else u) = v at hret
    have hvb : v.byte (s.bpb.cluster2addr g + k) = s.fetched g k ∧ v.clusterIsMapped g = true := by
      rw [← hv]
      split
      · refine ⟨hset.trans hbytes, ?_⟩
        rw [clusterIsMapped_iff] at hm ⊢
        exact fun j hj => (hsetm _).trans (hm j hj)
      · exact ⟨hbytes, hm⟩
    dsimp only at hret
    rw [hv] at hret
    by_cases hvalid : v.bpb.Valid g
    · rw [bind_ret (readCluster_mapped hvalid hvb.2)] at hret
      obtain ⟨-, rfl⟩ := Outcome.ret.inj hret
      rw [hb]
      exact hvb.1
    · rw [bind_halt (p := .nonexistent) (by rw [readCluster, get_bind, bind_halt (assert_neg hvalid)])] at hret
      cases hret
  | err e u =>
    rw [hmap] at hret
    cases hret
  | halt p =>
    rw [hmap] at hret
    cases hret

end Load

/-! ## The new entry -/

section Create

variable {s t : FatFs} {root d e : Nat} {clus : Nat → List Nat} {F : Set Nat} {rootName rest name : List Byte}

/-- The name is all that `strcpy` changes in an entry. -/
theorem fatStrcpy_rest {f : Nat} (hf : s.IsEntry f) (hlen : name.length < maxfatnamelen) :
    ∃ t, fatStrcpy f name s = .ret () t ∧ ∀ k, 11 ≤ k → k < 64 → t.peek (f + k) = s.byte (f + k) := by
  unfold maxfatnamelen at hlen
  obtain ⟨t, ht, hm, hout, -, -⟩ := fatStrcpy_entry hf name 0 s (by omega) fun _ => rfl
  simp only [Nat.add_zero] at ht hout
  refine ⟨t, ht, fun k hk hk' => ?_⟩
  rw [peek_mapped ((hm _).trans (hf.byte_mapped hk')), hout _ (by omega)]

/-- `fatfile_create` in a directory without clusters. -/
theorem fatfileCreate_fetched (h : s.FatTree root clus F) (hroot : rootName.length = 6) (hz : 0 ∉ rest)
    (hr : s.fatResolve clus root (pieces slash rest) = .ok (.missing d name))
    (hlen : name.length < maxfatnamelen) (hno : s.freeSlot (clus d) d = none) (hnil : clus d = [])
    (hroom : s.Roomy (s.held clus F)) (hget : ∀ g, Finds s g → s.Fetches g) :
    (fatfileCreate root (rootName ++ rest) s).Sat
      (fun e t => ∃ g, Finds s g ∧ ∀ k, 11 ≤ k → k < 32 → t.peek (e + k) = s.fetched g k)
      (fun _ _ => True) (fun _ => True) := by
  obtain ⟨hd, hdir, -, -, -⟩ := h.of_missing hz hr
  refine fatfileCreate_sat h hroot hz hr hlen (fun f u hf => ?_) ?_ (fun _ _ => trivial)
  · rw [hno] at hf
    cases hf
  · intro u _ hs hm
    have hsize : s.grownSize d < 2 ^ 32 := Nat.mod_lt _ (by decide)
    have hzero : s.counted d = 0 := by
      have hlong := h.long d hd hdir
      rw [hnil] at hlong
      exact Nat.le_zero.mp hlong
    have h0 := ((h.chain d hd hdir).resolve_right fun h' => h'.1 hnil).2
    have hv := resized_of_sees h.held_ready (h.placed d hd) hs hm hsize
    have hbpb := hv.spares.bpb
    have hfinds : ∀ g, Finds (u.setFileSize d (s.grownSize d)) g ↔ Finds s g := fun g => Finds.congr hbpb hv.fats
    have hdK : ∀ k < 64, d + k ∈ (u.setFileSize d (s.grownSize d)).bpb.area (s.held clus F) := by
      rw [hbpb]
      exact fun k hk => h.mem_held hd hk
    rw [hzero, growDir_eq]
    refine sat_call (fatfileGetCluster_fetched (fun c hc => hv.spares.ready c hc (h.held_ready c hc)) hv.isEntry hdK
      (hv.fstClus.trans h0) (hroom.congr hbpb hv.fats) fun g hg => ?_) ?_ (fun _ _ _ => trivial)
      (fun _ _ => trivial)
    · rw [hbpb]
      exact (hget g ((hfinds g).mp hg)).2
    · rintro b v ⟨g, hg, hb, hvb, hcm, hbytes⟩
      have hg' := (hfinds g).mp hg
      have hent : v.IsEntry (fatEntry b 0) := by
        rw [hbpb] at hb
        have hslot : fatEntry b 0 ∈ v.bpb.slots [g] := by
          rw [hb, hvb.trans hbpb]
          exact Fat32Bpb.first_slot
        exact ⟨Fat32Bpb.slot_aligned hslot, slot_mapped rfl hcm hslot⟩
      obtain ⟨t, ht, hrest⟩ := fatStrcpy_rest hent hlen
      rw [Prog.pure_apply, Outcome.sat_ret, ht]
      refine ⟨g, hg', fun k hk hk' => ?_⟩
      have hout : ∀ k < 64, ¬u.bpb.Reach g (d + k) := by
        rw [hs.bpb]
        exact fun k hk => (hroom g hg').2 _ (h.mem_held hd hk)
      have hdu : u.IsEntry d := (h.placed d hd).isEntry hm
      rw [hrest k hk (by omega), show fatEntry b 0 + k = b + k from rfl, hbytes k (by omega),
        fetched_setFileSize hdu hout (by omega), hs.fetched (hget g hg') hk']

/-- A new entry is that of an empty file if and only if its slot was. -/
theorem fatfileCreate_blank (h : s.FatTree root clus F) (hroot : rootName.length = 6) (hz : 0 ∉ rest)
    (hr : s.fatResolve clus root (pieces slash rest) = .ok (.missing d name))
    (hfirst : clus d = [] → s.Roomy (s.held clus F) ∧ ∀ g, Finds s g → s.Fetches g)
    (hret : fatfileCreate root (rootName ++ rest) s = .ret e t) :
    t.EmptyFatFile e ↔ s.BlankSlot (clus d) d := by
  obtain ⟨hd, hdir, -, -, -⟩ := h.of_missing hz hr
  have hlen : name.length < maxfatnamelen := by
    by_contra hlong
    have hsat := fatfileCreate_long h hroot hz hr hlong
    rw [hret] at hsat
    exact hsat
  unfold BlankSlot
  cases hfree : s.freeSlot (clus d) d with
  | some f =>
    have hsat := fatfileCreate_free h hroot hz hr hlen hfree
    rw [hret] at hsat
    obtain ⟨rfl, hsp, -⟩ := hsat
    have hslot := listing_subset (List.mem_of_find?_eq_some hfree)
    refine EmptyEntry.congr fun k hk hk' => hsp.slot ⟨d, hd, hdir, hslot⟩ hk' ?_
    rw [Set.mem_Ico]
    omega
  | none =>
    rcases Nat.lt_or_ge (s.counted d) (clus d).length with hk | hk
    · have hsat := fatfileCreate_inside h hroot hz hr hlen hfree hk
      rw [hret] at hsat
      obtain ⟨he, hsp, -⟩ := hsat
      rw [List.getElem?_eq_getElem hk]
      dsimp only
      rw [← he]
      have hslot : e ∈ s.bpb.slots (clus d) := by
        rw [he]
        refine Fat32Bpb.slots_mono (fun c hc => ?_) Fat32Bpb.first_slot
        rw [List.mem_singleton.mp hc]
        exact List.getElem_mem hk
      have hal := Fat32Bpb.slot_aligned hslot
      have hald := h.aligned hd
      have hkeep : ∀ k, 11 ≤ k → k < 28 → t.peek (e + k) = s.peek (e + k) := by
        intro k hk hk'
        refine hsp.slot ⟨d, hd, hdir, hslot⟩ (by omega) ?_
        rw [Set.mem_union, Set.mem_Ico, Set.mem_Ico]
        omega
      by_cases hed : e = d
      · -- the entry of the directory itself
        subst hed
        have hattr : s.peek (e + 11) &&& attrDirectory ≠ 0 := by
          rw [show s.peek (e + 11) = attrDirectory from hdir]
          decide
        refine iff_of_false (fun hempty => hattr ?_) fun hempty => hattr hempty.1
        rw [← hkeep 11 (by decide) (by decide)]
        exact hempty.1
      · refine EmptyEntry.congr fun k hk hk' => hsp.slot ⟨d, hd, hdir, hslot⟩ hk' ?_
        rw [Set.mem_union, Set.mem_Ico, Set.mem_Ico]
        omega
    · have heq : s.counted d = (clus d).length := Nat.le_antisymm (h.long d hd hdir) hk
      by_cases hnil : clus d = []
      · obtain ⟨hroom, hget⟩ := hfirst hnil
        have hsat := fatfileCreate_fetched h hroot hz hr hlen hfree hnil hroom hget
        rw [hret] at hsat
        obtain ⟨g, hg, hbytes⟩ := hsat
        rw [List.getElem?_eq_none hk]
        have hone : t.EmptyFatFile e ↔ EmptyEntry (s.fetched g) := EmptyEntry.congr hbytes
        rw [hone]
        refine ⟨fun hempty g' hg' => ?_, fun hall => hall g hg⟩
        rwa [hg'.first.unique hg.first]
      · have hsat := fatfileCreate_end h hroot hz hr hlen hfree heq hnil
        rw [hret] at hsat
        exact hsat.elim

end Create

/-- The file that `fatserve_open` opens or makes, on the root directory `root`. -/
def fatOpenedFile (root : Nat) (path : List Byte) (omode : Word) : FatM Nat :=
  if omode &&& oCreat = oCreat then fatfileCreate root path
  else if omode &&& oMkdir = oMkdir then do
    let f ← fatfileCreate root path
    storeFatByte (f + 11) attrDirectory
    return f
  else fatfileOpen root path

end Mos
