import Mos.Fs.FatNaming

/-!
# Creating files on a FAT32 disk

`fatfile_create` gives a name to the first entry of a directory that has none. If there is none, it makes the
directory longer by a sector or a page and takes the entry at the beginning of the next cluster, but
`fatdir_lookup` counts the clusters that a directory has filled.
-/

namespace Mos

open Lib Prog Function

/-! ## The entry that is taken -/

section Alloc

variable {s t u : FatFs} {xs : List Nat} {d f i n : Nat} {name : List Byte}

/-- The loop of `fatdir_alloc_file` looks for an entry without a name. -/
theorem fatAllocFileFrom_find (h : s.FatDir xs d) : ∀ n i t, s.Sees t → t.fatvaIsMapped d = true →
    i + n ≤ xs.length →
    (fatAllocFileFrom d i n t).Sat
      (fun o u => t.Sees u ∧ o = (s.bpb.slots ((xs.drop i).take n)).find? (fun f => s.peek f = 0) ∧
        ∀ f, o = some f → u.fatvaIsMapped f = true)
      (fun _ _ => False) (fun p => p = .noMemory ∧ ¬s.Stocked) := by
  intro n
  induction n with
  | zero => exact fun i t _ _ _ => ⟨FatFs.Sees.refl t, rfl, by simp⟩
  | succ n ih =>
    intro i t hs hm hlen
    have hi : i < xs.length := by omega
    rw [List.drop_eq_getElem_cons hi, List.take_succ_cons, Fat32Bpb.slots_cons, List.find?_append]
    rw [fatAllocFileFrom, get_bind]
    refine sat_call (fatfileGetCluster_inside h hs hm hi) ?_ (fun _ _ h => h.elim) (fun _ h => h)
    rintro b u ⟨hb, htu, hcm⟩
    have hu := hs.trans htu
    have hslot : ∀ j < s.bpb.entries, fatEntry (s.bpb.cluster2addr xs[i]) j ∈ s.bpb.slots [xs[i]] :=
      fun j hj => Fat32Bpb.mem_slots.mpr ⟨_, List.mem_singleton_self _, j, hj, rfl⟩
    have htest : ∀ j < s.bpb.entries,
        ((do return (← loadFatByte (fatEntry (s.bpb.cluster2addr xs[i]) j)) = 0 : FatM Bool)) u =
          .ret (decide (s.peek (fatEntry (s.bpb.cluster2addr xs[i]) j) = 0)) u := by
      intro j hj
      have hf := hslot j hj
      have hmf := slot_mapped hu.bpb hcm hf
      have hbyte := (h.placed (Fat32Bpb.slots_mono (by simp) hf)).byte hu hmf (k := 0) (by decide)
      rw [bind_ret (loadFatByte_mapped hmf)]
      rw [Nat.add_zero] at hbyte
      rw [hbyte]
      rfl
    rw [hb, hs.bpb, bind_ret (findEntry_pure (q := fun f => decide (s.peek f = 0)) _ 0 fun j _ hj =>
      htest j (by omega)), ← List.range_eq_range']
    cases hfind : ((List.range s.bpb.entries).map (fatEntry (s.bpb.cluster2addr xs[i]))).find?
        (fun f => decide (s.peek f = 0)) with
    | some f =>
      obtain ⟨j, hj, hfj⟩ := List.mem_map.mp (List.mem_of_find?_eq_some hfind)
      refine ⟨htu, rfl, ?_⟩
      rintro _ ⟨⟩
      exact slot_mapped hu.bpb hcm (hfj ▸ hslot j (List.mem_range.mp hj))
    | none =>
      refine (ih (i + 1) u hu (htu.mapped d hm) (by omega)).mono ?_ (fun _ _ h => h) (fun _ h => h)
      rintro o v ⟨hv, ho, hmo⟩
      exact ⟨htu.trans hv, ho, hmo⟩

/-- `strcpy` to the name of an entry. -/
theorem fatStrcpy_entry (hf : s.IsEntry f) : ∀ cs k (t : FatFs), k + cs.length < 64 →
    (∀ a, t.fatvaIsMapped a = s.fatvaIsMapped a) →
    ∃ u, fatStrcpy (f + k) cs t = .ret () u ∧ (∀ a, u.fatvaIsMapped a = s.fatvaIsMapped a) ∧
      (∀ a, ¬(f + k ≤ a ∧ a < f + k + cs.length + 1) → u.byte a = t.byte a) ∧
      (∀ i < cs.length + 1, u.byte (f + k + i) = cs.getD i 0) ∧ u = { t with cache := u.cache } := by
  have hstore : ∀ k b (t : FatFs), k < 64 → (∀ a, t.fatvaIsMapped a = s.fatvaIsMapped a) →
      storeFatByte (f + k) b t = .ret () (t.setByte (f + k) b) ∧
        (∀ a, (t.setByte (f + k) b).fatvaIsMapped a = s.fatvaIsMapped a) ∧
        ∀ a, (t.setByte (f + k) b).byte a = if a = f + k then b else t.byte a := by
    intro k b t hk hm
    have hmt : t.fatvaIsMapped (f + k) = true := by rw [hm, hf.byte_mapped hk]
    refine ⟨?_, fun a => by rw [FatFs.fatvaIsMapped_setByte, hm], fun a => FatFs.byte_setByte hmt⟩
    rw [storeFatByte, bind_ret (touchPage_mapped hmt)]
    rfl
  intro cs
  induction cs with
  | nil =>
    intro k t hk hm
    obtain ⟨heq, hm', hb⟩ := hstore k 0 t (by simpa using hk) hm
    refine ⟨_, heq, hm', fun a ha => ?_, fun i hi => ?_, rfl⟩
    · rw [hb, if_neg]
      rintro rfl
      simp at ha
    · obtain rfl : i = 0 := by simpa using hi
      rw [hb, if_pos (Nat.add_zero _)]
      rfl
  | cons c cs ih =>
    intro k t hk hm
    rw [List.length_cons] at hk
    obtain ⟨heq, hm', hb⟩ := hstore k c t (by omega) hm
    obtain ⟨u, hu, hmu, hout, hin, hrest⟩ := ih (k + 1) _ (by omega) hm'
    refine ⟨u, ?_, hmu, fun a ha => ?_, fun i hi => ?_, ?_⟩
    · rw [fatStrcpy, bind_ret heq]
      exact hu
    · rw [List.length_cons] at ha
      rw [hout a (by omega), hb, if_neg (by omega)]
    · cases i with
      | zero => rw [hout _ (by omega), hb, if_pos (Nat.add_zero _), List.getD_cons_zero]
      | succ i =>
        rw [List.length_cons] at hi
        rw [show f + k + (i + 1) = f + (k + 1) + i by omega, hin i (by omega), List.getD_cons_succ]
    · rw [hrest]
      rfl

/-- A name of at most 10 bytes stays within `DIR_Name`. -/
theorem fatStrcpy_named (hf : s.IsEntry f) (hlen : name.length < maxfatnamelen) (K : Set Nat) :
    ∃ t, fatStrcpy f name s = .ret () t ∧ FatFs.Spares K (Set.Ico f (f + 11)) s t ∧
      (∀ k < name.length + 1, t.peek (f + k) = name.getD k 0) ∧
      (∀ a, t.fatvaIsMapped a = s.fatvaIsMapped a) ∧ t = { s with cache := t.cache } := by
  unfold maxfatnamelen at hlen
  obtain ⟨t, ht, hm, hout, hin, hrest⟩ := fatStrcpy_entry hf name 0 s (by omega) fun _ => rfl
  simp only [Nat.add_zero] at ht hout hin
  refine ⟨t, ht, FatFs.spares_of_bytes (by rw [hrest]) (by rw [hrest]) hm fun a ha => hout a ?_,
    fun k hk => ?_, hm, hrest⟩
  · rw [Set.mem_Ico] at ha
    omega
  · rw [FatFs.peek_mapped (by rw [hm]; exact hf.byte_mapped (by omega)), hin k hk]

/-- What `fatdir_alloc_file` does when no entry is free. -/
def growDir (d nclus size : Nat) : FatM Nat := do
  Prog.modify fun t => t.setFileSize d size
  let blk ← fatfileGetCluster d nclus
  return fatEntry blk 0

/-- `DIR_FileSize` when the directory has been made longer. -/
def FatFs.grownSize (s : FatFs) (d : Nat) : Nat := (s.peekSize d + s.bpb.dirGrowth) % 2 ^ 32

/-- `fatdir_alloc_file`: the first entry without a name, or a longer directory. -/
theorem fatdirAllocFile_sat (h : s.FatDir xs d) (hs : s.Sees t) (hm : t.fatvaIsMapped d = true)
    (hlong : s.peekSize d / s.bpb.bytsPerCluster ≤ xs.length) {Q : Nat → FatFs → Prop} {E : Err → FatFs → Prop}
    {H : FatPanic → Prop}
    (hsome : ∀ f u, (s.listing xs d).find? (fun f => s.peek f = 0) = some f → s.Sees u →
      u.fatvaIsMapped f = true → Q f u)
    (hnone : ∀ u, (s.listing xs d).find? (fun f => s.peek f = 0) = none → s.Sees u →
      u.fatvaIsMapped d = true →
      (growDir d (s.peekSize d / s.bpb.bytsPerCluster) (s.grownSize d) u).Sat Q E H)
    (hH : ∀ p, p = .noMemory ∧ ¬s.Stocked → H p) : (fatdirAllocFile d t).Sat Q E H := by
  have hloop := fatAllocFileFrom_find h (s.peekSize d / s.bpb.bytsPerCluster) 0 t hs hm (by omega)
  rw [List.drop_zero] at hloop
  rw [fatdirAllocFile, get_bind, h.place.fileSize hs hm, hs.bpb]
  refine sat_call hloop ?_ (fun _ _ h => h.elim) hH
  rintro o u ⟨htu, ho, hmo⟩
  have hu := hs.trans htu
  change o = (s.listing xs d).find? _ at ho
  cases o with
  | some f => exact hsome f u ho.symm hu (hmo f rfl)
  | none =>
    have hmd := htu.mapped d hm
    have hgrow := hnone u ho.symm hu hmd
    unfold growDir at hgrow
    dsimp only
    rw [modify_bind] at hgrow ⊢
    rw [h.place.fileSize hu hmd]
    exact hgrow

end Alloc

/-! ## Making a directory longer -/

section Grow

open FatFs

variable {s t u : FatFs} {xs : List Nat} {d f g n k : Nat} {K W : Set Nat}

theorem FatFs.peekSize_congr (h : ∀ k, 28 ≤ k → k < 32 → t.peek (d + k) = s.peek (d + k)) :
    t.peekSize d = s.peekSize d := by
  unfold peekSize peekHalf
  rw [Nat.add_assoc d 30 1, Nat.add_assoc d 28 1, h 30 (by decide) (by decide), h 31 (by decide) (by decide),
    h 28 (by decide) (by decide), h 29 (by decide) (by decide)]

theorem FatFs.peekFst_congr (h : ∀ k, 20 ≤ k → k < 28 → t.peek (d + k) = s.peek (d + k)) :
    t.peekFst d = s.peekFst d := by
  unfold peekFst peekHalf
  rw [Nat.add_assoc d 20 1, Nat.add_assoc d 26 1, h 20 (by decide) (by decide), h 21 (by decide) (by decide),
    h 26 (by decide) (by decide), h 27 (by decide) (by decide)]

theorem FatFs.IsEntry.peekSize (h : s.IsEntry d) : s.peekSize d = s.fileSize d := by
  unfold FatFs.peekSize FatFs.fileSize peekHalf FatFs.half
  rw [Nat.add_assoc d 30 1, Nat.add_assoc d 28 1, peek_mapped (h.byte_mapped (by decide)),
    peek_mapped (h.byte_mapped (by decide)), peek_mapped (h.byte_mapped (by decide)),
    peek_mapped (h.byte_mapped (by decide))]

theorem FatFs.IsEntry.peekFst (h : s.IsEntry d) : s.peekFst d = s.fstClus d := by
  unfold FatFs.peekFst FatFs.fstClus peekHalf FatFs.half
  rw [Nat.add_assoc d 20 1, Nat.add_assoc d 26 1, peek_mapped (h.byte_mapped (by decide)),
    peek_mapped (h.byte_mapped (by decide)), peek_mapped (h.byte_mapped (by decide)),
    peek_mapped (h.byte_mapped (by decide))]

/-- A new size. -/
theorem FatFs.spares_setFileSize (h : s.IsEntry d) (n : Nat) :
    Spares K (Set.Ico (d + 28) (d + 32)) s (s.setFileSize d n) :=
  spares_of_bytes rfl rfl (fun a => by rw [setFileSize, fatvaIsMapped_setHalf, fatvaIsMapped_setHalf])
    fun a ha => byte_setFileSize h (by rw [Set.mem_Ico] at ha; omega)

/-- A new first cluster. -/
theorem FatFs.spares_setFstClus (h : s.IsEntry d) (n : Nat) :
    Spares K (Set.Ico (d + 20) (d + 28)) s (s.setFstClus d n) :=
  spares_of_bytes rfl rfl (fun a => by rw [setFstClus, fatvaIsMapped_setHalf, fatvaIsMapped_setHalf])
    fun a ha => byte_setFstClus h (by rw [Set.mem_Ico] at ha; omega)

/-- The group that is handed out next is free and valid, and is loaded out of the way of the clusters in
`K`. -/
def FatFs.Roomy (s : FatFs) (K : Set Nat) : Prop :=
  ∀ g, Finds s g → FreeRun s g ∧ ∀ a ∈ s.bpb.area K, ¬s.bpb.Reach g a

/-- `fatfile_get_cluster(d, 0)` of a directory without clusters. -/
theorem fatfileGetCluster_first (hK : ∀ c ∈ K, s.Ready c) (hd : s.IsEntry d)
    (hdK : ∀ k < 64, d + k ∈ s.bpb.area K) (h0 : s.fstClus d = 0) (hroom : s.Roomy K) :
    (fatfileGetCluster d 0 s).Sat
      (fun b t => ∃ g, Finds s g ∧ b = s.bpb.cluster2addr g ∧
        Spares K (Set.Ico (d + 20) (d + 28)) s t ∧ t.fstClus d = g ∧ t.clusterIsMapped g = true ∧
        (∀ c, s.fats c ≠ fat32Free → t.fats c = s.fats c) ∧ (s.Stocked → t.Stocked))
      (fun _ t => s.Stocked → t = s ∧ ¬∃ g, Finds s g)
      (fun p => s.Stocked → p ≠ .noMemory ∧ ¬∃ g, Finds s g) := by
  rw [fatfileGetCluster, sat_bind, fatfileMapCluster_first h0]
  by_cases hex : ∃ g, Finds s g
  · obtain ⟨g, hg⟩ := hex
    obtain ⟨hfree, hout⟩ := hroom g hg
    have hwords : fatWords < 2 ^ 32 := by decide
    have hin := hfree.inside
    have htwo := hg.two_le
    have hpos := s.bpb.group_pos
    rw [allocCluster_finds hg]
    cases hmap : mapCluster g (s.claimAt g) with
    | ret _ u =>
      have hrest := (mapCluster_loaded hmap).1.rest
      have hsp : Spares K ∅ (s.claimAt g) u :=
        mapCluster_spares (fun c hc => ⟨(hK c hc).valid, (hK c hc).loads⟩) hout hmap
      have hu : u.IsEntry d := ⟨hd.aligned, (mapCluster_loaded hmap).2 d hd.mapped⟩
      have hal := hd.aligned
      have hfst : u.fstClus d = 0 := by
        rw [← hu.peekFst, ← h0, ← hd.peekFst]
        exact peekFst_congr fun k _ hk => hsp.peek _ (hdK k (by omega)) (by omega) (Set.notMem_empty _)
      have hbpb : (u.setFstClus d g).bpb = s.bpb := by
        show u.bpb = s.bpb
        rw [hrest]
        rfl
      have hfats : (u.setFstClus d g).fats = claimed s.bpb.group g s.fats := by
        show u.fats = _
        rw [hrest]
        rfl
      have hvalid : (u.setFstClus d g).bpb.Valid g := by
        rw [hbpb]
        exact ⟨htwo, by omega⟩
      have hcm : (u.setFstClus d g).clusterIsMapped g = true := by
        have hg := mapCluster_mapped hmap
        rw [clusterIsMapped_iff] at hg ⊢
        intro j hj
        rw [setFstClus, fatvaIsMapped_setHalf, fatvaIsMapped_setHalf]
        exact hg j hj
      dsimp only
      rw [if_pos hfst, Outcome.sat_ret, bind_ret (readCluster_mapped hvalid hcm)]
      refine ⟨g, hg, by rw [hbpb], ?_, fstClus_setFstClus hu (by omega), hcm, fun c hc => ?_, fun hs => ?_⟩
      · have hclaim : Spares K ∅ s (s.claimAt g) :=
          spares_of_bytes rfl rfl (fun _ => rfl) fun _ _ => rfl
        exact ((hclaim.trans hsp).mono (Set.empty_subset _)).trans (spares_setFstClus hu g)
      · rw [hfats, claimed_of_not_mem]
        by_contra hin'
        obtain ⟨i, rfl⟩ : ∃ i, c = g + i := ⟨c - g, by omega⟩
        exact hc (hfree.free i (by omega))
      · obtain ⟨v, hv, havail⟩ := mapCluster_supplied (s := s.claimAt g) (c := g) hs
        rw [hmap] at hv
        obtain rfl := (Outcome.ret.inj hv).2
        exact havail
    | err e u =>
      intro hs
      obtain ⟨v, hv, -⟩ := mapCluster_supplied (s := s.claimAt g) (c := g) hs
      rw [hmap] at hv
      cases hv
    | halt p =>
      intro hs
      obtain ⟨v, hv, -⟩ := mapCluster_supplied (s := s.claimAt g) (c := g) hs
      rw [hmap] at hv
      cases hv
  · obtain hg | herr | hhalt := allocCluster_cases s
    · exact absurd hg hex
    · rw [herr]
      exact fun _ => ⟨rfl, hex⟩
    · rw [hhalt]
      exact fun _ => ⟨by simp, hex⟩

/-- After `DIR_FileSize` has been set. -/
structure Resized (K : Set Nat) (d size : Nat) (s t : FatFs) : Prop where
  isEntry : t.IsEntry d
  spares : Spares K (Set.Ico (d + 28) (d + 32)) s t
  fileSize : t.fileSize d = size
  fstClus : t.fstClus d = s.peekFst d
  fats : t.fats = s.fats
  stocked : s.Stocked → t.Stocked

theorem resized_of_sees (hK : ∀ c ∈ K, s.Ready c) (hp : s.Placed d) (hs : s.Sees u)
    (hm : u.fatvaIsMapped d = true) (hn : n < 2 ^ 32) : Resized K d n s (u.setFileSize d n) where
  isEntry := (hp.isEntry hm).setFileSize n
  spares := (hs.spares hK).trans (spares_setFileSize (hp.isEntry hm) n)
  fileSize := fileSize_setFileSize (hp.isEntry hm) hn
  fstClus := by rw [fstClus_setFileSize (hp.isEntry hm), hp.fstClus hs hm]
  fats := hs.fats
  stocked := hs.stocked

theorem growDir_eq (nclus : Nat) : growDir d nclus n u =
    (fatfileGetCluster d nclus >>= fun blk => pure (fatEntry blk 0)) (u.setFileSize d n) := rfl

/-- There is another cluster in the chain. -/
theorem growDir_inside (h : s.FatDir xs d) (hK : ∀ c ∈ K, s.Ready c) (hxs : ∀ c ∈ xs, c ∈ K)
    (hdK : ∀ k < 64, d + k ∈ s.bpb.area K) (hs : s.Sees u) (hm : u.fatvaIsMapped d = true) (hn : n < 2 ^ 32)
    (hk : k < xs.length) :
    (growDir d k n u).Sat
      (fun f t => f = fatEntry (s.bpb.cluster2addr xs[k]) 0 ∧
        Spares K (Set.Ico (d + 28) (d + 32)) s t ∧ t.peekSize d = n ∧ t.fats = s.fats ∧ t.IsEntry f ∧
        (s.Stocked → t.Stocked))
      (fun _ _ => False) (fun p => p = .noMemory ∧ ¬s.Stocked) := by
  have hr := resized_of_sees hK h.place hs hm hn
  have hmem : xs[k] ∈ xs := List.getElem_mem hk
  have hready := hr.spares.ready _ (hxs _ hmem) (h.ready _ hmem)
  rw [growDir_eq, sat_bind, fatfileGetCluster, bind_ret (fatfileMapCluster_dir h hr.fstClus hr.fats hk), sat_bind]
  refine (readCluster_ready hready).mono ?_ (fun _ _ h => h) fun p hp => ⟨hp.1, fun h' => hp.2 (hr.stocked h')⟩
  rintro ⟨b, isnew⟩ t ⟨hb, ht, hcm⟩
  have hK' : ∀ c ∈ K, (u.setFileSize d n).Ready c := fun c hc => hr.spares.ready c hc (hK c hc)
  have hal := hr.isEntry.aligned
  have hsize : t.peekSize d = n := by
    rw [← hr.fileSize, ← hr.isEntry.peekSize]
    refine peekSize_congr fun k _ hk => (ht.spares (W := ∅) hK').peek _ ?_ (by omega) (Set.notMem_empty _)
    rw [hr.spares.bpb]
    exact hdK k (by omega)
  have hsp := hr.spares.trans (ht.spares hK')
  have hslot : _ ∈ s.bpb.slots [xs[k]] := Fat32Bpb.first_slot
  rw [hr.spares.bpb] at hb
  refine ⟨by rw [← hb], hsp, hsize, ht.fats.trans hr.fats, ⟨?_, ?_⟩, fun h => ht.stocked (hr.stocked h)⟩
  all_goals rw [show fatEntry b 0 = fatEntry (s.bpb.cluster2addr xs[k]) 0 by rw [← hb]]
  · exact Fat32Bpb.slot_aligned hslot
  · exact slot_mapped hsp.bpb hcm hslot

/-- The chain ends before the cluster that is asked for: its end marker is taken for a cluster. -/
theorem growDir_end (h : s.FatDir xs d) (hne : xs ≠ []) (hchain : FatChain s.fats (s.peekFst d) xs)
    (hs : s.Sees u) (hm : u.fatvaIsMapped d = true) :
    growDir d xs.length n u = .halt .nonexistent := by
  have hfst : (u.setFileSize d n).fstClus d = s.peekFst d := by
    rw [fstClus_setFileSize (h.place.isEntry hm), h.place.fstClus hs hm]
  have hfats : (u.setFileSize d n).fats = s.fats := hs.fats
  obtain rfl | ⟨zs, o, rfl⟩ := List.eq_nil_or_concat xs
  · exact absurd rfl hne
  · rw [List.concat_eq_append] at *
    obtain ⟨m, hzs, rfl, hend⟩ := Path.append_iff.mp hchain
    have hlen : zs.length < (zs ++ [m]).length := by simp
    have hin : ∀ x ∈ zs, x < fatWords ∧ s.fats x ≠ fat32Used := by
      intro x hx
      have := h.ne_used hlen x
      rw [List.take_left] at this
      exact ⟨h.inside x (by simp [hx]), this hx⟩
    have hwalk : clusterWalk d (zs.length + 1) true 0 (zs.length + 1) (s.peekFst d) (u.setFileSize d n) =
        clusterWalk d (zs.length + 1) true (0 + zs.length) 1 m (u.setFileSize d n) := by
      rw [← hfats] at hzs hin
      exact clusterWalk_path zs _ m 0 1 hzs hin
    have hlast : clusterWalk d (zs.length + 1) true (0 + zs.length) 1 m (u.setFileSize d n) =
        .ret fat32Used.toNat (u.setFileSize d n) := by
      rw [clusterWalk_step (h.inside m (by simp)) fun hi => absurd hi (by omega), hfats]
      have hend : (s.fats m).toNat = fat32Used.toNat := hend
      rw [hend]
      rfl
    rw [growDir_eq, fatfileGetCluster, List.length_append, List.length_singleton]
    refine bind_halt ?_
    rw [bind_ret (fatfileMapCluster_walk (by rw [hfst, hwalk, hlast]) (by decide))]
    refine bind_halt ?_
    unfold readCluster
    rw [get_bind]
    exact bind_halt (assert_neg fun hv => absurd hv.lt_used (lt_irrefl _))

theorem Finds.congr (hbpb : t.bpb = s.bpb) (hfats : t.fats = s.fats) : Finds t g ↔ Finds s g := by
  constructor
  · rintro ⟨h1, h2, h3⟩
    exact ⟨hfats ▸ h1, hbpb ▸ h2, hbpb ▸ h3⟩
  · rintro ⟨h1, h2, h3⟩
    exact ⟨hfats ▸ h1, hbpb ▸ h2, hbpb ▸ h3⟩

theorem FatFs.Roomy.congr (h : s.Roomy K) (hbpb : t.bpb = s.bpb) (hfats : t.fats = s.fats) : t.Roomy K := by
  intro g hg
  obtain ⟨⟨hin, hfree⟩, hout⟩ := h g ((Finds.congr hbpb hfats).mp hg)
  refine ⟨⟨?_, ?_⟩, ?_⟩
  · rwa [hbpb]
  · rwa [hfats, hbpb]
  · rwa [hbpb]

/-- The directory has no clusters yet. -/
theorem growDir_first (hp : s.Placed d) (hK : ∀ c ∈ K, s.Ready c) (hdK : ∀ k < 64, d + k ∈ s.bpb.area K)
    (hs : s.Sees u) (hm : u.fatvaIsMapped d = true) (hn : n < 2 ^ 32) (h0 : s.peekFst d = 0)
    (hroom : s.Roomy K) :
    (growDir d 0 n u).Sat
      (fun f t => ∃ g, Finds s g ∧ f = fatEntry (s.bpb.cluster2addr g) 0 ∧
        Spares K (Set.Ico (d + 20) (d + 32)) s t ∧ t.peekSize d = n ∧ t.peekFst d = g ∧
        t.clusterIsMapped g = true ∧ (∀ c, s.fats c ≠ fat32Free → t.fats c = s.fats c) ∧
        (s.Stocked → t.Stocked))
      (fun _ t => s.Stocked → t.peekSize d = n ∧ ¬∃ g, Finds s g)
      (fun p => s.Stocked → p ≠ .noMemory ∧ ¬∃ g, Finds s g) := by
  have hr := resized_of_sees hK hp hs hm hn
  have hfinds : ∀ g, Finds (u.setFileSize d n) g ↔ Finds s g := fun g => Finds.congr hr.spares.bpb hr.fats
  have hroom' : (u.setFileSize d n).Roomy K := hroom.congr hr.spares.bpb hr.fats
  have hdK' : ∀ k < 64, d + k ∈ (u.setFileSize d n).bpb.area K := by rwa [hr.spares.bpb]
  rw [growDir_eq]
  refine sat_call (fatfileGetCluster_first (fun c hc => hr.spares.ready c hc (hK c hc)) hr.isEntry hdK'
    (hr.fstClus.trans h0) hroom') ?_ ?_ ?_
  · rintro b t ⟨g, hg, hb, hsp, hfst, hcm, hfats, hst⟩
    have hal := hr.isEntry.aligned
    have hmt : t.IsEntry d := ⟨hal, hsp.mapped d (hdK' 0 (by decide)) hr.isEntry.mapped⟩
    have hsize : t.peekSize d = n := by
      rw [← hr.fileSize, ← hr.isEntry.peekSize]
      refine peekSize_congr fun k hk hk' => hsp.peek _ (hdK' k (by omega)) (by omega) ?_
      rw [Set.mem_Ico]
      omega
    rw [hr.spares.bpb] at hb
    refine ⟨g, (hfinds g).mp hg, by rw [hb], ?_, hsize, by rw [hmt.peekFst, hfst], hcm, fun c hc => ?_,
      fun h => hst (hr.stocked h)⟩
    · exact (hr.spares.mono (Set.Ico_subset_Ico_left (by omega))).trans
        (hsp.mono (Set.Ico_subset_Ico_right (by omega)))
    · rw [hfats c (by rwa [hr.fats]), hr.fats]
  · rintro e t hst hs'
    obtain ⟨rfl, hno⟩ := hst (hr.stocked hs')
    refine ⟨by rw [hr.isEntry.peekSize, hr.fileSize], fun ⟨g, hg⟩ => hno ⟨g, (hfinds g).mpr hg⟩⟩
  · rintro p hst hs'
    obtain ⟨hne, hno⟩ := hst (hr.stocked hs')
    exact ⟨hne, fun ⟨g, hg⟩ => hno ⟨g, (hfinds g).mpr hg⟩⟩

end Grow

/-! ## `fatfile_create` -/

section Create

open FatFs

variable {s t u : FatFs} {root d e f : Nat} {clus : Nat → List Nat} {F : Set Nat}
  {rootName rest name : List Byte}

/-- The number of clusters of `d` that are looked at. -/
def FatFs.counted (s : FatFs) (d : Nat) : Nat := s.peekSize d / s.bpb.bytsPerCluster

/-- The first entry of `d` without a name. -/
def FatFs.freeSlot (s : FatFs) (xs : List Nat) (d : Nat) : Option Nat :=
  (s.listing xs d).find? fun f => s.peek f = 0

/-- `fatfile_create` of a path whose last name is missing. -/
theorem fatfileCreate_sat (h : s.FatTree root clus F) (hroot : rootName.length = 6) (hz : 0 ∉ rest)
    (hr : s.fatResolve clus root (pieces slash rest) = .ok (.missing d name))
    (hlen : name.length < maxfatnamelen) {Q : Nat → FatFs → Prop} {E : Err → FatFs → Prop}
    {H : FatPanic → Prop}
    (hsome : ∀ f u, s.freeSlot (clus d) d = some f → s.Sees u → u.fatvaIsMapped f = true →
      (fatStrcpy f name u).Sat (fun _ => Q f) E H)
    (hnone : ∀ u, s.freeSlot (clus d) d = none → s.Sees u → u.fatvaIsMapped d = true →
      (growDir d (s.counted d) (s.grownSize d) u).Sat (fun f v => (fatStrcpy f name v).Sat (fun _ => Q f) E H)
        (fun _ => E .notFound) H)
    (hH : ∀ p, p = .noMemory ∧ ¬s.Stocked → H p) :
    (fatfileCreate root (rootName ++ rest) s).Sat Q E H := by
  obtain ⟨hd, hdir, -, -, -⟩ := h.of_missing hz hr
  rw [fatfileCreate]
  refine sat_call (fatwalkPath_resolve h.toWalkable hroot hz) ?_ ?_ hH
  · rintro w u ⟨hs, hres, hw⟩
    obtain rfl := Except.ok.inj (hr.symm.trans hres)
    dsimp only
    rw [bind_ret (assert_pos hlen), sat_bind, sat_attempt]
    refine (fatdirAllocFile_sat (Q := fun f v => (fatStrcpy f name v).Sat (fun _ => Q f) E H)
      (E := fun _ => E .notFound) (h.dir d hd hdir) hs hw (h.long d hd hdir) hsome hnone hH).mono ?_
      (fun _ _ h => h) (fun _ h => h)
    intro f v hf
    exact sat_bind.mpr hf
  · rintro e u ⟨-, hres⟩
    cases hr.symm.trans hres

/-- A longer name is copied over the end of the local array. -/
theorem fatfileCreate_long (h : s.FatTree root clus F) (hroot : rootName.length = 6) (hz : 0 ∉ rest)
    (hr : s.fatResolve clus root (pieces slash rest) = .ok (.missing d name))
    (hlen : ¬name.length < maxfatnamelen) :
    (fatfileCreate root (rootName ++ rest) s).Sat (fun _ _ => False) (fun _ _ => False)
      (fun p => p = .noMemory → ¬s.Stocked) := by
  rw [fatfileCreate]
  refine sat_call (fatwalkPath_resolve h.toWalkable hroot hz) ?_ ?_ (fun p hp _ => hp.2)
  · rintro w u ⟨-, hres, -⟩
    obtain rfl := Except.ok.inj (hr.symm.trans hres)
    dsimp only
    rw [bind_halt (assert_neg hlen)]
    rintro ⟨⟩
  · rintro e u ⟨-, hres⟩
    cases hr.symm.trans hres

section

variable (h : s.FatTree root clus F) (hroot : rootName.length = 6) (hz : 0 ∉ rest)
  (hr : s.fatResolve clus root (pieces slash rest) = .ok (.missing d name))
  (hlen : name.length < maxfatnamelen)

include h hroot hz hr hlen

/-- There is an entry without a name: it gets the name. -/
theorem fatfileCreate_free (he : s.freeSlot (clus d) d = some e) :
    (fatfileCreate root (rootName ++ rest) s).Sat
      (fun f t => f = e ∧ Spares (s.held clus F) (Set.Ico e (e + 11)) s t ∧
        (∀ k < name.length + 1, t.peek (e + k) = name.getD k 0) ∧ t.fats = s.fats ∧ (s.Stocked → t.Stocked))
      (fun _ _ => False) (fun p => p = .noMemory ∧ ¬s.Stocked) := by
  obtain ⟨hd, hdir, -, -, -⟩ := h.of_missing hz hr
  refine fatfileCreate_sat h hroot hz hr hlen ?_ (fun u hno => ?_) (fun _ h => h)
  · intro f u hf hs hm
    obtain rfl := Option.some.inj (he.symm.trans hf)
    have hslot := listing_subset (List.mem_of_find?_eq_some he)
    obtain ⟨t, ht, hsp, hnamed, -, hrest⟩ := fatStrcpy_named ⟨Fat32Bpb.slot_aligned hslot, hm⟩ hlen
      (s.held clus F)
    rw [ht]
    refine ⟨rfl, (hs.spares h.held_ready).trans hsp, hnamed, ?_, fun hst => ?_⟩
    · rw [hrest]
      exact hs.fats
    · rw [hrest]
      exact hs.stocked hst
  · rw [hno] at he
    cases he

variable (hno : s.freeSlot (clus d) d = none)

include hno

/-- The directory has another cluster: its first entry gets the name. -/
theorem fatfileCreate_inside (hk : s.counted d < (clus d).length) :
    (fatfileCreate root (rootName ++ rest) s).Sat
      (fun f t => f = fatEntry (s.bpb.cluster2addr (clus d)[s.counted d]) 0 ∧
        Spares (s.held clus F) (Set.Ico (d + 28) (d + 32) ∪ Set.Ico f (f + 11)) s t ∧
        t.peekSize d = s.grownSize d ∧
        (∀ k < name.length + 1, t.peek (f + k) = name.getD k 0) ∧ t.fats = s.fats ∧ (s.Stocked → t.Stocked))
      (fun _ _ => False) (fun p => p = .noMemory ∧ ¬s.Stocked) := by
  obtain ⟨hd, hdir, -, -, -⟩ := h.of_missing hz hr
  refine fatfileCreate_sat h hroot hz hr hlen (fun f u hf => ?_) ?_ (fun _ h => h)
  · rw [hno] at hf
    cases hf
  · intro u _ hs hm
    have hsize : s.grownSize d < 2 ^ 32 := Nat.mod_lt _ (by decide)
    refine (growDir_inside (h.dir d hd hdir) h.held_ready (fun c hc => ⟨d, hd, hdir, hc⟩)
      (fun k hk => h.mem_held hd hk) hs hm hsize hk).mono ?_ (fun _ _ h => h.elim) (fun _ h => h)
    rintro f v ⟨hf, hsp, hn, hfats, hentry, hst⟩
    obtain ⟨t, ht, hsp', hnamed, -, hrest⟩ := fatStrcpy_named hentry hlen (s.held clus F)
    rw [ht]
    have hal := hentry.aligned
    have hald := h.aligned hd
    refine ⟨hf, (hsp.mono Set.subset_union_left).trans (hsp'.mono Set.subset_union_right), ?_, hnamed, ?_,
      fun hs' => ?_⟩
    · rw [← hn]
      refine peekSize_congr fun k hk hk' => hsp'.peek _ ?_ (by omega) ?_
      · rw [hsp.bpb]
        exact h.mem_held hd (by omega)
      · rw [Set.mem_Ico]
        omega
    · rw [hrest]
      exact hfats
    · rw [hrest]
      exact hst hs'

/-- All clusters of the directory are full: the server panics. -/
theorem fatfileCreate_end (hk : s.counted d = (clus d).length) (hne : clus d ≠ []) :
    (fatfileCreate root (rootName ++ rest) s).Sat (fun _ _ => False) (fun _ _ => False)
      (fun p => p = .noMemory → ¬s.Stocked) := by
  obtain ⟨hd, hdir, -, -, -⟩ := h.of_missing hz hr
  refine fatfileCreate_sat h hroot hz hr hlen (fun f u hf => ?_) ?_ (fun _ h _ => h.2)
  · rw [hno] at hf
    cases hf
  · intro u _ hs hm
    have hchain := ((h.chain d hd hdir).resolve_left fun h' => hne h'.1).2
    rw [hk, growDir_end (h.dir d hd hdir) hne hchain hs hm]
    rintro ⟨⟩

/-- The directory has no clusters: it is given its first one. -/
theorem fatfileCreate_first (hnil : clus d = []) (hroom : s.Roomy (s.held clus F)) :
    (fatfileCreate root (rootName ++ rest) s).Sat
      (fun f t => ∃ g, Finds s g ∧ f = fatEntry (s.bpb.cluster2addr g) 0 ∧
        Spares (s.held clus F) (createArea d f) s t ∧ t.peekSize d = s.grownSize d ∧ t.peekFst d = g ∧
        t.clusterIsMapped g = true ∧ (∀ k < name.length + 1, t.peek (f + k) = name.getD k 0) ∧
        (∀ c, s.fats c ≠ fat32Free → t.fats c = s.fats c) ∧ (s.Stocked → t.Stocked))
      (fun _ t => s.Stocked → t.peekSize d = s.grownSize d ∧ ¬∃ g, Finds s g)
      (fun p => s.Stocked → p ≠ .noMemory ∧ ¬∃ g, Finds s g) := by
  obtain ⟨hd, hdir, -, -, -⟩ := h.of_missing hz hr
  refine fatfileCreate_sat h hroot hz hr hlen (fun f u hf => ?_) ?_ (fun _ h hs => absurd hs h.2)
  · rw [hno] at hf
    cases hf
  · intro u _ hs hm
    have hsize : s.grownSize d < 2 ^ 32 := Nat.mod_lt _ (by decide)
    have hzero : s.counted d = 0 := by
      have hlong := h.long d hd hdir
      rw [hnil] at hlong
      exact Nat.le_zero.mp hlong
    have h0 := ((h.chain d hd hdir).resolve_right fun h' => h'.1 hnil).2
    rw [hzero]
    refine (growDir_first (h.placed d hd) h.held_ready (fun k hk => h.mem_held hd hk) hs hm hsize h0
      hroom).mono ?_ (fun _ _ h => h) (fun _ h => h)
    rintro f v ⟨g, hg, hf, hsp, hn, hfst, hcm, hfats, hst⟩
    have hslot : _ ∈ s.bpb.slots [g] := Fat32Bpb.first_slot
    rw [← hf] at hslot
    have hentry : v.IsEntry f := ⟨Fat32Bpb.slot_aligned hslot, slot_mapped hsp.bpb hcm hslot⟩
    obtain ⟨t, ht, hsp', hnamed, hm', hrest⟩ := fatStrcpy_named hentry hlen (s.held clus F)
    rw [ht]
    have hal := hentry.aligned
    have hald := h.aligned hd
    have hkeep : ∀ k, 20 ≤ k → k < 32 → t.peek (d + k) = v.peek (d + k) := by
      intro k hk hk'
      refine hsp'.peek _ ?_ (by omega) ?_
      · rw [hsp.bpb]
        exact h.mem_held hd (by omega)
      · rw [Set.mem_Ico]
        omega
    refine ⟨g, hg, hf, (hsp.mono Set.subset_union_left).trans (hsp'.mono Set.subset_union_right), ?_, ?_, ?_,
      hnamed, fun c hc => ?_, fun hs' => ?_⟩
    · rw [← hn]
      exact peekSize_congr fun k hk hk' => hkeep k (by omega) hk'
    · rw [← hfst]
      exact peekFst_congr fun k hk hk' => hkeep k hk (by omega)
    · rw [clusterIsMapped_iff] at hcm ⊢
      intro j hj
      rw [hsp'.bpb] at hj ⊢
      rw [hm']
      exact hcm j hj
    · rw [hrest]
      exact hfats c hc
    · rw [hrest]
      exact hst hs'

end

end Create

end Mos
