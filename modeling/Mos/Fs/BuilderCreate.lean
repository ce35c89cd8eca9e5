import Mos.Fs.BuilderFrame

/-!
# A place for a new file

`create_file` finds the first place of a directory without a name, or gives the directory one more block. The new name
comes behind those that the directory has.
-/

namespace Mos

open Lib Prog Function

namespace Builder

variable {e : Endian} {s t u : Builder} {p q f : FileLoc} {b j k n : Nat} {w : Word}

/-! ## `create_file` -/

/-- The block that step 1 of `create_file` looks at. -/
theorem directoryBlock_link (s : Builder) (p : FileLoc) (k : Nat) :
    (directoryBlock e p k s).Sat (fun b t => t = s ∧ b = s.link e p k) (fun _ _ => True) (fun _ => True) := by
  unfold directoryBlock link
  split
  · next hk =>
    show (inDisk (s.fieldOf e p (directField k)) s).Sat _ _ _
    exact (inDisk_sat s _).mono (fun b t h => ⟨h.2, h.1⟩) (fun _ _ h => h) (fun _ h => h)
  · next hk =>
    show Outcome.Sat ((do
      let b ← inDisk (s.fieldOf e p indirectField)
      Prog.assert (k < nindirect) .wild
      let s ← Prog.get
      inDisk (s.word e (.block b) (4 * k)) : BuilderM Nat) s) _ _ _
    refine sat_call (inDisk_sat s (s.fieldOf e p indirectField)) ?_ (fun _ _ h => h) (fun _ h => h)
    rintro c t ⟨hc, ht⟩
    rw [hc, ht]
    refine sat_bind.mpr (sat_assert.mpr ?_)
    split
    · exact (inDisk_sat s _).mono (fun b t h => ⟨h.2, h.1⟩) (fun _ _ h => h) (fun _ h => h)
    · trivial

theorem unusedFrom_none {d : Nat → Byte} : ∀ {n j}, unusedFrom d j n = none →
    ∀ i, j ≤ i → i < j + n → d (256 * i) ≠ 0 := by
  intro n
  induction n with
  | zero => exact fun _ i h1 h2 => absurd h1 (by omega)
  | succ n ih =>
    intro j h i h1 h2
    rw [unusedFrom] at h
    split at h
    · cases h
    · next hused =>
      by_cases hij : i = j
      · rw [hij]
        exact hused
      · exact ih h i (by omega) (by omega)

/-- The first unused place of a block splits its places. -/
theorem slotsIn_split (hj : j < file2blk) : ∃ ys, slotsIn b = (List.range j).map (slot b) ++ slot b j :: ys := by
  refine ⟨(List.range' (j + 1) (file2blk - (j + 1))).map (slot b), ?_⟩
  have hsplit : List.range file2blk = List.range j ++ j :: List.range' (j + 1) (file2blk - (j + 1)) := by
    have happend := List.range'_append_1 (s := 0) (m := j) (n := file2blk - (j + 1) + 1)
    rw [Nat.zero_add, Nat.add_left_comm, Nat.sub_add_cancel hj] at happend
    rw [List.range_eq_range', List.range_eq_range', ← List.range'_succ]
    exact happend.symm
  rw [slotsIn, hsplit, List.map_append, List.map_cons]

/-- The places in the blocks `k`, …, `k + n - 1` of a directory. -/
def slotsFrom (e : Endian) (s : Builder) (p : FileLoc) (k n : Nat) : List FileLoc :=
  (List.range' k n).flatMap fun i => slotsIn (s.link e p i)

theorem slots_eq_slotsFrom : s.slots e p = s.slotsFrom e p 0 (s.nblocksOf e p) := by
  rw [slots, slotsFrom, List.range_eq_range']

/-- Step 1 of `create_file` finds the first place without a name. -/
theorem findUnused_split (s : Builder) (p : FileLoc) : ∀ n k,
    (findUnused e p k n s).Sat (fun o t => t = s ∧
      match o with
      | some f => ¬s.Named f ∧ ∃ xs ys, s.slotsFrom e p k n = xs ++ f :: ys ∧ ∀ q ∈ xs, s.Named q
      | none => ∀ q ∈ s.slotsFrom e p k n, s.Named q) (fun _ _ => True) (fun _ => True) := by
  intro n
  induction n with
  | zero => exact fun k => ⟨rfl, fun q hq => absurd hq List.not_mem_nil⟩
  | succ n ih =>
    intro k
    have hcons : s.slotsFrom e p k (n + 1) = slotsIn (s.link e p k) ++ s.slotsFrom e p (k + 1) n := by
      rw [slotsFrom, List.range'_succ, List.flatMap_cons]
      rfl
    rw [findUnused, hcons]
    refine sat_call (directoryBlock_link s p k) ?_ (fun _ _ h => h) (fun _ h => h)
    rintro b t ⟨ht, hb⟩
    rw [ht, get_bind, ← hb]
    cases hfind : unusedFrom (s.mem (.block b)) 0 file2blk with
    | some j =>
      obtain ⟨-, hj, hzero, hprev⟩ := unusedFrom_some hfind
      obtain ⟨ys, hys⟩ := slotsIn_split (b := b) (show j < file2blk by omega)
      refine ⟨rfl, not_not_intro hzero, (List.range j).map (slot b), ys ++ s.slotsFrom e p (k + 1) n, ?_, ?_⟩
      · rw [hys, List.append_assoc, List.cons_append]
      · intro q hq
        obtain ⟨i, hi, rfl⟩ := List.mem_map.mp hq
        exact hprev i (Nat.zero_le i) (List.mem_range.mp hi)
    | none =>
      have hfull : ∀ q ∈ slotsIn b, s.Named q := by
        intro q hq
        obtain ⟨i, hi, rfl⟩ := mem_slotsIn.mp hq
        exact unusedFrom_none hfind i (Nat.zero_le i) (by omega)
      refine (ih (k + 1)).mono ?_ (fun _ _ h => h) (fun _ h => h)
      rintro o t ⟨ht, ho⟩
      refine ⟨ht, ?_⟩
      cases o with
      | some f =>
        obtain ⟨hf, xs, ys, hsplit, hxs⟩ := ho
        refine ⟨hf, slotsIn b ++ xs, ys, by rw [hsplit, List.append_assoc], fun q hq => ?_⟩
        exact (List.mem_append.mp hq).elim (hfull q) (hxs q)
      | none => exact fun q hq => (List.mem_append.mp hq).elim (hfull q) (ho q)

/-- The names in front of the first place without one are all the names there are. -/
theorem Treed.entries_of_split (h : s.Treed e) (hd : s.IsDir e p) {xs ys : List FileLoc}
    (hsplit : s.slots e p = xs ++ f :: ys) (hf : ¬s.Named f) (hxs : ∀ q ∈ xs, s.Named q) :
    s.entries e p = xs ∧ ∀ q ∈ ys, ¬s.Named q := by
  have hpacked := h.packed p hd
  rw [hsplit] at hpacked
  have hys : ∀ q ∈ ys, ¬s.Named q := fun q hq hname =>
    hf ((List.pairwise_cons.mp (List.pairwise_append.mp hpacked).2.1).1 q hq hname)
  refine ⟨?_, hys⟩
  rw [entries, hsplit, List.filter_append, List.filter_eq_self.mpr, List.filter_eq_nil_iff.mpr, List.append_nil]
  · intro q hq
    rw [decide_eq_true_eq]
    rcases List.mem_cons.mp hq with rfl | hq
    · exact hf
    · exact hys q hq
  · intro q hq
    rw [decide_eq_true_eq]
    exact hxs q hq

/-- `f` is the place for a new file in the directory `p`. -/
structure Opened (e : Endian) (p f : FileLoc) (s t : Builder) : Prop where
  treed : t.Treed e
  dir : t.IsDir e p
  ext : Ext e (· = p) s t
  head : ∀ x < 128, t.mem p.region (p.off + x) = s.mem p.region (p.off + x)
  vacant : t.Vacant f
  slots : ∃ ys, t.slots e p = s.entries e p ++ f :: ys
  old : ∀ q ∈ t.slots e p, s.IsFile q → q ∈ s.slots e p

/-- `make_link_block` for a directory that is full. -/
theorem makeLinkBlock_opened (h : s.Treed e) (hd : s.IsDir e p) (hfull : ∀ q ∈ s.slots e p, s.Named q) :
    (makeLinkBlock e p (s.nblocksOf e p) s).Sat (fun b t => Opened e p (slot b 0) s t) (fun _ _ => True)
      (fun _ => True) := by
  obtain ⟨hp, hname, hdir⟩ := id hd
  refine sat_call (nextBlock_sat s .file) ?_ (fun _ _ h => h) (fun _ h => h)
  rintro _ _ ⟨hn, rfl, rfl⟩
  have hzero := h.formed.laid.fresh s.nextbno (Nat.le_refl _)
  have hfits : Fits .file (s.mem (.block s.nextbno)) := .inr ⟨.inl rfl, hzero⟩
  have hformed := h.formed.grown hn hfits
  have hsteady : Steady e s (s.grown .file (s.mem (.block s.nextbno))) := h.formed.laid.steady_grown
  have hgrown := h.formed.ext_grown .file (s.mem (.block s.nextbno))
  have htype : (s.grown .file (s.mem (.block s.nextbno))).type s.nextbno = .file := update_self _ _ _
  have hkind : (s.grown .file (s.mem (.block s.nextbno))).kind e p = .file := by
    rw [hsteady.kind hp, kind, if_pos hdir]
  have hpu := hgrown.isFile hp
  have hnameu := (hsteady.named p hp).mpr hname
  refine sat_call ((saveBlockLink_sat hformed hpu hnameu (htype.trans hkind.symm)).and
    (saveBlockLink_kept hformed hpu hnameu (s.nblocksOf e p) s.nextbno)) ?_ (fun _ _ h => h.1) (fun _ h => h.1)
  rintro _ v ⟨⟨hk, hst⟩, hkept⟩
  have hv : v.Treed e := h.store hn hfits hp hst hkept fun _ => Nat.le_refl _
  have hpv := hkept.ext.isFile hpu
  have hnamev := (hst.steady.named p hpu).mpr hnameu
  have hsize : v.fieldOf e p sizeField = s.fieldOf e p sizeField :=
    hst.size.trans (hgrown.fieldOf hp (fun h => h) (by decide))
  show Outcome.Sat ((do
    setField e p sizeField (v.fieldOf e p sizeField + 4096)
    pure s.nextbno : BuilderM Nat) v) _ _ _
  rw [hsize]
  have hnext : (s.fieldOf e p sizeField + 4096).toNat / by2blk = s.nblocksOf e p + 1 := by
    rw [BitVec.toNat_add]
    show ((s.fieldOf e p sizeField).toNat + 4096) % 2 ^ 32 / 4096 = (s.fieldOf e p sizeField).toNat / 4096 + 1
    have hlt : (s.fieldOf e p sizeField).toNat / 4096 < 1024 := hk
    omega
  have hlinks : ∀ j < s.nblocksOf e p, v.link e p j = s.link e p j := by
    intro j hj
    rw [hst.links j (by omega), hgrown.link hp fun h => h]
  have hne : s.nextbno ≠ 0 := Nat.ne_of_gt (Nat.lt_of_lt_of_le (by decide) h.formed.laid.started)
  obtain ⟨hw, hvw, hlinkw⟩ := hv.formed.setSize (w := s.fieldOf e p sizeField + 4096) hpv hnamev (by
    rw [hnext]
    intro _ j hj
    by_cases hjk : j = s.nblocksOf e p
    · rw [hjk, hst.link]
      exact ⟨hk, hne⟩
    · rw [hlinks j (by omega)]
      exact h.formed.linked.dirs p hp hdir j (show j < s.nblocksOf e p by omega))
  have hpatch := setField_patch e v p sizeField (s.fieldOf e p sizeField + 4096)
  have hvext := hpatch.ext hv.formed (by decide) hpv
  have hblocks : (v.setWord e p.region (p.off + sizeField) (s.fieldOf e p sizeField + 4096)).nblocksOf e p =
      s.nblocksOf e p + 1 := by
    rw [nblocksOf, fieldOf_setField_self, hnext]
  have hlast : (v.setWord e p.region (p.off + sizeField) (s.fieldOf e p sizeField + 4096)).link e p
      (s.nblocksOf e p) = s.nextbno := (hlinkw _).trans hst.link
  have hfront : ∀ j < s.nblocksOf e p, (v.setWord e p.region (p.off + sizeField)
      (s.fieldOf e p sizeField + 4096)).link e p j = s.link e p j := fun j hj => (hlinkw j).trans (hlinks j hj)
  show Opened e p (slot s.nextbno 0) s (v.setWord e p.region (p.off + sizeField) (s.fieldOf e p sizeField + 4096))
  generalize v.setWord e p.region (p.off + sizeField) (s.fieldOf e p sizeField + 4096) = x at *
  have hslots : x.slots e p = s.slots e p ++ slotsIn s.nextbno := by
    rw [slots, hblocks, List.range_succ, List.flatMap_append, List.flatMap_singleton, hlast, slots]
    refine congrArg (· ++ _) (List.flatMap_congr fun j hj => ?_)
    rw [hfront j (List.mem_range.mp hj)]
  have hall : Steady e (s.grown .file (s.mem (.block s.nextbno))) x := hst.steady.trans hvw
  have hnamed : ∀ q, s.IsFile q → (x.Named q ↔ s.Named q) := fun q hq =>
    (hall.named q (hgrown.isFile hq)).trans (hsteady.named q hq)
  have hnew : ∀ q ∈ slotsIn s.nextbno, (s.grown .file (s.mem (.block s.nextbno))).IsFile q ∧ ¬x.Named q := by
    intro q hq
    obtain ⟨i, hi, rfl⟩ := mem_slotsIn.mp hq
    have hfile : (s.grown .file (s.mem (.block s.nextbno))).IsFile (slot s.nextbno i) := isFile_slot htype hi
    refine ⟨hfile, ?_⟩
    rw [hall.named _ hfile]
    refine not_not_intro ?_
    show update s.mem (.block s.nextbno) _ (.block s.nextbno) _ = 0
    rw [update_self]
    exact hzero _
  have hentries : s.entries e p = s.slots e p := by
    rw [entries, List.filter_eq_self]
    exact fun q hq => decide_eq_true (hfull q hq)
  have hdx : x.IsDir e p := (hsteady.trans hall).grown.dirs p hd
  obtain ⟨ys, hys⟩ := slotsIn_split (b := s.nextbno) (show 0 < file2blk by decide)
  refine ⟨?_, hdx, ?_, ?_, ?_, ⟨ys, ?_⟩, ?_⟩
  · refine hv.patch hpatch (by decide) hpv hw hlinkw ?_ fun d hdd => ?_
    · rw [indirect, hpatch.fieldOf_self (.inr (by decide)), ← indirect]
    · by_cases hdp : d = p
      · rw [hdp, hslots, List.pairwise_append]
        refine ⟨List.pairwise_of_forall_mem_list fun a ha b _ _ => ?_, ?_, fun a ha b _ _ => ?_⟩
        · exact (hnamed a (h.formed.isFile_of_mem hd ha)).mpr (hfull a ha)
        · exact List.pairwise_of_forall_mem_list fun a _ b hb hnb => absurd hnb (hnew b hb).2
        · exact (hnamed a (h.formed.isFile_of_mem hd ha)).mpr (hfull a ha)
      · have hdv : v.IsDir e d := by
          have hfile := hpatch.isFile.mp hdd.1
          exact ⟨hfile, (hvw.named d hfile).mp hdd.2.1, (hvw.ftype d hfile).symm.trans hdd.2.2⟩
        refine hv.packed_of hdv (hvext.slots hdv.1 hdp) fun q hq => ?_
        exact hvw.named q (hv.formed.isFile_of_mem hdv hq)
  · refine (hgrown.trans hkept.ext (fun _ _ h => h.elim) fun _ _ _ h => h).trans hvext (fun _ _ h => h)
      fun _ _ _ h => h
  · intro i hi
    rw [hpatch.mem _ _ (.inr (.inl (show p.off + i < p.off + sizeField from Nat.add_lt_add_left hi _))),
      hkept.head i (by omega), hgrown.bytes p hp (fun h => h) i (by omega)]
  · refine ⟨s.nextbno, 0, rfl, ?_, by decide, (hnew _ (mem_slotsIn.mpr ⟨0, by decide, rfl⟩)).2,
      fun i hi => absurd hi (Nat.not_lt_zero i)⟩
    rw [hall.type _ (by rw [htype]; decide), htype]
  · rw [hslots, hys, hentries]
    rfl
  · intro q hq hqs
    rw [hslots] at hq
    refine (List.mem_append.mp hq).resolve_right fun hq => ?_
    obtain ⟨i, -, rfl⟩ := mem_slotsIn.mp hq
    rcases hqs with hroot | ⟨c, j, hc, -, hslot⟩
    · cases hroot
    · rw [← (slot_inj hslot).1, h.formed.laid.free _ (Nat.le_refl _)] at hc
      cases hc

/-- **`create_file` gives a place behind the names of the directory.** -/
theorem createFile_opened (h : s.Treed e) (hd : s.IsDir e p) :
    (createFile e p s).Sat (fun f t => Opened e p f s t) (fun _ _ => True) (fun _ => True) := by
  have hsize : field e p sizeField s = .ret (s.fieldOf e p sizeField) s := rfl
  rw [createFile, bind_ret hsize]
  refine sat_call ((findUnused_sat h.formed hd _ 0 (Nat.zero_add _)).and
    (findUnused_split s p ((s.fieldOf e p sizeField).toNat / by2blk) 0)) ?_ (fun _ _ h => h.1) (fun _ h => h.1)
  rintro o t ⟨⟨ht, hvacant⟩, -, hsplit⟩
  rw [ht]
  rw [← nblocksOf, ← slots_eq_slotsFrom] at hsplit
  cases o with
  | some f =>
    obtain ⟨hf, xs, ys, hslots, hxs⟩ := hsplit
    refine ⟨h, hd, .refl e _ s, fun _ _ => rfl, hvacant f rfl, ⟨ys, ?_⟩, fun q hq _ => hq⟩
    rw [(h.entries_of_split hd hslots hf hxs).1, hslots]
  | none => exact sat_call (makeLinkBlock_opened h hd hsplit) (fun _ _ h => h) (fun _ _ h => h) (fun _ h => h)

end Builder

end Mos
