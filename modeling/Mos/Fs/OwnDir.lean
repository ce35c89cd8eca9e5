import Mos.Fs.OwnRun

/-!
# Block ownership: directories

`dir_lookup` and `dir_alloc_file` go through all the blocks that the size of a directory says it has, and
take a new block for each one that is missing; its page is then read as part of the directory. The
functions on paths keep what is owned if no block is missing, or no free block has an old page.
-/

namespace Mos

open Lib Prog Function

variable {s t u v : Fs} {a b c d f f' i j n p x : Nat} {w : Word} {D X D' X' W W' : Set Nat}

namespace Fs

/-! ## What a walk through directories changes -/

/-- The `f_dir` words of the files. -/
def ups (D : Set Nat) : Set Nat := {a | ∃ f ∈ files D, a = fDir f}

theorem Own.inert_ups (ho : s.Own D X) : s.Inert D X (ups D) := by
  refine ⟨?_, ?_, ?_⟩
  · rintro a ⟨f, hf, rfl⟩
    exact (ho.inert_file hf (i := 45) (by decide) (by decide)).1 _ rfl
  · rintro a ⟨f, hf, rfl⟩
    exact (ho.inert_file hf (i := 45) (by decide) (by decide)).2.1 _ rfl
  · rintro f hf ⟨g, hg, heq⟩
    exact (ho.inert_file hg (i := 45) (by decide) (by decide)).2.2 f hf heq

theorem Own.notMem_ups (ho : s.Own D X) (hf : f ∈ files D) (hi : i < 64) (hne : i ≠ 45) :
    f + i ∉ ups D := by
  rintro ⟨g, hg, heq⟩
  exact hne (ho.file_word_inj hf hg hi (by decide) heq).2

/-- The number of blocks that a directory has by its size. -/
def nblocksOf (s : Fs) (f : Nat) : Nat := (s.look (fSize f)).toNat / by2blk

/-- The blocks of a file are found in the same slots as before. -/
theorem Own.block_congr (ho : s.Own D X) (hslot : ∀ a ∈ slots D X, t.look a = s.look a)
    (hf : f ∈ files D) (n : Nat) : t.block f n = s.block f n := by
  have hnum : ∀ a ∈ slots D X, t.num a = s.num a := by
    intro a ha
    rw [num, hslot a ha]
    rfl
  unfold block
  split
  next hn => rw [hnum _ (direct_mem_slots hf hn)]
  next =>
    rw [hnum _ (indirect_mem_slots hf)]
    split
    next h => rw [hnum _ (entry_mem_slots (ho.index f hf h.2) h.1)]
    next => rfl

/-- Every directory has all the blocks that its size says. -/
def Gapless (s : Fs) (D : Set Nat) : Prop :=
  ∀ f ∈ files D, s.IsDir f → ∀ n < s.nblocksOf f, n < nindirect → s.block f n ≠ 0

/-- Every directory has an unused entry. -/
def Roomy (s : Fs) (D : Set Nat) : Prop :=
  ∀ f ∈ files D, s.IsDir f → ∃ n < s.nblocksOf f, n < nindirect ∧ ∃ j < file2blk,
    (s.look (fileIn (s.block f n) j)).extractLsb' 0 8 = 0

/-- No block is taken for a directory while free blocks have old pages. -/
def Fit (s : Fs) (D : Set Nat) : Prop := s.Clean ∨ s.Gapless D

theorem Own.nblocksOf_alters (ho : s.Own D X) (h : s.Alters (ups D) t) (hf : f ∈ files D) :
    t.nblocksOf f = s.nblocksOf f := by
  unfold nblocksOf
  rw [h.look (fSize f) (ho.notMem_ups hf (i := 32) (by decide) (by decide))]

/-- The number of a block is in a slot. -/
theorem exists_pointer_of_block (h : s.block f n ≠ 0) : ∃ p ∈ s.pointers f, s.num p = s.block f n := by
  unfold block at h ⊢
  by_cases h10 : n < ndirect
  · rw [if_pos h10]
    exact ⟨_, .inl ⟨n, h10, rfl⟩, rfl⟩
  · rw [if_neg h10] at h ⊢
    split at h
    next hx =>
      rw [if_pos hx]
      exact ⟨_, .inr ⟨hx.2, n, hx.1, rfl⟩, rfl⟩
    next => exact absurd rfl h

theorem Own.block_mem_dirs (ho : s.Own D X) (hf : f ∈ files D) (hdir : s.IsDir f)
    (h : s.block f n ≠ 0) : s.block f n ∈ D := by
  obtain ⟨p, hp, heq⟩ := exists_pointer_of_block h
  rw [← heq] at h ⊢
  exact ho.dirBlock f hf hdir p hp h

theorem Gapless.alters (ho : s.Own D X) (h : s.Alters (ups D) t) (hg : s.Gapless D) :
    t.Gapless D := by
  intro f hf hdir n hn hlt
  have hsize := ho.nblocksOf_alters h hf
  rw [ho.block_congr (fun a ha => h.look a fun hA => ho.inert_ups.2.1 a hA ha) hf]
  exact hg f hf ((IsDir.congr (h.look _ (ho.inert_ups.2.2 f hf))).mp hdir) n (hsize ▸ hn) hlt

theorem Roomy.alters (ho : s.Own D X) (h : s.Alters (ups D) t) (hg : s.Gapless D) (hr : s.Roomy D) :
    t.Roomy D := by
  intro f hf hdir
  have hdir := (IsDir.congr (h.look _ (ho.inert_ups.2.2 f hf))).mp hdir
  have hsize := ho.nblocksOf_alters h hf
  obtain ⟨n, hn, hlt, j, hj, hname⟩ := hr f hf hdir
  refine ⟨n, hsize ▸ hn, hlt, j, hj, ?_⟩
  have hblk := ho.block_congr (fun a ha => h.look a fun hA => ho.inert_ups.2.1 a hA ha) hf n
  have hD := ho.block_mem_dirs hf hdir (hg f hf hdir n hn hlt)
  have hmem : fileIn (s.block f n) j ∈ files D := .inr ⟨_, hD, j, hj, rfl⟩
  rw [hblk, h.look (fileIn (s.block f n) j) (ho.notMem_ups hmem (i := 0) (by decide) (by decide))]
  exact hname

/-- The words that a walk through directories may change: `f_dir`, and empty slots of directories. -/
def loose (s : Fs) (D X : Set Nat) : Set Nat :=
  ups D ∪ {a | a ∈ slots D X ∧ s.num a = 0 ∧ ∀ f ∈ files D, ¬s.IsDir f → a ∉ s.slotsOf f}

/-- `f_dir` is as it was, or it has been set to a file in the cache. -/
def Reup (s : Fs) (t : Fs) (D' : Set Nat) (f : Nat) : Prop :=
  t.look (fDir f) = s.look (fDir f) ∨
    ∃ d ∈ files D', t.isMapped (d / 1024) = true ∧ t.look (fDir f) = filePtr d

theorem Reup.trans {D'' : Set Nat} (h : s.Reup t D' f) (h' : t.Reup u D'' f) (hD : D' ⊆ D'')
    (hm : ∀ b, t.isMapped b = true → u.isMapped b = true) : s.Reup u D'' f := by
  rcases h' with heq | h'
  · rcases h with heq' | ⟨d, hd, hmd, hptr⟩
    · exact .inl (heq.trans heq')
    · exact .inr ⟨d, files_mono hD hd, hm _ hmd, heq.trans hptr⟩
  · exact .inr h'

/-- A walk through directories. Only `f_dir` words change if no directory misses a block. -/
structure Strolled (s : Fs) (D X : Set Nat) (t : Fs) (D' X' : Set Nat) : Prop where
  dirs : s.Grown D D'
  indexes : s.Grown X X'
  own : t.Own D' X'
  onward : s.Onward D (s.loose D X) t
  blank : t.Blank D D'
  reup : ∀ f ∈ files D, s.Reup t D' f
  cases : s.Gapless D → D' = D ∧ X' = X ∧ s.Alters (ups D) t

theorem Alters.clean_of {A : Set Nat} (h : s.Alters A t) (hA : s.Plain A) (hc : t.Clean) :
    s.Clean := fun b hb => (h.idle b hb).symm.trans (hc b ((h.free hA b).mpr hb))

/-- A file in a directory block that is new is in a block that was free. -/
theorem Grown.file (h : s.Grown D D') (hf : f ∈ files D') : f ∈ files D ∨ s.Free (f / 1024) := by
  rcases hf with rfl | ⟨b, hb, j, hj, rfl⟩
  · exact .inl (.inl rfl)
  · rcases h.fresh b hb with hD | hfree
    · exact .inl (.inr ⟨b, hD, j, hj, rfl⟩)
    · refine .inr ?_
      rwa [show fileIn b j / 1024 = b from fileIn_block (i := 0) hj (by decide)]

/-- A slot that is new is in a block that was free. -/
theorem Grown.slot (hD : s.Grown D D') (hX : s.Grown X X') (ha : a ∈ slots D' X') :
    a ∈ slots D X ∨ s.Free (a / 1024) := by
  rcases ha with ⟨f, hf, i, hi, rfl⟩ | ⟨x, hx, i, hi, rfl⟩
  · rcases hD.file hf with hfD | hfree
    · exact .inl (.inl ⟨f, hfD, i, hi, rfl⟩)
    · rw [Nat.add_assoc, file_words hf (by omega)]
      exact .inr hfree
  · rcases hX.fresh x hx with hxX | hfree
    · exact .inl (entry_mem_slots hxX hi)
    · rw [show (1024 * x + i) / 1024 = x by omega]
      exact .inr hfree

/-- A slot that holds a block is not one of the words that a walk may change. -/
theorem Own.notMem_loose (ho : s.Own D X) (ha : a ∈ slots D X) (h0 : s.num a ≠ 0) :
    a ∉ s.loose D X := by
  rintro (h | ⟨-, h, -⟩)
  · exact ho.inert_ups.2.1 a h ha
  · exact h0 h

/-- Nor is a slot of a file that is not a directory. -/
theorem Own.slotsOf_notMem_loose (ho : s.Own D X) (hf : f ∈ files D) (hdir : ¬s.IsDir f)
    (ha : a ∈ s.slotsOf f) : a ∉ s.loose D X := by
  rintro (h | ⟨-, -, h⟩)
  · exact ho.inert_ups.2.1 a h (ho.slotsOf_subset hf ha)
  · exact h f hf hdir ha

/-- A slot that is not changed. -/
theorem Own.num_kept (ho : s.Own D X) (h : s.Frames W t) (ha : a ∈ slots D X) (hW : a ∉ W) :
    t.num a = s.num a := by
  unfold num
  rw [h.look a hW (ho.slot_inData ha) (ho.slot_not_free ha)]

/-- The slots of a file that is not a directory stay. -/
theorem Own.slotsOf_kept (ho : s.Own D X) (h : s.Frames (s.loose D X) t) (hf : f ∈ files D)
    (hdir : ¬s.IsDir f) : t.slotsOf f = s.slotsOf f := by
  have hmem : fIndirect f ∈ s.slotsOf f := .inl ⟨10, le_refl _, rfl⟩
  have := ho.num_kept h (indirect_mem_slots hf) (ho.slotsOf_notMem_loose hf hdir hmem)
  unfold slotsOf
  rw [this]

/-- What a later walk may change, an earlier one may change as well. -/
theorem Own.loose_trans (ho : s.Own D X) (hD : s.Grown D D') (hX : s.Grown X X')
    (h : s.Onward D (s.loose D X) t) (ha : a ∈ t.loose D' X') :
    a ∈ s.loose D X ∨ s.Free (a / 1024) := by
  rcases ha with ⟨f, hf, rfl⟩ | ⟨ha, h0, hreg⟩
  · rcases hD.file hf with hfD | hfree
    · exact .inl (.inl ⟨f, hfD, rfl⟩)
    · rw [fDir, file_words hf (by decide)]
      exact .inr hfree
  · rcases hD.slot hX ha with haS | hfree
    · refine .inl (.inr ⟨haS, ?_, fun f hf hdir haf => ?_⟩)
      · by_contra hne
        rw [← ho.num_kept h.frame haS (ho.notMem_loose haS hne)] at hne
        exact hne h0
      · refine hreg f (files_mono hD.sub hf) (fun h' => hdir ((h.isDir hf).mp h')) ?_
        rwa [ho.slotsOf_kept h.frame hf hdir]
    · exact .inr hfree

/-- A file without blocks that is not a directory has none after a walk. -/
theorem Own.held_zero (ho : s.Own D X) (h : s.Onward D (s.loose D X) t) (hf : f ∈ files D)
    (hdir : ¬s.IsDir f) (hk : ∀ k, s.held f k = 0) : ¬t.IsDir f ∧ ∀ k, t.held f k = 0 := by
  have hzero : ∀ i ≤ 10, s.num (f + 34 + i) = 0 → t.num (f + 34 + i) = 0 := by
    intro i hi h0
    have hmem : f + 34 + i ∈ s.slotsOf f := .inl ⟨i, hi, rfl⟩
    rwa [ho.num_kept h.frame (ho.slotsOf_subset hf hmem) (ho.slotsOf_notMem_loose hf hdir hmem)]
  have hind : t.num (fIndirect f) = 0 := hzero 10 (le_refl _) (hk .indirect)
  refine ⟨fun h' => hdir ((h.isDir hf).mp h'), fun k => ?_⟩
  cases k with
  | direct i => exact hzero i (by omega) (hk (.direct i))
  | indirect => exact hind
  | entry i => simp [held, hind]

namespace Strolled

theorem of_sees (ho : s.Own D X) (h : s.Sees t) : s.Strolled D X t D X :=
  ⟨.refl s D, .refl s X, ho.sees h, h.onward D _, .refl t D, fun _ _ => .inl (h.look _),
    fun _ => ⟨rfl, rfl, h.alters _⟩⟩

theorem of_gap (ho : s.Own D X) (hd : d ∈ files D) (hdir : s.IsDir d)
    (h : s.Advance D X (s.emptySlots d) t D' X') (hg : ¬s.Gapless D) : s.Strolled D X t D' X' := by
  have hsub : s.emptySlots d ⊆ s.loose D X := by
    rintro a ⟨h0, ha⟩
    refine .inr ⟨ho.slotsOf_subset hd ha, h0, fun f hf hreg haf => hreg ?_⟩
    rwa [← ho.slotsOf_file hd hf ha haf]
  refine ⟨h.dirs, h.indexes, h.own, h.onward.mono hsub, h.blank, ?_, fun h => absurd h hg⟩
  intro f hf
  refine .inl (h.onward.frame.look _
    (fun ha => ho.slot_ne_dir (ho.slotsOf_subset hd ha.2) hf rfl) (ho.dir_inData hf) ?_)
  rw [fDir, file_words hf (by decide)]
  exact ho.file_not_free hf

theorem trans {D'' X'' : Set Nat} (ho : s.Own D X) (h : s.Strolled D X t D' X')
    (h' : t.Strolled D' X' u D'' X'') : s.Strolled D X u D'' X'' := by
  refine ⟨h.dirs.trans h'.dirs h.onward.free, h.indexes.trans h'.indexes h.onward.free, h'.own,
    h.onward.trans h'.onward h.dirs.sub fun a => ho.loose_trans h.dirs h.indexes h.onward, ?_,
    fun f hf => (h.reup f hf).trans (h'.reup f (files_mono h.dirs.sub hf)) h'.dirs.sub
      h'.onward.mapped, ?_⟩
  · intro f hf
    rcases h'.blank f hf with hf' | hzero
    · refine (h.blank f hf').imp_right fun ⟨hdir, hk⟩ => ?_
      exact h.own.held_zero h'.onward hf' hdir hk
    · exact .inr hzero
  · intro hg
    obtain ⟨rfl, rfl, halt⟩ := h.cases hg
    obtain ⟨rfl, rfl, halt'⟩ := h'.cases (hg.alters ho halt)
    exact ⟨rfl, rfl, halt.trans halt' ho.inert_ups.1⟩

theorem fit (ho : s.Own D X) (h : s.Strolled D X t D' X') (hfit : s.Fit D) : t.Fit D' := by
  rcases hfit with hc | hg
  · exact .inl (h.onward.clean hc)
  · obtain ⟨rfl, rfl, halt⟩ := h.cases hg
    exact .inr (hg.alters ho halt)

end Strolled

end Fs

/-! ## `dir_lookup` -/

/-- A block of a directory. -/
theorem getDirBlock_sat (ho : s.Own D X) (hd : d ∈ Fs.files D) (hdir : s.IsDir d)
    (hm : s.isMapped (d / 1024) = true) (n : Nat) (hn : n < nindirect → n < s.nblocksOf d)
    (hfit : s.Clean ∨ (n < nindirect → s.block d n ≠ 0)) :
    (fileGetBlock d n s).Sat
      (fun b t => ∃ D' X', s.Strolled D X t D' X' ∧ b ∈ D' ∧ t.isMapped b = true ∧
        (s.block d n ≠ 0 → s.Sees t ∧ b = s.block d n) ∧
          (s.block d n = 0 → s.Clean ∧ s.Free b ∧ t.Zero b))
      (fun _ t => ∃ D' X', s.Strolled D X t D' X') (fun q => q = .noMemory) := by
  have hclean : n < nindirect → s.block d n = 0 → (s.IsDir d → s.Clean) ∧
      (ndirect ≤ n → s.num (fIndirect d) = 0 → s.NextClean) := by
    intro hn h0
    rcases hfit with hc | hne
    · exact ⟨fun _ => hc, fun _ _ => hc.next⟩
    · exact absurd h0 (hne hn)
  have hgap : n < nindirect → s.block d n = 0 → ¬s.Gapless D := fun hlt h0 hg =>
    hg d hd hdir n (hn hlt) hlt h0
  refine (fileGetBlock_sat ho hd hm n hclean).mono ?_ ?_ (fun _ h => h)
  · rintro b t ⟨⟨u, hreach, hsees⟩, hne, hmb, D', X', hadv, p, hp, rfl⟩
    by_cases h0 : s.block d n = 0
    · have hlt : n < nindirect := by
        obtain ⟨_, _, hwalk, -⟩ := hreach
        exact hwalk.lt
      have hc : s.Clean := (hclean hlt h0).1 hdir
      obtain ⟨hfree, hz⟩ := hreach.fresh ho hd hm h0 hc
      refine ⟨D', X', .of_gap ho hd hdir hadv (hgap hlt h0), ?_, hmb, fun h => absurd h0 h,
        fun _ => ⟨hc, hfree, fun a ha => (hsees.look a).trans (hz a ha)⟩⟩
      exact hadv.own.dirBlock d (Fs.files_mono hadv.dirs.sub hd)
        ((hadv.onward.isDir hd).mpr hdir) p hp hne
    · obtain ⟨hsu, heq⟩ := hreach.of_block h0
      have hst := hsu.trans hsees
      refine ⟨D, X, .of_sees ho hst, ?_, hmb, fun _ => ⟨hst, heq⟩, fun h => absurd h h0⟩
      rw [heq]
      exact ho.block_mem_dirs hd hdir h0
  · rintro - t ⟨⟨D', X', hadv⟩, h0, hlarge⟩
    by_cases hlt : n < nindirect
    · exact ⟨D', X', .of_gap ho hd hdir hadv (hgap hlt h0)⟩
    · exact ⟨D, X, .of_sees ho (hlarge (by omega))⟩

theorem findFile_mapped (h : s.isMapped b = true) (test : Fs → Nat → Bool) :
    findFile b test s = .ret (((List.range file2blk).find? fun j => test s (fileIn b j)).map (fileIn b))
      s := by
  rw [findFile, bind_ret (touch_mapped h)]
  rfl

theorem Fs.Own.file_lt (ho : s.Own D X) (hf : f ∈ Fs.files D) : f < 2 ^ 28 := by
  have hn := ho.mounted.nblocks
  rcases ho.file_block hf with rfl | ⟨hD, -, -⟩
  · decide
  · have := (ho.dirs hD).2.1
    omega

theorem ptrFile_filePtr (h : f < 2 ^ 28) : ptrFile (filePtr f) = f := by
  unfold ptrFile filePtr diskmap
  rw [BitVec.toNat_ofNat]
  omega

/-- `dir_lookup` has found the file `f` in block `b` of the directory. -/
theorem foundFile_sat (ho : s.Own D X) (hb : b ∈ D) (hj : j < file2blk) (hmb : s.isMapped b = true)
    (hd : d ∈ Fs.files D) (hmd : s.isMapped (d / 1024) = true) :
    ((do
      store (fDir (fileIn b j)) (filePtr d)
      let _ ← Prog.attempt (dirtyBlock b)
      return fileIn b j : FsM Nat) s).Sat
      (fun f t => f = fileIn b j ∧ s.Strolled D X t D X ∧ s.Alters {fDir f} t ∧ t.look (fDir f) = filePtr d)
      (fun _ _ => False) (fun q => q = .noMemory) := by
  have hf : fileIn b j ∈ Fs.files D := .inr ⟨b, hb, j, hj, rfl⟩
  have hblk : fDir (fileIn b j) / 1024 = b := Fs.fileIn_block hj (by decide)
  have hm : s.isMapped (fDir (fileIn b j) / 1024) = true := by rw [hblk]; exact hmb
  have halt := Fs.alters_setWord (w := filePtr d) hm (by rw [hblk]; exact (ho.dirs hb).2.2)
  have hups : ({fDir (fileIn b j)} : Set Nat) ⊆ Fs.ups D := by
    rintro _ rfl
    exact ⟨_, hf, rfl⟩
  have hlt : b < 2 ^ 18 := by
    have := (ho.dirs hb).2.1
    have := ho.mounted.nblocks
    omega
  rw [bind_ret (store_mapped hm _), sat_bind, sat_attempt]
  have hst : s.Strolled D X (s.setWord (fDir (fileIn b j)) (filePtr d)) D X := by
    have halt := halt.mono hups
    refine ⟨.refl s D, .refl s X, ho.alters ho.inert_ups halt,
      (halt.onward ho.inert_ups).mono Set.subset_union_left, .refl _ D, ?_,
      fun _ => ⟨rfl, rfl, halt⟩⟩
    intro f hf
    unfold Fs.Reup
    rw [Fs.look_setWord hm]
    by_cases heq : fDir f = fDir (fileIn b j)
    · rw [if_pos heq]
      exact .inr ⟨d, hd, halt.mapped _ hmd, rfl⟩
    · rw [if_neg heq]
      exact .inl rfl
  have hend : ∀ t, (s.setWord (fDir (fileIn b j)) (filePtr d)).Sees t →
      s.Strolled D X t D X ∧ s.Alters {fDir (fileIn b j)} t ∧ t.look (fDir (fileIn b j)) = filePtr d := by
    intro t ht
    refine ⟨hst.trans ho (.of_sees hst.own ht), halt.trans (ht.alters _) ?_, ?_⟩
    · exact (ho.inert_file hf (i := 45) (by decide) (by decide)).1
    rw [ht.look, Fs.look_setWord hm, if_pos rfl]
  exact (dirtyBlock_sat hlt).mono (fun _ t h => ⟨rfl, hend t h⟩) (fun _ t h => ⟨rfl, hend t h⟩)
    (fun _ h => h.elim)

/-- The size of a directory stays during a walk. -/
theorem Fs.Strolled.nblocksOf (ho : s.Own D X) (h : s.Strolled D X t D' X') (hf : f ∈ Fs.files D) :
    t.nblocksOf f = s.nblocksOf f := by
  unfold Fs.nblocksOf
  rw [h.onward.frame.look (fSize f)]
  · rintro (ha | ⟨ha, -⟩)
    · exact ho.notMem_ups hf (i := 32) (by decide) (by decide) ha
    · exact (ho.inert_file hf (i := 32) (by decide) (by decide)).2.1 _ rfl ha
  · exact (ho.inert_file hf (i := 32) (by decide) (by decide)).1 _ rfl |>.1
  · rw [fSize, Fs.file_words hf (by decide)]
    exact ho.file_not_free hf

theorem lookupFrom_sat (d : Nat) (name : List Byte) :
    ∀ n i (s : Fs) (D X : Set Nat), s.Own D X → d ∈ Fs.files D → s.IsDir d →
      s.isMapped (d / 1024) = true → i + n ≤ s.nblocksOf d →
      (s.Clean ∨ ∀ k, i ≤ k → k < i + n → k < nindirect → s.block d k ≠ 0) →
      (lookupFrom d name i n s).Sat
        (fun f t => ∃ D' X', s.Strolled D X t D' X' ∧ f ∈ Fs.files D' ∧
          t.isMapped (f / 1024) = true ∧ t.look (fDir f) = filePtr d)
        (fun _ t => ∃ D' X', s.Strolled D X t D' X') (fun q => q = .noMemory) := by
  intro n
  induction n with
  | zero =>
    intro i s D X ho _ _ _ _ _
    exact ⟨D, X, .of_sees ho (Fs.Sees.refl s)⟩
  | succ n ih =>
    intro i s D X ho hd hdir hm hsize hfit
    rw [lookupFrom]
    have hfit' : s.Clean ∨ (i < nindirect → s.block d i ≠ 0) :=
      hfit.imp_right fun h => h i (le_refl i) (by omega)
    refine sat_call (getDirBlock_sat ho hd hdir hm i (fun _ => by omega) hfit') ?_ (fun _ _ h => h)
      (fun _ h => h)
    rintro b t ⟨D₁, X₁, hst, hb, hmb, hold, hnew⟩
    rw [bind_ret (findFile_mapped hmb _)]
    have hd₁ := Fs.files_mono hst.dirs.sub hd
    have hsize₁ := hst.nblocksOf ho hd
    cases hfind : (List.range file2blk).find? fun j => t.strEq (fileIn b j) 0 name with
    | some j =>
      have hj : j < file2blk := by simpa using List.mem_of_find?_eq_some hfind
      refine (foundFile_sat hst.own hb hj hmb hd₁ (hst.onward.mapped _ hm)).mono ?_ (fun _ _ h => h.elim) (fun _ h => h)
      rintro f u ⟨rfl, hu, -, hup⟩
      refine ⟨D₁, X₁, hst.trans ho hu, .inr ⟨b, hb, j, hj, rfl⟩, ?_, hup⟩
      rw [show fileIn b j / 1024 = b from Fs.fileIn_block (i := 0) hj (by decide)]
      exact hu.onward.mapped b hmb
    | none =>
      have hfit₁ : t.Clean ∨ ∀ k, i + 1 ≤ k → k < i + 1 + n → k < nindirect → t.block d k ≠ 0 := by
        rcases hfit with hc | hb
        · exact .inl (hst.onward.clean hc)
        · by_cases h0 : s.block d i = 0
          · exact .inl (hst.onward.clean (hnew h0).1)
          · refine .inr fun k h₁ h₂ h₃ => ?_
            rw [ho.block_congr (fun a _ => (hold h0).1.look a) hd]
            exact hb k (by omega) (by omega) h₃
      refine (ih (i + 1) t D₁ X₁ hst.own hd₁ ((hst.onward.isDir hd).mpr hdir)
        (hst.onward.mapped _ hm) (by omega) hfit₁).mono ?_ ?_ (fun _ h => h)
      · rintro f u ⟨D', X', hu, hrest⟩
        exact ⟨D', X', hst.trans ho hu, hrest⟩
      · rintro e u ⟨D', X', hu⟩
        exact ⟨D', X', hst.trans ho hu⟩

theorem dirLookup_sat (ho : s.Own D X) (hd : d ∈ Fs.files D) (hdir : s.IsDir d)
    (hm : s.isMapped (d / 1024) = true) (hfit : s.Fit D) (name : List Byte) :
    (dirLookup d name s).Sat
      (fun f t => ∃ D' X', s.Strolled D X t D' X' ∧ f ∈ Fs.files D' ∧
        t.isMapped (f / 1024) = true ∧ t.look (fDir f) = filePtr d)
      (fun _ t => ∃ D' X', s.Strolled D X t D' X') (fun q => q = .noMemory) := by
  have hms : s.isMapped (fSize d / 1024) = true := by
    rw [fSize, Fs.file_words hd (by decide)]
    exact hm
  rw [dirLookup, bind_ret (load_look hms)]
  refine lookupFrom_sat d name _ 0 s D X ho hd hdir hm ?_ ?_
  · unfold Fs.nblocksOf
    omega
  · refine hfit.imp_right fun hg k _ hk hlt => hg d hd hdir k ?_ hlt
    unfold Fs.nblocksOf
    omega

/-! ## `walk_path` -/

/-- `f` is the root directory, or `f_dir` points at its directory, which is in the cache. -/
def Fs.Linked (s : Fs) (D : Set Nat) (f : Nat) : Option Nat → Prop
  | none => f = sRoot
  | some d => s.look (fDir f) = filePtr d ∧ d ∈ Fs.files D ∧ s.isMapped (d / 1024) = true

/-- What is known about the end of a walk. -/
def Fs.Ended (s : Fs) (D : Set Nat) : Walk → Prop
  | .found dir f => f ∈ Fs.files D ∧ s.isMapped (f / 1024) = true ∧ s.Linked D f dir
  | .missing dir name => dir ∈ Fs.files D ∧ s.IsDir dir ∧ s.isMapped (dir / 1024) = true ∧
      name.length < maxnamelen

theorem length_dropWhile_le (q : Byte → Bool) (path : List Byte) :
    (path.dropWhile q).length ≤ path.length :=
  (List.dropWhile_sublist q).length_le

/-- Every round of `walk_path` takes at least one byte off the path. -/
theorem rest_lt (c : Byte) (cs : List Byte) :
    (skipSlash ((c :: cs).dropWhile (· ≠ slash))).length < (c :: cs).length := by
  unfold skipSlash
  by_cases hc : c = slash
  · rw [List.dropWhile_cons_of_neg (by simp [hc]), List.dropWhile_cons_of_pos (by simp [hc])]
    have := length_dropWhile_le (· = slash) cs
    simp only [List.length_cons]
    omega
  · rw [List.dropWhile_cons_of_pos (by simp [hc])]
    have h₁ := length_dropWhile_le (fun x => decide (x = slash)) (cs.dropWhile (· ≠ slash))
    have h₂ := length_dropWhile_le (fun x => decide (x ≠ slash)) cs
    simp only [List.length_cons]
    omega

theorem walkFrom_sat : ∀ n path dir f (s : Fs) (D X : Set Nat), s.Own D X → f ∈ Fs.files D →
    s.isMapped (f / 1024) = true → s.Linked D f dir → s.Fit D → path.length ≤ n →
    (walkFrom n dir f path s).Sat
      (fun w t => ∃ D' X', s.Strolled D X t D' X' ∧ t.Ended D' w)
      (fun _ t => ∃ D' X', s.Strolled D X t D' X') (fun q => q = .noMemory) := by
  intro n
  induction n with
  | zero =>
    intro path dir f s D X ho hf hm hlink _ hlen
    rw [List.length_eq_zero_iff.mp (Nat.le_zero.mp hlen), walkFrom]
    exact ⟨D, X, .of_sees ho (Fs.Sees.refl s), hf, hm, hlink⟩
  | succ n ih =>
    intro path dir f s D X ho hf hm hlink hfit hlen
    have hself : s.Strolled D X s D X := .of_sees ho (Fs.Sees.refl s)
    cases path with
    | nil => exact ⟨D, X, hself, hf, hm, hlink⟩
    | cons c cs =>
      have hmt : s.isMapped (fType f / 1024) = true := by
        rw [fType, Fs.file_words hf (by decide)]
        exact hm
      rw [walkFrom]
      split
      next => exact ⟨D, X, hself⟩
      next hname =>
        rw [bind_ret (load_look hmt)]
        split
        next => exact ⟨D, X, hself⟩
        next hdir =>
          have hdir : s.IsDir f := not_not.mp hdir
          rw [sat_bind, sat_attempt]
          refine (dirLookup_sat ho hf hdir hm hfit _).mono ?_ ?_ (fun _ h => h)
          · rintro g t ⟨D₁, X₁, hst, hg, hmg, hup⟩
            have hrest := rest_lt c cs
            refine (ih _ (some f) g t D₁ X₁ hst.own hg hmg
              ⟨hup, Fs.files_mono hst.dirs.sub hf, hst.onward.mapped _ hm⟩ (hst.fit ho hfit)
              (by omega)).mono ?_ ?_ (fun _ h => h)
            · rintro w u ⟨D', X', hu, hend⟩
              exact ⟨D', X', hst.trans ho hu, hend⟩
            · rintro e u ⟨D', X', hu⟩
              exact ⟨D', X', hst.trans ho hu⟩
          · rintro e t ⟨D₁, X₁, hst⟩
            dsimp only
            split
            next =>
              exact ⟨D₁, X₁, hst, Fs.files_mono hst.dirs.sub hf, (hst.onward.isDir hf).mpr hdir,
                hst.onward.mapped _ hm, by omega⟩
            next => exact ⟨D₁, X₁, hst⟩

theorem walkPath_sat (ho : s.Own D X) (hfit : s.Fit D) (path : List Byte) :
    (walkPath path s).Sat (fun w t => ∃ D' X', s.Strolled D X t D' X' ∧ t.Ended D' w)
      (fun _ t => ∃ D' X', s.Strolled D X t D' X') (fun q => q = .noMemory) :=
  walkFrom_sat _ _ none sRoot s D X ho (.inl rfl) ho.mounted.hasBitmap.mapped_super rfl hfit (le_refl _)

theorem fileOpen_sat (ho : s.Own D X) (hfit : s.Fit D) (path : List Byte) :
    (fileOpen path s).Sat
      (fun f t => ∃ D' X' dir, s.Strolled D X t D' X' ∧ f ∈ Fs.files D' ∧
        t.isMapped (f / 1024) = true ∧ t.Linked D' f dir)
      (fun _ t => ∃ D' X', s.Strolled D X t D' X') (fun q => q = .noMemory) := by
  rw [fileOpen]
  refine sat_call (walkPath_sat ho hfit path) ?_ (fun _ _ h => h) (fun _ h => h)
  rintro w t ⟨D', X', hst, hend⟩
  cases w with
  | found dir f => exact ⟨D', X', dir, hst, hend⟩
  | missing dir name => exact ⟨D', X', hst⟩

theorem Fs.Linked.upOk (ho : s.Own D X) (h : s.Linked D f (some d)) : s.UpOk D f := by
  obtain ⟨heq, hd, hm⟩ := h
  refine .inr ?_
  rw [heq, ptrFile_filePtr (ho.file_lt hd)]
  exact ⟨hd, hm⟩

/-! ## `file_remove` -/

namespace Fs

/-- The words of the name of a file. -/
def nameWords (f : Nat) : Set Nat := {a | ∃ i < 32, a = f + i}

theorem Own.inert_name (ho : s.Own D X) (hf : f ∈ files D) : s.Inert D X (nameWords f) := by
  refine ⟨?_, ?_, ?_⟩
  · rintro a ⟨i, hi, rfl⟩
    exact (ho.inert_file hf (i := i) (by omega) (by omega)).1 _ rfl
  · rintro a ⟨i, hi, rfl⟩
    exact (ho.inert_file hf (i := i) (by omega) (by omega)).2.1 _ rfl
  · rintro g hg ⟨i, hi, heq⟩
    exact (ho.inert_file hf (i := i) (by omega) (by omega)).2.2 g hg heq

theorem alters_setByte (hf : f ∈ files D) (hm : s.isMapped (f / 1024) = true)
    (hfree : ¬s.Free (f / 1024)) {k : Nat} (hk : k < 128) (c : Byte) :
    s.Alters (nameWords f) (s.setByte f k c) := by
  have hblk : (f + k / 4) / 1024 = f / 1024 := file_words hf (by omega)
  unfold setByte
  refine (alters_setWord (by rw [hblk]; exact hm) (by rw [hblk]; exact hfree)).mono ?_
  rintro _ rfl
  exact ⟨k / 4, by omega, rfl⟩

end Fs

/-- What is known after an operation: the words in `W` may have changed. -/
structure Fs.Evolved (s : Fs) (D W : Set Nat) (t : Fs) (D' X' : Set Nat) : Prop where
  dirs : s.Grown D D'
  own : t.Own D' X'
  types : ∀ f ∈ Fs.files D, t.look (fType f) = s.look (fType f)
  reup : ∀ f ∈ Fs.files D, s.Reup t D' f
  mapped : ∀ b, s.isMapped b = true → t.isMapped b = true
  frame : s.Frames W t

namespace Fs

theorem Strolled.evolved (h : s.Strolled D X t D' X') : s.Evolved D (s.loose D X) t D' X' :=
  ⟨h.dirs, h.own, h.onward.types, h.reup, h.onward.mapped, h.onward.frame⟩

theorem Trimmed.evolved (h : s.Trimmed D f t) : ∃ X', s.Evolved D (s.wordsOf f) t D X' := by
  obtain ⟨X', ho⟩ := h.own
  exact ⟨X', .refl s D, ho, h.types, fun g hg => .inl (h.ups g hg), h.mapped, h.frame⟩

theorem Alters.evolved {A : Set Nat} (h : s.Alters A t) (ho : s.Own D X) (hA : s.Inert D X A)
    (hups : ∀ f ∈ files D, fDir f ∉ A) : s.Evolved D A t D X :=
  ⟨.refl s D, ho.alters hA h, fun f hf => h.look _ (hA.2.2 f hf),
    fun f hf => .inl (h.look _ (hups f hf)), h.mapped, h.frames hA.1⟩

theorem Sees.evolved (h : s.Sees t) (ho : s.Own D X) (W : Set Nat) : s.Evolved D W t D X :=
  ⟨.refl s D, ho.sees h, fun _ _ => h.look _, fun _ _ => .inl (h.look _), h.mapped, h.frames W⟩

namespace Evolved

theorem trans {D'' X'' : Set Nat} (h : s.Evolved D W t D' X') (h' : t.Evolved D' W' u D'' X'')
    (hdirs : s.Grown D D'') (hW : ∀ a ∈ W', a ∈ W ∨ s.Free (a / 1024)) :
    s.Evolved D W u D'' X'' :=
  ⟨hdirs, h'.own, fun f hf => (h'.types f (files_mono h.dirs.sub hf)).trans (h.types f hf),
    fun f hf => (h.reup f hf).trans (h'.reup f (files_mono h.dirs.sub hf)) h'.dirs.sub h'.mapped,
    fun b hb => h'.mapped b (h.mapped b hb), h.frame.trans h'.frame hW⟩

theorem trans_same {X'' : Set Nat} (h : s.Evolved D W t D' X') (h' : t.Evolved D' W' u D' X'')
    (hW : W' ⊆ W) : s.Evolved D W u D' X'' :=
  h.trans h' h.dirs fun _ ha => .inl (hW ha)

theorem mono (h : s.Evolved D W t D' X') (hW : W ⊆ W') : s.Evolved D W' t D' X' :=
  ⟨h.dirs, h.own, h.types, h.reup, h.mapped, h.frame.mono hW⟩

end Evolved

theorem UpOk.evolved (h : s.UpOk D f) (ho : s.Evolved D W t D' X') (hf : f ∈ files D) :
    t.UpOk D' f := by
  rcases ho.reup f hf with heq | ⟨d, hd, hmd, hptr⟩
  · unfold UpOk
    rw [heq]
    exact h.imp_right fun h => ⟨files_mono ho.dirs.sub h.1, ho.mapped _ h.2⟩
  · refine .inr ?_
    rw [hptr, ptrFile_filePtr (ho.own.file_lt hd)]
    exact ⟨hd, hmd⟩

/-- The name of a file does not overlap `f_dir` of any. -/
theorem Own.dir_notMem_name (ho : s.Own D X) (hf : f ∈ files D) (hd : d ∈ files D) :
    fDir d ∉ nameWords f := by
  rintro ⟨i, hi, heq⟩
  have := (ho.file_word_inj hd hf (i := 45) (by decide) (by omega) heq).2
  omega

end Fs

/-- `file_remove` of a file that is not a directory: after the walk, only words of the file and its name
change. -/
theorem fileRemove_sat (ho : s.Own D X) (hfit : s.Fit D) (path : List Byte)
    (hreg : ∀ f t, fileOpen path s = .ret f t → ¬t.IsDir f ∧ f ≠ sRoot) :
    (fileRemove path s).Sat
      (fun _ t => ∃ D' X' X'' u f, s.Strolled D X u D' X' ∧ fileOpen path s = .ret f u ∧
        f ∈ Fs.files D' ∧ ¬u.IsDir f ∧
          u.Evolved D' (u.wordsOf f ∪ Fs.nameWords f) t D' X'')
      (fun _ t => ∃ D' X', s.Strolled D X t D' X') (fun q => q = .noMemory) := by
  rw [fileRemove]
  have hopen := (fileOpen_sat ho hfit path).and (Outcome.sat_self (fileOpen path s))
  refine sat_call hopen ?_ (fun _ _ h => h.1) (fun _ h => h.1)
  rintro f t ⟨⟨D', X', dir, hst, hf, hm, hlink⟩, hret⟩
  obtain ⟨hdir, hroot⟩ := hreg f t hret
  have hup : t.UpOk D' f := by
    cases dir with
    | none => exact absurd hlink hroot
    | some d => exact hlink.upOk hst.own
  refine sat_call (fileTruncate_sat hst.own hf hdir hm 0) ?_ (fun _ _ h => h.elim) (fun _ h => h)
  intro _ u hu
  obtain ⟨X₁, hu⟩ := hu.evolved
  have hou := hu.own
  have hmu := hu.mapped _ hm
  have halt := Fs.alters_setByte hf hmu (hou.file_not_free hf) (k := 0) (by decide) 0
  have hname := halt.evolved hou (hou.inert_name hf) fun d hd => hou.dir_notMem_name hf hd
  have hv := (hu.mono (Set.subset_union_left (t := Fs.nameWords f))).trans_same hname
    Set.subset_union_right
  have hmv := hv.mapped _ hm
  rw [bind_ret (touch_mapped hmu), modify_bind]
  refine sat_call (fileFlush_sat hv.own hf hmv) ?_ (fun _ _ h => h.elim) (fun _ h => h)
  intro _ v hsees
  have hv' := hv.trans_same (hsees.evolved hv.own ∅) (Set.empty_subset _)
  refine (flushDir_sat hv'.own hf (hv'.mapped _ hm) (hup.evolved hv' hf)).mono ?_
    (fun _ _ h => h.elim) (fun _ h => h)
  intro _ w hw
  exact ⟨D', X', X₁, t, f, hst, hret, hf, hdir,
    hv'.trans_same (hw.evolved hv'.own ∅) (Set.empty_subset _)⟩

/-! ## `file_create` -/

/-- The name of `f` is empty. -/
def Fs.Unused (s : Fs) (f : Nat) : Prop := (s.look f).extractLsb' 0 8 = 0

theorem byte_zero (s : Fs) (h : s.isMapped (f / 1024) = true) :
    s.byte f 0 = (s.look f).extractLsb' 0 8 := by
  unfold Fs.byte
  rw [Fs.look_of_mapped h]
  rfl

/-- A file that `dir_alloc_file` may give out: an unused one in the directory `d`, or the first one of the
block after its end. -/
def Fs.Spot (s : Fs) (d f : Nat) : Prop :=
  (∃ n < s.nblocksOf d, s.block d n ≠ 0 ∧ (∃ j < file2blk, f = fileIn (s.block d n) j) ∧
    s.Unused f) ∨
  s.block d (s.nblocksOf d) ≠ 0 ∧ f = fileIn (s.block d (s.nblocksOf d)) 0

/-- The file `f` is in a block that was free and is full of zeros. -/
def Fs.Virgin (s : Fs) (f : Nat) (t : Fs) : Prop := s.Free (f / 1024) ∧ t.Zero (f / 1024)

theorem fileIn_div (hj : j < file2blk) : fileIn b j / 1024 = b :=
  Fs.fileIn_block (i := 0) hj (by decide)

theorem Fs.Sees.unused (h : s.Sees t) : t.Unused f ↔ s.Unused f := by
  unfold Fs.Unused
  rw [h.look]

theorem Fs.Sees.block (h : s.Sees t) (f n : Nat) : t.block f n = s.block f n := by
  unfold Fs.block
  simp only [h.num]

theorem Fs.Sees.nblocksOf (h : s.Sees t) (f : Nat) : t.nblocksOf f = s.nblocksOf f := by
  unfold Fs.nblocksOf
  rw [h.look]

theorem Fs.Sees.picked (h : s.Sees t) (hp : t.Spot d f ∨ t.Virgin f u) : s.Spot d f ∨ s.Virgin f u := by
  unfold Fs.Spot Fs.Virgin at hp ⊢
  simpa only [h.nblocksOf, h.block, h.unused, h.free] using hp

/-- The scan of `dir_alloc_file` finds an unused file, or one in a new block; if it finds none, it has
taken no block. -/
theorem allocFileFrom_sat (d : Nat) :
    ∀ n i (s : Fs) (D X : Set Nat), s.Own D X → d ∈ Fs.files D → s.IsDir d →
      s.isMapped (d / 1024) = true → i + n ≤ s.nblocksOf d →
      (s.Clean ∨ ∀ k, i ≤ k → k < i + n → k < nindirect → s.block d k ≠ 0) →
      (allocFileFrom d i n s).Sat
        (fun o t =>
          match o with
          | some f => (∃ D' X', s.Strolled D X t D' X' ∧ f ∈ Fs.files D') ∧
              t.isMapped (f / 1024) = true ∧ (s.Spot d f ∨ s.Virgin f t)
          | none => s.Sees t ∧ ∀ k, i ≤ k → k < i + n → k < nindirect → ∀ j < file2blk,
              ¬s.Unused (fileIn (s.block d k) j))
        (fun _ t => ∃ D' X', s.Strolled D X t D' X') (fun q => q = .noMemory) := by
  intro n
  induction n with
  | zero =>
    intro i s D X ho _ _ _ _ _
    exact ⟨Fs.Sees.refl s, fun k h₁ h₂ => by omega⟩
  | succ n ih =>
    intro i s D X ho hd hdir hm hsize hfit
    rw [allocFileFrom]
    have hfit' : s.Clean ∨ (i < nindirect → s.block d i ≠ 0) :=
      hfit.imp_right fun h => h i (le_refl i) (by omega)
    refine sat_call (getDirBlock_sat ho hd hdir hm i (fun _ => by omega) hfit') ?_ (fun _ _ h => h)
      (fun _ h => h)
    rintro b t ⟨D₁, X₁, hst, hb, hmb, hold, hnew⟩
    rw [bind_ret (findFile_mapped hmb _)]
    have hbyte : ∀ {j}, j < file2blk → (t.byte (fileIn b j) 0 = 0 ↔ t.Unused (fileIn b j)) :=
      fun {j} hj => by rw [byte_zero t (by rw [fileIn_div hj]; exact hmb), Fs.Unused]
    cases hfind : (List.range file2blk).find? fun j => decide (t.byte (fileIn b j) 0 = 0) with
    | some j =>
      have hj : j < file2blk := by simpa using List.mem_of_find?_eq_some hfind
      have hzero : t.Unused (fileIn b j) := (hbyte hj).mp (by simpa using List.find?_some hfind)
      refine ⟨⟨D₁, X₁, hst, .inr ⟨b, hb, j, hj, rfl⟩⟩, by rw [fileIn_div hj]; exact hmb, ?_⟩
      by_cases h0 : s.block d i = 0
      · right
        unfold Fs.Virgin
        rw [fileIn_div hj]
        exact (hnew h0).2
      · obtain ⟨hsees, rfl⟩ := hold h0
        exact .inl (.inl ⟨i, by omega, h0, ⟨j, hj, rfl⟩, hsees.unused.mp hzero⟩)
    | none =>
      rw [List.find?_eq_none] at hfind
      have hname : ∀ j < file2blk, ¬t.Unused (fileIn b j) := by
        intro j hj hu
        exact hfind j (by simpa using hj) (by simpa using (hbyte hj).mpr hu)
      -- all files of a new block are unused
      have h0 : s.block d i ≠ 0 := by
        intro h0
        refine hname 0 (by decide) ?_
        unfold Fs.Unused
        rw [(hnew h0).2.2 _ (fileIn_div (by decide))]
        rfl
      obtain ⟨hsees, rfl⟩ := hold h0
      have hot := ho.sees hsees
      refine (ih (i + 1) t D X hot hd ((Fs.IsDir.congr (hsees.look _)).mpr hdir)
        (hsees.mapped _ hm) ?_ ?_).mono ?_ ?_ (fun _ h => h)
      · rw [hsees.nblocksOf]
        omega
      · refine hfit.imp (hsees.onward D ∅).clean fun hb k h₁ h₂ h₃ => ?_
        rw [hsees.block]
        exact hb k (by omega) (by omega) h₃
      · rintro o u hrest
        cases o with
        | some f =>
          obtain ⟨⟨D', X', hu, hf⟩, hmf, hspot⟩ := hrest
          exact ⟨⟨D', X', (Fs.Strolled.of_sees ho hsees).trans ho hu, hf⟩, hmf, hsees.picked hspot⟩
        | none =>
          obtain ⟨hu, hrest⟩ := hrest
          refine ⟨hsees.trans hu, fun k h₁ h₂ h₃ j hj => ?_⟩
          by_cases hk : k = i
          · subst hk
            rw [← hsees.unused]
            exact hname j hj
          · rw [← hsees.block, ← hsees.unused]
            exact hrest k (by omega) (by omega) h₃ j hj
      · rintro e u ⟨D', X', hu⟩
        exact ⟨D', X', (Fs.Strolled.of_sees ho hsees).trans ho hu⟩

/-- Blocks have been taken for the file `d`. -/
theorem Fs.Advance.evolved (ho : s.Own D X) (hd : d ∈ Fs.files D)
    (h : s.Advance D X (s.emptySlots d) t D' X') : s.Evolved D (s.emptySlots d) t D' X' := by
  refine ⟨h.dirs, h.own, h.onward.types, fun f hf => .inl ?_, h.onward.mapped, h.onward.frame⟩
  refine h.onward.frame.look _ (fun ha => ho.slot_ne_dir (ho.slotsOf_subset hd ha.2) hf rfl)
    (ho.dir_inData hf) ?_
  rw [fDir, Fs.file_words hf (by decide)]
  exact ho.file_not_free hf

/-- `dir_alloc_file`, after the scan: the directory grows by one block. -/
theorem growDir_sat (ho : s.Own D X) (hd : d ∈ Fs.files D) (hdir : s.IsDir d)
    (hm : s.isMapped (d / 1024) = true) (hc : s.Clean) :
    ((do
      let size ← load (fSize d)
      store (fSize d) (size + BitVec.ofNat 32 by2blk)
      let blk ← fileGetBlock d (s.nblocksOf d)
      return fileIn blk 0 : FsM Nat) s).Sat
      (fun f t => (∃ D' X', s.Evolved D (s.loose D X ∪ {fSize d}) t D' X' ∧ f ∈ Fs.files D') ∧
        t.isMapped (f / 1024) = true ∧ (s.Spot d f ∨ s.Virgin f t))
      (fun _ t => ∃ D' X', s.Evolved D (s.loose D X ∪ {fSize d}) t D' X')
      (fun q => q = .noMemory) := by
  have hblk : fSize d / 1024 = d / 1024 := by rw [fSize, Fs.file_words hd (by decide)]
  have hms : s.isMapped (fSize d / 1024) = true := by rw [hblk]; exact hm
  have hinert := ho.inert_file hd (i := 32) (by decide) (by decide)
  have halt := Fs.alters_setWord (w := s.look (fSize d) + BitVec.ofNat 32 by2blk) hms
    (by rw [hblk]; exact ho.file_not_free hd)
  rw [bind_ret (load_look hms), bind_ret (store_mapped hms _)]
  set v := s.setWord (fSize d) (s.look (fSize d) + BitVec.ofNat 32 by2blk)
  have hov := ho.alters hinert halt
  have hon := halt.onward hinert
  have hev : s.Evolved D {fSize d} v D X := halt.evolved ho hinert fun f hf heq => by
    have := (ho.file_word_inj hf hd (i := 45) (j := 32) (by decide) (by decide) heq).2
    omega
  have hslot : ∀ a ∈ Fs.slots D X, v.look a = s.look a := fun a ha =>
    halt.look a fun heq => hinert.2.1 a heq ha
  have hempty : v.emptySlots d ⊆ s.loose D X := by
    rintro a ⟨h0, ha⟩
    have ha' := hov.slotsOf_subset hd ha
    refine .inr ⟨ha', ?_, fun f hf hreg haf => hreg ?_⟩
    · rw [Fs.num, ← hslot a ha']
      exact h0
    · have hnum : v.num (fIndirect f) = s.num (fIndirect f) := by
        rw [Fs.num, hslot _ (Fs.indirect_mem_slots hf)]
        rfl
      have haf' : a ∈ v.slotsOf f := by
        unfold Fs.slotsOf at haf ⊢
        rwa [hnum]
      rwa [← hov.slotsOf_file hd hf ha haf']
  have hjoin : ∀ {t D' X'}, v.Advance D X (v.emptySlots d) t D' X' →
      s.Evolved D (s.loose D X ∪ {fSize d}) t D' X' := fun hadv =>
    (hev.mono Set.subset_union_right).trans (hadv.evolved hov hd)
      (hadv.dirs.of_free hon.free) fun a ha => .inl (.inl (hempty ha))
  have hblock := ho.block_congr hslot hd (s.nblocksOf d)
  refine sat_call (fileGetBlock_sat hov hd (halt.mapped _ hm) _ fun _ _ =>
    ⟨fun _ => hon.clean hc, fun _ _ => (hon.clean hc).next⟩) ?_ ?_ (fun _ h => h)
  · rintro b t ⟨⟨u, hreach, hsees⟩, hne, hmb, D', X', hadv, p, hp, rfl⟩
    have hdiv : fileIn (t.num p) 0 / 1024 = t.num p := fileIn_div (by decide)
    have hmem : t.num p ∈ D' := hadv.own.dirBlock d (Fs.files_mono hadv.dirs.sub hd)
      ((hadv.onward.isDir hd).mpr ((hon.isDir hd).mpr hdir)) p hp hne
    refine ⟨⟨D', X', hjoin hadv, .inr ⟨_, hmem, 0, by decide, rfl⟩⟩, by rw [hdiv]; exact hmb, ?_⟩
    by_cases h0 : v.block d (s.nblocksOf d) = 0
    · obtain ⟨hfree, hz⟩ := hreach.fresh hov hd (halt.mapped _ hm) h0 (hon.clean hc)
      right
      unfold Fs.Virgin
      rw [hdiv]
      exact ⟨hon.free _ hfree, fun a ha => (hsees.look a).trans (hz a ha)⟩
    · obtain ⟨-, heq⟩ := hreach.of_block h0
      rw [heq, hblock]
      exact .inl (.inr ⟨by rwa [← hblock], rfl⟩)
  · rintro e t ⟨⟨D', X', hadv⟩, -⟩
    exact ⟨D', X', hjoin hadv⟩

theorem dirAllocFile_sat (ho : s.Own D X) (hd : d ∈ Fs.files D) (hdir : s.IsDir d)
    (hm : s.isMapped (d / 1024) = true) (hfit : s.Clean ∨ s.Gapless D ∧ s.Roomy D) :
    (dirAllocFile d s).Sat
      (fun f t => (∃ D' X', s.Evolved D (s.loose D X ∪ {fSize d}) t D' X' ∧ f ∈ Fs.files D') ∧
        t.isMapped (f / 1024) = true ∧ (s.Spot d f ∨ s.Virgin f t))
      (fun _ t => ∃ D' X', s.Evolved D (s.loose D X ∪ {fSize d}) t D' X')
      (fun q => q = .noMemory) := by
  have hms : s.isMapped (fSize d / 1024) = true := by
    rw [fSize, Fs.file_words hd (by decide)]
    exact hm
  rw [dirAllocFile, bind_ret (load_look hms)]
  have hscan : s.Clean ∨ ∀ k, 0 ≤ k → k < 0 + s.nblocksOf d → k < nindirect → s.block d k ≠ 0 :=
    hfit.imp_right fun h k _ hk hlt => h.1 d hd hdir k (by omega) hlt
  refine sat_call (allocFileFrom_sat d (s.nblocksOf d) 0 s D X ho hd hdir hm (by omega) hscan) ?_ ?_
    (fun _ h => h)
  · rintro o t hrest
    cases o with
    | some f =>
      obtain ⟨⟨D₁, X₁, hst, hf⟩, hrest⟩ := hrest
      exact ⟨⟨D₁, X₁, hst.evolved.mono Set.subset_union_left, hf⟩, hrest⟩
    | none =>
      obtain ⟨hsees, hfull⟩ := hrest
      have hc : s.Clean := by
        rcases hfit with hc | ⟨-, hroomy⟩
        · exact hc
        · obtain ⟨n, hn, hlt, j, hj, hname⟩ := hroomy d hd hdir
          exact absurd hname (hfull n (by omega) (by omega) hlt j hj)
      have hgrow := growDir_sat (ho.sees hsees) hd ((Fs.IsDir.congr (hsees.look _)).mpr hdir)
        (hsees.mapped _ hm) ((hsees.onward D ∅).clean hc)
      have hjoin : ∀ {u D' X'}, t.Evolved D (t.loose D X ∪ {fSize d}) u D' X' →
          s.Evolved D (s.loose D X ∪ {fSize d}) u D' X' := by
        intro u D' X' hu
        refine (hsees.evolved ho _).trans hu (hu.dirs.of_free fun b => (hsees.free b).mp) ?_
        rintro a (ha | ha)
        · exact (ho.loose_trans (.refl s D) (.refl s X) (hsees.onward D _) ha).imp_left .inl
        · exact .inl (.inr ha)
      rw [hsees.nblocksOf] at hgrow
      refine hgrow.mono ?_ ?_ (fun _ h => h)
      · rintro f u ⟨⟨D', X', hu, hf⟩, hmf, hspot⟩
        exact ⟨⟨D', X', hjoin hu, hf⟩, hmf, hsees.picked hspot⟩
      · rintro e u ⟨D', X', hu⟩
        exact ⟨D', X', hjoin hu⟩
  · rintro e t ⟨D', X', hst⟩
    exact ⟨D', X', hst.evolved.mono Set.subset_union_left⟩

theorem strcpy_alters (hf : f ∈ Fs.files D) : ∀ (cs : List Byte) k (s : Fs), s.Own D X →
    s.isMapped (f / 1024) = true → k + cs.length < 128 →
    s.Alters (Fs.nameWords f) (s.strcpy f k cs) := by
  intro cs
  induction cs with
  | nil =>
    intro k s ho hm hk
    exact Fs.alters_setByte hf hm (ho.file_not_free hf) (by simpa using hk) 0
  | cons c cs ih =>
    intro k s ho hm hk
    simp only [List.length_cons] at hk
    have halt := Fs.alters_setByte hf hm (ho.file_not_free hf) (k := k) (by omega) c
    have hinert := ho.inert_name hf
    exact halt.trans (ih (k + 1) _ (ho.alters hinert halt) (halt.mapped _ hm) (by omega)) hinert.1

/-- `file_create`: the walk ends in a directory without the name, and then a file of the directory is
given out. -/
theorem fileCreate_sat (ho : s.Own D X) (hfit : s.Clean ∨ s.Gapless D ∧ s.Roomy D)
    (path : List Byte) :
    (fileCreate path s).Sat
      (fun f t => ∃ D₁ X₁ u d name D' X', s.Strolled D X u D₁ X₁ ∧
        walkPath path s = .ret (.missing d name) u ∧ d ∈ Fs.files D₁ ∧ u.IsDir d ∧
          u.Evolved D₁ (u.loose D₁ X₁ ∪ {fSize d} ∪ Fs.nameWords f) t D' X' ∧ f ∈ Fs.files D' ∧
            t.isMapped (f / 1024) = true ∧
              (u.Spot d f ∨ u.Free (f / 1024) ∧ ∀ i, 32 ≤ i → i < 64 → t.look (f + i) = 0))
      (fun _ t => ∃ D₁ X₁ u d D' X', s.Strolled D X u D₁ X₁ ∧
        u.Evolved D₁ (u.loose D₁ X₁ ∪ {fSize d}) t D' X')
      (fun q => q = .noMemory) := by
  have hstay : ∀ {t D₁ X₁}, s.Strolled D X t D₁ X₁ → ∃ D₁ X₁ u d D' X', s.Strolled D X u D₁ X₁ ∧
      u.Evolved D₁ (u.loose D₁ X₁ ∪ {fSize d}) t D' X' := fun {t D₁ X₁} hst =>
    ⟨D₁, X₁, t, 0, D₁, X₁, hst, (Fs.Sees.refl t).evolved hst.own _⟩
  rw [fileCreate]
  have hwalk := (walkPath_sat ho (hfit.imp_right And.left) path).and
    (Outcome.sat_self (walkPath path s))
  refine sat_call hwalk ?_ (fun _ _ ⟨⟨D', X', h⟩, _⟩ => hstay h) (fun _ h => h.1)
  rintro w t ⟨⟨D₁, X₁, hst, hend⟩, hret⟩
  cases w with
  | found dir f => exact hstay hst
  | missing dir name =>
    obtain ⟨hd, hdir, hm, hlen⟩ := hend
    have hfit₁ : t.Clean ∨ t.Gapless D₁ ∧ t.Roomy D₁ := by
      rcases hfit with hc | ⟨hg, hr⟩
      · exact .inl (hst.onward.clean hc)
      · obtain ⟨rfl, rfl, halt⟩ := hst.cases hg
        exact .inr ⟨hg.alters ho halt, hr.alters ho halt hg⟩
    dsimp only
    rw [sat_bind, sat_attempt]
    refine (dirAllocFile_sat hst.own hd hdir hm hfit₁).mono ?_ ?_ (fun _ h => h)
    · rintro f u ⟨⟨D', X', hu, hf⟩, hmf, hspot⟩
      dsimp only
      rw [bind_ret (touch_mapped hmf), modify_bind]
      have halt := strcpy_alters hf name 0 u hu.own hmf (by unfold maxnamelen at hlen; omega)
      have hname := halt.evolved hu.own (hu.own.inert_name hf) fun d hd =>
        hu.own.dir_notMem_name hf hd
      refine ⟨D₁, X₁, t, dir, name, D', X', hst, hret, hd, hdir,
        (hu.mono Set.subset_union_left).trans_same hname Set.subset_union_right, hf,
        halt.mapped _ hmf, hspot.imp_right fun ⟨hfree, hz⟩ => ⟨hfree, fun i h₁ h₂ => ?_⟩⟩
      rw [halt.look (f + i), hz _ (Fs.file_words hf h₂)]
      rintro ⟨k, hk, heq⟩
      omega
    · rintro e u ⟨D', X', hu⟩
      exact ⟨D₁, X₁, t, dir, D', X', hst, hu⟩

/-! ## Runs -/

/-- A `struct File *` as the server holds it: `f` is a file that is not a directory and is in the cache,
and its `f_dir` is null or points at a file in the cache. -/
def Fs.Handle (s : Fs) (f : Nat) : Prop :=
  s.IsFile f ∧ ¬s.IsDir f ∧ s.isMapped (f / 1024) = true ∧
    (s.look (fDir f) = 0 ∨
      s.IsFile (ptrFile (s.look (fDir f))) ∧ s.isMapped (ptrFile (s.look (fDir f)) / 1024) = true)

/-- The operations are called on files that are not directories. -/
def FsOp.Valid (s : Fs) : FsOp → Prop
  | .openFile _ => True
  | .create _ => True
  | .getBlock f _ _ => s.Handle f
  | .setSize f _ => s.Handle f
  | .remove path => ∀ f t, fileOpen path s = .ret f t → ¬t.IsDir f ∧ f ≠ sRoot
  | .dirty f _ => s.Handle f

/-- A block that becomes an index block or a directory block has no old page in the cache. -/
def FsOp.Careful (s : Fs) : FsOp → Prop
  | .openFile _ => s.Fit s.dirBlocks
  | .create _ => s.Clean ∨ s.Gapless s.dirBlocks ∧ s.Roomy s.dirBlocks
  | .getBlock f n _ => ndirect ≤ n → n < nindirect → s.num (fIndirect f) = 0 → s.NextClean
  | .setSize _ _ => True
  | .remove _ => s.Fit s.dirBlocks
  | .dirty _ _ => True

theorem Fs.Handle.upOk (h : s.Handle f) : s.UpOk s.dirBlocks f :=
  h.2.2.2.imp_right fun h => ⟨Fs.mem_files_dirBlocks.mpr h.1, h.2⟩

/-- `file_get_block`, and what the client does to the page. -/
theorem getBlock_sat (ho : s.Own D X) (hf : f ∈ Fs.files D) (hdir : ¬s.IsDir f)
    (hm : s.isMapped (f / 1024) = true) (n : Nat) (data : Option Page)
    (hclean : ndirect ≤ n → n < nindirect → s.num (fIndirect f) = 0 → s.NextClean) :
    ((FsOp.getBlock f n data).exec s).Sat (fun _ t => ∃ D' X', t.Own D' X')
      (fun _ t => ∃ D' X', t.Own D' X') (fun q => q = .noMemory) := by
  unfold FsOp.exec
  refine sat_call (fileGetBlock_sat ho hf hm n fun hn _ =>
    ⟨fun h => absurd h hdir, fun h10 h0 => hclean h10 hn h0⟩) ?_ ?_ (fun _ h => h)
  · rintro b t ⟨-, hne, -, D', X', hadv, p, hp, rfl⟩
    have hot := hadv.own
    cases data with
    | none => exact ⟨D', X', hot⟩
    | some pg =>
      have hf' := Fs.files_mono hadv.dirs.sub hf
      have hused := hot.pointer_used hf' hp hne
      obtain ⟨h₁, h₂⟩ := hot.fileBlock f hf' (fun h => hdir ((hadv.onward.isDir hf).mp h)) p hp hne
      exact ⟨D', X', hot.alters (hot.inert_page hused.1 h₁ h₂) (Fs.alters_setPage hused.2.2 pg)⟩
  · rintro e t ⟨⟨D', X', hadv⟩, -⟩
    exact ⟨D', X', hadv.own⟩

/-- An operation keeps the file system consistent. -/
theorem FsOp.consistent_step {op : FsOp} (hs : s.Consistent) (hv : op.Valid s) (hc : op.Careful s)
    (h : op.step s = some t) : t.Consistent := by
  have ho := hs.own
  have hsat : (op.exec s).Sat (fun _ t => ∃ D X, t.Own D X) (fun _ t => ∃ D X, t.Own D X)
      (fun q => q = .noMemory) := by
    cases op with
    | openFile path =>
      refine sat_call (fileOpen_sat ho hc path) ?_ (fun _ _ ⟨D', X', h⟩ => ⟨D', X', h.own⟩)
        (fun _ h => h)
      rintro f t ⟨D', X', -, hst, -⟩
      exact ⟨D', X', hst.own⟩
    | create path =>
      refine sat_call (fileCreate_sat ho hc path) ?_ ?_ (fun _ h => h)
      · rintro f t ⟨_, _, _, _, _, D', X', _, _, _, _, hev, _⟩
        exact ⟨D', X', hev.own⟩
      · rintro e t ⟨_, _, _, _, D', X', _, hev⟩
        exact ⟨D', X', hev.own⟩
    | getBlock f n data =>
      exact getBlock_sat ho (Fs.mem_files_dirBlocks.mpr hv.1) hv.2.1 hv.2.2.1 n data hc
    | setSize f newsize =>
      exact (fileSetSize_sat ho (Fs.mem_files_dirBlocks.mpr hv.1) hv.2.1 hv.2.2.1 hv.upOk
        newsize).mono (fun _ _ h => ⟨_, h.1.own⟩) (fun _ _ h => h.elim) (fun _ h => h)
    | remove path =>
      refine (fileRemove_sat ho hc path hv).mono ?_ ?_ (fun _ h => h)
      · rintro - t ⟨D', _, X', _, _, _, _, _, _, hev⟩
        exact ⟨D', X', hev.own⟩
      · rintro e t ⟨D', X', hst⟩
        exact ⟨D', X', hst.own⟩
    | dirty f offset =>
      exact (fileDirty_sat ho (Fs.mem_files_dirBlocks.mpr hv.1) hv.2.2.1 offset).mono
        (fun _ _ h => ⟨_, _, ho.sees h⟩) (fun _ _ h => ⟨_, _, ho.sees h⟩) (fun _ h => h)
  exact Fs.consistent_iff.mpr (hsat.of_state? h)

/-- Sequences of operations that are called on files, each of which is allowed where it is called. -/
inductive FsRun (ok : Fs → FsOp → Prop) (s : Fs) : Fs → Prop
  | refl : FsRun ok s s
  | step {t u : Fs} {op : FsOp} (hr : FsRun ok s t) (hv : op.Valid t) (hc : ok t op)
      (h : op.step t = some u) : FsRun ok s u

theorem FsRun.consistent (hs : s.Consistent) (hr : FsRun (fun s op => op.Careful s) s t) :
    t.Consistent := by
  induction hr with
  | refl => exact hs
  | step _ hv hc h ih => exact FsOp.consistent_step ih hv hc h

/-- **Every block number that is found in a file is that of a data block in use, and it is found in one slot
only**, in every state that is reached from a consistent one by operations that take no block with an old
page in the cache as an index block or a directory block. -/
theorem blocks_owned (hs : s.Consistent) (hr : FsRun (fun s op => op.Careful s) s t) {f : Nat}
    {k : Fs.Slot} (hf : t.IsFile f) (h0 : t.held f k ≠ 0) :
    3 ≤ t.held f k ∧ t.held f k < t.nblocks ∧ ¬t.Free (t.held f k) ∧
      ∀ f' k', t.IsFile f' → t.held f' k' = t.held f k → f' = f ∧ k' = k := by
  have hc := hr.consistent hs
  obtain ⟨h₁, h₂, h₃⟩ := hc.used f k hf h0
  refine ⟨t.three_le_firstData.trans h₁, h₂, h₃, fun f' k' hf' heq => ?_⟩
  obtain ⟨rfl, rfl⟩ := hc.unique f k f' k' hf hf' h0 heq.symm
  exact ⟨rfl, rfl⟩

/-! ## A small disk -/

theorem smallFs_slot (ha : a ∈ Fs.slots {3} ∅) (h0 : smallFs.num a ≠ 0) :
    a = 1060 ∧ smallFs.num a = 3 ∨ a = 3106 ∧ smallFs.num a = 4 ∨ a = 3234 ∧ smallFs.num a = 5 := by
  have hroot : ∀ i ≤ 10, smallFs.num (sRoot + 34 + i) ≠ 0 →
      sRoot + 34 + i = 1060 ∧ smallFs.num (sRoot + 34 + i) = 3 := by decide
  have hfile : ∀ j < file2blk, ∀ i ≤ 10, smallFs.num (fileIn 3 j + 34 + i) ≠ 0 →
      fileIn 3 j + 34 + i = 3106 ∧ smallFs.num (fileIn 3 j + 34 + i) = 4 ∨
        fileIn 3 j + 34 + i = 3234 ∧ smallFs.num (fileIn 3 j + 34 + i) = 5 := by decide +kernel
  rcases ha with ⟨f, rfl | ⟨b, rfl, j, hj, rfl⟩, i, hi, rfl⟩ | ⟨x, hx, -⟩
  · exact .inl (hroot i hi h0)
  · exact .inr (hfile j hj i hi h0)
  · exact hx.elim

theorem smallFs_own : smallFs.Own {3} ∅ := by
  have hn : smallFs.nblocks = 8 := by decide
  have hd : smallFs.firstData = 3 := by decide
  have hfree : ∀ b < 8, smallFs.Free b ↔ 6 ≤ b := by decide
  have hused : ∀ b, b ∈ smallFs.used ↔ 3 ≤ b ∧ b < 6 := by
    intro b
    unfold Fs.used
    rw [Set.mem_ofPred_eq, hn, hd]
    constructor
    · rintro ⟨h₁, h₂, h₃⟩
      rw [hfree b h₂] at h₃
      omega
    · rintro ⟨h₁, h₂⟩
      refine ⟨h₁, by omega, ?_⟩
      rw [hfree b (by omega)]
      omega
  have hind : ∀ f ∈ Fs.files {3}, smallFs.num (fIndirect f) = 0 := by
    rintro f (rfl | ⟨b, rfl, j, hj, rfl⟩)
    · decide
    · revert j
      decide
  have hdir : ∀ f ∈ Fs.files {3}, smallFs.IsDir f ↔ f = sRoot := by
    rintro f (rfl | ⟨b, rfl, j, hj, rfl⟩)
    · decide
    · revert j
      decide
  have hptr : ∀ f ∈ Fs.files {3}, ∀ a ∈ smallFs.pointers f, ∃ i < 10, a = fDirect f i := by
    rintro f hf a (⟨i, hi, rfl⟩ | ⟨hx, -⟩)
    · exact ⟨i, hi, rfl⟩
    · exact absurd (hind f hf) hx
  refine ⟨⟨rfl, rfl, by rw [hn]; decide, ?_, ?_⟩, ⟨?_, ?_⟩, ?_, fun _ h => h.elim, fun _ _ h => h.elim,
    fun f hf h0 => absurd (hind f hf) h0, ?_, ?_⟩
  · intro b h₁ hb
    rw [hd] at hb
    rcases (by omega : b = 1 ∨ b = 2) with rfl | rfl <;> rfl
  · intro b hb
    rw [hd] at hb
    rw [hfree b (by omega)]
    omega
  · intro a ha h0
    rw [hused]
    rcases smallFs_slot ha h0 with ⟨-, h⟩ | ⟨-, h⟩ | ⟨-, h⟩ <;> omega
  · intro a ha a' ha' h0 heq
    rcases smallFs_slot ha h0 with ⟨h, h'⟩ | ⟨h, h'⟩ | ⟨h, h'⟩ <;>
      rcases smallFs_slot ha' (heq ▸ h0) with ⟨g, g'⟩ | ⟨g, g'⟩ | ⟨g, g'⟩ <;> omega
  · rintro b rfl
    rw [hused]
    decide
  · intro f hf hfdir a ha h0
    obtain rfl := (hdir f hf).mp hfdir
    obtain ⟨i, hi, rfl⟩ := hptr _ hf a ha
    rcases smallFs_slot (Fs.direct_mem_slots hf hi) h0 with ⟨-, h⟩ | ⟨h, -⟩ | ⟨h, -⟩
    · exact h
    · unfold fDirect sRoot at h
      omega
    · unfold fDirect sRoot at h
      omega
  · intro f hf hfdir a ha h0
    refine ⟨?_, Set.notMem_empty _⟩
    obtain ⟨i, hi, rfl⟩ := hptr _ hf a ha
    rcases smallFs_slot (Fs.direct_mem_slots hf hi) h0 with ⟨h, -⟩ | ⟨-, h⟩ | ⟨-, h⟩
    · rcases hf with rfl | ⟨b, rfl, j, hj, rfl⟩
      · exact absurd ((hdir _ (.inl rfl)).mpr rfl) hfdir
      · unfold fDirect fileIn at h
        omega
    · rw [h]
      decide
    · rw [h]
      decide

/-- Validity of an operation, checked for files in block 3 of the root directory. -/
def FsOp.validRoot (s : Fs) : FsOp → Bool
  | .openFile _ => true
  | .create _ => true
  | .getBlock f _ _ => handleRoot s f
  | .setSize f _ => handleRoot s f
  | .remove path =>
    match fileOpen path s with
    | .ret f t => ¬t.IsDir f ∧ f ≠ sRoot
    | _ => true
  | .dirty f _ => handleRoot s f
where
  handleRoot (s : Fs) (f : Nat) : Bool :=
    s.IsDir sRoot ∧ s.num (fDirect sRoot 0) = 3 ∧ (∃ j < file2blk, f = fileIn 3 j) ∧ ¬s.IsDir f ∧
      s.isMapped (f / 1024) ∧ s.isMapped 1 ∧
        (s.look (fDir f) = 0 ∨ ptrFile (s.look (fDir f)) = sRoot)

theorem Fs.isFile_root_entry (hroot : s.IsDir sRoot) (h3 : s.num (fDirect sRoot 0) = 3)
    (hj : j < file2blk) : s.IsFile (fileIn 3 j) := by
  have hfile := Fs.IsFile.entry (k := .direct 0) .root hroot (by decide)
    (show s.num (fDirect sRoot 0) ≠ 0 by rw [h3]; decide) hj
  rwa [show s.held sRoot (.direct 0) = 3 from h3] at hfile

theorem Fs.Handle.of_root (h : FsOp.validRoot.handleRoot s f = true) : s.Handle f := by
  unfold FsOp.validRoot.handleRoot at h
  obtain ⟨hroot, h3, ⟨j, hj, rfl⟩, hdir, hm, hm1, hup⟩ := of_decide_eq_true h
  refine ⟨?_, hdir, hm, hup.imp_right fun h => ?_⟩
  · exact Fs.isFile_root_entry hroot h3 hj
  · rw [h]
    exact ⟨.root, hm1⟩

theorem FsOp.Valid.of_root {op : FsOp} (h : op.validRoot s = true) : op.Valid s := by
  cases op with
  | openFile path => trivial
  | create path => trivial
  | getBlock f n data => exact Fs.Handle.of_root h
  | setSize f n => exact Fs.Handle.of_root h
  | remove path =>
    intro f t hret
    rw [FsOp.validRoot, hret] at h
    simpa using h
  | dirty f n => exact Fs.Handle.of_root h

theorem FsRun.of_run {s₀ : Fs} : ∀ {ops : List FsOp} {s : Fs}, FsRun (fun _ _ => True) s₀ s →
    run (guarded (fun s op => FsOp.validRoot s op = true) FsOp.step) s ops = some t →
    FsRun (fun _ _ => True) s₀ t := by
  intro ops
  induction ops with
  | nil =>
    intro s hr h
    cases h
    exact hr
  | cons op ops ih =>
    intro s hr h
    obtain ⟨u, hu, h⟩ := Option.bind_eq_some_iff.mp h
    obtain ⟨hv, hstep⟩ := of_guarded hu
    exact ih (hr.step (.of_root hv) trivial hstep) h

theorem smallFs_clean : smallFs.Clean := by
  intro b hb
  have hlt : b < 8 := hb.1
  have hfree : ∀ b < 8, smallFs.Free b ↔ 6 ≤ b := by decide
  have h6 := (hfree b hlt).mp hb
  unfold Fs.page
  rw [show smallFs.cache b = none from if_neg (by omega)]

theorem blocks_owned_small : ∃ t, FsRun (fun s op => op.Careful s) smallFs t ∧ smallFs.Consistent ∧
    t.IsFile sRoot ∧ t.held sRoot (.direct 0) = 3 ∧
      (3 ≤ t.held sRoot (.direct 0) ∧ t.held sRoot (.direct 0) < t.nblocks ∧
        ¬t.Free (t.held sRoot (.direct 0)) ∧ ∀ f' k', t.IsFile f' →
          t.held f' k' = t.held sRoot (.direct 0) → f' = sRoot ∧ k' = .direct 0) := by
  have hrun : ((FsOp.openFile pathA).step smallFs).any
      (fun t => t.held sRoot (.direct 0) = 3) = true := by decide +kernel
  cases hstep : (FsOp.openFile pathA).step smallFs with
  | none => simp [hstep] at hrun
  | some t =>
    have h3 : t.held sRoot (.direct 0) = 3 := by simpa [hstep] using hrun
    have hv : (FsOp.openFile pathA).Valid smallFs := trivial
    have hc : (FsOp.openFile pathA).Careful smallFs := .inl smallFs_clean
    have hr : FsRun (fun s op => op.Careful s) smallFs t := FsRun.refl.step hv hc hstep
    exact ⟨t, hr, smallFs_own.consistent, .root, h3,
      blocks_owned smallFs_own.consistent hr .root (by rw [h3]; decide)⟩

/-- The block of `a` is freed and becomes the index block of `b`; its old page is still in the cache, and so
block 5 is a block of `b` as well as of `c`. -/
theorem stale_index_block : ∃ t, smallFs.Consistent ∧
    (∀ b c, smallFs.cache b = some c → c.page = smallFs.disk b) ∧
      FsRun (fun _ _ => True) smallFs t ∧ t.IsFile (fileIn 3 1) ∧ t.IsFile (fileIn 3 2) ∧
        t.look (fileIn 3 1) = 0x62 ∧ t.look (fileIn 3 2) = 0x63 ∧
          t.held (fileIn 3 1) (.entry 10) = 5 ∧ t.held (fileIn 3 2) (.direct 0) = 5 := by
  obtain ⟨t, hrun, htest⟩ := exists_of_run
    (guarded (fun s op => FsOp.validRoot s op = true) FsOp.step) smallFs
    [.openFile pathA, .getBlock (fileIn 3 0) 0 none, .remove pathA, .getBlock (fileIn 3 1) 10 none]
    (fun t => decide (t.IsDir sRoot ∧ t.num (fDirect sRoot 0) = 3 ∧
      t.look (fileIn 3 1) = 0x62 ∧ t.look (fileIn 3 2) = 0x63 ∧ t.held (fileIn 3 1) (.entry 10) = 5 ∧ t.held (fileIn 3 2) (.direct 0) = 5))
    (by decide +kernel)
  obtain ⟨hdir, h3, hb, hc, hblock⟩ := of_decide_eq_true htest
  have hfile : ∀ j < file2blk, t.IsFile (fileIn 3 j) := fun j hj => Fs.isFile_root_entry hdir h3 hj
  refine ⟨t, smallFs_own.consistent, ?_, FsRun.of_run .refl hrun, hfile 1 (by decide),
    hfile 2 (by decide), hb, hc, hblock⟩
  intro b c hbc
  unfold smallFs at hbc
  dsimp only at hbc
  split at hbc
  · cases hbc
    rfl
  · cases hbc

end Mos
