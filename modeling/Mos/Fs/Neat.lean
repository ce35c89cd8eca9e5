import Mos.Fs.FailedCreate
import Mos.Fs.Histories

/-!
# Entries that are not in use

`file_create` writes the name of a new file and nothing else: the other fields are what the last owner of the
entry has left there. In a neat tree an entry without a name has the size 0 and no blocks, and its `f_dir` is 0
or points at its directory. The functions of the server keep a tree neat, one file at a time.
-/

namespace Mos

open Lib Prog Function

variable {s t u v : Fs} {a b c d e f g i j k n p : Nat} {A D X : Set Nat} {root rest name : List Byte}

namespace Fs

theorem block_eq_held (s : Fs) (f n : Nat) :
    s.block f n = if n < nindirect then s.held f (.ofBlock n) else 0 := by
  by_cases h : s.HasSlot f n
  · have hlt : n < nindirect := h.elim (fun h => Nat.lt_trans h (by decide)) fun h => h.1
    rw [held_ofBlock h, if_pos hlt]
  · rw [block_of_no_slot h]
    split
    next hlt =>
      have hn : ¬n < 10 := fun hn => h (.inl hn)
      have h0 : s.num (fIndirect f) = 0 := by
        by_contra h0
        exact h (.inr ⟨hlt, h0⟩)
      unfold Slot.ofBlock
      rw [dif_neg hn]
      simp only [held, if_pos h0]
    next => rfl

theorem held_direct (s : Fs) (f : Nat) (i : Fin 10) : s.held f (.direct i) = s.num (fDirect f i) := rfl

theorem held_entry (s : Fs) (f : Nat) (i : Fin 1024) : s.held f (.entry i) =
    if s.num (fIndirect f) = 0 then 0 else s.num (1024 * s.num (fIndirect f) + i) := rfl

theorem block_congr_held (h : ∀ k, t.held f k = s.held f k) (n : Nat) : t.block f n = s.block f n := by
  rw [block_eq_held, block_eq_held, h]

theorem block_of_held (h : ∀ k, s.held f k = 0) (n : Nat) : s.block f n = 0 := by
  rw [block_eq_held, h, ite_self]

theorem Unused.congr (h : t.look f = s.look f) : t.Unused f ↔ s.Unused f := by
  unfold Unused
  rw [h]

/-- A tree whose entries without a name hold nothing. -/
structure Neat (s : Fs) : Prop extends s.Tree where
  /-- A directory has no block past its size. -/
  tight : ∀ d, s.IsFile d → s.IsDir d → s.block d (s.nblocksOf d) = 0
  /-- `f_dir` of an entry is 0, or it points at the directory. -/
  up : ∀ d, s.IsFile d → s.IsDir d → ∀ f ∈ s.entries d,
    s.look (fDir f) = 0 ∨ s.look (fDir f) = filePtr d
  blank : ∀ f, s.IsFile f → f ≠ sRoot → s.Unused f → s.look (fSize f) = 0 ∧ ∀ k, s.held f k = 0

/-- The entries of the directories can be reached. -/
theorem Tree.entry_isFile (h : s.Tree) (hd : s.IsFile d) (hdir : s.IsDir d) (hf : f ∈ s.entries d) :
    s.IsFile f :=
  mem_files_dirBlocks.mp (h.tidy.entry_file (mem_files_dirBlocks.mpr hd) hdir hf)

/-! ## A change of one file -/

/-- If all files but `f` are as before, and `f` is no directory with blocks, nothing new can be reached. -/
theorem isFile_of_alike (hdir : ∀ g, s.IsFile g → g ≠ f → (t.IsDir g ↔ s.IsDir g))
    (hheld : ∀ g, s.IsFile g → g ≠ f → ∀ k, t.held g k = s.held g k)
    (hempty : t.IsDir f → ∀ k, t.held f k = 0) (hg : t.IsFile g) : s.IsFile g := by
  induction hg with
  | root => exact .root
  | @entry d j k hd hdir' hk hb hj ih =>
    have hne : d ≠ f := by
      rintro rfl
      exact hb (hempty hdir' k)
    rw [hheld d ih hne] at hb ⊢
    exact .entry ih ((hdir d ih hne).mp hdir') hk hb hj

/-- Files other than `f` are as before, and `f` is no directory with entries. -/
structure AllBut (s : Fs) (f : Nat) (t : Fs) : Prop where
  consistent : t.Consistent
  word : ∀ g, s.IsFile g → g ≠ f → ∀ i, i < 34 ∨ i = 45 → t.look (g + i) = s.look (g + i)
  held : ∀ g, s.IsFile g → g ≠ f → ∀ k, t.held g k = s.held g k
  up : t.look (fDir f) = s.look (fDir f)
  empty : t.IsDir f → t.nblocksOf f = 0 ∧ ∀ k, t.held f k = 0
  beyond : ∀ n, t.nblocksOf f + 1 ≤ n → t.block f n = 0

namespace AllBut

theorem isDir (h : s.AllBut f t) (hg : s.IsFile g) (hne : g ≠ f) : t.IsDir g ↔ s.IsDir g :=
  IsDir.congr (h.word g hg hne 33 (.inl (by decide)))

theorem nblocksOf (h : s.AllBut f t) (hg : s.IsFile g) (hne : g ≠ f) : t.nblocksOf g = s.nblocksOf g := by
  unfold Fs.nblocksOf fSize
  rw [h.word g hg hne 32 (.inl (by decide))]

theorem block (h : s.AllBut f t) (hg : s.IsFile g) (hne : g ≠ f) (n : Nat) : t.block g n = s.block g n :=
  block_congr_held (h.held g hg hne) n

theorem entries (h : s.AllBut f t) (hg : s.IsFile g) (hne : g ≠ f) : t.entries g = s.entries g := by
  unfold Fs.entries entriesFrom
  simp only [h.nblocksOf hg hne, h.block hg hne]

theorem no_entries (h : s.AllBut f t) (hdir : t.IsDir f) : t.entries f = [] := by
  unfold Fs.entries entriesFrom
  rw [(h.empty hdir).1]
  rfl

/-- What can be reached could be reached before. -/
theorem isFile (h : s.AllBut f t) (hg : t.IsFile g) : s.IsFile g :=
  isFile_of_alike (fun _ hg hne => h.isDir hg hne) h.held (fun hdir => (h.empty hdir).2) hg

/-- A directory with an entry is as before. -/
theorem dir_of_entry (h : s.AllBut f t) (hd : t.IsFile d) (hdir : t.IsDir d) (hg : g ∈ t.entries d) :
    s.IsFile d ∧ s.IsDir d ∧ d ≠ f ∧ t.entries d = s.entries d := by
  have hne : d ≠ f := by
    rintro rfl
    rw [h.no_entries hdir] at hg
    exact List.not_mem_nil hg
  have hd := h.isFile hd
  exact ⟨hd, (h.isDir hd hne).mp hdir, hne, h.entries hd hne⟩

/-- The tree stays tidy, if `f` keeps its name or has none. -/
theorem tree (h : s.AllBut f t) (hs : s.Tree) (hroot : f ≠ sRoot)
    (hname : t.Unused f ∨ ∀ i < 32, t.look (f + i) = s.look (f + i)) : t.Tree := by
  refine ⟨h.consistent, ?_, (h.isDir .root (Ne.symm hroot)).mpr hs.root, ?_, ?_⟩
  · intro d hd hdir n hn
    have hd := h.isFile hd
    by_cases hne : d = f
    · subst hne
      rw [(h.empty hdir).1] at hn
      omega
    · rw [h.nblocksOf hd hne] at hn
      rw [h.block hd hne]
      exact hs.complete d hd ((h.isDir hd hne).mp hdir) n hn
  · intro g hg n hn
    have hg := h.isFile hg
    by_cases hne : g = f
    · subst hne
      exact h.beyond n hn
    · rw [h.nblocksOf hg hne] at hn
      rw [h.block hg hne]
      exact hs.beyond g hg n hn
  · intro d hd hdir x hx y hy name hn hxn hyn
    obtain ⟨hd, hdir, -, hentries⟩ := h.dir_of_entry hd hdir hx
    rw [hentries] at hx hy
    have hkept : ∀ z ∈ s.entries d, t.HasName z name → s.HasName z name := by
      intro z hz hzn
      refine (HasName.congr (fun i hi => ?_) hn.short).mp hzn
      by_cases hne : z = f
      · subst hne
        exact hname.elim (fun hu => absurd hu (hzn.not_unused hn)) fun hsame => hsame i hi
      · exact h.word z (hs.entry_isFile hd hdir hz) hne i (.inl (by omega))
    exact hs.distinct d hd hdir x hx y hy name hn (hkept x hx hxn) (hkept y hy hyn)

/-- The tree stays neat, if `f` holds nothing when it has no name. -/
theorem neat (h : s.AllBut f t) (hs : s.Neat) (ht : t.Tree)
    (hblank : t.Unused f → t.look (fSize f) = 0 ∧ ∀ k, t.held f k = 0) : t.Neat := by
  refine ⟨ht, ?_, ?_, ?_⟩
  · intro d hd hdir
    have hd := h.isFile hd
    by_cases hne : d = f
    · subst hne
      exact block_of_held (h.empty hdir).2 _
    · rw [h.nblocksOf hd hne, h.block hd hne]
      exact hs.tight d hd ((h.isDir hd hne).mp hdir)
  · intro d hd hdir x hx
    obtain ⟨hd, hdir, -, hentries⟩ := h.dir_of_entry hd hdir hx
    rw [hentries] at hx
    have hsame : t.look (fDir x) = s.look (fDir x) := by
      by_cases hxf : x = f
      · rw [hxf, h.up]
      · exact h.word x (hs.entry_isFile hd hdir hx) hxf 45 (.inr rfl)
    rw [hsame]
    exact hs.up d hd hdir x hx
  · intro g hg hroot hu
    have hg := h.isFile hg
    by_cases hne : g = f
    · subst hne
      exact hblank hu
    · have hword : ∀ i, i < 34 → t.look (g + i) = s.look (g + i) := fun i hi => h.word g hg hne i (.inl hi)
      have hu' : s.Unused g := (Unused.congr (hword 0 (by decide))).mp hu
      obtain ⟨hsize, hheld⟩ := hs.blank g hg hroot hu'
      refine ⟨(hword 32 (by decide)).trans hsize, fun k => ?_⟩
      rw [h.held g hg hne, hheld]

end AllBut

/-! ## Walking -/

/-- A walk points entries at their directories. -/
theorem Neat.visits (h : s.Neat) (hv : s.Visits s.dirBlocks t) : t.Neat := by
  have hts := h.tidy
  have ho := hts.own
  have halt := hv.alters
  have htt := hts.alters halt
  have hfile : ∀ {g}, t.IsFile g → s.IsFile g := fun hg => mem_files_dirBlocks.mp (htt.own.isFile hg)
  have hslot : ∀ a ∈ slots s.dirBlocks s.indexBlocks, t.look a = s.look a := fun a ha =>
    halt.look a fun hups => ho.inert_ups.2.1 a hups ha
  refine ⟨htt.tree, ?_, ?_, ?_⟩
  · intro d hd hdir
    have hd' := mem_files_dirBlocks.mpr (hfile hd)
    rw [ho.nblocksOf_alters halt hd', ho.block_congr hslot hd']
    exact h.tight d (hfile hd) ((ho.isDir_alters halt hd').mp hdir)
  · intro d hd hdir f hf
    have hd' := mem_files_dirBlocks.mpr (hfile hd)
    rw [ho.entries_alters halt hd'] at hf
    have hdir := (ho.isDir_alters halt hd').mp hdir
    rcases hv.up f (hts.entry_file hd' hdir hf) with hsame | ⟨d', hd'', hdir', hf', hup⟩
    · rw [hsame]
      exact h.up d (hfile hd) hdir f hf
    · rw [hup, hts.dir_unique hd'' hdir' hd' hdir hf' hf]
      exact .inr rfl
  · intro f hf hroot hu
    have hf' := mem_files_dirBlocks.mpr (hfile hf)
    have hword : ∀ i < 34, t.look (f + i) = s.look (f + i) := fun i hi =>
      halt.look _ (ho.notMem_ups hf' (by omega) (by omega))
    have hu' : s.Unused f := (Unused.congr (hword 0 (by decide))).mp hu
    obtain ⟨hsize, hheld⟩ := h.blank f (hfile hf) hroot hu'
    refine ⟨(hword 32 (by decide)).trans hsize, fun k => ?_⟩
    rw [held_congr_slotsOf (fun a ha => hslot a (ho.slotsOf_subset hf' ha)), hheld]

/-! ## Removing -/

theorem Wiped.allBut (h : s.Wiped f t) (hs : s.Tree) (hf : s.IsFile f) (hm : t.Mounted) :
    s.AllBut f t := by
  have ho := hs.tidy.own
  have hf' := mem_files_dirBlocks.mpr hf
  refine ⟨h.consistent hs.consistent hf hm, ?_, ?_, ?_, ?_, fun n _ => h.cleared n⟩
  · intro g hg hne i hi
    exact h.word ho hf' (mem_files_dirBlocks.mpr hg) hne (by omega)
  · intro g hg hne k
    exact h.held ho hf' (mem_files_dirBlocks.mpr hg) hne k
  · exact h.word_of ho hf' hf' (by decide) (.inr (by decide))
  · refine fun _ => ⟨?_, h.gone⟩
    unfold Fs.nblocksOf
    rw [h.size]
    rfl

end Fs

/-- `file_remove` leaves a neat tree. -/
theorem fileRemove_neat (hs : s.Neat) (h6 : root.length = 6) (hz : 0 ∉ rest)
    (hne : pieces slash rest ≠ []) :
    (fileRemove (root ++ rest) s).Sat (fun _ t => t.Neat) (fun _ t => t.Neat) (fun q => q = .noMemory) := by
  have hts := hs.tidy
  refine (fileRemove_wiped hs.toTree h6 hz hne).mono ?_ (fun _ _ h => hs.visits h) (fun _ h => h)
  rintro - t ⟨d, f, u, hp, hvis, hwiped, hm, hunused⟩
  have hu := hs.visits hvis
  rw [← hts.resolve_alters hvis.alters] at hp
  have hf := Fs.mem_files_dirBlocks.mp (hu.tidy.resolve_file hp)
  exact (hwiped.allBut hu.toTree hf hm).neat hu (hwiped.tree hu.toTree hf hm hunused)
    fun _ => ⟨hwiped.size, hwiped.gone⟩

/-! ## Blocks of a regular file -/

namespace Fs

/-- The blocks of a regular file are no directory blocks, and only one of them is an index block. -/
theorem Own.held_notMem (ho : s.Own D X) (hf : f ∈ files D) (hreg : ¬s.IsDir f) {k : Slot}
    (hk : s.held f k ≠ 0) : s.held f k ∉ D ∧ (k ≠ .indirect → s.held f k ∉ X) := by
  cases k with
  | indirect => exact ⟨fun hD => ho.apart _ hD (ho.index f hf hk), fun h => absurd rfl h⟩
  | direct i =>
    obtain ⟨hD, hX⟩ := ho.fileBlock f hf hreg _ (.inl ⟨i, i.isLt, rfl⟩) hk
    exact ⟨hD, fun _ => hX⟩
  | entry i =>
    have h0 : s.num (fIndirect f) ≠ 0 := fun h0 => hk (by simp only [held, if_pos h0])
    have heq := held_eq_num hk
    rw [heq] at hk ⊢
    obtain ⟨hD, hX⟩ := ho.fileBlock f hf hreg _ (.inr ⟨h0, i, i.isLt, rfl⟩) hk
    exact ⟨hD, fun _ => hX⟩

/-- A word of a file that is no pointer and no size is not among the words of a regular file. -/
theorem Own.word_notMem_wordsOf (ho : s.Own D X) (hf : f ∈ files D) (hreg : ¬s.IsDir f) (hg : g ∈ files D)
    (hi : i < 64) (h : g ≠ f ∨ i < 32 ∨ i = 33 ∨ 44 < i) : g + i ∉ s.wordsOf f := by
  rintro (heq | ⟨j, hj, heq⟩ | ⟨k, hk, heq⟩)
  · obtain ⟨rfl, rfl⟩ := ho.file_word_inj hg hf hi (j := 32) (by decide) heq
    rcases h with h | h
    · exact h rfl
    · omega
  · rw [Nat.add_assoc] at heq
    obtain ⟨rfl, rfl⟩ := ho.file_word_inj hg hf hi (by omega) heq
    rcases h with h | h
    · exact h rfl
    · omega
  · rw [file_words hg hi] at heq
    have hdata := (ho.holds.held _ (ho.slotAddr_mem hf hk) (by rwa [← held_eq_num hk])).1
    rw [← held_eq_num hk, ← heq] at hdata
    rcases ho.file_block hg with rfl | ⟨hD, -, -⟩
    · have := s.three_le_firstData
      unfold sRoot at hdata
      omega
    · rw [heq] at hD
      exact (ho.held_notMem hf hreg hk).1 hD

/-- Nor is a slot of another file. -/
theorem Own.slotsOf_notMem_wordsOf (ho : s.Own D X) (hf : f ∈ files D) (hreg : ¬s.IsDir f) (hg : g ∈ files D)
    (hne : g ≠ f) (ha : a ∈ s.slotsOf g) : a ∉ s.wordsOf f := by
  rcases ha with ⟨i, hi, rfl⟩ | ⟨h0, i, hi, rfl⟩
  · rw [Nat.add_assoc]
    exact ho.word_notMem_wordsOf hf hreg hg (by omega) (.inl hne)
  · have hx := ho.index g hg h0
    rintro (heq | ⟨j, hj, heq⟩ | ⟨k, hk, heq⟩)
    · exact ho.file_word_ne_entry hf (i := 32) (by decide) hx hi heq.symm
    · rw [Nat.add_assoc] at heq
      exact ho.file_word_ne_entry hf (by omega) hx hi heq.symm
    · rw [show (1024 * s.num (fIndirect g) + i) / 1024 = s.num (fIndirect g) by omega] at heq
      by_cases hki : k = .indirect
      · subst hki
        have hheld : s.held g .indirect = s.held f .indirect := heq
        exact hne (ho.slot_unique hg hf (show s.held g .indirect ≠ 0 from h0) hheld).1
      · exact (ho.held_notMem hf hreg hk).2 hki (heq ▸ hx)

/-- What happens to the words of one regular file leaves a neat tree neat, if the file has a name and no block far
past its size. -/
theorem Neat.of_frame (hs : s.Neat) (hf : s.IsFile f) (hreg : ¬s.IsDir f) (hused : ¬s.Unused f)
    (ht : t.Own D X) (h : s.Frames (s.wordsOf f) t)
    (hbeyond : ∀ n, t.nblocksOf f + 1 ≤ n → t.block f n = 0) : t.Neat := by
  have ho := hs.tidy.own
  have hfD := mem_files_dirBlocks.mpr hf
  have hword : ∀ g, s.IsFile g → ∀ i, i < 64 → (g ≠ f ∨ i < 32 ∨ i = 33 ∨ 44 < i) →
      t.look (g + i) = s.look (g + i) := by
    intro g hg i hi hor
    have hgD := mem_files_dirBlocks.mpr hg
    refine h.look _ (ho.word_notMem_wordsOf hfD hreg hgD hi hor) ?_ ?_
    · rw [file_words hgD hi]
      have := ho.type_inData hgD
      rwa [fType, file_words hgD (by decide)] at this
    · rw [file_words hgD hi]
      exact ho.file_not_free hgD
  have hroot : f ≠ sRoot := by
    rintro rfl
    exact hreg hs.root
  have htype : ¬t.IsDir f := fun hdir =>
    hreg ((IsDir.congr (hword f hf 33 (by decide) (.inr (.inr (.inl rfl))))).mp hdir)
  have hall : s.AllBut f t := by
    refine ⟨ht.consistent, fun g hg hne i hi => hword g hg i (by omega) (.inl hne), ?_,
      hword f hf 45 (by decide) (.inr (.inr (.inr (by decide)))), fun hdir => absurd hdir htype, hbeyond⟩
    intro g hg hne k
    have hgD := mem_files_dirBlocks.mpr hg
    refine held_congr_slotsOf (fun a ha => ?_) k
    have hslot := ho.slotsOf_subset hgD ha
    exact h.look a (ho.slotsOf_notMem_wordsOf hfD hreg hgD hne ha) (ho.slot_inData hslot)
      (ho.slot_not_free hslot)
  have hname : ∀ i < 32, t.look (f + i) = s.look (f + i) := fun i hi =>
    hword f hf i (by omega) (.inr (.inl hi))
  exact hall.neat hs (hall.tree hs.toTree hroot (.inr hname)) fun hu =>
    absurd ((Unused.congr (hname 0 (by decide))).mp hu) hused

/-! ## A block more -/

theorem Slot.ofBlock_inj (hk : k < nindirect) (hn : n < nindirect) (h : Slot.ofBlock k = .ofBlock n) : k = n := by
  unfold nindirect at hk hn
  unfold Slot.ofBlock at h
  split at h <;> split at h <;> simp at h <;> omega

theorem Slot.ofBlock_ne_indirect (n : Nat) : Slot.ofBlock n ≠ .indirect := by
  unfold ofBlock
  split <;> simp

theorem HasSlot.lt (h : s.HasSlot f n) : n < nindirect :=
  h.elim (fun h => Nat.lt_trans h (by decide)) fun h => h.1

theorem slotAddr_ofBlock (h : s.HasSlot f n) : s.slotAddr f (.ofBlock n) = s.slotOf f n := by
  unfold Slot.ofBlock slotOf
  by_cases hn : n < ndirect
  · rw [dif_pos (show n < 10 from hn), if_pos hn]
    rfl
  · obtain ⟨hlt, -⟩ := h.resolve_left hn
    rw [dif_neg (show ¬n < 10 from hn), if_neg hn]
    simp only [slotAddr, Nat.mod_eq_of_lt (show n < 1024 from hlt)]

theorem block_of_held_update (hn : n < nindirect)
    (h : ∀ l, l ≠ .indirect → t.held f l = if l = .ofBlock n then b else s.held f l) (k : Nat) :
    t.block f k = if k = n then b else s.block f k := by
  rw [block_eq_held, block_eq_held, h _ (Slot.ofBlock_ne_indirect k)]
  by_cases hk : k < nindirect
  · rw [if_pos hk, if_pos hk]
    refine if_congr ⟨Slot.ofBlock_inj hk hn, ?_⟩ rfl rfl
    rintro rfl
    rfl
  · rw [if_neg hk, if_neg hk, if_neg]
    rintro rfl
    exact hk hn

/-- The slot of block `n` is that of no other block, and it is not `f_indirect`. -/
theorem Own.slotAddr_eq_slotOf (ho : s.Own D X) (hf : f ∈ files D) (hn : s.HasSlot f n) {l : Slot}
    (hl : ∀ i, l = .entry i → s.num (fIndirect f) ≠ 0) (h : s.slotAddr f l = s.slotOf f n) :
    l = .ofBlock n := by
  have hentry : s.num (fIndirect f) ≠ 0 → ∀ i j, i ≤ 10 → j < 1024 →
      f + 34 + i ≠ 1024 * s.num (fIndirect f) + j := by
    intro h0 i j hi hj heq
    rw [Nat.add_assoc] at heq
    exact ho.file_word_ne_entry hf (by omega) (ho.index f hf h0) hj heq
  by_cases hlt : n < 10
  · rw [slotOf, if_pos (show n < ndirect from hlt)] at h
    unfold Slot.ofBlock
    rw [dif_pos hlt]
    cases l with
    | direct i =>
      have hin : i.val = n := Nat.add_left_cancel h
      subst hin
      rfl
    | indirect =>
      have : 10 = n := Nat.add_left_cancel (n := f + 34) h
      omega
    | entry i => exact absurd h.symm (hentry (hl i rfl) n i (by omega) i.isLt)
  · obtain ⟨hlt', h0⟩ := hn.resolve_left hlt
    have hlt'' : n < 1024 := hlt'
    rw [slotOf, if_neg (show ¬n < ndirect from hlt)] at h
    unfold Slot.ofBlock
    rw [dif_neg hlt]
    cases l with
    | direct i => exact absurd h (hentry h0 i n (by omega) hlt')
    | indirect => exact absurd h (hentry h0 10 n (by omega) hlt')
    | entry i =>
      have hin : i.val = n := Nat.add_left_cancel h
      refine congrArg Slot.entry (Fin.ext (hin.trans ?_))
      exact (Nat.mod_eq_of_lt hlt'').symm

/-- The slot of block `n` gets a block, and no other slot does. -/
theorem Filled.held (ho : s.Own D X) (hf : f ∈ files D) (hn : s.HasSlot f n)
    (hm : s.isMapped (s.slotOf f n / 1024) = true) (h : s.Filled (s.slotOf f n) t) :
    (∀ l, t.held f l = if l = .ofBlock n then t.num (s.slotOf f n) else s.held f l) ∧
      (t.num (s.slotOf f n) = s.block f n ∨ s.Free (t.num (s.slotOf f n))) := by
  rcases h with ⟨-, rfl⟩ | ⟨h0, b, v, htook, rfl⟩
  · rw [← block_of_slot hn]
    refine ⟨fun l => ?_, .inl rfl⟩
    split
    next hl => rw [hl, held_ofBlock hn]
    next => rfl
  · have hmv := htook.mapped _ hm
    have hnum : ∀ a ∈ s.slotsOf f, (v.setWord (s.slotOf f n) (BitVec.ofNat 32 b)).num a =
        if a = s.slotOf f n then b else s.num a := by
      intro a ha
      rw [num_setWord hmv, htook.toNat ho.mounted, htook.num ho (ho.slotsOf_subset hf ha)]
    have hself := hnum _ (slotOf_mem_slotsOf hn)
    rw [if_pos rfl] at hself
    rw [hself]
    refine ⟨?_, .inr htook.first.1⟩
    have haddr : ∀ l : Slot, (∀ i, l = .entry i → s.num (fIndirect f) ≠ 0) → s.slotAddr f l ∈ s.slotsOf f →
        (v.setWord (s.slotOf f n) (BitVec.ofNat 32 b)).num (s.slotAddr f l) =
          if l = .ofBlock n then b else s.num (s.slotAddr f l) := by
      intro l hl ha
      rw [hnum _ ha]
      refine if_congr ⟨ho.slotAddr_eq_slotOf hf hn hl, ?_⟩ rfl rfl
      rintro rfl
      exact slotAddr_ofBlock hn
    have hind := haddr .indirect (fun _ h => by cases h) (.inl ⟨10, le_refl _, rfl⟩)
    rw [if_neg (Ne.symm (Slot.ofBlock_ne_indirect n))] at hind
    intro l
    cases l with
    | direct i => exact haddr (.direct i) (fun _ h => by cases h) (.inl ⟨i, by omega, rfl⟩)
    | indirect =>
      rw [if_neg (Ne.symm (Slot.ofBlock_ne_indirect n))]
      exact hind
    | entry i =>
      have hind' : (v.setWord (s.slotOf f n) (BitVec.ofNat 32 b)).num (fIndirect f) = s.num (fIndirect f) :=
        hind
      rw [held_entry, held_entry, hind']
      by_cases hx : s.num (fIndirect f) = 0
      · have hlt : n < 10 := hn.resolve_right fun h => h.2 hx
        have hne : Slot.entry i ≠ .ofBlock n := by
          unfold Slot.ofBlock
          rw [dif_pos hlt]
          simp
        rw [if_pos hx, if_neg hne, if_pos hx]
      · rw [if_neg hx, if_neg hx]
        exact haddr (.entry i) (fun _ _ => hx) (.inr ⟨hx, i, i.isLt, rfl⟩)

/-- A new index block that is full of zeros adds no block to the file. -/
theorem Filled.held_index (ho : s.Own D X) (hf : f ∈ files D) (hm : s.isMapped (f / 1024) = true)
    (hclean : s.num (fIndirect f) = 0 → s.NextClean) (h : s.Filled (fIndirect f) t) :
    t.num (fIndirect f) ≠ 0 ∧ ∀ l, l ≠ .indirect → t.held f l = s.held f l := by
  rcases h with ⟨h0, rfl⟩ | ⟨h0, b, v, htook, rfl⟩
  · exact ⟨h0, fun _ _ => rfl⟩
  · have hb3 : b ≠ 0 := by
      have := ho.mounted.firstData_le htook.first.1
      have := s.three_le_firstData
      omega
    have hmi : v.isMapped (fIndirect f / 1024) = true := by
      refine htook.mapped _ ?_
      rw [fIndirect, file_words hf (by decide)]
      exact hm
    have hnum := fun a => num_setWord (w := BitVec.ofNat 32 b) hmi a
    rw [htook.toNat ho.mounted] at hnum
    have hind : (v.setWord (fIndirect f) (BitVec.ofNat 32 b)).num (fIndirect f) = b := by
      rw [hnum, if_pos rfl]
    refine ⟨by rwa [hind], fun l hl => ?_⟩
    cases l with
    | direct i =>
      have hi := i.isLt
      have hne : fDirect f i ≠ fIndirect f := by
        unfold fDirect fIndirect
        omega
      rw [held_direct, held_direct, hnum, if_neg hne, htook.num ho (direct_mem_slots hf hi)]
    | indirect => exact absurd rfl hl
    | entry i =>
      have hi := i.isLt
      have hblk : (1024 * b + i.val) / 1024 = b := by omega
      have hne : 1024 * b + i.val ≠ fIndirect f := by
        intro heq
        rw [heq, fIndirect, file_words hf (by decide)] at hblk
        exact ho.file_not_free hf (hblk ▸ htook.first.1)
      rw [held_entry, held_entry, hind, if_neg hb3, if_pos h0, hnum, if_neg hne]
      exact (htook.zero (hclean h0 b htook.first)).num hblk

/-- Where the number of block `n` goes. -/
theorem Walked.slot (ho : s.Own D X) (hf : f ∈ files D) (hm : s.isMapped (f / 1024) = true)
    (hclean : ndirect ≤ n → n < nindirect → s.num (fIndirect f) = 0 → s.NextClean)
    (h : s.Walked f n p t) :
    t.HasSlot f n ∧ p = t.slotOf f n ∧ ∀ l, l ≠ .indirect → t.held f l = s.held f l := by
  rcases h with ⟨hn, rfl, rfl⟩ | ⟨hge, hlt, u, hfill, hsees, rfl⟩
  · exact ⟨.inl hn, by rw [slotOf, if_pos hn], fun _ _ => rfl⟩
  · obtain ⟨h0, hheld⟩ := hfill.held_index ho hf hm (hclean hge hlt)
    refine ⟨.inr ⟨hlt, by rwa [hsees.num]⟩, ?_, fun l hl => by rw [held_congr hsees.num, hheld l hl]⟩
    rw [slotOf, if_neg (Nat.not_lt.mpr hge)]

end Fs

/-- If `read_block` returns, nothing has changed. -/
theorem readBlock_mounted (h : s.Mounted) (b : Nat) :
    (readBlock b s).Sat (fun _ t => s.Sees t) (fun _ _ => False) (fun _ => True) := by
  by_cases hb : b < s.nblocks
  · by_cases hf : s.Free b
    · rw [readBlock, bind_ret (checkExists_eq h hb), sat_bind, checkUsed, get_bind, when_pos h.bitmap,
        bind_ret (blockIsFree_eq h.hasBitmap b), assert_neg (by simpa using hf)]
      trivial
    · exact (readBlock_sat h hb hf).mono (fun _ _ h => h.1) (fun _ _ h => h) fun _ _ => trivial
  · rw [readBlock, sat_bind, checkExists, get_bind, when_pos h.super, bind_ret (sNblocks_eq h.hasBitmap),
      assert_neg hb]
    trivial

/-- `file_get_block` gives the file the block it asks for, and no other. -/
theorem fileGetBlock_held (ho : s.Own D X) (hf : f ∈ Fs.files D) (hm : s.isMapped (f / 1024) = true)
    (hclean : ndirect ≤ n → n < nindirect → s.num (fIndirect f) = 0 → s.NextClean) :
    (fileGetBlock f n s).Sat
      (fun b t => n < nindirect ∧
        (∀ l, l ≠ .indirect → t.held f l = if l = .ofBlock n then b else s.held f l) ∧
          (b = s.block f n ∨ s.Free b))
      (fun _ t => ∀ l, l ≠ .indirect → t.held f l = s.held f l) (fun _ => True) := by
  rw [fileGetBlock, fileMapBlock, sat_bind, sat_bind]
  refine (fileBlockWalk_sat ho hf hm n true fun _ => hclean).mono ?_
    (fun _ _ h l _ => Fs.held_congr h.1.num l) fun _ _ => trivial
  rintro p u ⟨hwalk, -, -, hmp, X', -, hou, hon⟩
  obtain ⟨hn, rfl, hheld⟩ := hwalk.slot ho hf hm hclean
  have hblock : u.block f n = s.block f n := by
    rw [Fs.block_eq_held, Fs.block_eq_held, hheld _ (Fs.Slot.ofBlock_ne_indirect n)]
  refine sat_call (fillSlot_sat hou.mounted hmp true) ?_ ?_ (fun _ h => h.elim)
  · rintro - t ⟨hfill, -⟩
    obtain ⟨hnew, hnum⟩ := hfill.held hou hf hn hmp
    have hmt : t.isMapped (u.slotOf f n / 1024) = true := by
      rcases hfill with ⟨-, rfl⟩ | ⟨-, b, v, htook, rfl⟩
      · exact hmp
      · simp [htook.mapped _ hmp]
    have hmounted : t.Mounted := by
      rcases hfill with ⟨-, rfl⟩ | ⟨-, b, v, htook, rfl⟩
      · exact hou.mounted
      · have hov := (hou.took htook).1
        have hslot := hou.slotsOf_subset hf (Fs.slotOf_mem_slotsOf hn)
        exact (Fs.alters_setWord (htook.mapped _ hmp) (hov.slot_not_free hslot)).mounted
          (hov.slot_plain hslot) hov.mounted
    rw [bind_ret (load_look hmt)]
    refine sat_call (readBlock_mounted hmounted _) ?_ (fun _ _ h => h.elim) (fun _ h => h)
    intro _ v hsees
    refine ⟨hn.lt, fun l hl => ?_, hnum.imp (fun h => h.trans hblock) fun h => hon.free _ h⟩
    rw [Fs.held_congr hsees.num, hnew, hheld l hl]
    rfl
  · rintro - t ⟨hsees, -⟩
    intro l hl
    rw [Fs.held_congr hsees.num, hheld l hl]

/-- The same, said of the blocks. -/
theorem fileGetBlock_blocks (ho : s.Own D X) (hf : f ∈ Fs.files D) (hm : s.isMapped (f / 1024) = true)
    (hclean : ndirect ≤ n → n < nindirect → s.num (fIndirect f) = 0 → s.NextClean) :
    (fileGetBlock f n s).Sat
      (fun b t => (∀ k, t.block f k = if k = n then b else s.block f k) ∧ (b = s.block f n ∨ s.Free b))
      (fun _ t => ∀ k, t.block f k = s.block f k) (fun _ => True) := by
  refine (fileGetBlock_held ho hf hm hclean).mono ?_ ?_ (fun _ h => h)
  · rintro b t ⟨hn, hheld, hb⟩
    exact ⟨Fs.block_of_held_update hn hheld, hb⟩
  · intro _ t hheld k
    rw [Fs.block_eq_held, Fs.block_eq_held, hheld _ (Fs.Slot.ofBlock_ne_indirect k)]

/-! ## What clients do with a file -/

/-- A client gets a block of a file, and may write to it. -/
theorem getBlock_neat (hs : s.Neat) (hf : s.Handle f) (hused : ¬s.Unused f) (hn : n ≤ s.nblocksOf f)
    (hclean : ndirect ≤ n → s.num (fIndirect f) = 0 → s.NextClean) (data : Option Page) :
    ((FsOp.getBlock f n data).exec s).Sat (fun _ t => t.Neat) (fun _ t => t.Neat)
      (fun q => q = .noMemory) := by
  obtain ⟨hfile, hreg, hm, -⟩ := hf
  have ho := hs.tidy.own
  have hfD := Fs.mem_files_dirBlocks.mpr hfile
  have hsize : ∀ {t D' X'}, s.Advance s.dirBlocks s.indexBlocks (s.emptySlots f) t D' X' →
      t.nblocksOf f = s.nblocksOf f := by
    intro t D' X' hadv
    have hkeep : t.look (fSize f) = s.look (fSize f) := by
      refine hadv.onward.frame.look _ ?_ ?_ ?_
      · exact fun h => ho.notMem_slotsOf hfD hfD (i := 32) (by decide) (.inr (.inl (by decide))) h.2
      · have := ho.type_inData hfD
        rw [fType, Fs.file_words hfD (by decide)] at this
        rwa [fSize, Fs.file_words hfD (by decide)]
      · rw [fSize, Fs.file_words hfD (by decide)]
        exact ho.file_not_free hfD
    unfold Fs.nblocksOf
    rw [hkeep]
  unfold FsOp.exec
  refine sat_call ((fileGetBlock_sat ho hfD hm n fun _ _ =>
    ⟨fun h => absurd h hreg, fun h10 h0 => hclean h10 h0⟩).and
    (fileGetBlock_blocks (n := n) ho hfD hm fun h10 _ h0 => hclean h10 h0)) ?_ ?_ (fun _ h => h.1)
  · rintro b t ⟨⟨-, hne, -, D', X', hadv, p, hp, rfl⟩, hblocks, hb⟩
    have hot := hadv.own
    have hframe := hadv.onward.frame.mono Fs.emptySlots_subset_wordsOf
    have hbeyond : ∀ k, t.nblocksOf f + 1 ≤ k → t.block f k = 0 := by
      intro k hk
      rw [hsize hadv] at hk
      rw [hblocks, if_neg (by omega)]
      exact hs.beyond f hfile k hk
    cases data with
    | none => exact hs.of_frame hfile hreg hused hot hframe hbeyond
    | some pg =>
      have hf' := Fs.files_mono hadv.dirs.sub hfD
      have hbused := hot.pointer_used hf' hp hne
      have hregt : ¬t.IsDir f := fun h => hreg ((hadv.onward.isDir hfD).mp h)
      obtain ⟨h₁, h₂⟩ := hot.fileBlock f hf' hregt p hp hne
      have hinert := hot.inert_page hbused.1 h₁ h₂
      have halt := Fs.alters_setPage hbused.2.2 pg
      refine hs.of_frame hfile hreg hused (hot.alters hinert halt)
        (hframe.trans (halt.frames hinert.1) ?_) ?_
      · intro a ha
        rcases hb with heq | hfree
        · have h0 : s.block f n ≠ 0 := heq ▸ hne
          refine .inl (.inr (.inr ⟨.ofBlock n, ?_, ?_⟩))
          · rwa [Fs.held_ofBlock (Fs.hasSlot_of_block h0)]
          · rw [Fs.held_ofBlock (Fs.hasSlot_of_block h0), ← heq]
            exact ha
        · exact .inr (by rwa [show a / 1024 = t.num p from ha])
      · have hslot : ∀ a ∈ Fs.slots D' X', (t.setPage (t.num p) pg).look a = t.look a := fun a ha =>
          halt.look a fun haA => hinert.2.1 a haA ha
        have hsz : (t.setPage (t.num p) pg).look (fSize f) = t.look (fSize f) := by
          refine halt.look _ fun (heq : fSize f / 1024 = t.num p) => ?_
          rw [fSize, Fs.file_words hf' (by decide)] at heq
          rcases hot.file_block hf' with rfl | ⟨hD, -, -⟩
          · exact hreg hs.root
          · exact h₁ (heq ▸ hD)
        intro k hk
        rw [hot.block_congr hslot hf']
        refine hbeyond k ?_
        unfold Fs.nblocksOf at hk ⊢
        rwa [hsz] at hk
  · rintro e t ⟨⟨⟨D', X', hadv⟩, -⟩, hblocks⟩
    refine hs.of_frame hfile hreg hused hadv.own (hadv.onward.frame.mono Fs.emptySlots_subset_wordsOf) ?_
    intro k hk
    rw [hsize hadv] at hk
    rw [hblocks]
    exact hs.beyond f hfile k hk

/-- `file_set_size` cuts off the blocks past the new size. -/
theorem fileSetSize_blocks (hs : s.Neat) (hf : s.Handle f) (newsize : Word) :
    (fileSetSize f newsize s).Sat
      (fun _ t => ∀ k, newsize.toNat / by2blk + 1 ≤ k → t.block f k = 0) (fun _ _ => True)
      (fun _ => True) := by
  have hup := hf.upOk
  obtain ⟨hfile, hreg, hm, -⟩ := hf
  have hts := hs.tidy
  have hfD := Fs.mem_files_dirBlocks.mpr hfile
  have hms : s.isMapped (fSize f / 1024) = true := by
    rw [fSize, Fs.file_words hfD (by decide)]
    exact hm
  rw [fileSetSize, bind_ret (load_look hms)]
  have hcut : (Prog.when (s.look (fSize f) > newsize) (fileTruncate f newsize) s).Sat
      (fun _ t => s.Trimmed s.dirBlocks f t ∧ ∀ k, newsize.toNat / by2blk + 1 ≤ k → t.block f k = 0)
      (fun _ _ => True) (fun _ => True) := by
    refine sat_when (fun _ => ?_) (fun hle => ?_)
    · refine ((fileTruncate_truncated (hts.sound hfD hm) newsize).and
        (fileTruncate_sat hts.own hfD hreg hm newsize)).mono ?_ (fun _ _ _ => trivial) fun _ _ => trivial
      rintro - t ⟨htrunc, htrim⟩
      refine ⟨htrim, fun k hk => htrunc.cleared k (le_trans ?_ hk)⟩
      unfold newNblocks
      split
      · exact Nat.zero_le _
      · exact le_refl _
    · refine ⟨(Fs.Sees.refl s).trimmed hts.own f, fun k hk => hs.beyond f hfile k (le_trans ?_ hk)⟩
      have hle : (s.look (fSize f)).toNat ≤ newsize.toNat := BitVec.not_lt.mp hle
      unfold Fs.nblocksOf
      exact Nat.succ_le_succ (Nat.div_le_div_right hle)
  refine sat_call hcut ?_ (fun _ _ h => h) (fun _ h => h)
  rintro - t ⟨ht, hbeyond⟩
  obtain ⟨X', hot⟩ := ht.own
  have hmt : t.isMapped (fSize f / 1024) = true := ht.mapped _ hms
  have halt := Fs.alters_setWord (w := newsize) hmt (by
    rw [fSize, Fs.file_words hfD (by decide)]
    exact hot.file_not_free hfD)
  have hinert := hot.inert_file hfD (i := 32) (by decide) (by decide)
  have hstored := hot.alters hinert halt
  have hblock : ∀ k, (t.setWord (fSize f) newsize).block f k = t.block f k :=
    hot.block_congr (fun a ha => halt.look a fun haA => hinert.2.1 a haA ha) hfD
  rw [bind_ret (store_mapped hmt _)]
  have hupt : (t.setWord (fSize f) newsize).UpOk s.dirBlocks f :=
    (hup.trimmed ht hfD).evolved (halt.evolved hot hinert fun d hd heq => by
      have := (hot.file_word_inj hd hfD (i := 45) (j := 32) (by decide) (by decide) heq).2
      omega) hfD
  refine (flushDir_sat hstored hfD (halt.mapped _ (ht.mapped _ hm)) hupt).mono ?_ (fun _ _ _ => trivial)
    fun _ _ => trivial
  intro _ u hsees k hk
  rw [hsees.block, hblock, hbeyond k hk]

/-- A client sets the size of a file. -/
theorem setSize_neat (hs : s.Neat) (hf : s.Handle f) (hused : ¬s.Unused f) (newsize : Word) :
    (fileSetSize f newsize s).Sat (fun _ t => t.Neat) (fun _ t => t.Neat) (fun q => q = .noMemory) := by
  have hblocks := fileSetSize_blocks hs hf newsize
  have hup := hf.upOk
  obtain ⟨hfile, hreg, hm, -⟩ := hf
  have hfD := Fs.mem_files_dirBlocks.mpr hfile
  refine ((fileSetSize_sat hs.tidy.own hfD hreg hm hup newsize).and hblocks).mono ?_ (fun _ _ h => h.1.elim)
    fun _ h => h.1
  rintro - t ⟨⟨htrim, hsize⟩, hbeyond⟩
  obtain ⟨X', hot⟩ := htrim.own
  refine hs.of_frame hfile hreg hused hot htrim.frame fun k hk => hbeyond k ?_
  unfold Fs.nblocksOf at hk
  rwa [hsize] at hk

end Mos
