import Mos.Fs.FatSlots
import Mos.Fs.Neat

/-!
# What a new file is made of

`file_create` takes the first entry without a name, or makes room for it, and writes the name there. In a neat
tree the entry has the size 0 and no blocks; its type is what the last owner has left. A removed file leaves the
type of a regular file, a removed directory that of a directory.
-/

namespace Mos

open Lib Prog Function

variable {s t u v : Fs} {a b c d e f g i j k n p : Nat} {A D X : Set Nat} {root rest name : List Byte}

namespace Fs

/-! ## A directory grows -/

/-- The directory `d` has got the block `b`, which is full of zeros, behind its last one. -/
structure Grew (s : Fs) (d b : Nat) (t : Fs) : Prop where
  consistent : t.Consistent
  fresh : s.Free b
  zero : t.Zero b
  room : s.nblocksOf d < nindirect
  size : t.nblocksOf d = s.nblocksOf d + 1
  word : ∀ g, s.IsFile g → ∀ i, i < 34 ∨ i = 45 → g ≠ d ∨ i ≠ 32 → t.look (g + i) = s.look (g + i)
  held : ∀ l, l ≠ .indirect → t.held d l = if l = .ofBlock (s.nblocksOf d) then b else s.held d l
  others : ∀ g, s.IsFile g → g ≠ d → ∀ l, t.held g l = s.held g l

namespace Grew

theorem isDir (h : s.Grew d b t) (hg : s.IsFile g) : t.IsDir g ↔ s.IsDir g :=
  IsDir.congr (h.word g hg 33 (.inl (by decide)) (.inr (by decide)))

theorem nblocksOf (h : s.Grew d b t) (hg : s.IsFile g) (hne : g ≠ d) : t.nblocksOf g = s.nblocksOf g := by
  unfold Fs.nblocksOf fSize
  rw [h.word g hg 32 (.inl (by decide)) (.inl hne)]

theorem block (h : s.Grew d b t) (k : Nat) :
    t.block d k = if k = s.nblocksOf d then b else s.block d k :=
  block_of_held_update h.room h.held k

theorem block_ne (h : s.Grew d b t) (hg : s.IsFile g) (hne : g ≠ d) (k : Nat) : t.block g k = s.block g k :=
  block_congr_held (h.others g hg hne) k

/-- The entries of the new block. -/
theorem zero_word (h : s.Grew d b t) (hj : j < file2blk) (hi : i < 64) : t.look (fileIn b j + i) = 0 :=
  h.zero _ (fileIn_block hj hi)

theorem not_isDir (h : s.Grew d b t) (hj : j < file2blk) : ¬t.IsDir (fileIn b j) := by
  unfold IsDir fType
  rw [h.zero_word hj (by decide)]
  decide

theorem unused (h : s.Grew d b t) (hj : j < file2blk) : t.Unused (fileIn b j) := by
  have h0 : t.look (fileIn b j) = 0 := h.zero_word hj (i := 0) (by decide)
  unfold Unused
  rw [h0]
  rfl

theorem held_zero (h : s.Grew d b t) (hj : j < file2blk) (l : Slot) : t.held (fileIn b j) l = 0 := by
  have hnum : ∀ i < 64, t.num (fileIn b j + i) = 0 := by
    intro i hi
    unfold num
    rw [h.zero_word hj hi]
    rfl
  cases l with
  | direct i =>
    rw [held_direct, fDirect, Nat.add_assoc]
    exact hnum _ (by omega)
  | indirect => exact hnum 44 (by decide)
  | entry i =>
    rw [held_entry, if_pos]
    exact hnum 44 (by decide)

/-- What can be reached is as before, or it is in the new block. -/
theorem isFile (h : s.Grew d b t) (hg : t.IsFile g) : s.IsFile g ∨ ∃ j < file2blk, g = fileIn b j := by
  induction hg with
  | root => exact .inl .root
  | @entry e j l he hdir hl hb hj ih =>
    have he : s.IsFile e := by
      rcases ih with he | ⟨j', hj', rfl⟩
      · exact he
      · exact absurd hdir (h.not_isDir hj')
    have hdir := (h.isDir he).mp hdir
    by_cases hed : e = d
    · subst hed
      have heq := h.held l hl
      rw [heq] at hb ⊢
      split at hb
      next hlb =>
        rw [if_pos hlb]
        exact .inr ⟨j, hj, rfl⟩
      next hlb =>
        rw [if_neg hlb]
        exact .inl (.entry he hdir hl hb hj)
    · rw [h.others e he hed] at hb ⊢
      exact .inl (.entry he hdir hl hb hj)

/-- What could be reached still can. -/
theorem isFile_of (h : s.Grew d b t) (hs : s.Neat) (hg : s.IsFile g) : t.IsFile g := by
  induction hg with
  | root => exact .root
  | @entry e j l he hdir hl hb hj ih =>
    have heq : t.held e l = s.held e l := by
      by_cases hed : e = d
      · subst hed
        rw [h.held l hl, if_neg]
        rintro rfl
        have htight := hs.tight e he hdir
        rw [block_eq_held, if_pos h.room] at htight
        exact hb htight
      · exact h.others e he hed l
    rw [← heq] at hb ⊢
    exact .entry ih ((h.isDir he).mpr hdir) hl hb hj

/-- A directory was one before. -/
theorem dir (h : s.Grew d b t) (he : t.IsFile e) (hdir : t.IsDir e) : s.IsFile e ∧ s.IsDir e := by
  rcases h.isFile he with he | ⟨j, hj, rfl⟩
  · exact ⟨he, (h.isDir he).mp hdir⟩
  · exact absurd hdir (h.not_isDir hj)

theorem mem_entries (h : s.Grew d b t) (he : s.IsFile e) :
    f ∈ t.entries e ↔ f ∈ s.entries e ∨ e = d ∧ ∃ j < file2blk, f = fileIn b j := by
  rw [Fs.mem_entries, Fs.mem_entries]
  by_cases hed : e = d
  · subst hed
    rw [h.size]
    constructor
    · rintro ⟨n, hn, j, hj, rfl⟩
      rw [h.block]
      split
      next => exact .inr ⟨rfl, j, hj, rfl⟩
      next hne => exact .inl ⟨n, by omega, j, hj, rfl⟩
    · rintro (⟨n, hn, j, hj, rfl⟩ | ⟨-, j, hj, rfl⟩)
      · refine ⟨n, by omega, j, hj, ?_⟩
        rw [h.block, if_neg (by omega)]
      · refine ⟨s.nblocksOf e, by omega, j, hj, ?_⟩
        rw [h.block, if_pos rfl]
  · simp only [h.nblocksOf he hed, h.block_ne he hed, hed, false_and, or_false]

/-- The tree stays tidy. -/
theorem tree (h : s.Grew d b t) (hs : s.Tree) (hb : b ≠ 0) : t.Tree := by
  refine ⟨h.consistent, ?_, (h.isDir .root).mpr hs.root, ?_, ?_⟩
  · intro e he hdir n hn
    obtain ⟨he, hdir⟩ := h.dir he hdir
    by_cases hed : e = d
    · subst hed
      rw [h.size] at hn
      rw [h.block]
      split
      next => exact hb
      next hne => exact hs.complete e he hdir n (by omega)
    · rw [h.nblocksOf he hed] at hn
      rw [h.block_ne he hed]
      exact hs.complete e he hdir n hn
  · intro g hg n hn
    rcases h.isFile hg with hg | ⟨j, hj, rfl⟩
    · by_cases hgd : g = d
      · subst hgd
        rw [h.size] at hn
        rw [h.block, if_neg (by omega)]
        exact hs.beyond g hg n (by omega)
      · rw [h.nblocksOf hg hgd] at hn
        rw [h.block_ne hg hgd]
        exact hs.beyond g hg n hn
    · exact block_of_held (h.held_zero hj) n
  · intro e he hdir x hx y hy name hn hxn hyn
    obtain ⟨he, hdir⟩ := h.dir he hdir
    have hold : ∀ z ∈ t.entries e, t.HasName z name → z ∈ s.entries e ∧ s.HasName z name := by
      intro z hz hzn
      rcases (h.mem_entries he).mp hz with hz | ⟨-, j, hj, rfl⟩
      · refine ⟨hz, (HasName.congr (fun i hi => ?_) hn.short).mp hzn⟩
        exact h.word z (hs.entry_isFile he hdir hz) i (.inl (by omega)) (.inr (by omega))
      · exact absurd (h.unused hj) (hzn.not_unused hn)
    obtain ⟨hx, hxn⟩ := hold x hx hxn
    obtain ⟨hy, hyn⟩ := hold y hy hyn
    exact hs.distinct e he hdir x hx y hy name hn hxn hyn

/-- The tree stays neat. -/
theorem neat (h : s.Grew d b t) (hs : s.Neat) (hb : b ≠ 0) (hd : s.IsFile d) (hused : d ≠ sRoot → ¬s.Unused d) :
    t.Neat := by
  refine ⟨h.tree hs.toTree hb, ?_, ?_, ?_⟩
  · intro e he hdir
    obtain ⟨he, hdir⟩ := h.dir he hdir
    by_cases hed : e = d
    · subst hed
      rw [h.size, h.block, if_neg (by omega)]
      exact hs.beyond e he _ (le_refl _)
    · rw [h.nblocksOf he hed, h.block_ne he hed]
      exact hs.tight e he hdir
  · intro e he hdir x hx
    obtain ⟨he, hdir⟩ := h.dir he hdir
    rcases (h.mem_entries he).mp hx with hx | ⟨rfl, j, hj, rfl⟩
    · have hsame := h.word x (hs.entry_isFile he hdir hx) 45 (.inr rfl) (.inr (by decide))
      rw [fDir, hsame]
      exact hs.up e he hdir x hx
    · exact .inl (h.zero_word hj (i := 45) (by decide))
  · intro g hg hroot hu
    rcases h.isFile hg with hg | ⟨j, hj, rfl⟩
    · have hu' : s.Unused g :=
        (Unused.congr (h.word g hg 0 (.inl (by decide)) (.inr (by decide)))).mp hu
      have hgd : g ≠ d := by
        rintro rfl
        exact hused hroot hu'
      obtain ⟨hsize, hheld⟩ := hs.blank g hg hroot hu'
      refine ⟨(h.word g hg 32 (.inl (by decide)) (.inl hgd)).trans hsize, fun l => ?_⟩
      rw [h.others g hg hgd, hheld]
    · exact ⟨h.zero_word hj (i := 32) (by decide), h.held_zero hj⟩

/-- The directory has no new names. -/
theorem find (h : s.Grew d b t) (hs : s.Tree) (hd : s.IsFile d) (hdir : s.IsDir d) (hn : IsName name)
    (hnone : s.find d name = none) : t.find d name = none := by
  unfold Fs.find
  rw [List.find?_eq_none]
  intro z hz
  simp only [decide_eq_true_eq]
  intro hzn
  rcases (h.mem_entries hd).mp hz with hz | ⟨-, j, hj, rfl⟩
  · refine Tidy.find_none_iff hnone hz ((HasName.congr (fun i hi => ?_) hn.short).mp hzn)
    exact h.word z (hs.entry_isFile hd hdir hz) i (.inl (by omega)) (.inr (by omega))
  · exact hzn.not_unused hn (h.unused hj)

end Grew

end Fs

/-- `file_get_block` of the next block of a directory, with a larger size. -/
theorem growDir_grew (hs : s.Neat) (hd : s.IsFile d) (hdir : s.IsDir d) (hm : s.isMapped (d / 1024) = true)
    (hc : s.Clean) (hsup : s.Supplied) (hget : s.CanGet d (s.nblocksOf d)) :
    ((do
      let size ← load (fSize d)
      store (fSize d) (size + BitVec.ofNat 32 by2blk)
      let blk ← fileGetBlock d (s.nblocksOf d)
      return fileIn blk 0 : FsM Nat) s).Sat
      (fun f t => ∃ b, f = fileIn b 0 ∧ s.Grew d b t ∧ b ≠ 0 ∧ t.isMapped b = true) (fun _ _ => False)
      (fun q => q = .noMemory) := by
  have ho := hs.tidy.own
  have hdD := Fs.mem_files_dirBlocks.mpr hd
  have hsd : fSize d / 1024 = d / 1024 := by rw [fSize, Fs.file_words hdD (by decide)]
  have hms : s.isMapped (fSize d / 1024) = true := by rwa [hsd]
  have hinert := ho.inert_file hdD (i := 32) (by decide) (by decide)
  have halt := Fs.alters_setWord (w := s.look (fSize d) + BitVec.ofNat 32 by2blk) hms (by
    rw [hsd]
    exact ho.file_not_free hdD)
  rw [bind_ret (load_look hms), bind_ret (store_mapped hms _)]
  set u := s.setWord (fSize d) (s.look (fSize d) + BitVec.ofNat 32 by2blk) with hu
  have hou := ho.alters hinert halt
  have hon := halt.onward hinert
  have hcu := hon.clean hc
  have hdiru : u.IsDir d := (hon.isDir hdD).mpr hdir
  have hslot : ∀ a ∈ Fs.slots s.dirBlocks s.indexBlocks, u.look a = s.look a := fun a ha =>
    halt.look a fun haA => hinert.2.1 a haA ha
  have hheldu : ∀ g ∈ Fs.files s.dirBlocks, ∀ l, u.held g l = s.held g l := fun g hg l =>
    Fs.held_congr_slotsOf (fun a ha => hslot a (ho.slotsOf_subset hg ha)) l
  have hblock0 : u.block d (s.nblocksOf d) = 0 := by
    rw [Fs.block_congr_held (hheldu d hdD)]
    exact hs.tight d hd hdir
  have hgetu : u.CanGet d (s.nblocksOf d) := (ho.canGet_alters hinert halt hdD _).mpr hget
  have hmu : u.isMapped (d / 1024) = true := halt.mapped _ hm
  refine sat_call (((fileGetBlock_sat hou hdD hmu (s.nblocksOf d) fun _ _ => ⟨fun _ => hcu, fun _ _ => hcu.next⟩).and
    (fileGetBlock_held (n := s.nblocksOf d) hou hdD hmu fun _ _ _ => hcu.next)).and
      (fileGetBlock_supplied hou hdD hmu hsup (s.nblocksOf d))) ?_ (fun _ _ h => h.2.1 hgetu) (fun _ h => h.1.1)
  rintro b t ⟨⟨⟨⟨v, hreach, hsees⟩, hne, hmb, D', X', hadv, -⟩, hroom, hheld, -⟩, -⟩
  obtain ⟨hfree, hzero⟩ := hreach.fresh hou hdD hmu hblock0 hcu
  have hframe := hadv.onward.frame
  -- the words of the files, but for the size of `d`
  have hword : ∀ g, s.IsFile g → ∀ i, i < 64 → i < 34 ∨ 44 < i → t.look (g + i) = u.look (g + i) := by
    intro g hg i hi hor
    have hgD := Fs.mem_files_dirBlocks.mpr hg
    refine hframe.look _ (fun h => hou.notMem_slotsOf hdD hgD hi (.inr hor) h.2) ?_ ?_
    · have := hou.type_inData hgD
      rw [fType, Fs.file_words hgD (by decide)] at this
      rwa [Fs.file_words hgD hi]
    · rw [Fs.file_words hgD hi]
      exact hou.file_not_free hgD
  refine ⟨b, rfl, ⟨hadv.own.consistent, ?_, ?_, hroom, ?_, ?_, ?_, ?_⟩, hne, hmb⟩
  · exact (halt.free hinert.1 b).mp hfree
  · intro a ha
    rw [hsees.look]
    exact hzero a ha
  · have hsize : t.look (fSize d) = s.look (fSize d) + BitVec.ofNat 32 by2blk :=
      (hword d hd 32 (by decide) (.inl (by decide))).trans Fs.look_setWord_self
    have hlt : (s.look (fSize d)).toNat / 4096 < 1024 := hroom
    unfold Fs.nblocksOf by2blk
    rw [hsize, BitVec.toNat_add, show (BitVec.ofNat 32 by2blk : Word).toNat = 4096 from rfl]
    omega
  · intro g hg i hi hor
    rw [hword g hg i (by omega) (by omega)]
    refine halt.look _ fun heq => ?_
    have := (ho.file_word_inj (Fs.mem_files_dirBlocks.mpr hg) hdD (j := 32) (by omega) (by decide) heq)
    omega
  · intro l hl
    rw [hheld l hl, hheldu d hdD]
  · intro g hg hgd l
    have hgD := Fs.mem_files_dirBlocks.mpr hg
    rw [← hheldu g hgD]
    refine Fs.held_congr_slotsOf (fun a ha => ?_) l
    have hmem := hou.slotsOf_subset hgD ha
    exact hframe.look a (fun h => hgd (hou.slotsOf_file hgD hdD ha h.2)) (hou.slot_inData hmem)
      (hou.slot_not_free hmem)

/-! ## The entry of a new file -/

namespace Fs

/-- There is an entry without a name in the directory `d`, or a block for more of them; then nothing is left in the
pages of the free blocks. -/
def Accommodates (s : Fs) (d : Nat) : Prop :=
  (∃ f ∈ s.entries d, s.Unused f) ∨ s.Supplied ∧ s.Clean ∧ s.CanGet d (s.nblocksOf d)

/-- `f_type` of the entry that a new file in `d` takes: the first one without a name, or one in a new block. -/
def slotType (s : Fs) (d : Nat) : Word :=
  (((s.entries d).find? fun f => s.Unused f).map fun f => s.look (fType f)).getD 0

theorem Neat.sees (hs : s.Neat) (h : s.Sees t) : t.Neat := hs.visits (h.visits _)

theorem Sees.entries (h : s.Sees t) (d : Nat) : t.entries d = s.entries d := by
  unfold Fs.entries entriesFrom
  simp only [h.nblocksOf, h.block]

theorem Sees.find (h : s.Sees t) (d : Nat) (name : List Byte) : t.find d name = s.find d name := by
  unfold Fs.find
  rw [h.entries, h.find?]

/-- A file that a path leads to has a name. -/
theorem resolve_used {names : List (List Byte)} {o : Option Nat}
    (hz : ∀ n ∈ names, n ≠ [] ∧ 0 ∉ n) (hr : s.resolve names = .ok (.found o f)) (hroot : f ≠ sRoot) :
    ¬s.Unused f := by
  cases names using List.reverseRecOn with
  | nil =>
    cases hr
    exact absurd rfl hroot
  | append_singleton ns n =>
    obtain ⟨hlen, p, d, -, -, hw⟩ := resolve_concat.mp hr
    obtain ⟨-, hname⟩ := find_spec (Walk.last_eq_found.mp hw.symm).1
    exact hname.not_unused ⟨(hz n (by simp)).1, (hz n (by simp)).2, hlen⟩

end Fs

/-- `dir_alloc_file` gives out an entry without a name. -/
theorem dirAllocFile_neat (hs : s.Neat) (hd : s.IsFile d) (hdir : s.IsDir d) (hm : s.isMapped (d / 1024) = true)
    (hused : d ≠ sRoot → ¬s.Unused d) (hroom : s.Accommodates d) :
    (dirAllocFile d s).Sat
      (fun e t => t.Neat ∧ t.IsFile d ∧ t.IsDir d ∧ e ∈ t.entries d ∧ t.Unused e ∧
        t.isMapped (e / 1024) = true ∧ t.look (fType e) = s.slotType d ∧
          ∀ name, IsName name → s.find d name = none → t.find d name = none)
      (fun _ _ => False) (fun q => q = .noMemory) := by
  have ho := hs.tidy.own
  have hdD := Fs.mem_files_dirBlocks.mpr hd
  have hms : s.isMapped (fSize d / 1024) = true := by
    rw [fSize, Fs.file_words hdD (by decide)]
    exact hm
  rw [dirAllocFile, bind_ret (load_look hms), sat_bind]
  refine ((allocFileFrom_find d _ 0 s ho hdD hm fun k _ hk =>
    hs.complete d hd hdir k (by unfold Fs.nblocksOf; omega)).and (Outcome.sat_self _)).mono ?_
      (fun _ _ h => h.1.elim) (fun _ h => h.1)
  rintro o t ⟨⟨hsees, hfound, hmf⟩, hret⟩
  have hfile : ∀ {g}, s.IsFile g → t.IsFile g := fun hg => hsees.keepsDirs.isFile hg
  have hdirt : t.IsDir d := by rwa [Fs.IsDir, hsees.look]
  change (s.entries d).find? (fun f => s.Unused f) = o at hfound
  cases o with
  | some f =>
    have hf := List.mem_of_find?_eq_some hfound
    refine ⟨hs.sees hsees, hfile hd, hdirt, by rwa [hsees.entries], ?_, hmf f rfl, ?_, ?_⟩
    · exact hsees.unused.mpr (by simpa using List.find?_some hfound)
    · rw [Fs.slotType, hfound, hsees.look]
      rfl
    · exact fun name _ hnone => by rwa [hsees.find]
  | none =>
    have hnone : ∀ f ∈ s.entries d, ¬s.Unused f := by
      rw [List.find?_eq_none] at hfound
      simpa using hfound
    obtain ⟨hsup, hc, hget⟩ : s.Supplied ∧ s.Clean ∧ s.CanGet d (s.nblocksOf d) :=
      hroom.resolve_left (by rintro ⟨f, hf, hu⟩; exact hnone f hf hu)
    have hsupt : t.Supplied := by
      have := allocFileFrom_feeds d ((s.look (fSize d)).toNat / by2blk) 0 s hsup
      rw [hret] at this
      exact this
    have hct : t.Clean := (hsees.onward ∅ ∅).clean hc
    have hgett : t.CanGet d (t.nblocksOf d) := by
      rw [hsees.nblocksOf]
      exact (ho.canGet_alters ho.inert_ups (hsees.alters _) hdD _).mpr hget
    have hnt := hs.sees hsees
    have hn : (s.look (fSize d)).toNat / by2blk = t.nblocksOf d := (hsees.nblocksOf d).symm
    dsimp only
    rw [hn]
    refine (growDir_grew hnt (hfile hd) hdirt (hsees.mapped _ hm) hct hsupt hgett).mono ?_
      (fun _ _ h => h) (fun _ h => h)
    rintro _ u ⟨b, rfl, hgrew, hb, hmb⟩
    have hj : 0 < file2blk := by decide
    have hnu := hgrew.neat hnt hb (hfile hd) fun hroot hu => hused hroot (hsees.unused.mp hu)
    refine ⟨hnu, hgrew.isFile_of hnt (hfile hd), (hgrew.isDir (hfile hd)).mpr hdirt,
      (hgrew.mem_entries (hfile hd)).mpr (.inr ⟨rfl, 0, hj, rfl⟩), hgrew.unused hj, ?_, ?_, ?_⟩
    · rwa [fileIn_div hj]
    · rw [Fs.slotType, hfound]
      exact hgrew.zero_word hj (i := 33) (by decide)
    · intro name hname h0
      exact hgrew.find hnt.toTree (hfile hd) hdirt hname (by rwa [hsees.find])

namespace Fs

/-- The file `f` has no contents, and `f_dir` is 0 or points at its directory. -/
structure Hollow (s : Fs) (f : Nat) : Prop where
  size : s.look (fSize f) = 0
  direct : ∀ i < 10, s.look (fDirect f i) = 0
  indirect : s.look (fIndirect f) = 0
  dir : ∃ d, s.IsFile d ∧ s.IsDir d ∧ f ∈ s.entries d ∧
    (s.look (fDir f) = 0 ∨ s.look (fDir f) = filePtr d)

/-- An entry without a name is hollow. -/
theorem Neat.hollow (hs : s.Neat) (hd : s.IsFile d) (hdir : s.IsDir d) (hf : f ∈ s.entries d)
    (hsize : s.look (fSize f) = 0) (hheld : ∀ l, s.held f l = 0) : s.Hollow f where
  size := hsize
  direct i hi := look_eq_zero.mpr (hheld (.direct ⟨i, hi⟩))
  indirect := look_eq_zero.mpr (hheld .indirect)
  dir := ⟨d, hd, hdir, hf, hs.up d hd hdir f hf⟩

/-- An entry without a name gets one. -/
theorem Neat.named (hs : s.Neat) (hd : s.IsFile d) (hdir : s.IsDir d) (hf : f ∈ s.entries d) (hu : s.Unused f)
    (ha : s.Alters (nameWords f) t) (hn : IsName name) (hname : t.HasName f name)
    (hfind : s.find d name = none) :
    t.Neat ∧ t.Hollow f ∧ t.look (fType f) = s.look (fType f) := by
  have hts := hs.tidy
  have ho := hts.own
  have hdD := mem_files_dirBlocks.mpr hd
  have hfile := hs.entry_isFile hd hdir hf
  have hfD := mem_files_dirBlocks.mpr hfile
  have hinert := ho.inert_name hfD
  have htt := hts.newName hdD hdir hf ha hu hn.zero hname hfind
  have hword : ∀ g, s.IsFile g → ∀ i < 64, g ≠ f ∨ 32 ≤ i → t.look (g + i) = s.look (g + i) :=
    fun g hg i hi h => ha.look _ (ho.notMem_name hfD (mem_files_dirBlocks.mpr hg) hi h)
  have hheld : ∀ g, s.IsFile g → ∀ l, t.held g l = s.held g l := fun g hg l =>
    held_congr_slotsOf (fun a ha' => ha.look a fun hA =>
      hinert.2.1 a hA (ho.slotsOf_subset (mem_files_dirBlocks.mpr hg) ha')) l
  obtain ⟨hsize, hblank⟩ := hs.blank f hfile (Tidy.entry_ne_root hf) hu
  have hsize' : t.look (fSize f) = 0 := (hword f hfile 32 (by decide) (.inr (by decide))).trans hsize
  have hheld' : ∀ l, t.held f l = 0 := fun l => (hheld f hfile l).trans (hblank l)
  have hall : s.AllBut f t := by
    refine ⟨htt.tree.consistent, fun g hg hne i hi => hword g hg i (by omega) (.inl hne),
      fun g hg _ => hheld g hg, hword f hfile 45 (by decide) (.inr (by decide)), fun _ => ⟨?_, hheld'⟩,
      fun n _ => block_of_held hheld' n⟩
    unfold Fs.nblocksOf
    rw [hsize']
    rfl
  have hnt := hall.neat hs htt.tree fun _ => ⟨hsize', hheld'⟩
  have htype : ∀ g, s.IsFile g → t.look (fType g) = s.look (fType g) := fun g hg =>
    hword g hg 33 (by decide) (.inr (by decide))
  have hkeep : s.KeepsDirs t := fun e he hdir => ⟨(IsDir.congr (htype e he)).mpr hdir, fun l _ => hheld e he l⟩
  have hne : d ≠ f := by
    rintro rfl
    obtain ⟨m, hm, -⟩ := mem_entries.mp hf
    unfold Fs.nblocksOf at hm
    rw [hsize] at hm
    exact absurd hm (Nat.not_lt_zero m)
  refine ⟨hnt, hnt.hollow (hkeep.isFile hd) (hkeep d hd hdir).1 ?_ hsize' hheld', htype f hfile⟩
  rwa [hall.entries hd hne]

end Fs

namespace Fs

/-- A walk does not touch the entries that are not in use. -/
theorem Tidy.find_unused_alters (hs : s.Tidy D X) (h : s.Alters (ups D) t) (hd : d ∈ files D)
    (hdir : s.IsDir d) :
    ((t.entries d).find? fun f => t.Unused f) = (s.entries d).find? fun f => s.Unused f := by
  rw [hs.own.entries_alters h hd]
  refine List.find?_congr fun f hf => decide_eq_decide.mpr (Unused.congr ?_)
  exact h.look _ (hs.own.notMem_ups (i := 0) (hs.entry_file hd hdir hf) (by decide) (by decide))

theorem Tidy.slotType_alters (hs : s.Tidy D X) (h : s.Alters (ups D) t) (hd : d ∈ files D)
    (hdir : s.IsDir d) : t.slotType d = s.slotType d := by
  unfold slotType
  rw [hs.find_unused_alters h hd hdir]
  cases hr : (s.entries d).find? fun f => s.Unused f with
  | none => rfl
  | some f =>
    have hf := hs.entry_file hd hdir (List.mem_of_find?_eq_some hr)
    exact h.look _ (hs.own.notMem_ups (i := 33) hf (by decide) (by decide))

theorem Tidy.accommodates_alters (hs : s.Tidy D X) (h : s.Alters (ups D) t) (hd : d ∈ files D)
    (hdir : s.IsDir d) (hsup : s.Supplied → t.Supplied) (hroom : s.Accommodates d) : t.Accommodates d := by
  have ho := hs.own
  rcases hroom with ⟨f, hf, hu⟩ | ⟨hs', hc, hget⟩
  · refine .inl ⟨f, by rwa [ho.entries_alters h hd], (Unused.congr ?_).mpr hu⟩
    exact h.look _ (ho.notMem_ups (i := 0) (hs.entry_file hd hdir hf) (by decide) (by decide))
  · refine .inr ⟨hsup hs', (h.onward ho.inert_ups).clean hc, ?_⟩
    rw [ho.nblocksOf_alters h hd]
    exact (ho.canGet_alters ho.inert_ups h hd _).mpr hget

end Fs

/-- `file_create` writes the name: the new file is hollow, and its type is that of the slot. -/
theorem fileCreate_neat (hs : s.Neat) (h6 : root.length = 6) (hz : 0 ∉ rest)
    (hroom : ∀ d name, s.resolve (pieces slash rest) = .ok (.missing d name) → s.Accommodates d) :
    (fileCreate (root ++ rest) s).Sat
      (fun e t => t.Neat ∧ t.Hollow e ∧ t.isMapped (e / 1024) = true ∧ ∃ d name,
        s.resolve (pieces slash rest) = .ok (.missing d name) ∧ t.look (fType e) = s.slotType d)
      (fun _ t => t.Neat) (fun q => q = .noMemory) := by
  have hts := hs.tidy
  have ho := hts.own
  have hnames : ∀ n ∈ pieces slash rest, n ≠ [] ∧ 0 ∉ n := fun n hn =>
    ⟨(mem_pieces hn).1, fun h0 => hz ((mem_pieces hn).2.2 0 h0)⟩
  have hwalk : (walkPath (root ++ rest) s).Sat (fun _ t => s.Supplied → t.Supplied) (fun _ _ => True)
      (fun _ => True) := by
    by_cases hsup : s.Supplied
    · exact (walkPath_feeds _ s hsup).mono (fun _ _ h _ => h) (fun _ _ _ => trivial) fun _ _ => trivial
    · refine (Outcome.sat_self _).mono (fun _ _ _ h => absurd h hsup) (fun _ _ _ => trivial) fun _ _ => trivial
  rw [fileCreate]
  refine sat_call ((walkPath_visits ho hts.complete h6 rest).and hwalk) ?_ (fun _ _ h => hs.visits h.1.1)
    (fun _ h => h.1)
  rintro w u ⟨⟨hvis, hres, hend⟩, hsup⟩
  have hsu := hs.visits hvis
  cases w with
  | found o f => exact hsu
  | missing d name =>
    obtain ⟨⟨hdD, hm⟩, hdir, hfind, hlen⟩ := hend
    have halt := hvis.alters
    have hname : IsName name ∧ (d ≠ sRoot → ¬s.Unused d) := by
      cases hl : pieces slash rest using List.reverseRecOn with
      | nil =>
        rw [hl] at hres
        cases hres
      | append_singleton ns n =>
        rw [hl] at hres hnames
        obtain ⟨-, p, d', hd', -, hw⟩ := resolve_concat.mp hres
        obtain ⟨-, rfl, rfl⟩ := Walk.last_eq_missing.mp hw.symm
        have hn := hnames name (by simp)
        exact ⟨⟨hn.1, hn.2, hlen⟩, Fs.resolve_used (fun x hx => hnames x (by simp [hx])) hd'⟩
    obtain ⟨hname, hused⟩ := hname
    have hd := Fs.mem_files_dirBlocks.mp hdD
    have hdu : u.IsFile d := ((halt.onward ho.inert_ups).keepsDirs ho fun a ha _ hA =>
      ho.inert_ups.2.1 a hA ha).isFile hd
    have hdiru := (ho.isDir_alters halt hdD).mpr hdir
    have hword : ∀ g, s.IsFile g → ∀ i < 64, i ≠ 45 → u.look (g + i) = s.look (g + i) := fun g hg i hi hne =>
      halt.look _ (ho.notMem_ups (Fs.mem_files_dirBlocks.mpr hg) hi hne)
    have hroomu : u.Accommodates d := hts.accommodates_alters halt hdD hdir hsup (hroom d name hres)
    have hslot := hts.slotType_alters halt hdD hdir
    dsimp only
    rw [sat_bind, sat_attempt]
    refine (dirAllocFile_neat hsu hdu hdiru hm (fun hne hu => hused hne ?_) hroomu).mono ?_
      (fun _ _ h => h.elim) (fun _ h => h)
    · exact (Fs.Unused.congr (hword d hd 0 (by decide) (by decide))).mp hu
    · rintro e v ⟨hv, hdv, hdirv, hev, hunused, hme, htype, hnone⟩
      have heD := Fs.mem_files_dirBlocks.mpr (hv.entry_isFile hdv hdirv hev)
      have hlen' : 0 + name.length < 128 := by
        unfold maxnamelen at hlen
        omega
      have hcopy := strcpy_alters heD name 0 v hv.tidy.own hme hlen'
      have hgot := Fs.hasName_strcpy hv.tidy.own heD hme hlen
      have hfindv : v.find d name = none := hnone name hname (by
        rw [ho.find_alters hts.complete halt hdD hdir hlen]
        exact hfind)
      obtain ⟨hneat, hhollow, htype'⟩ := hv.named hdv hdirv hev hunused hcopy hname hgot hfindv
      dsimp only
      rw [bind_ret (touch_mapped hme), modify_bind]
      exact ⟨hneat, hhollow, hcopy.mapped _ hme, d, name, hres, htype'.trans (htype.trans hslot)⟩

/-! ## Making a directory -/

namespace Fs

theorem Hollow.held (h : s.Hollow f) (l : Slot) : s.held f l = 0 := by
  have hind := look_eq_zero.mp h.indirect
  cases l with
  | direct i => exact look_eq_zero.mp (h.direct i i.isLt)
  | indirect => exact hind
  | entry i => rw [held_entry, if_pos hind]

/-- A hollow file becomes a directory. -/
theorem Neat.setType (hs : s.Neat) (hf : s.Hollow f) (hm : s.isMapped (f / 1024) = true) (w : Word) :
    (s.setWord (fType f) w).Neat := by
  have ho := hs.tidy.own
  obtain ⟨d, hd, hdir, hmem, -⟩ := hf.dir
  have hfile := hs.entry_isFile hd hdir hmem
  have hfD := mem_files_dirBlocks.mpr hfile
  have hroot : f ≠ sRoot := Tidy.entry_ne_root hmem
  have hblk : fType f / 1024 = f / 1024 := by rw [fType, file_words hfD (by decide)]
  have halt := alters_setWord (w := w) (by rwa [hblk]) (by
    rw [hblk]
    exact ho.file_not_free hfD)
  have hplain : s.Plain {fType f} := by
    rintro _ rfl
    refine ⟨ho.type_inData hfD, fun heq => ?_⟩
    rcases ho.file_block hfD with h | ⟨hD, h, -⟩
    · exact hroot h
    · have := s.three_le_firstData
      omega
  have hword : ∀ g, s.IsFile g → ∀ i < 64, g ≠ f ∨ i ≠ 33 → (s.setWord (fType f) w).look (g + i) = s.look (g + i) := by
    intro g hg i hi h
    refine halt.look _ fun heq => ?_
    obtain ⟨rfl, rfl⟩ := ho.file_word_inj (mem_files_dirBlocks.mpr hg) hfD hi (j := 33) (by decide) heq
    exact h.elim (fun h => h rfl) fun h => h rfl
  have hheld : ∀ g, s.IsFile g → ∀ l, (s.setWord (fType f) w).held g l = s.held g l := fun g hg l =>
    held_congr_slotsOf (fun a ha => halt.look a fun heq =>
      ho.slot_ne_type (ho.slotsOf_subset (mem_files_dirBlocks.mpr hg) ha) hfD (Eq.symm heq)) l
  have hnone : ∀ l, (s.setWord (fType f) w).held f l = 0 := fun l => (hheld f hfile l).trans (hf.held l)
  have hsize : (s.setWord (fType f) w).look (fSize f) = 0 :=
    (hword f hfile 32 (by decide) (.inr (by decide))).trans hf.size
  have hreach : ∀ g, (s.setWord (fType f) w).IsFile g → s.IsFile g := fun g hg =>
    isFile_of_alike (f := f) (fun g hg hne => IsDir.congr (hword g hg 33 (by decide) (.inl hne)))
      (fun g hg _ => hheld g hg) (fun _ => hnone) hg
  have hcons : (s.setWord (fType f) w).Consistent := by
    refine ⟨halt.mounted hplain ho.mounted, fun g l hg h0 => ?_, fun g l g' l' hg hg' h0 heq => ?_⟩
    · rw [halt.used hplain]
      rw [hheld g (hreach g hg)] at h0 ⊢
      exact hs.consistent.used g l (hreach g hg) h0
    · rw [hheld g (hreach g hg)] at h0 heq
      rw [hheld g' (hreach g' hg')] at heq
      exact hs.consistent.unique g l g' l' (hreach g hg) (hreach g' hg') h0 heq
  have hall : s.AllBut f (s.setWord (fType f) w) := by
    refine ⟨hcons, fun g hg hne i hi => hword g hg i (by omega) (.inl hne), fun g hg _ => hheld g hg,
      hword f hfile 45 (by decide) (.inr (by decide)), fun _ => ⟨?_, hnone⟩, fun n _ => block_of_held hnone n⟩
    unfold Fs.nblocksOf
    rw [hsize]
    rfl
  exact hall.neat hs (hall.tree hs.toTree hroot
    (.inr fun i hi => hword f hfile i (by omega) (.inr (by omega)))) fun _ => ⟨hsize, hnone⟩

end Fs

theorem openedFile_create {path : List Byte} {omode : Word} (h : omode &&& oCreat = oCreat) :
    openedFile path omode = fileCreate path := if_pos h

theorem openedFile_mkdir (path : List Byte) : openedFile path oMkdir = (do
    let f ← fileCreate path
    store (fType f) ftypeDir
    return f) := rfl

/-- `serve_open` with `O_MKDIR`. -/
theorem openedFile_neat (hs : s.Neat) (h6 : root.length = 6) (hz : 0 ∉ rest)
    (hroom : ∀ d name, s.resolve (pieces slash rest) = .ok (.missing d name) → s.Accommodates d) :
    (openedFile (root ++ rest) oMkdir s).Sat (fun _ t => t.Neat) (fun _ t => t.Neat)
      (fun q => q = .noMemory) := by
  rw [openedFile_mkdir]
  refine sat_call (fileCreate_neat hs h6 hz hroom) ?_ (fun _ _ h => h) (fun _ h => h)
  rintro e t ⟨ht, hhollow, hm, -⟩
  obtain ⟨d, hd, hdir, hmem, -⟩ := hhollow.dir
  have heD := Fs.mem_files_dirBlocks.mpr (ht.entry_isFile hd hdir hmem)
  have hmt : t.isMapped (fType e / 1024) = true := by
    rw [fType, Fs.file_words heD (by decide)]
    exact hm
  rw [bind_ret (store_mapped hmt _)]
  exact ht.setType hhollow hm _

/-! ## Histories -/

theorem Fs.isMapped_of_isDirty (h : s.isDirty b = true) : s.isMapped b = true := by
  unfold Fs.isDirty at h
  unfold Fs.isMapped
  cases hb : s.cache b with
  | none =>
    rw [hb] at h
    cases h
  | some c => rfl

theorem fsSync_sees (hs : s.Mounted) : (fsSync s).Sat (fun _ t => s.Sees t) (fun _ _ => False) (fun _ => False) := by
  have hloop : ∀ n i t, s.Sees t →
      (syncFrom i n t).Sat (fun _ u => s.Sees u) (fun _ _ => False) (fun _ => False) := by
    intro n
    induction n with
    | zero => exact fun _ _ h => h
    | succ n ih =>
      intro i t h
      have ht := (h.mounted hs).hasBitmap
      rw [syncFrom, bind_ret (sNblocks_eq ht)]
      split
      next hi =>
        have hlt := lt_of_lt_of_le hi ht.nblocks
        rw [bind_ret (blockIsDirty_eq hlt)]
        by_cases hd : t.isDirty i = true
        · have hm := Fs.isMapped_of_isDirty hd
          rw [when_pos hd, bind_ret (writeBlock_mapped hlt hm)]
          exact ih (i + 1) _ (h.trans (Fs.sees_writeBack hm))
        · rw [when_neg hd, Prog.pure_bind]
          exact ih (i + 1) t h
      next => exact h
  rw [fsSync, bind_ret (sNblocks_eq hs.hasBitmap)]
  exact hloop _ 0 s (Fs.Sees.refl s)

theorem fileClose_sees (hs : s.Neat) (hf : s.Handle f) :
    (fileClose f s).Sat (fun _ t => s.Sees t) (fun _ _ => False) (fun q => q = .noMemory) := by
  have ho := hs.tidy.own
  have hup := hf.upOk
  obtain ⟨hfile, -, hm, -⟩ := hf
  have hfD := Fs.mem_files_dirBlocks.mpr hfile
  rw [fileClose]
  refine sat_call (fileFlush_sat ho hfD hm) ?_ (fun _ _ h => h) (fun _ h => h)
  intro _ t ht
  have hupt : t.UpOk s.dirBlocks f := by
    unfold Fs.UpOk
    rw [ht.look]
    exact hup.imp_right fun h => ⟨h.1, ht.mapped _ h.2⟩
  exact (flushDir_sat (ho.sees ht) hfD (ht.mapped _ hm) hupt).mono (fun _ _ h => ht.trans h) (fun _ _ h => h)
    (fun _ h => h)

/-- What the requests of the clients do to the files. -/
inductive Deed where
  | call (op : FsOp)
  | mkdir (path : List Byte)
  | close (f : Nat)
  | sync

def Deed.exec : Deed → FsM Unit
  | .call op => op.exec
  | .mkdir path => do
    let _ ← openedFile path oMkdir
  | .close f => fileClose f
  | .sync => fsSync

/-- The state after a request that comes back, with or without an error. -/
def Deed.step (s : Fs) (a : Deed) : Option Fs := (a.exec s).state?

/-- A path whose file can be made: there is room for it in its directory. -/
def Fs.Makes (s : Fs) (path : List Byte) : Prop :=
  6 ≤ path.length ∧ 0 ∉ path.drop 6 ∧
    ∀ d name, s.resolve (pieces slash (path.drop 6)) = .ok (.missing d name) → s.Accommodates d

/-- Files are made where there is room. Open files are files with a name that are no directories; no block far
behind their end is asked for, and a new index block has no old page. The root directory is not removed. -/
def Deed.Sane (s : Fs) : Deed → Prop
  | .call (.openFile path) => 6 ≤ path.length
  | .call (.create path) => s.Makes path
  | .call (.getBlock f n _) => s.Handle f ∧ ¬s.Unused f ∧ n ≤ s.nblocksOf f ∧
      (ndirect ≤ n → s.num (fIndirect f) = 0 → s.NextClean)
  | .call (.setSize f _) => s.Handle f ∧ ¬s.Unused f
  | .call (.remove path) => 6 ≤ path.length ∧ 0 ∉ path.drop 6 ∧ pieces slash (path.drop 6) ≠ []
  | .call (.dirty f _) => s.Handle f
  | .mkdir path => s.Makes path
  | .close f => s.Handle f
  | .sync => True

/-- Sequences of such requests; some of them may fail. -/
inductive DeedRun (s : Fs) : Fs → Prop
  | refl : DeedRun s s
  | step {t u : Fs} {a : Deed} (hr : DeedRun s t) (hc : a.Sane t) (h : a.step t = some u) : DeedRun s u

/-- A request leaves a neat tree. -/
theorem Deed.neat_step {a : Deed} (hs : s.Neat) (hc : a.Sane s) (h : a.step s = some t) : t.Neat := by
  have hsees : ∀ {m : FsM Unit}, (m s).Sat (fun _ t => s.Sees t) (fun _ t => s.Sees t) (fun _ => True) →
      (m s).Sat (fun _ t => t.Neat) (fun _ t => t.Neat) (fun _ => True) := fun h =>
    h.mono (fun _ _ h => hs.sees h) (fun _ _ h => hs.sees h) (fun _ h => h)
  have hsat : (a.exec s).Sat (fun _ t => t.Neat) (fun _ t => t.Neat) (fun _ => True) := by
    cases a with
    | call op =>
      cases op with
      | openFile path =>
        rw [← List.take_append_drop 6 path]
        exact sat_call (fileOpen_linked hs.tidy (List.length_take_of_le hc)) (fun _ _ h => hs.visits h.1) (fun _ _ h => hs.visits h.1) (fun _ _ => trivial)
      | create path =>
        obtain ⟨h6, hz, hroom⟩ := hc
        have hcreate := fileCreate_neat hs (List.length_take_of_le h6) hz hroom
        rw [List.take_append_drop] at hcreate
        exact sat_call hcreate (fun _ _ h => h.1) (fun _ _ h => h) (fun _ _ => trivial)
      | getBlock f n data =>
        obtain ⟨hf, hused, hn, hclean⟩ := hc
        exact (getBlock_neat hs hf hused hn hclean data).mono (fun _ _ h => h) (fun _ _ h => h) fun _ _ => trivial
      | setSize f newsize =>
        exact (setSize_neat hs hc.1 hc.2 newsize).mono (fun _ _ h => h) (fun _ _ h => h) fun _ _ => trivial
      | remove path =>
        obtain ⟨h6, hz, hne⟩ := hc
        have hremove := fileRemove_neat hs (List.length_take_of_le h6) hz hne
        rw [List.take_append_drop] at hremove
        exact hremove.mono (fun _ _ h => h) (fun _ _ h => h) fun _ _ => trivial
      | dirty f offset =>
        refine hsees ((fileDirty_sat hs.tidy.own (Fs.mem_files_dirBlocks.mpr hc.1) hc.2.2.1 offset).mono
          (fun _ _ h => h) (fun _ _ h => h) fun _ _ => trivial)
    | mkdir path =>
      obtain ⟨h6, hz, hroom⟩ := hc
      have hmk := openedFile_neat hs (List.length_take_of_le h6) hz hroom
      rw [List.take_append_drop] at hmk
      exact sat_call hmk (fun _ _ h => h) (fun _ _ h => h) (fun _ _ => trivial)
    | close f =>
      exact hsees ((fileClose_sees hs hc).mono (fun _ _ h => h) (fun _ _ h => h.elim) fun _ _ => trivial)
    | sync =>
      exact hsees ((fsSync_sees hs.tidy.own.mounted).mono (fun _ _ h => h) (fun _ _ h => h.elim) fun _ h => h.elim)
  exact hsat.of_state? h

theorem DeedRun.neat (hs : s.Neat) (hr : DeedRun s t) : t.Neat := by
  induction hr with
  | refl => exact hs
  | step _ hc h ih => exact Deed.neat_step ih hc h

/-! ## Opening with `O_CREAT` -/

/-- The file `f` is an empty regular file. -/
def Fs.EmptyRegular (s : Fs) (f : Nat) : Prop := s.look (fType f) = ftypeReg ∧ s.Hollow f

theorem serveOpen_create {σ : Serv} {mem : Bool} {path : List Byte} {omode : Word} (hs : σ.fs.Neat)
    (homode : omode &&& oCreat = oCreat) (hmakes : σ.fs.Makes path) :
    (serveOpen mem path omode σ).Sat
      (fun r τ => ∃ i e d name, r = some (.filefd i) ∧ τ.oFile i = some e ∧
        σ.fs.resolve (pieces slash (path.drop 6)) = .ok (.missing d name) ∧ τ.fs.Hollow e ∧
          τ.fs.look (fType e) = σ.fs.slotType d) (fun _ _ => True) (fun _ => True) := by
  obtain ⟨h6, hz, hroom⟩ := hmakes
  have hcreate := fileCreate_neat hs (List.length_take_of_le h6) hz hroom
  rw [List.take_append_drop] at hcreate
  rw [serveOpen, Prog.sat_bind]
  unfold onTab
  rw [Prog.sat_zoom]
  refine (Outcome.sat_self _).mono ?_ (fun _ _ _ => trivial) (fun _ _ => trivial)
  rintro ⟨i, id⟩ tab -
  rw [Prog.sat_bind, sat_onFs, openedFile_create homode]
  refine hcreate.mono ?_ (fun _ _ _ => trivial) (fun _ _ => trivial)
  rintro e u ⟨-, hhollow, hm, d, name, hres, htype⟩
  rw [Prog.modify_bind, Prog.sat_bind, sat_onFs, touch_mapped hm]
  exact ⟨i, e, d, name, rfl, update_self _ _ _, hres, hhollow, htype⟩

/-- **A new file is an empty regular file** if and only if its slot was one. From a neat tree, after any sequence of
creates, mkdirs, writes and removes, a file that `serve_open` makes has the size 0 and no blocks, and its `f_dir` is 0
or points at its directory; but its type is what the last owner of the slot has left. In the FAT32 server the
attributes, the size and the first cluster are all left over. -/
theorem new_file_iff_blank_slot (omode : Word) (homode : omode &&& oCreat = oCreat) :
    (∀ s t, s.Neat → DeedRun s t → ∀ σ : Serv, σ.fs = t → ∀ mem path, t.Makes path →
        (serveOpen mem path omode σ).Sat
          (fun r τ => ∃ i e d name, r = some (.filefd i) ∧ τ.oFile i = some e ∧
            t.resolve (pieces slash (path.drop 6)) = .ok (.missing d name) ∧ τ.fs.Hollow e ∧
              (τ.fs.EmptyRegular e ↔ t.slotType d = ftypeReg)) (fun _ _ => True) (fun _ => True)) ∧
      ∀ (s : FatFs) root clus F, s.FatTree root clus F → ∀ rootName rest d name, rootName.length = 6 → 0 ∉ rest →
        s.fatResolve clus root (pieces slash rest) = .ok (.missing d name) →
        (clus d = [] → s.Roomy (s.held clus F) ∧ ∀ g, Finds s g → s.Fetches g) →
        ∀ e t, fatOpenedFile root (rootName ++ rest) omode s = .ret e t →
          (t.EmptyFatFile e ↔ s.BlankSlot (clus d) d) := by
  constructor
  · rintro s _ hs hrun σ rfl mem path hmakes
    refine (serveOpen_create (hrun.neat hs) homode hmakes).mono ?_ (fun _ _ _ => trivial) (fun _ _ => trivial)
    rintro r τ ⟨i, e, d, name, hr, he, hres, hhollow, htype⟩
    refine ⟨i, e, d, name, hr, he, hres, hhollow, ?_⟩
    unfold Fs.EmptyRegular
    rw [htype]
    exact and_iff_left hhollow
  · intro s root clus F h rootName rest d name hroot hz hr hfirst e t hret
    rw [fatOpenedFile, if_pos homode] at hret
    exact fatfileCreate_blank h hroot hz hr hfirst hret

/-! ## The small disks -/

theorem smallFs_neat : smallFs.Neat := by
  have hentries : smallFs.entries sRoot = (List.range file2blk).map (fileIn 3) := rfl
  have hdir : ∀ d, smallFs.IsFile d → smallFs.IsDir d → d = sRoot := by
    intro d hd hd'
    have hnone : ∀ j < file2blk, ¬smallFs.IsDir (fileIn 3 j) := by decide
    rcases smallFs_own.isFile hd with rfl | ⟨b, rfl, j, hj, rfl⟩
    · rfl
    · exact absurd hd' (hnone j hj)
  refine ⟨smallFs_tidy.tree, ?_, ?_, ?_⟩
  · intro d hd hd'
    rw [hdir d hd hd']
    rfl
  · intro d hd hd' f hf
    rw [hdir d hd hd', hentries, List.mem_map] at hf
    obtain ⟨j, hj, rfl⟩ := hf
    have hup : ∀ j < file2blk, smallFs.look (fDir (fileIn 3 j)) = 0 := by decide
    exact .inl (hup j (List.mem_range.mp hj))
  · intro f hf hroot hu
    rcases smallFs_own.isFile hf with rfl | ⟨b, rfl, j, hj, rfl⟩
    · exact absurd rfl hroot
    · have hblank : ∀ j < file2blk, smallFs.Unused (fileIn 3 j) → smallFs.look (fSize (fileIn 3 j)) = 0 ∧
          smallFs.num (fIndirect (fileIn 3 j)) = 0 ∧ ∀ i < 10, smallFs.num (fDirect (fileIn 3 j) i) = 0 := by
        decide
      obtain ⟨hsize, hind, hdirect⟩ := hblank j hj hu
      refine ⟨hsize, fun l => ?_⟩
      cases l with
      | direct i => exact hdirect i i.isLt
      | indirect => exact hind
      | entry i => rw [Fs.held_entry, if_pos hind]

/-- There is room for `/root1/d` on the small disk. -/
theorem smallFs_makes : smallFs.Makes pathD := by
  refine ⟨by decide, by decide, fun d name h => ?_⟩
  rw [show smallFs.resolve (pieces slash (pathD.drop 6)) = .ok (.missing sRoot [0x64]) from rfl] at h
  obtain ⟨rfl, -⟩ := Walk.missing.inj (Except.ok.inj h)
  exact .inl ⟨fileIn 3 3, by decide, by decide⟩

theorem new_file_iff_blank_slot_small :
    (serveOpen true pathD oCreat (Serv.start smallFs)).Sat
        (fun r τ => ∃ i e, r = some (.filefd i) ∧ τ.oFile i = some e ∧ τ.fs.EmptyRegular e)
        (fun _ _ => True) (fun _ => True) ∧
      ∀ e t, fatOpenedFile 0x10400000 (root2 ++ [0x2f, 0x66]) oCreat smallTree = .ret e t → t.EmptyFatFile e := by
  obtain ⟨hnative, hfat⟩ := new_file_iff_blank_slot oCreat (by decide)
  constructor
  · have hopen := hnative smallFs smallFs smallFs_neat .refl (Serv.start smallFs) rfl true pathD smallFs_makes
    refine hopen.mono ?_ (fun _ _ h => h) (fun _ h => h)
    rintro r τ ⟨i, e, d, name, hr, he, hres, -, hiff⟩
    rw [show smallFs.resolve (pieces slash (pathD.drop 6)) = .ok (.missing sRoot [0x64]) from rfl] at hres
    obtain ⟨rfl, -⟩ := Walk.missing.inj (Except.ok.inj hres)
    exact ⟨i, e, hr, he, hiff.mpr (by decide)⟩
  · intro e t hret
    have hr := smallTree_missing_root [0x66] (by decide) (by decide +kernel)
    have hne : smallTreeClus 0x10400000 ≠ [] := by decide
    refine (hfat smallTree 0x10400000 smallTreeClus smallTreeFiles smallTree_fatTree root2 [0x2f, 0x66] 0x10400000 [0x66]
      rfl (by decide) hr (fun h => absurd h hne) e t hret).mpr ?_
    have hfree : smallTree.freeSlot (smallTreeClus 0x10400000) 0x10400000 = some 0x10400080 := by decide +kernel
    unfold FatFs.BlankSlot
    rw [hfree]
    decide +kernel

/-- The slot whose `Filefd` page it is. -/
def Shared.filefd? : Shared → Option Nat
  | .filefd i => some i
  | _ => none

theorem Shared.filefd?_eq_some {r : Shared} {i : Nat} : r.filefd? = some i ↔ r = .filefd i := by
  cases r <;> simp [filefd?]

/-- `/root1/d` is made as a directory and removed. When it is made again, as a file, it is a directory. -/
theorem new_file_in_old_slot : ∃ t, DeedRun smallFs t ∧ ∃ i e τ,
    serveOpen true pathD oCreat (Serv.start t) = .ret (some (.filefd i)) τ ∧ τ.oFile i = some e ∧
      τ.fs.look (fType e) = ftypeDir ∧ ¬τ.fs.EmptyRegular e := by
  obtain ⟨t, hrun, htest⟩ := exists_of_run Deed.step smallFs [.mkdir pathD, .call (.remove pathD)]
    (fun t => (serveOpen true pathD oCreat (Serv.start t)).retAnd fun r τ =>
      (r.bind Shared.filefd?).any fun i => (τ.oFile i).any fun e => τ.fs.look (fType e) = ftypeDir)
    (by decide +kernel)
  obtain ⟨u, hu, ht⟩ := Option.bind_eq_some_iff.mp hrun
  obtain ⟨v, hv, ht⟩ := Option.bind_eq_some_iff.mp ht
  obtain rfl := Option.some.inj ht
  refine ⟨v, (DeedRun.refl.step (a := .mkdir pathD) smallFs_makes hu).step
    (a := .call (.remove pathD)) ⟨by decide, by decide, by decide⟩ hv, ?_⟩
  obtain ⟨r, τ, h, htest⟩ := Outcome.retAnd_eq_true.mp htest
  obtain ⟨i, hi, hslot⟩ := (Option.any_eq_true _ _).mp htest
  obtain ⟨page, rfl, hpage⟩ := Option.bind_eq_some_iff.mp hi
  obtain rfl := Shared.filefd?_eq_some.mp hpage
  obtain ⟨e, he, hdir⟩ := (Option.any_eq_true _ _).mp hslot
  have htype : τ.fs.look (fType e) = ftypeDir := of_decide_eq_true hdir
  refine ⟨i, e, τ, h, he, htype, fun hempty => ?_⟩
  have hreg := htype.symm.trans hempty.1
  exact absurd hreg (by decide)

end Mos
