import Mos.Fs.Tree
import Mos.Fs.Truncate
import Mos.Fs.Supply
import Mathlib.Tactic.IntervalCases

/-!
# Removing a file

`file_remove` walks to the file, truncates it to nothing and takes its name away. In a tidy file system it
gives back exactly the blocks of the file, and all other files keep their paths, sizes, types and blocks.
-/

namespace Mos

open Lib Prog Function

variable {s t u v : Fs} {a b c d f g i j k n : Nat} {D X : Set Nat} {root rest name : List Byte}

namespace Fs

/-! ## The files of a tidy file system are sound -/

/-- The slot of block `n`. -/
def Slot.ofBlock (n : Nat) : Slot :=
  if h : n < 10 then .direct ⟨n, h⟩ else .entry ⟨n % 1024, Nat.mod_lt _ (by decide)⟩

theorem held_ofBlock (h : s.HasSlot f n) : s.held f (.ofBlock n) = s.block f n := by
  unfold Slot.ofBlock block
  by_cases hn : n < ndirect
  · rw [dif_pos (show n < 10 from hn), if_pos hn]
    rfl
  · obtain ⟨hlt, h0⟩ := h.resolve_left hn
    rw [dif_neg (show ¬n < 10 from hn), if_neg hn, if_pos ⟨hlt, h0⟩]
    simp only [held, if_neg h0, Nat.mod_eq_of_lt (show n < 1024 from hlt)]

theorem hasSlot_of_block (h : s.block f n ≠ 0) : s.HasSlot f n := by
  by_contra hno
  exact h (block_of_no_slot hno)

/-- A number is in one slot only. -/
theorem Own.slot_unique (ho : s.Own D X) (hf : f ∈ files D) (hg : g ∈ files D) {k k' : Slot}
    (h0 : s.held f k ≠ 0) (heq : s.held f k = s.held g k') : f = g ∧ k = k' := by
  have h0' : s.held g k' ≠ 0 := heq ▸ h0
  refine ho.slotAddr_inj hf hg h0 h0' ?_
  refine ho.holds.unique _ (ho.slotAddr_mem hf h0) _ (ho.slotAddr_mem hg h0') ?_ ?_
  · rwa [← held_eq_num h0]
  · rw [← held_eq_num h0, ← held_eq_num h0', heq]

theorem Tidy.sound (h : s.Tidy D X) (hf : f ∈ files D) (hm : s.isMapped (f / 1024) = true) :
    s.Sound f where
  mounted := h.own.mounted
  place := by
    rcases h.own.file_block hf with hroot | ⟨-, hd, ha⟩
    · exact .inl hroot
    · exact .inr ⟨ha, hd⟩
  mapped := hm
  index h0 := h.own.indexes (h.own.index f hf h0)
  used n h0 := by
    obtain ⟨p, hp, heq⟩ := exists_pointer_of_block h0
    rw [← heq] at h0 ⊢
    exact h.own.pointer_used hf hp h0
  distinct n m h0 heq := by
    have hn := hasSlot_of_block h0
    have hm := hasSlot_of_block (heq ▸ h0)
    rw [← held_ofBlock hn] at h0 heq
    rw [← held_ofBlock hm] at heq
    have hkey := (h.own.slot_unique hf hf h0 heq).2
    have hlt : ∀ {n}, s.HasSlot f n → n < 1024 := fun h =>
      h.elim (fun h => by unfold ndirect at h; omega) fun h => h.1
    have hn' := hlt hn
    have hm' := hlt hm
    unfold Slot.ofBlock at hkey
    split at hkey <;> split at hkey <;> simp at hkey <;> omega
  apart n h0 heq := by
    have hn := hasSlot_of_block h0
    rw [← held_ofBlock hn] at h0 heq
    have hheld : s.held f (Slot.ofBlock n) = s.held f .indirect := heq
    have hkey := (h.own.slot_unique hf hf h0 hheld).2
    unfold Slot.ofBlock at hkey
    split at hkey <;> cases hkey
  beyond n hn := h.beyond f hf n hn

/-! ## The state after a removal -/

/-- The file `f` has been truncated to nothing; its name may have changed. -/
structure Wiped (s : Fs) (f : Nat) (t : Fs) : Prop where
  look : ∀ a, s.InData (a / 1024) → a ∉ nameWords f → a ≠ fSize f → a ∉ s.slotsOf f →
    t.look a = s.look a
  cleared : ∀ n, t.block f n = 0
  gone : ∀ k, t.held f k = 0
  size : t.look (fSize f) = 0
  free : ∀ c, t.Free c ↔ s.Free c ∨ c ≠ 0 ∧ ((∃ n, s.block f n = c) ∨ s.num (fIndirect f) = c)
  nblocks : t.nblocks = s.nblocks

/-- It has lost its name, too. -/
structure Erased (s : Fs) (D : Set Nat) (f : Nat) (t : Fs) : Prop extends Wiped s f t where
  unused : t.Unused f
  own : ∃ X, t.Own D X

theorem block_congr_slotsOf (h : ∀ a ∈ s.slotsOf f, t.look a = s.look a) (n : Nat) :
    t.block f n = s.block f n := by
  have hind : t.num (fIndirect f) = s.num (fIndirect f) := by
    rw [num, h (fIndirect f) (.inl ⟨10, le_refl _, rfl⟩)]
    rfl
  unfold block
  rw [hind]
  by_cases hn : n < ndirect
  · rw [if_pos hn, if_pos hn, num, h (fDirect f n) (.inl ⟨n, by unfold ndirect at hn; omega, rfl⟩)]
    rfl
  · rw [if_neg hn, if_neg hn]
    by_cases hi : n < nindirect ∧ s.num (fIndirect f) ≠ 0
    · rw [if_pos hi, if_pos hi, num, h _ (.inr ⟨hi.2, n, hi.1, rfl⟩)]
      rfl
    · rw [if_neg hi, if_neg hi]

theorem slotOf_mem_slotsOf (hn : s.HasSlot f n) : s.slotOf f n ∈ s.slotsOf f := by
  unfold slotOf
  by_cases hlt : n < ndirect
  · rw [if_pos hlt]
    exact .inl ⟨n, by unfold ndirect at hlt; omega, rfl⟩
  · rw [if_neg hlt]
    obtain ⟨hlt', h0⟩ := hn.resolve_left hlt
    exact .inr ⟨h0, n, hlt', rfl⟩

theorem held_congr_slotsOf (h : ∀ a ∈ s.slotsOf f, t.look a = s.look a) (k : Slot) :
    t.held f k = s.held f k := by
  have hnum : ∀ a ∈ s.slotsOf f, t.num a = s.num a := by
    intro a ha
    rw [num, h a ha]
    rfl
  have hind := hnum (fIndirect f) (.inl ⟨10, le_refl _, rfl⟩)
  cases k with
  | direct i => exact hnum _ (.inl ⟨i, by omega, rfl⟩)
  | indirect => exact hind
  | entry i =>
    simp only [Fs.held, hind]
    by_cases h0 : s.num (fIndirect f) = 0
    · rw [if_pos h0, if_pos h0]
    · rw [if_neg h0, if_neg h0]
      exact hnum _ (.inr ⟨h0, i, i.isLt, rfl⟩)

/-- A word of a file that is not one of its slots is no slot at all. -/
theorem Own.notMem_slotsOf (ho : s.Own D X) (hf : f ∈ files D) (hg : g ∈ files D) (hi : i < 64)
    (h : g ≠ f ∨ i < 34 ∨ 44 < i) : g + i ∉ s.slotsOf f := by
  rintro (⟨j, hj, heq⟩ | ⟨h0, j, hj, heq⟩)
  · rw [Nat.add_assoc] at heq
    obtain ⟨rfl, rfl⟩ := ho.file_word_inj hg hf hi (by omega) heq
    rcases h with h | h
    · exact h rfl
    · omega
  · exact ho.file_word_ne_entry hg hi (ho.index f hf h0) hj heq

/-- A slot is not one of the first words of a file. -/
theorem Own.slotsOf_ne_word (ho : s.Own D X) (hf : f ∈ files D) (hg : g ∈ files D) (hi : i < 34)
    (ha : a ∈ s.slotsOf g) : a ≠ f + i := by
  rintro rfl
  exact ho.notMem_slotsOf hg hf (by omega) (.inr (.inl hi)) ha

namespace Wiped

/-- The words of other files are as before. -/
theorem word (h : s.Wiped f t) (ho : s.Own D X) (hf : f ∈ files D) (hg : g ∈ files D) (hne : g ≠ f)
    (hi : i < 64) : t.look (g + i) = s.look (g + i) := by
  refine h.look _ ?_ ?_ ?_ (ho.notMem_slotsOf hf hg hi (.inl hne))
  · rw [file_words hg hi]
    have := ho.type_inData hg
    rwa [fType, file_words hg (by decide)] at this
  · rintro ⟨j, hj, heq⟩
    exact hne (ho.file_word_inj hg hf hi (by omega) heq).1
  · intro heq
    exact hne (ho.file_word_inj hg hf hi (by decide) heq).1

/-- So are the words of `f` that are no slots, but for the name and the size. -/
theorem word_of (h : s.Wiped f t) (ho : s.Own D X) (hf : f ∈ files D) (hg : g ∈ files D) (hi : i < 64)
    (hout : i = 33 ∨ 44 < i) : t.look (g + i) = s.look (g + i) := by
  refine h.look _ ?_ ?_ ?_ (ho.notMem_slotsOf hf hg hi (.inr (by omega)))
  · rw [file_words hg hi]
    have := ho.type_inData hg
    rwa [fType, file_words hg (by decide)] at this
  · rintro ⟨j, hj, heq⟩
    have := (ho.file_word_inj hg hf hi (by omega) heq).2
    omega
  · intro heq
    have := (ho.file_word_inj hg hf hi (j := 32) (by decide) heq).2
    omega

/-- The type of a file is as before. -/
theorem type (h : s.Wiped f t) (ho : s.Own D X) (hf : f ∈ files D) (hg : g ∈ files D) :
    t.look (fType g) = s.look (fType g) :=
  h.word_of ho hf hg (by decide) (.inl rfl)

theorem isDir (h : s.Wiped f t) (ho : s.Own D X) (hf : f ∈ files D) (hg : g ∈ files D) :
    t.IsDir g ↔ s.IsDir g :=
  IsDir.congr (h.type ho hf hg)

theorem nblocksOf (h : s.Wiped f t) (ho : s.Own D X) (hf : f ∈ files D) (hg : g ∈ files D)
    (hne : g ≠ f) : t.nblocksOf g = s.nblocksOf g := by
  unfold Fs.nblocksOf fSize
  rw [h.word ho hf hg hne (by decide)]

/-- The slots of other files are as before. -/
theorem slot (h : s.Wiped f t) (ho : s.Own D X) (hf : f ∈ files D) (hg : g ∈ files D) (hne : g ≠ f) :
    ∀ a ∈ s.slotsOf g, t.look a = s.look a := by
  intro a ha
  refine h.look a (ho.slot_inData (ho.slotsOf_subset hg ha)) ?_ ?_ ?_
  · rintro ⟨i, hi, heq⟩
    exact ho.slotsOf_ne_word hf hg (i := i) (by omega) ha heq
  · exact ho.slotsOf_ne_word hf hg (by decide) ha
  · exact fun ha' => hne (ho.slotsOf_file hg hf ha ha')

/-- The blocks of other files are as before. -/
theorem block (h : s.Wiped f t) (ho : s.Own D X) (hf : f ∈ files D) (hg : g ∈ files D) (hne : g ≠ f)
    (n : Nat) : t.block g n = s.block g n :=
  block_congr_slotsOf (h.slot ho hf hg hne) n

end Wiped

namespace Erased

theorem named (h : s.Erased D f t) (ho : s.Own D X) (hf : f ∈ files D) (hreg : ¬s.IsDir f) :
    t.Named D f s where
  dirs d hd := (h.isDir ho hf hd).symm
  sizes d hd hdir := by
    refine (h.nblocksOf ho hf hd ?_).symm
    rintro rfl
    exact hreg ((h.isDir ho hf hd).mp hdir)
  blocks d hd hdir n := by
    refine (h.block ho hf hd ?_ n).symm
    rintro rfl
    exact hreg ((h.isDir ho hf hd).mp hdir)
  names g hg hne name hlen :=
    (HasName.congr (fun i hi => h.word ho hf hg hne (by omega)) hlen).symm
  unused := h.unused

/-- The file system stays tidy. -/
theorem tidy (h : s.Erased D f t) (hs : s.Tidy D X) (hf : f ∈ files D) (hreg : ¬s.IsDir f) :
    ∃ X', t.Tidy D X' := by
  obtain ⟨X', ho⟩ := h.own
  have hdirs : ∀ d ∈ files D, t.IsDir d → s.IsDir d ∧ d ≠ f := by
    intro d hd hdir
    have hdir := (h.isDir hs.own hf hd).mp hdir
    refine ⟨hdir, ?_⟩
    rintro rfl
    exact hreg hdir
  refine ⟨X', ho, ?_, (h.isDir hs.own hf (.inl rfl)).mpr hs.root, ?_,
    (h.named hs.own hf hreg).distinct_of_lost hs⟩
  · intro d hd hdir n hn
    obtain ⟨hdir, hne⟩ := hdirs d hd hdir
    rw [h.nblocksOf hs.own hf hd hne] at hn
    rw [h.block hs.own hf hd hne]
    exact hs.complete d hd hdir n hn
  · intro g hg n hn
    by_cases hne : g = f
    · rw [hne]
      exact h.cleared n
    · rw [h.nblocksOf hs.own hf hg hne] at hn
      rw [h.block hs.own hf hg hne]
      exact hs.beyond g hg n hn

end Erased

theorem Truncated.wiped (hu : s.Truncated f 0 u) : s.Wiped f u := by
  have hind : u.num (fIndirect f) = 0 := hu.indirect
  refine ⟨?_, fun n => hu.cleared n (Nat.zero_le _), ?_, hu.size, ?_, hu.nblocks⟩
  · intro a ha _ hsize hslot
    refine hu.rest a ha hsize ?_ fun n hn heq => hslot (heq ▸ slotOf_mem_slotsOf hn)
    rintro rfl
    exact hslot (.inl ⟨10, le_refl _, rfl⟩)
  · intro k
    cases k with
    | direct i =>
      have hn : u.HasSlot f i := .inl i.isLt
      have hblock := hu.cleared i (Nat.zero_le _)
      rwa [block_of_slot hn, slotOf, if_pos (show i.val < ndirect from i.isLt)] at hblock
    | indirect => exact hind
    | entry i => simp only [held, if_pos hind]
  · intro c
    have hN : newNblocks 0 = 0 := rfl
    rw [hu.free]
    simp only [hN, Nat.zero_le, true_and]
    rw [and_or_left]

/-- The name is taken away. -/
theorem Wiped.unname (h : s.Wiped f u) {E Y : Set Nat} (ho : u.Own E Y) (hf : f ∈ files E)
    (hm : u.isMapped (f / 1024) = true) (hv : (u.setByte f 0 0).Sees t) :
    s.Wiped f t ∧ t.Unused f := by
  have halt := alters_setByte (s := u) hf hm (ho.file_not_free hf) (k := 0) (by decide) 0
  have hplain := (ho.inert_name hf).1
  have hslot : ∀ a ∈ u.slotsOf f, t.look a = u.look a := by
    intro a ha
    rw [hv.look, halt.look]
    rintro ⟨i, hi, rfl⟩
    exact ho.notMem_slotsOf hf hf (i := i) (by omega) (.inr (.inl (by omega))) ha
  refine ⟨⟨?_, ?_, ?_, ?_, ?_, ?_⟩, ?_⟩
  · intro a ha hname hsize hslot
    rw [hv.look, halt.look a hname, h.look a ha hname hsize hslot]
  · intro n
    rw [block_congr_slotsOf hslot, h.cleared]
  · intro k
    have hind : t.num (fIndirect f) = 0 := by
      rw [num, hslot (fIndirect f) (.inl ⟨10, le_refl _, rfl⟩)]
      exact h.gone .indirect
    cases k with
    | direct i =>
      rw [held, num, hslot (fDirect f i) (.inl ⟨i, by omega, rfl⟩)]
      exact h.gone (.direct i)
    | indirect => exact hind
    | entry i => simp only [held, if_pos hind]
  · rw [hv.look, halt.look, h.size]
    rintro ⟨i, hi, heq⟩
    unfold fSize at heq
    omega
  · intro c
    rw [hv.free, halt.free hplain, h.free]
  · rw [hv.nblocks, halt.nblocks hplain, h.nblocks]
  · rw [hv.unused]
    exact (nameByte_setByte hf hm (k := 0) (by decide) 0 0).trans (if_pos rfl)

end Fs

/-! ## `file_remove` -/

/-- `file_open` finds what the path stands for. -/
theorem fileOpen_linked (hs : s.Tidy D X) (h6 : root.length = 6) :
    (fileOpen (root ++ rest) s).Sat
      (fun g t => s.Visits D t ∧ Fs.Held D g t ∧
        ∃ o, s.resolve (pieces slash rest) = .ok (.found o g) ∧ t.Linked D g o)
      (fun _ t => s.Visits D t ∧ ∀ o g, s.resolve (pieces slash rest) ≠ .ok (.found o g))
      (fun q => q = .noMemory) := by
  have hgap := hs.complete.gapless
  rw [fileOpen]
  refine sat_call ((walkPath_visits hs.own hs.complete h6 rest).and
    (walkPath_sat hs.own (.inr hgap) (root ++ rest))) ?_ ?_ (fun _ h => h.1)
  · rintro w t ⟨⟨halt, hres, hheld⟩, D', X', hst, hend⟩
    obtain ⟨rfl, -, -⟩ := hst.cases hgap
    cases w with
    | found o g => exact ⟨halt, hheld, o, hres, hend.2.2⟩
    | missing d name => exact ⟨halt, fun o g h => by rw [hres] at h; cases h⟩
  · rintro e t ⟨⟨halt, hres⟩, -⟩
    exact ⟨halt, fun o g h => by rw [hres] at h; cases h⟩

/-- `file_open` of a path that leads to a file in a directory. -/
theorem fileOpen_found (hs : s.Tidy D X) (h6 : root.length = 6)
    (hp : s.resolve (pieces slash rest) = .ok (.found (some d) f)) :
    (fileOpen (root ++ rest) s).Sat
      (fun g t => f = g ∧ s.Alters (Fs.ups D) t ∧ Fs.Held D f t ∧ t.Linked D f (some d)) (fun _ _ => False)
      (fun q => q = .noMemory) := by
  refine (fileOpen_linked hs h6).mono ?_ (fun _ _ h => h.2 _ _ hp) (fun _ h => h)
  rintro g t ⟨hvis, hheld, o, hres, hlink⟩
  rw [hp] at hres
  cases hres
  exact ⟨rfl, hvis.alters, hheld, hlink⟩

/-- `file_remove` of a regular file: it returns, and the file is erased. -/
theorem fileRemove_erased (hs : s.Tidy D X) (h6 : root.length = 6)
    (hp : s.resolve (pieces slash rest) = .ok (.found (some d) f)) (hreg : ¬s.IsDir f) :
    (fileRemove (root ++ rest) s).Sat
      (fun _ t => ∃ u, s.Alters (Fs.ups D) u ∧ u.Erased D f t) (fun _ _ => False)
      (fun q => q = .noMemory) := by
  have hf := hs.resolve_file hp
  rw [fileRemove]
  refine sat_call (fileOpen_found hs h6 hp) ?_ (fun _ _ h => h) (fun _ h => h)
  rintro _ u ⟨rfl, halt, ⟨-, hm⟩, hlink⟩
  have hsu := hs.alters halt
  have hup := hlink.upOk hsu.own
  have hregu : ¬u.IsDir f := fun h => hreg ((hs.own.isDir_alters halt hf).mp h)
  refine sat_call ((fileTruncate_truncated (hsu.sound hf hm) 0).and
    (fileTruncate_sat hsu.own hf hregu hm 0)) ?_ (fun _ _ h => h.1) (fun _ h => h.2)
  rintro - v ⟨htrunc, htrim⟩
  obtain ⟨X₁, hv⟩ := htrim.evolved
  have hmv := hv.mapped _ hm
  have hbyte := Fs.alters_setByte hf hmv (hv.own.file_not_free hf) (k := 0) (by decide) 0
  have hname := hbyte.evolved hv.own (hv.own.inert_name hf) fun d hd => hv.own.dir_notMem_name hf hd
  have hw := (hv.mono (Set.subset_union_left (t := Fs.nameWords f))).trans_same hname
    Set.subset_union_right
  rw [bind_ret (touch_mapped hmv), modify_bind]
  refine sat_call (fileFlush_sat hw.own hf (hw.mapped _ hm)) ?_ (fun _ _ h => h.elim) (fun _ h => h)
  intro _ x hx
  have hx' := hw.trans_same (hx.evolved hw.own ∅) (Set.empty_subset _)
  refine (flushDir_sat hx'.own hf (hx'.mapped _ hm) (hup.evolved hx' hf)).mono ?_
    (fun _ _ h => h.elim) (fun _ h => h)
  intro _ t ht
  obtain ⟨hwiped, hunused⟩ := htrunc.wiped.unname hv.own hf hmv (hx.trans ht)
  exact ⟨u, halt, hwiped, hunused, X₁, hx'.own.sees ht⟩

/-! ## What has been removed -/

namespace Fs

/-- The regular file `f` at the path `names` has been removed, and nothing else. -/
structure Removed (s : Fs) (names : List (List Byte)) (f : Nat) (t : Fs) : Prop where
  tree : t.Tree
  gone : ∃ d name, t.resolve names = .ok (.missing d name)
  others : ∀ names', (∀ n ∈ names', n ≠ [] ∧ 0 ∉ n) → names' ≠ names → ∀ o g,
    t.resolve names' = .ok (.found o g) ↔ s.resolve names' = .ok (.found o g)
  kept : ∀ g, s.IsFile g → g ≠ f → t.look (fSize g) = s.look (fSize g) ∧
    t.look (fType g) = s.look (fType g) ∧ ∀ n, t.block g n = s.block g n
  free : ∀ c, t.Free c ↔ s.Free c ∨ c ≠ 0 ∧ ((∃ n, s.block f n = c) ∨ s.num (fIndirect f) = c)

theorem Tree.removed (hs : s.Tree) {names : List (List Byte)} (hz : ∀ n ∈ names, n ≠ [] ∧ 0 ∉ n)
    (hp : s.resolve names = .ok (.found (some d) f)) (hreg : ¬s.IsDir f)
    (halt : s.Alters (ups s.dirBlocks) u) (he : u.Erased s.dirBlocks f t) : s.Removed names f t := by
  have hts := hs.tidy
  have htu := hts.alters halt
  have hf := hts.resolve_file hp
  have hregu : ¬u.IsDir f := fun h => hreg ((hts.own.isDir_alters halt hf).mp h)
  obtain ⟨X', htt⟩ := he.tidy htu hf hregu
  have hnamed := he.named htu.own hf hregu
  have hslots : ∀ a ∈ slots s.dirBlocks s.indexBlocks, u.look a = s.look a := fun a ha =>
    halt.look a fun hups => hts.own.inert_ups.2.1 a hups ha
  have hblock : ∀ {g}, g ∈ files s.dirBlocks → ∀ n, u.block g n = s.block g n := fun hg n =>
    hts.own.block_congr hslots hg n
  refine ⟨htt.tree, ?_, ?_, ?_, ?_⟩
  · -- the names before the last one still lead to the directory, where the last one is missing now
    rw [← hts.resolve_alters halt] at hp
    cases names using List.reverseRecOn with
    | nil => cases hp
    | append_singleton ns n =>
      obtain ⟨hlen, p, d', hd, hdir, hw⟩ := resolve_concat.mp hp
      obtain ⟨hfind, -⟩ := Walk.last_eq_found.mp hw.symm
      have hd' := htu.resolve_file hd
      have hn : IsName n := ⟨(hz n (by simp)).1, (hz n (by simp)).2, hlen⟩
      have hdir' := (hnamed.dirs d' hd').mp hdir
      have hne : d' ≠ f := by
        rintro rfl
        exact hregu hdir
      refine ⟨d', n, resolve_concat.mpr ⟨hlen, p, d', ?_, hdir', ?_⟩⟩
      · exact hnamed.resolve_found_of_ne htt htu hregu (fun x hx => hz x (by simp [hx])) hd hne
      · cases hr : t.find d' n with
        | none => rfl
        | some g =>
          have hg := hnamed.find_some htt htu hd' hdir' hn hr
          rw [hfind] at hg
          cases hg
          exact absurd hnamed.unused ((find_spec hr).2.not_unused hn)
  · intro names' hz' hne o g
    rw [← hts.resolve_alters halt]
    constructor
    · exact hnamed.resolve_found htt htu hz'
    · intro hg
      refine hnamed.resolve_found_of_ne htt htu hregu hz' hg ?_
      rintro rfl
      rw [← hts.resolve_alters halt] at hp
      exact hne (htu.path_unique hz' hz hg hp)
  · intro g hg hne
    have hg := mem_files_dirBlocks.mpr hg
    refine ⟨?_, ?_, fun n => ?_⟩
    · rw [fSize, he.word htu.own hf hg hne (by decide), halt.look]
      exact hts.own.notMem_ups hg (by decide) (by decide)
    · rw [he.type htu.own hf hg, halt.look]
      exact hts.own.notMem_ups hg (by decide) (by decide)
    · rw [he.block htu.own hf hg hne, hblock hg]
  · intro c
    have hind : u.num (fIndirect f) = s.num (fIndirect f) := by
      rw [num, hslots _ (indirect_mem_slots hf)]
      rfl
    rw [he.free, halt.free hts.own.inert_ups.1, hind]
    simp only [hblock hf]

end Fs

/-- `file_remove` of a path that does not lead to a file fails and gives no block back. -/
theorem fileRemove_missing (hs : s.Tidy D X) (h6 : root.length = 6) {name : List Byte}
    (hp : s.resolve (pieces slash rest) = .ok (.missing d name)) :
    (fileRemove (root ++ rest) s).Sat (fun _ _ => False)
      (fun e t => e = .notFound ∧ ∀ c, t.Free c ↔ s.Free c) (fun q => q = .noMemory) := by
  rw [fileRemove, fileOpen]
  refine sat_bind.mpr (sat_call (walkPath_resolve hs.own hs.complete h6 rest) ?_ ?_ (fun _ h => h))
  · rintro w t ⟨halt, hres, -⟩
    rw [hp] at hres
    cases hres
    exact ⟨rfl, halt.free hs.own.inert_ups.1⟩
  · rintro e t ⟨-, hres⟩
    rw [hp] at hres
    cases hres

/-- **Removing a file removes only that file.** In a tidy tree, `file_remove` of a path that leads to a regular
file returns 0 if there is memory. The path leads nowhere afterwards, every other path leads where it led,
the other files are as before, exactly the blocks of the file are given back, and removing it again fails
and gives nothing back. -/
theorem remove_removes_only (hs : s.Tree) (h6 : root.length = 6) (hz : 0 ∉ rest) {o : Option Nat}
    (hp : s.resolve (pieces slash rest) = .ok (.found o f)) (hreg : ¬s.IsDir f) :
    (fileRemove (root ++ rest) s).Sat
      (fun _ t => s.Removed (pieces slash rest) f t ∧
        (fileRemove (root ++ rest) t).Sat (fun _ _ => False)
          (fun e u => e = .notFound ∧ ∀ c, u.Free c ↔ t.Free c) (fun q => q = .noMemory ∧ ¬t.Supplied))
      (fun _ _ => False) (fun q => q = .noMemory ∧ ¬s.Supplied) := by
  have hnames : ∀ n ∈ pieces slash rest, n ≠ [] ∧ 0 ∉ n := fun n hn =>
    ⟨(mem_pieces hn).1, fun h0 => hz ((mem_pieces hn).2.2 0 h0)⟩
  obtain ⟨d, rfl⟩ : ∃ d, o = some d := by
    cases hl : pieces slash rest using List.reverseRecOn with
    | nil =>
      rw [hl] at hp
      cases hp
      exact absurd hs.root hreg
    | append_singleton ns n =>
      rw [hl] at hp
      obtain ⟨-, p, d, -, -, hw⟩ := resolve_concat.mp hp
      exact ⟨d, (Walk.last_eq_found.mp hw.symm).2⟩
  refine (fileRemove_feeds _).sat ((fileRemove_erased hs.tidy h6 hp hreg).mono ?_ (fun _ _ h => h)
    (fun _ h => h))
  rintro - t ⟨u, halt, he⟩
  have hr := hs.removed hnames hp hreg halt he
  obtain ⟨d', name, hgone⟩ := hr.gone
  exact ⟨hr, (fileRemove_feeds _).sat (fileRemove_missing hr.tree.tidy h6 hgone)⟩

/-- The block of the root directory of the small disk is the only directory block. -/
theorem smallFs_tidy : smallFs.Tidy {3} ∅ := by
  have hind : ∀ f ∈ Fs.files {3}, smallFs.num (fIndirect f) = 0 := by
    rintro f (rfl | ⟨b, rfl, j, hj, rfl⟩)
    · decide
    · revert j
      decide
  have hdir : ∀ f ∈ Fs.files {3}, smallFs.IsDir f → f = sRoot := by
    rintro f (rfl | ⟨b, rfl, j, hj, rfl⟩)
    · exact fun _ => rfl
    · revert j
      decide
  have hentries : smallFs.entries sRoot = (List.range file2blk).map (fileIn 3) := rfl
  refine ⟨smallFs_own, ?_, rfl, ?_, ?_⟩
  · intro d hd hd' n hn
    obtain rfl := hdir d hd hd'
    rw [show smallFs.nblocksOf sRoot = 1 from rfl] at hn
    obtain rfl : n = 0 := by omega
    decide
  · intro f hf n hn
    by_cases hlt : n < ndirect
    · rcases hf with rfl | ⟨b, rfl, j, hj, rfl⟩
      · rw [show smallFs.nblocksOf sRoot = 1 from rfl] at hn
        unfold ndirect at hlt
        interval_cases n <;> rfl
      · have hall : ∀ j < file2blk, ∀ n < ndirect, smallFs.nblocksOf (fileIn 3 j) + 1 ≤ n →
            smallFs.block (fileIn 3 j) n = 0 := by decide
        exact hall j hj n hlt hn
    · exact Fs.block_of_no_slot fun h => h.elim hlt fun h => h.2 (hind f hf)
  · intro d hd hd' f hf g hg name hn hfn hgn
    obtain rfl := hdir d hd hd'
    rw [hentries, List.mem_map] at hf hg
    obtain ⟨j, hj, rfl⟩ := hf
    obtain ⟨k, hk, rfl⟩ := hg
    have hfirst : ∀ j < file2blk, ∀ k < file2blk,
        smallFs.nameByte (fileIn 3 j) 0 = smallFs.nameByte (fileIn 3 k) 0 →
          smallFs.nameByte (fileIn 3 j) 0 ≠ 0 → j = k := by decide
    rw [hfirst j (List.mem_range.mp hj) k (List.mem_range.mp hk) ?_ (hfn.not_unused hn)]
    rw [hfn 0 (by simp), hgn 0 (by simp)]

theorem remove_removes_only_small :
    (fileRemove (pathA.take 6 ++ pathA.drop 6) smallFs).Sat
      (fun _ t => smallFs.Removed (pieces slash (pathA.drop 6)) (fileIn 3 0) t ∧
        (fileRemove (pathA.take 6 ++ pathA.drop 6) t).Sat (fun _ _ => False)
          (fun e u => e = .notFound ∧ ∀ c, u.Free c ↔ t.Free c) (fun q => q = .noMemory ∧ ¬t.Supplied))
      (fun _ _ => False) (fun q => q = .noMemory ∧ ¬smallFs.Supplied) :=
  remove_removes_only smallFs_tidy.tree (by decide) (by decide) (o := some sRoot) rfl (by decide)

/-- The small disk, with two files of the name `a`. -/
def twinFs : Fs := { smallFs with disk := update smallDisk 3 (update (smallDisk 3) 64 0x61) }

/-- The small disk; the size of the root directory promises a second block. -/
def holeFs : Fs :=
  let superBlock := update (smallDisk 1) 34 8192
  { smallFs with
    disk := update smallDisk 1 superBlock
    cache := update smallFs.cache 1 (some ⟨superBlock, false⟩) }

theorem twinFs_look (a : Nat) (h : a ≠ 3136) : twinFs.look a = smallFs.look a := by
  unfold Fs.look
  rw [show twinFs.isMapped (a / 1024) = smallFs.isMapped (a / 1024) from rfl]
  split
  · rfl
  · unfold twinFs
    dsimp only
    by_cases h3 : a / 1024 = 3
    · rw [h3, update_self, update_of_ne (by omega)]
      rfl
    · rw [update_of_ne h3]
      rfl

theorem holeFs_look (a : Nat) (h : a ≠ 1058) : holeFs.look a = smallFs.look a := by
  by_cases h1 : a / 1024 = 1
  · rw [Fs.look_of_mapped (by rw [h1]; rfl), Fs.look_of_mapped (by rw [h1]; rfl)]
    unfold Fs.word
    rw [h1, show holeFs.page 1 = update (smallDisk 1) 34 8192 from rfl, update_of_ne (by omega)]
    rfl
  · have hc : holeFs.cache (a / 1024) = smallFs.cache (a / 1024) := update_of_ne h1 _ _
    have hd : holeFs.disk (a / 1024) = smallFs.disk (a / 1024) := update_of_ne h1 _ _
    unfold Fs.look Fs.isMapped Fs.word Fs.page
    rw [hc, hd]

/-- A disk that differs from the small one only in words that are no slots and no types. -/
theorem Fs.Own.of_small {W : Set Nat}
    (hW : ∀ w ∈ W, w / 1024 ≠ 2 ∧ w ≠ 1025 ∧ ∀ f ∈ Fs.files {3}, w < f + 33 ∨ f + 44 < w)
    (h : ∀ a ∉ W, t.look a = smallFs.look a)
    (hm : ∀ b, smallFs.isMapped b = true → t.isMapped b = true)
    (hsup : t.super = true) (hbit : t.bitmap = true) : t.Own {3} ∅ := by
  have hnb : t.nblocks = smallFs.nblocks := by
    unfold Fs.nblocks
    rw [h _ fun hw => (hW _ hw).2.1 rfl]
  have hfree : ∀ c, t.Free c ↔ smallFs.Free c := by
    intro c
    unfold Fs.Free Fs.freeBit
    rw [hnb]
    refine and_congr_right fun hc => ?_
    rw [h]
    intro hw
    have h8 : smallFs.nblocks = 8 := by decide
    have h2 := (hW _ hw).1
    rw [bitmapWord_block] at h2
    omega
  have hfirst : t.firstData = smallFs.firstData := by
    unfold Fs.firstData
    rw [hnb]
  refine smallFs_own.congr ⟨hsup, hbit, by rw [hnb]; exact smallFs_own.mounted.nblocks, ?_, ?_⟩ ?_ ?_ ?_
  · intro b h1 hb
    exact hm b (smallFs_own.mounted.mapped b h1 (by omega))
  · intro b hb hf
    exact smallFs_own.mounted.reserved b (by omega) ((hfree b).mp hf)
  · rintro b ⟨h1, h2, h3⟩
    exact ⟨by omega, by omega, fun hf => h3 ((hfree b).mp hf)⟩
  · rintro a (⟨f, hf, i, hi, rfl⟩ | ⟨x, hx, -⟩)
    · refine h _ fun hw => ?_
      have := (hW _ hw).2.2 f hf
      omega
    · exact hx.elim
  · intro f hf
    refine h _ fun hw => ?_
    have := (hW _ hw).2.2 f hf
    unfold fType at this
    omega

/-- No file has a block past its size. -/
def Fs.NoExcess (s : Fs) : Prop := ∀ f, s.IsFile f → ∀ n, s.nblocksOf f + 1 ≤ n → s.block f n = 0

theorem Fs.NoExcess.of_small (ho : t.Own {3} ∅) (h : ∀ a ∈ Fs.slots {3} ∅, t.look a = smallFs.look a)
    (hle : ∀ f ∈ Fs.files {3}, smallFs.nblocksOf f ≤ t.nblocksOf f) : t.NoExcess := by
  intro f hf n hn
  have hf := ho.isFile hf
  have := hle f hf
  rw [Fs.block_congr_slotsOf fun a ha => h a (smallFs_own.slotsOf_subset hf ha)]
  exact smallFs_tidy.beyond f hf n (by omega)

theorem twinFs_consistent : twinFs.Consistent ∧ twinFs.NoExcess := by
  have hslot : ∀ f ∈ Fs.files {3}, 3136 < f + 33 ∨ f + 44 < 3136 := by
    rintro f (rfl | ⟨b, rfl, j, hj, rfl⟩)
    · exact .inr (by decide)
    · unfold fileIn
      omega
  have hW : ∀ w ∈ ({3136} : Set Nat), w / 1024 ≠ 2 ∧ w ≠ 1025 ∧ ∀ f ∈ Fs.files {3},
      w < f + 33 ∨ f + 44 < w := by
    rintro w ⟨rfl⟩
    exact ⟨by decide, by decide, hslot⟩
  have ho := Fs.Own.of_small hW twinFs_look (fun _ h => h) rfl rfl
  refine ⟨ho.consistent, .of_small ho (fun a ha => twinFs_look a ?_) fun f hf => le_of_eq ?_⟩
  · rcases ha with ⟨f, hf, i, hi, rfl⟩ | ⟨x, hx, -⟩
    · have := hslot f hf
      omega
    · exact hx.elim
  · have := hslot f hf
    unfold Fs.nblocksOf
    rw [twinFs_look]
    rcases hf with rfl | ⟨b, rfl, j, hj, rfl⟩
    · decide
    · unfold fSize fileIn
      omega

/-- The size of the root directory is no slot and no type. -/
theorem rootSize_apart : ∀ f ∈ Fs.files {3}, 1058 < f + 33 ∨ f + 44 < 1058 := by
  rintro f (rfl | ⟨b, rfl, j, hj, rfl⟩)
  · exact .inl (by decide)
  · unfold fileIn
    omega

theorem holeFs_mapped (b : Nat) (h : smallFs.isMapped b = true) : holeFs.isMapped b = true := by
  by_cases hb : b = 1
  · subst hb
    rfl
  · have hc : holeFs.cache b = smallFs.cache b := update_of_ne hb _ _
    unfold Fs.isMapped at h ⊢
    rwa [hc]

theorem holeFs_consistent : holeFs.Consistent ∧ holeFs.NoExcess := by
  have hW : ∀ w ∈ ({1058} : Set Nat), w / 1024 ≠ 2 ∧ w ≠ 1025 ∧ ∀ f ∈ Fs.files {3},
      w < f + 33 ∨ f + 44 < w := by
    rintro w ⟨rfl⟩
    exact ⟨by decide, by decide, rootSize_apart⟩
  have hslot := rootSize_apart
  have ho := Fs.Own.of_small hW holeFs_look holeFs_mapped rfl rfl
  refine ⟨ho.consistent, .of_small ho (fun a ha => holeFs_look a ?_) ?_⟩
  · rcases ha with ⟨f, hf, i, hi, rfl⟩ | ⟨x, hx, -⟩
    · have := hslot f hf
      omega
    · exact hx.elim
  · rintro f (rfl | ⟨b, rfl, j, hj, rfl⟩)
    · decide
    · unfold Fs.nblocksOf
      rw [holeFs_look _ (by unfold fSize fileIn; omega)]

/-- Of two files of one name, the other one is found after the removal. When a directory has a hole, a removal
that fails takes a block. -/
theorem remove_needs_tidiness :
    (twinFs.Consistent ∧ twinFs.NoExcess ∧
      twinFs.resolve (pieces slash (pathA.drop 6)) = .ok (.found (some sRoot) (fileIn 3 0)) ∧
        ¬twinFs.IsDir (fileIn 3 0) ∧
          ∃ t u, fileRemove pathA twinFs = .ret () t ∧ fileOpen pathA t = .ret (fileIn 3 1) u) ∧
      holeFs.Consistent ∧ holeFs.NoExcess ∧
        holeFs.resolve (pieces slash (pathA.drop 6)) = .ok (.found (some sRoot) (fileIn 3 0)) ∧
          ¬holeFs.IsDir (fileIn 3 0) ∧
            ∃ t u, fileRemove pathA holeFs = .ret () t ∧ fileRemove pathA t = .err .notFound u ∧
              t.Free 4 ∧ ¬u.Free 4 := by
  refine ⟨⟨twinFs_consistent.1, twinFs_consistent.2, rfl, by decide, ?_⟩, holeFs_consistent.1,
    holeFs_consistent.2, rfl, by decide, ?_⟩
  · have hrun : ((fileRemove pathA twinFs).retAnd fun _ t => (fileOpen pathA t).retAnd fun g _ =>
        decide (g = fileIn 3 1)) = true := by decide +kernel
    obtain ⟨⟨⟩, t, h1, hrun⟩ := Outcome.retAnd_eq_true.mp hrun
    obtain ⟨g, u, h2, hrun⟩ := Outcome.retAnd_eq_true.mp hrun
    exact ⟨t, u, h1, by rw [h2, of_decide_eq_true hrun]⟩
  · have hrun : ((fileRemove pathA holeFs).retAnd fun _ t => (fileRemove pathA t).errAnd fun e u =>
        decide (e = .notFound ∧ t.Free 4 ∧ ¬u.Free 4)) = true := by decide +kernel
    obtain ⟨⟨⟩, t, h1, hrun⟩ := Outcome.retAnd_eq_true.mp hrun
    obtain ⟨e, u, h2, hrun⟩ := Outcome.errAnd_eq_true.mp hrun
    obtain ⟨rfl, hfree⟩ := of_decide_eq_true hrun
    exact ⟨t, u, h1, h2, hfree⟩

end Mos
