import Mos.Fs.Own
import Mos.Lib.Run

/-!
# Block ownership along runs

The operations on files keep the file system consistent, as long as a block that becomes an index block or
a directory block has no old page in the cache.
-/

namespace Mos

open Lib Prog Function

variable {s t u v : Fs} {a b c d f f' i j n p x : Nat} {w : Word} {D X D' X' W W' : Set Nat}

/-! ## Slots get blocks -/

namespace Fs

/-- The slot `p` holds a block; if it was empty, it is a new one. -/
def Filled (s : Fs) (p : Nat) (t : Fs) : Prop :=
  (s.num p ≠ 0 ∧ t = s) ∨
    s.num p = 0 ∧ ∃ b u, s.Took b u ∧ t = u.setWord p (BitVec.ofNat 32 b)

/-- The slot `p`, if it is empty. -/
def ifEmpty (s : Fs) (p : Nat) : Set Nat := {a | a = p ∧ s.num p = 0}

/-- No free block has an old page in the cache. -/
def Clean (s : Fs) : Prop := ∀ b, s.Free b → s.page b = fun _ => 0

/-- The first free block has no old page in the cache. -/
def NextClean (s : Fs) : Prop := ∀ b, s.FirstFree b → s.page b = fun _ => 0

theorem Clean.next (h : s.Clean) : s.NextClean := fun b hb => h b hb.1

/-- What stays while blocks are read and taken: the types of the files, the pages in the cache, and the
words outside of `W`. -/
structure Onward (s : Fs) (D W : Set Nat) (t : Fs) : Prop where
  types : ∀ f ∈ files D, t.look (fType f) = s.look (fType f)
  mapped : ∀ b, s.isMapped b = true → t.isMapped b = true
  clean : s.Clean → t.Clean
  free : ∀ b, t.Free b → s.Free b
  frame : s.Frames W t

namespace Onward

theorem refl (s : Fs) (D W : Set Nat) : s.Onward D W s :=
  ⟨fun _ _ => rfl, fun _ h => h, fun h => h, fun _ h => h, (Sees.refl s).frames W⟩

theorem trans (h : s.Onward D W t) (h' : t.Onward D' W' u) (hD : D ⊆ D')
    (hW : ∀ a ∈ W', a ∈ W ∨ s.Free (a / 1024)) : s.Onward D W u :=
  ⟨fun f hf => (h'.types f (files_mono hD hf)).trans (h.types f hf),
    fun b hb => h'.mapped b (h.mapped b hb), fun hc => h'.clean (h.clean hc),
    fun b hb => h.free b (h'.free b hb), h.frame.trans h'.frame hW⟩

theorem mono (h : s.Onward D W t) (hW : W ⊆ W') : s.Onward D W' t :=
  ⟨h.types, h.mapped, h.clean, h.free, h.frame.mono hW⟩

theorem isDir (h : s.Onward D W t) (hf : f ∈ files D) : t.IsDir f ↔ s.IsDir f :=
  IsDir.congr (h.types f hf)

end Onward

theorem Sees.onward (h : s.Sees t) (D W : Set Nat) : s.Onward D W t :=
  ⟨fun _ _ => h.look _, h.mapped, fun hc b hb => (h.idle b ((h.free b).mp hb)).trans
    (hc b ((h.free b).mp hb)), fun b => (h.free b).mp, h.frames W⟩

theorem Onward.trans_sees (h : s.Onward D W t) (h' : t.Sees u) : s.Onward D W u :=
  h.trans (h'.onward D ∅) (subset_refl _) fun _ ha => ha.elim

theorem Alters.onward {A : Set Nat} (h : s.Alters A t) (hA : s.Inert D X A) : s.Onward D A t :=
  ⟨fun f hf => h.look _ (hA.2.2 f hf), h.mapped,
    fun hc b hb => (h.idle b ((h.free hA.1 b).mp hb)).trans (hc b ((h.free hA.1 b).mp hb)),
    fun b => (h.free hA.1 b).mp, h.frames hA.1⟩

/-- A set of blocks has grown by blocks that were free. -/
structure Grown (s : Fs) (D D' : Set Nat) : Prop where
  sub : D ⊆ D'
  fresh : ∀ b ∈ D', b ∈ D ∨ s.Free b

namespace Grown

theorem refl (s : Fs) (D : Set Nat) : s.Grown D D := ⟨subset_refl D, fun _ h => .inl h⟩

theorem trans {D'' : Set Nat} (h : s.Grown D D') (h' : t.Grown D' D'')
    (hfree : ∀ b, t.Free b → s.Free b) : s.Grown D D'' :=
  ⟨h.sub.trans h'.sub, fun b hb => (h'.fresh b hb).elim (h.fresh b) fun h => .inr (hfree b h)⟩

theorem insert (h : s.Free b) : s.Grown D (insert b D) :=
  ⟨Set.subset_insert b D, fun _ hc => hc.elim (fun heq => .inr (heq ▸ h)) .inl⟩

theorem of_free (h : t.Grown D D') (hfree : ∀ b, t.Free b → s.Free b) : s.Grown D D' :=
  ⟨h.sub, fun b hb => (h.fresh b hb).imp_right (hfree b)⟩

end Grown

theorem Sees.num (h : s.Sees t) (a : Nat) : t.num a = s.num a := by
  unfold Fs.num
  rw [h.look]

theorem held_congr (h : ∀ a, t.num a = s.num a) (k : Slot) : t.held f k = s.held f k := by
  cases k with
  | direct i => exact h _
  | indirect => exact h _
  | entry i => simp only [held, h]

/-- The files in directory blocks that are new are not directories and have no blocks. -/
def Blank (t : Fs) (D D' : Set Nat) : Prop :=
  ∀ f ∈ files D', f ∈ files D ∨ ¬t.IsDir f ∧ ∀ k, t.held f k = 0

theorem Blank.refl (t : Fs) (D : Set Nat) : t.Blank D D := fun _ hf => .inl hf

theorem Blank.sees (h : t.Blank D D') (hs : t.Sees u) : u.Blank D D' := by
  intro f hf
  refine (h f hf).imp_right fun ⟨hdir, hk⟩ => ⟨fun h => hdir ?_, fun k => ?_⟩
  · exact (IsDir.congr (hs.look _)).mp h
  · rw [held_congr hs.num]
    exact hk k

/-! ### The directories that can be reached -/

/-- The directories that can be reached keep their blocks. -/
def KeepsDirs (s t : Fs) : Prop :=
  ∀ d, s.IsFile d → s.IsDir d → t.IsDir d ∧ ∀ k, s.held d k ≠ 0 → t.held d k = s.held d k

namespace KeepsDirs

theorem isFile (h : s.KeepsDirs t) (hf : s.IsFile f) : t.IsFile f := by
  induction hf with
  | root => exact .root
  | @entry d j k hd hdir hk hb hj ih =>
    obtain ⟨hdir', hkept⟩ := h d hd hdir
    rw [← hkept k hb]
    exact .entry ih hdir' hk (by rwa [hkept k hb]) hj

theorem dirBlocks (h : s.KeepsDirs t) : s.dirBlocks ⊆ t.dirBlocks := by
  rintro b ⟨d, k, hd, hdir, hk, rfl, hb⟩
  obtain ⟨hdir', hkept⟩ := h d hd hdir
  exact ⟨d, k, h.isFile hd, hdir', hk, hkept k hb, hb⟩

theorem trans (h : s.KeepsDirs t) (h' : t.KeepsDirs u) : s.KeepsDirs u := by
  intro d hd hdir
  obtain ⟨hdir', hkept⟩ := h d hd hdir
  obtain ⟨hdir'', hkept'⟩ := h' d (h.isFile hd) hdir'
  refine ⟨hdir'', fun k hk => ?_⟩
  rw [hkept' k (by rwa [hkept k hk]), hkept k hk]

end KeepsDirs

theorem Sees.keepsDirs (h : s.Sees t) : s.KeepsDirs t := fun _ _ hdir =>
  ⟨(IsDir.congr (h.look _)).mpr hdir, fun k _ => held_congr h.num k⟩

/-- A block that a file holds stays if its slot stays. -/
theorem Own.held_kept (ho : s.Own D X) (h : s.Frames W t) (hf : f ∈ files D)
    (hW : ∀ k, s.held f k ≠ 0 → s.slotAddr f k ∉ W) {k : Slot} (hk : s.held f k ≠ 0) :
    t.held f k = s.held f k := by
  have hnum : ∀ {k}, s.held f k ≠ 0 → t.num (s.slotAddr f k) = s.num (s.slotAddr f k) := by
    intro k hk
    have hmem := ho.slotAddr_mem hf hk
    unfold num
    rw [h.look _ (hW k hk) (ho.slot_inData hmem) (ho.slot_not_free hmem)]
  cases k with
  | direct i => exact hnum hk
  | indirect => exact hnum hk
  | entry i =>
    have hx : s.num (fIndirect f) ≠ 0 := by
      intro h0
      simp [held, h0] at hk
    have hind : t.num (fIndirect f) = s.num (fIndirect f) := hnum (k := .indirect) hx
    have := hnum hk
    simp only [held, slotAddr, hind, if_neg hx] at this ⊢
    exact this

/-- Directories keep their blocks if only words change that are not slots with blocks of theirs. -/
theorem Own.keepsDirs (ho : s.Own D X) (h : s.Frames W t)
    (hty : ∀ f ∈ files D, t.look (fType f) = s.look (fType f))
    (hW : ∀ d ∈ files D, s.IsDir d → ∀ k, s.held d k ≠ 0 → s.slotAddr d k ∉ W) : s.KeepsDirs t := by
  intro d hd hdir
  have hf := ho.isFile hd
  exact ⟨(IsDir.congr (hty d hf)).mpr hdir, fun k hk => ho.held_kept h hf (hW d hf hdir) hk⟩

/-- In particular if only empty slots change. -/
theorem Onward.keepsDirs (h : s.Onward D W t) (ho : s.Own D X)
    (hW : ∀ a ∈ slots D X, s.num a ≠ 0 → a ∉ W) : s.KeepsDirs t :=
  ho.keepsDirs h.frame h.types fun _ hd _ k hk =>
    hW _ (ho.slotAddr_mem hd hk) (by rwa [← held_eq_num hk])

/-- Blocks have been read and taken: what is owned now, and what stays. -/
structure Advance (s : Fs) (D X W : Set Nat) (t : Fs) (D' X' : Set Nat) : Prop where
  dirs : s.Grown D D'
  indexes : s.Grown X X'
  own : t.Own D' X'
  onward : s.Onward D W t
  blank : t.Blank D D'
  rooted : D ⊆ s.dirBlocks → D' ⊆ t.dirBlocks

theorem Advance.of_sees (ho : s.Own D X) (h : s.Sees t) (W : Set Nat) : s.Advance D X W t D X :=
  ⟨.refl s D, .refl s X, ho.sees h, h.onward D W, .refl t D, fun hr => hr.trans h.keepsDirs.dirBlocks⟩

theorem Advance.trans_sees (h : s.Advance D X W t D' X') (h' : t.Sees u) : s.Advance D X W u D' X' :=
  ⟨h.dirs, h.indexes, h.own.sees h', h.onward.trans_sees h', h.blank.sees h',
    fun hr => (h.rooted hr).trans h'.keepsDirs.dirBlocks⟩

/-- A slot of a block is not an `f_indirect`. -/
theorem Own.pointer_ne_indirect (ho : s.Own D X) (hf : f ∈ files D) (hf' : f' ∈ files D)
    (hp : p ∈ s.pointers f) : p ≠ fIndirect f' := by
  rcases hp with ⟨i, hi, rfl⟩ | ⟨hx, i, hi, rfl⟩
  · intro heq
    have := (ho.file_word_inj hf hf' (i := 34 + i) (j := 44) (by omega) (by omega)
      (by unfold fDirect fIndirect at heq; omega)).2
    omega
  · intro heq
    exact ho.file_word_ne_entry hf' (by decide) (ho.index f hf hx) hi heq.symm

/-- A slot belongs to one file. -/
theorem Own.pointer_file (ho : s.Own D X) (hf : f ∈ files D) (hf' : f' ∈ files D)
    (hp : p ∈ s.pointers f) (hp' : p ∈ s.pointers f') : f = f' := by
  rcases hp with ⟨i, hi, rfl⟩ | ⟨hx, i, hi, rfl⟩
  · rcases hp' with ⟨i', hi', heq⟩ | ⟨hx', i', hi', heq⟩
    · unfold fDirect at heq
      rw [Nat.add_assoc, Nat.add_assoc] at heq
      exact (ho.file_word_inj hf hf' (by omega) (by omega) heq).1
    · rw [fDirect, Nat.add_assoc] at heq
      exact absurd heq (ho.file_word_ne_entry hf (by omega) (ho.index f' hf' hx') hi')
  · rcases hp' with ⟨i', hi', heq⟩ | ⟨hx', i', hi', heq⟩
    · rw [fDirect, Nat.add_assoc] at heq
      exact absurd heq.symm (ho.file_word_ne_entry hf' (by omega) (ho.index f hf hx) hi)
    · have hslot := ho.holds.unique _ (indirect_mem_slots hf) _ (indirect_mem_slots hf') hx
        (by omega)
      exact (ho.file_word_inj hf hf' (by decide) (by decide) hslot).1

theorem Took.onward (ho : s.Own D X) (h : s.Took b t) (W : Set Nat) : s.Onward D W t where
  frame := h.frames W
  free c hc := ((h.free c).mp hc).1
  types f hf := by
    refine h.look _ (ho.type_inData hf) ?_
    rw [fType, file_words hf (by omega)]
    rintro heq
    exact ho.file_not_free hf (heq ▸ h.first.1)
  mapped := h.mapped
  clean hc c hfree := (h.idle c hfree).trans (hc c ((h.free c).mp hfree).1)

/-- A store to a slot. -/
theorem Own.store_onward (ho : s.Own D X) (hp : p ∈ slots D X) (hm : s.isMapped (p / 1024) = true)
    (w : Word) : s.Onward D {p} (s.setWord p w) := by
  have halt := alters_setWord (w := w) hm (ho.slot_not_free hp)
  have hplain := ho.slot_plain hp
  exact ⟨fun f hf => halt.look _ (ho.slot_ne_type hp hf), halt.mapped,
    fun hc b hb => (halt.idle b ((halt.free hplain b).mp hb)).trans
      (hc b ((halt.free hplain b).mp hb)), fun b => (halt.free hplain b).mp, halt.frames hplain⟩

theorem Took.zero (h : s.Took b t) (hz : s.page b = fun _ => 0) : t.Zero b := by
  intro a ha
  rw [h.fresh a ha, word, ha, hz]

/-- The slots are the same after a block has been taken. -/
theorem Took.num (ho : s.Own D X) (h : s.Took b t) (ha : a ∈ slots D X) : t.num a = s.num a := by
  rw [Fs.num, h.look a (ho.slot_inData ha)]
  · rfl
  · rintro heq
    exact ho.slot_not_free ha (heq ▸ h.first.1)

theorem Took.pointers (ho : s.Own D X) (h : s.Took b t) (hf : f ∈ files D) :
    t.pointers f = s.pointers f := by
  have := h.num ho (indirect_mem_slots (X := X) hf)
  unfold Fs.pointers
  rw [this]

/-- The number of a block fits into a slot. -/
theorem Took.toNat (hs : s.Mounted) (h : s.Took b t) : (BitVec.ofNat 32 b : Word).toNat = b := by
  have := h.first.1.1
  have := hs.nblocks
  simp only [BitVec.toNat_ofNat]
  omega

/-- `f_indirect` gets a block: it becomes an index block. -/
theorem Own.filled_index (ho : s.Own D X) (hf : f ∈ files D) (hm : s.isMapped (f / 1024) = true)
    (hclean : s.num (fIndirect f) = 0 → s.NextClean) (h : s.Filled (fIndirect f) t) :
    ∃ X', s.Grown X X' ∧ t.Own D X' ∧ s.Onward D (s.ifEmpty (fIndirect f)) t ∧ t.num (fIndirect f) ≠ 0 := by
  have hm : s.isMapped (fIndirect f / 1024) = true := by
    rw [fIndirect, file_words hf (by decide)]
    exact hm
  rcases h with ⟨h0, rfl⟩ | ⟨h0, b, u, htook, rfl⟩
  · exact ⟨X, Grown.refl _ X, ho, Onward.refl _ D _, h0⟩
  · obtain ⟨hou, hspare⟩ := ho.took htook
    have hz := htook.zero (hclean h0 b htook.first)
    have hoi := hou.insert_index hspare hz
    have hmu := htook.mapped _ hm
    have hp : fIndirect f ∈ slots D (insert b X) := indirect_mem_slots hf
    refine ⟨insert b X, .insert htook.first.1, ?_, ?_, ?_⟩
    · refine hoi.attach hp hmu hspare.used ?_ ?_ ?_ ?_
      · rintro a (ha | ⟨y, rfl | hy, i, hi, rfl⟩) heq
        · exact hspare.unheld a (.inl ha) heq
        · rw [hz.num (by omega)] at heq
          have := hspare.used.1
          have := u.three_le_firstData
          omega
        · exact hspare.unheld _ (entry_mem_slots hy hi) heq
      · exact fun f' hf' _ => ⟨Set.mem_insert b X, hz⟩
      · exact fun f' hf' _ hp' => absurd rfl (hou.pointer_ne_indirect hf' hf hp')
      · exact fun f' hf' _ hp' => absurd rfl (hou.pointer_ne_indirect hf' hf hp')
    · exact (htook.onward ho _).trans (hoi.store_onward hp hmu _) (subset_refl _)
        fun _ ha => .inl ⟨ha, h0⟩
    · rw [num_setWord hmu, if_pos rfl, htook.toNat ho.mounted]
      have := hspare.used.1
      have := u.three_le_firstData
      omega

/-- A slot of a file that is not a directory gets a block. -/
theorem Own.filled_file (ho : s.Own D X) (hf : f ∈ files D) (hdir : ¬s.IsDir f)
    (hp : p ∈ s.pointers f) (hm : s.isMapped (p / 1024) = true) (h : s.Filled p t) :
    t.Own D X ∧ s.Onward D (s.ifEmpty p) t ∧ t.num p ≠ 0 := by
  rcases h with ⟨h0, rfl⟩ | ⟨h0, b, u, htook, rfl⟩
  · exact ⟨ho, Onward.refl _ D _, h0⟩
  · obtain ⟨hou, hspare⟩ := ho.took htook
    have hpu : p ∈ u.pointers f := by rwa [htook.pointers ho hf]
    have hslot := ho.pointer_mem_slots hf hp
    have hmu := htook.mapped _ hm
    have hon := htook.onward ho (s.ifEmpty p)
    refine ⟨?_, hon.trans (hou.store_onward hslot hmu _) (subset_refl _) fun _ ha => .inl ⟨ha, h0⟩, ?_⟩
    · refine hou.attach hslot hmu hspare.used hspare.unheld ?_ ?_ ?_
      · exact fun f' hf' heq => absurd heq (hou.pointer_ne_indirect hf hf' hpu)
      · intro f' hf' hd hp'
        rw [← hou.pointer_file hf hf' hpu hp'] at hd
        exact absurd ((hon.isDir hf).mp hd) hdir
      · exact fun f' hf' _ _ => ⟨hspare.dir, hspare.index⟩
    · rw [num_setWord hmu, if_pos rfl, htook.toNat ho.mounted]
      have := hspare.used.1
      have := u.three_le_firstData
      omega

/-- The files in a block full of zeros. -/
theorem Zero.blank (h : t.Zero b) : t.Blank D (insert b D) := by
  intro f hf
  rcases files_insert hf with hf | ⟨j, hj, rfl⟩
  · exact .inl hf
  · refine .inr ⟨fun hdir => ?_, fun k => ?_⟩
    · rw [IsDir, h (fType (fileIn b j)) (fileIn_block (i := 33) hj (by decide))] at hdir
      exact absurd hdir (by decide)
    · have hind : t.num (fIndirect (fileIn b j)) = 0 := h.num (fileIn_block hj (by decide))
      cases k with
      | direct i =>
        exact h.num (by rw [fDirect, Nat.add_assoc]; exact fileIn_block hj (by omega))
      | indirect => exact hind
      | entry i => simp [Fs.held, hind]

/-- A slot of a directory gets a block: it becomes a directory block. -/
theorem Own.filled_dir (ho : s.Own D X) (hf : f ∈ files D) (hdir : s.IsDir f)
    (hp : p ∈ s.pointers f) (hm : s.isMapped (p / 1024) = true)
    (hclean : s.num p = 0 → s.NextClean) (h : s.Filled p t) :
    ∃ D', s.Advance D X (s.ifEmpty p) t D' X ∧ t.num p ≠ 0 := by
  rcases h with ⟨h0, rfl⟩ | ⟨h0, b, u, htook, rfl⟩
  · exact ⟨D, .of_sees ho (.refl _) _, h0⟩
  · obtain ⟨hou, hspare⟩ := ho.took htook
    have hz := htook.zero (hclean h0 b htook.first)
    have hod := hou.insert_dir hspare hz
    have hsub := Set.subset_insert b D
    have hpu : p ∈ u.pointers f := by rwa [htook.pointers ho hf]
    have hf' := files_mono hsub hf
    have hslot := hod.pointer_mem_slots hf' hpu
    have hmu := htook.mapped _ hm
    have hon := htook.onward ho (s.ifEmpty p)
    have hb3 : b ≠ 0 := by
      have := hspare.used.1
      have := u.three_le_firstData
      omega
    have hpb : p / 1024 ≠ b := by
      rintro rfl
      rcases ho.slot_block (ho.pointer_mem_slots hf hp) with ⟨h, -⟩ | h | h
      · have := hspare.used.1
        have := u.three_le_firstData
        omega
      · exact hspare.dir h
      · exact hspare.index h
    have hzt : (u.setWord p (BitVec.ofNat 32 b)).Zero b := by
      intro a ha
      rw [look_setWord hmu, if_neg (by rintro rfl; exact hpb ha)]
      exact hz a ha
    have hont := hon.trans (hod.store_onward hslot hmu (BitVec.ofNat 32 b)) hsub
      fun _ ha => .inl ⟨ha, h0⟩
    have hnum : (u.setWord p (BitVec.ofNat 32 b)).num p = b := by
      rw [num_setWord hmu, if_pos rfl, htook.toNat ho.mounted]
    refine ⟨insert b D, ⟨.insert htook.first.1, .refl s X, ?_, hont, hzt.blank, ?_⟩,
      by rw [hnum]; exact hb3⟩
    · refine hod.attach hslot hmu hspare.used ?_ ?_ ?_ ?_
      · rintro a (⟨g, hg, i, hi, rfl⟩ | hx) heq
        · rcases files_insert hg with hg | ⟨j, hj, rfl⟩
          · exact hspare.unheld _ (.inl ⟨g, hg, i, hi, rfl⟩) heq
          · rw [hz.num (by rw [Nat.add_assoc]; exact fileIn_block hj (by omega))] at heq
            exact hb3 heq.symm
        · exact hspare.unheld a (.inr hx) heq
      · exact fun g hg heq => absurd heq (hod.pointer_ne_indirect hf' hg hpu)
      · exact fun g hg _ _ => Set.mem_insert b D
      · intro g hg hd hp'
        rw [← hod.pointer_file hf' hg hpu hp'] at hd
        exact absurd ((hon.isDir hf).mpr hdir) hd
    · intro hr
      have hkeep := hont.keepsDirs ho fun a _ ha h => ha (h.1 ▸ h.2)
      refine Set.insert_subset ?_ (hr.trans hkeep.dirBlocks)
      have hfile : s.IsFile f := mem_files_dirBlocks.mp (files_mono hr hf)
      have hpt : p ∈ (u.setWord p (BitVec.ofNat 32 b)).pointers f := by
        rw [pointers_setWord hmu (hod.pointer_ne_indirect hf' hf' hpu)]
        exact hpu
      obtain ⟨k, hk, -, heq⟩ := exists_slot_of_pointer hpt
      exact ⟨f, k, hkeep.isFile hfile, (hont.isDir hf).mpr hdir, hk, heq.trans hnum, hb3⟩

/-- A slot of a block gets a block. -/
theorem Own.filled_block (ho : s.Own D X) (hf : f ∈ files D) (hp : p ∈ s.pointers f)
    (hm : s.isMapped (p / 1024) = true) (hclean : s.IsDir f → s.num p = 0 → s.NextClean)
    (h : s.Filled p t) : ∃ D', s.Advance D X (s.ifEmpty p) t D' X ∧ t.num p ≠ 0 := by
  by_cases hdir : s.IsDir f
  · exact ho.filled_dir hf hdir hp hm (hclean hdir) h
  · obtain ⟨hot, hon, h0⟩ := ho.filled_file hf hdir hp hm h
    exact ⟨D, ⟨.refl s D, .refl s X, hot, hon, .refl t D, fun hr =>
      hr.trans (hon.keepsDirs ho fun a _ ha h => ha (h.1 ▸ h.2)).dirBlocks⟩, h0⟩

/-- The number of block `n` of the file `f`; 0 if there is none. -/
def block (s : Fs) (f n : Nat) : Nat :=
  if n < ndirect then s.num (fDirect f n)
  else if n < nindirect ∧ s.num (fIndirect f) ≠ 0 then s.num (1024 * s.num (fIndirect f) + n)
  else 0

/-- What `file_block_walk` does: `p` is the slot of block `n`; the file has got an index block if it needs
one. -/
def Walked (s : Fs) (f n p : Nat) (t : Fs) : Prop :=
  (n < ndirect ∧ t = s ∧ p = fDirect f n) ∨
    ndirect ≤ n ∧ n < nindirect ∧ ∃ u, s.Filled (fIndirect f) u ∧ u.Sees t ∧
      p = 1024 * t.num (fIndirect f) + n

/-- What `file_map_block` does: `b` is the number in the slot of block `n`. -/
def Reached (s : Fs) (f n b : Nat) (t : Fs) : Prop :=
  ∃ p u, s.Walked f n p u ∧ u.Filled p t ∧ b = t.num p

theorem Walked.lt (h : s.Walked f n p t) : n < nindirect := by
  rcases h with ⟨hn, -⟩ | ⟨-, hn, -⟩
  · unfold ndirect nindirect at *
    omega
  · exact hn

/-- The words that belong to the file `f`: its size, its slots, and the blocks that it holds. -/
def wordsOf (s : Fs) (f : Nat) : Set Nat :=
  {a | a = fSize f ∨ (∃ i ≤ 10, a = f + 34 + i) ∨ ∃ k, s.held f k ≠ 0 ∧ a / 1024 = s.held f k}

theorem direct_mem_wordsOf (hi : i < 10) : fDirect f i ∈ s.wordsOf f :=
  .inr (.inl ⟨i, by omega, rfl⟩)

theorem indirect_mem_wordsOf : fIndirect f ∈ s.wordsOf f := .inr (.inl ⟨10, le_refl _, rfl⟩)

theorem Filled.of_ne (h : s.Filled p t) (h0 : s.num p ≠ 0) : t = s := by
  rcases h with ⟨-, rfl⟩ | ⟨h0', -⟩
  · rfl
  · exact absurd h0' h0

/-- The slots of `f`. -/
def slotsOf (s : Fs) (f : Nat) : Set Nat :=
  {a | (∃ i ≤ 10, a = f + 34 + i) ∨
    s.num (fIndirect f) ≠ 0 ∧ ∃ i < 1024, a = 1024 * s.num (fIndirect f) + i}

/-- The slots of `f` that are empty. -/
def emptySlots (s : Fs) (f : Nat) : Set Nat := {a | s.num a = 0 ∧ a ∈ s.slotsOf f}

theorem Own.slotsOf_subset (ho : s.Own D X) (hf : f ∈ files D) : s.slotsOf f ⊆ slots D X := by
  rintro a (⟨i, hi, rfl⟩ | ⟨hx, i, hi, rfl⟩)
  · exact .inl ⟨f, hf, i, hi, rfl⟩
  · exact entry_mem_slots (ho.index f hf hx) hi

/-- A slot is a slot of one file. -/
theorem Own.slotsOf_file (ho : s.Own D X) (hf : f ∈ files D) (hf' : f' ∈ files D)
    (ha : a ∈ s.slotsOf f) (ha' : a ∈ s.slotsOf f') : f = f' := by
  rcases ha with ⟨i, hi, rfl⟩ | ⟨hx, i, hi, rfl⟩ <;>
    rcases ha' with ⟨i', hi', heq⟩ | ⟨hx', i', hi', heq⟩
  · rw [Nat.add_assoc, Nat.add_assoc] at heq
    exact (ho.file_word_inj hf hf' (by omega) (by omega) heq).1
  · rw [Nat.add_assoc] at heq
    exact absurd heq (ho.file_word_ne_entry hf (by omega) (ho.index f' hf' hx') hi')
  · rw [Nat.add_assoc] at heq
    exact absurd heq.symm (ho.file_word_ne_entry hf' (by omega) (ho.index f hf hx) hi)
  · have hslot := ho.holds.unique _ (indirect_mem_slots hf) _ (indirect_mem_slots hf') hx (by omega)
    exact (ho.file_word_inj hf hf' (by decide) (by decide) hslot).1

theorem emptySlots_subset_wordsOf : s.emptySlots f ⊆ s.wordsOf f := by
  rintro a ⟨-, ha | ⟨hx, i, hi, rfl⟩⟩
  · exact .inr (.inl ha)
  · refine .inr (.inr ⟨.indirect, hx, ?_⟩)
    simp only [held]
    omega

/-- The slot of a block is a slot of the file, or it is in a block that was free. -/
theorem Walked.mem_emptySlots (ho : s.Own D X) (hf : f ∈ files D) (hm : s.isMapped (f / 1024) = true)
    (h : s.Walked f n p t) (h0 : t.num p = 0) : p ∈ s.emptySlots f ∨ s.Free (p / 1024) := by
  rcases h with ⟨hn, rfl, rfl⟩ | ⟨-, hn, u, hfill, hsees, rfl⟩
  · exact .inl ⟨h0, .inl ⟨n, Nat.le_of_lt hn, rfl⟩⟩
  · rw [hsees.num] at h0 ⊢
    unfold nindirect at hn
    rcases hfill with ⟨hx, rfl⟩ | ⟨-, b, v, htook, rfl⟩
    · exact .inl ⟨by rwa [hsees.num] at h0, .inr ⟨hx, n, hn, rfl⟩⟩
    · have hmi : s.isMapped (fIndirect f / 1024) = true := by
        rw [fIndirect, file_words hf (by decide)]
        exact hm
      rw [num_setWord (htook.mapped _ hmi), if_pos rfl, htook.toNat ho.mounted,
        show (1024 * b + n) / 1024 = b by omega]
      exact .inr htook.first.1

/-- Nothing is taken for a block that is there. -/
theorem Reached.of_block (h : s.Reached f n b t) (h0 : s.block f n ≠ 0) :
    s.Sees t ∧ b = s.block f n := by
  obtain ⟨p, u, hw, hfill, rfl⟩ := h
  have hsees : s.Sees u ∧ u.num p = s.block f n := by
    rcases hw with ⟨hn, rfl, rfl⟩ | ⟨hn, hn', v, hv, hsees, rfl⟩
    · refine ⟨Sees.refl _, ?_⟩
      rw [block, if_pos hn]
    · have hx : s.num (fIndirect f) ≠ 0 := by
        intro hx
        simp [block, hx, Nat.not_lt.mpr hn] at h0
      obtain rfl := hv.of_ne hx
      refine ⟨hsees, ?_⟩
      rw [block, if_neg (by omega), if_pos ⟨hn', hx⟩]
      unfold num
      rw [hsees.look, hsees.look]
  rw [← hsees.2] at h0 ⊢
  obtain rfl := hfill.of_ne h0
  exact ⟨hsees.1, rfl⟩

theorem look_setWord_self : (s.setWord a w).look a = w := by
  simp [look, isMapped, word, page, setWord, setPage]

theorem look_setWord_ne_block (h : a / 1024 ≠ p / 1024) : (s.setWord p w).look a = s.look a := by
  have hc : (s.setWord p w).cache (a / 1024) = s.cache (a / 1024) := Function.update_of_ne h _ _
  unfold look word page isMapped
  rw [hc]
  rfl

/-- The slot that `file_block_walk` finds is empty if there is no such block, if no free block had an old
page that could be read as an index block. -/
theorem Walked.empty (ho : s.Own D X) (hf : f ∈ files D) (hm : s.isMapped (f / 1024) = true)
    (hc : s.Clean) (h : s.Walked f n p t) (h0 : s.block f n = 0) : t.num p = 0 := by
  rcases h with ⟨hn, rfl, rfl⟩ | ⟨hn, hn', u, hfill, hsees, rfl⟩
  · rwa [block, if_pos hn] at h0
  · rw [hsees.num, hsees.num]
    rcases hfill with ⟨hx, rfl⟩ | ⟨hx, b, v, htook, rfl⟩
    · rwa [block, if_neg (by omega), if_pos ⟨hn', hx⟩] at h0
    · have hb : (v.setWord (fIndirect f) (BitVec.ofNat 32 b)).num (fIndirect f) = b := by
        rw [num, look_setWord_self, htook.toNat ho.mounted]
      have hfb : fIndirect f / 1024 = f / 1024 := by rw [fIndirect, file_words hf (by decide)]
      have hblk : (1024 * b + n) / 1024 = b := by
        unfold nindirect at hn'
        omega
      have hne : 1024 * b + n ≠ fIndirect f := by
        intro heq
        rw [heq, hfb] at hblk
        exact ho.file_not_free hf (hblk ▸ htook.first.1)
      rw [hb, num, look_setWord (htook.mapped _ (hfb ▸ hm)), if_neg hne, htook.fresh _ hblk, word,
        hblk, hc b htook.first.1]
      rfl

/-- The slot that `file_block_walk` finds is in a block in use. -/
theorem Walked.own (ho : s.Own D X) (hf : f ∈ files D) (hm : s.isMapped (f / 1024) = true)
    (hc : s.Clean) (h : s.Walked f n p t) :
    (∃ X', t.Own D X') ∧ ¬t.Free (p / 1024) ∧ (∀ c, t.Free c → s.Free c) ∧ t.Clean := by
  rcases h with ⟨hn, rfl, rfl⟩ | ⟨-, hn, u, hfill, hsees, rfl⟩
  · refine ⟨⟨X, ho⟩, ?_, fun _ h => h, hc⟩
    rw [fDirect, Nat.add_assoc, file_words hf (by unfold ndirect at hn; omega)]
    exact ho.file_not_free hf
  · obtain ⟨X', -, hou, hon, hx⟩ := ho.filled_index hf hm (fun _ => hc.next) hfill
    have hon' := hon.trans_sees hsees
    refine ⟨⟨X', hou.sees hsees⟩, ?_, hon'.free, hon'.clean hc⟩
    unfold nindirect at hn
    rw [show (1024 * t.num (fIndirect f) + n) / 1024 = t.num (fIndirect f) by omega, hsees.free,
      hsees.num]
    exact (hou.indexes (hou.index f hf hx)).2.2

/-- A new block was free and is full of zeros, if no free block had an old page. -/
theorem Reached.fresh (ho : s.Own D X) (hf : f ∈ files D) (hm : s.isMapped (f / 1024) = true)
    (h : s.Reached f n b t) (h0 : s.block f n = 0) (hc : s.Clean) : s.Free b ∧ t.Zero b := by
  obtain ⟨p, u, hw, hfill, rfl⟩ := h
  have hzero := hw.empty ho hf hm hc h0
  obtain ⟨⟨X', hou⟩, hpf, hfree, hcu⟩ := hw.own ho hf hm hc
  rcases hfill with ⟨hne, -⟩ | ⟨-, b, v, htook, rfl⟩
  · exact absurd hzero hne
  · rw [num, look_setWord_self, htook.toNat hou.mounted]
    refine ⟨hfree b htook.first.1, ?_⟩
    intro a ha
    have hb : p / 1024 ≠ b := fun heq => hpf (heq ▸ htook.first.1)
    rw [look_setWord_ne_block (by rw [ha]; exact Ne.symm hb)]
    exact htook.zero (hcu b htook.first.1) a ha

end Fs

/-! ## The functions -/

theorem load_look (h : s.isMapped (a / 1024) = true) : load a s = .ret (s.look a) s := by
  rw [load_mapped h, Fs.look_of_mapped h]

theorem look_eq_zero : s.look a = 0 ↔ s.num a = 0 := by
  unfold Fs.num
  constructor
  · intro h
    rw [h]
    rfl
  · intro h
    exact BitVec.eq_of_toNat_eq h

theorem fillSlot_sat (hs : s.Mounted) (hm : s.isMapped (p / 1024) = true) (alloc : Bool) :
    (fillSlot p alloc s).Sat (fun _ t => s.Filled p t ∧ (alloc = false → s.num p ≠ 0))
      (fun _ t => s.Sees t ∧ s.num p = 0) (fun _ => False) := by
  rw [fillSlot, bind_ret (load_look hm)]
  refine sat_when ?_ ?_
  · intro h0
    have h0 := look_eq_zero.mp h0
    cases alloc with
    | false => exact ⟨Fs.Sees.refl s, h0⟩
    | true =>
      refine sat_call (allocBlock_sat hs) ?_ (fun _ t h => ⟨h, h0⟩) (fun _ h => h)
      intro b u hu
      rw [store_mapped (hu.mapped _ hm)]
      exact ⟨.inr ⟨h0, b, u, hu, rfl⟩, fun h => by cases h⟩
  · intro h0
    have h0 : s.num p ≠ 0 := fun h => h0 (look_eq_zero.mpr h)
    exact ⟨.inl ⟨h0, rfl⟩, fun _ => h0⟩

theorem fileBlockWalk_sat (ho : s.Own D X) (hf : f ∈ Fs.files D) (hm : s.isMapped (f / 1024) = true)
    (n : Nat) (alloc : Bool)
    (hclean : alloc = true → ndirect ≤ n → n < nindirect → s.num (fIndirect f) = 0 → s.NextClean) :
    (fileBlockWalk f n alloc s).Sat
      (fun p t => s.Walked f n p t ∧ (alloc = false → s.Sees t) ∧ p ∈ t.pointers f ∧
        t.isMapped (p / 1024) = true ∧ ∃ X', s.Grown X X' ∧ t.Own D X' ∧ s.Onward D (s.ifEmpty (fIndirect f)) t)
      (fun _ t => s.Sees t ∧ s.block f n = 0) (fun q => q = .noMemory) := by
  have hmi : s.isMapped (fIndirect f / 1024) = true := by
    rw [fIndirect, Fs.file_words hf (by decide)]
    exact hm
  unfold fileBlockWalk
  split
  next hn =>
    refine ⟨.inl ⟨hn, rfl, rfl⟩, fun _ => Fs.Sees.refl s, .inl ⟨n, hn, rfl⟩, ?_, X,
      Fs.Grown.refl s X, ho, Fs.Onward.refl s D _⟩
    rw [fDirect, Nat.add_assoc, Fs.file_words hf (by unfold ndirect at hn; omega)]
    exact hm
  next hn =>
    split
    next hn' =>
      refine sat_call (fillSlot_sat ho.mounted hmi alloc) ?_ ?_ (fun _ h => h.elim)
      · rintro - u ⟨hfill, hsame⟩
        have hc : s.num (fIndirect f) = 0 → s.NextClean := by
          intro h0
          cases alloc with
          | false => exact absurd h0 (hsame rfl)
          | true => exact hclean rfl (by omega) hn' h0
        obtain ⟨X', hX, hou, hon, hx⟩ := ho.filled_index hf hm hc hfill
        have hmu := hon.mapped _ hmi
        have hmem := hou.index f hf hx
        rw [bind_ret (load_look hmu)]
        refine sat_call (readBlock_sat hou.mounted (hou.indexes hmem).2.1 (hou.indexes hmem).2.2) ?_
          (fun _ _ h => h.elim) (fun _ h => h)
        rintro - t ⟨hsees, hmt⟩
        have hnum : t.num (fIndirect f) = u.num (fIndirect f) := by
          unfold Fs.num
          rw [hsees.look]
        refine ⟨.inr ⟨by omega, hn', u, hfill, hsees, ?_⟩, ?_, .inr ⟨?_, n, hn', ?_⟩, ?_, X', hX,
          hou.sees hsees, hon.trans_sees hsees⟩
        · rw [hnum]
          rfl
        · intro halloc
          rw [hfill.of_ne (hsame halloc)] at hsees
          exact hsees
        · rwa [hnum]
        · rw [hnum]
          rfl
        · unfold nindirect at hn'
          rw [show (1024 * (u.look (fIndirect f)).toNat + n) / 1024 = (u.look (fIndirect f)).toNat by
            omega]
          exact hmt
      · rintro - t ⟨hsees, h0⟩
        refine ⟨hsees, ?_⟩
        rw [Fs.block, if_neg hn, if_neg (fun h => h.2 h0)]
    next hn' =>
      refine ⟨Fs.Sees.refl s, ?_⟩
      rw [Fs.block, if_neg hn, if_neg (fun h => hn' h.1)]

theorem fileMapBlock_sat (ho : s.Own D X) (hf : f ∈ Fs.files D) (hm : s.isMapped (f / 1024) = true)
    (n : Nat) (alloc : Bool)
    (hclean : alloc = true → n < nindirect → s.block f n = 0 → (s.IsDir f → s.Clean) ∧
      (ndirect ≤ n → s.num (fIndirect f) = 0 → s.NextClean)) :
    (fileMapBlock f n alloc s).Sat
      (fun b t => s.Reached f n b t ∧ (alloc = false → s.Sees t) ∧ b ≠ 0 ∧
        ∃ D' X', s.Advance D X (s.emptySlots f) t D' X' ∧ ∃ p ∈ t.pointers f, t.num p = b)
      (fun _ t => (∃ D' X', s.Advance D X (s.emptySlots f) t D' X') ∧ s.block f n = 0 ∧ (alloc = false → s.Sees t) ∧
        (nindirect ≤ n → s.Sees t)) (fun q => q = .noMemory) := by
  have hidx : alloc = true → ndirect ≤ n → n < nindirect → s.num (fIndirect f) = 0 → s.NextClean := by
    intro halloc hn hn' h0
    refine (hclean halloc hn' ?_).2 hn h0
    rw [Fs.block, if_neg (by omega), if_neg (fun h => h.2 h0)]
  have hsub : s.ifEmpty (fIndirect f) ⊆ s.emptySlots f := by
    rintro _ ⟨rfl, h0⟩
    exact ⟨h0, .inl ⟨10, le_refl _, rfl⟩⟩
  rw [fileMapBlock]
  refine sat_call (fileBlockWalk_sat ho hf hm n alloc hidx) ?_ ?_ (fun _ h => h)
  · rintro p u ⟨hwalk, hsame, hp, hmp, X', hX, hou, hon⟩
    have hkept : s.KeepsDirs u := hon.keepsDirs ho fun a _ ha h => ha (h.1 ▸ h.2)
    have hzero : u.num p = 0 → s.block f n = 0 := by
      intro h0
      by_contra hne
      rcases hwalk with ⟨hn, rfl, rfl⟩ | ⟨hn, hn', v, hv, hsees, rfl⟩
      · rw [Fs.block, if_pos hn] at hne
        exact hne h0
      · have hx : s.num (fIndirect f) ≠ 0 := by
          intro hx
          simp [Fs.block, hx, Nat.not_lt.mpr hn] at hne
        obtain rfl := hv.of_ne hx
        rw [Fs.block, if_neg (by omega), if_pos ⟨hn', hx⟩] at hne
        unfold Fs.num at h0 hne
        rw [hsees.look, hsees.look] at h0
        exact hne h0
    refine sat_call (fillSlot_sat hou.mounted hmp alloc) ?_ ?_ (fun _ h => h.elim)
    · rintro - t ⟨hfill, hkeep⟩
      have hc : u.IsDir f → u.num p = 0 → u.NextClean := by
        intro hdir h0
        cases halloc : alloc with
        | false => exact absurd h0 (hkeep halloc)
        | true =>
          have hcl := (hclean halloc hwalk.lt (hzero h0)).1 ((hon.isDir hf).mp hdir)
          exact (hon.clean hcl).next
      obtain ⟨D', hadv, hne⟩ := hou.filled_block hf hp hmp hc hfill
      have hmt := hadv.onward.mapped _ hmp
      rw [bind_ret (load_look hmt)]
      refine ⟨⟨p, u, hwalk, hfill, rfl⟩, ?_, hne, D', X',
        ⟨hadv.dirs.of_free hon.free, hX, hadv.own,
          (hon.mono hsub).trans hadv.onward (subset_refl _) ?_, hadv.blank,
          fun hr => hadv.rooted (hr.trans hkept.dirBlocks)⟩, p, ?_, rfl⟩
      · intro halloc
        rw [hfill.of_ne (hkeep halloc)]
        exact hsame halloc
      · rintro _ ⟨rfl, h0⟩
        exact hwalk.mem_emptySlots ho hf hm h0
      · -- filling a slot of a block does not move the index block
        rcases hp with hp | ⟨hx, i, hi, rfl⟩
        · exact .inl hp
        · have hpi := hou.pointer_ne_indirect hf hf (.inr ⟨hx, i, hi, rfl⟩)
          have hnum : t.num (fIndirect f) = u.num (fIndirect f) := by
            rcases hfill with ⟨-, rfl⟩ | ⟨-, b, v, hv, rfl⟩
            · rfl
            · rw [Fs.num_setWord (hv.mapped _ hmp), if_neg hpi.symm,
                hv.num hou (Fs.indirect_mem_slots hf)]
          refine .inr ⟨by rwa [hnum], i, hi, by rw [hnum]⟩
    · rintro - t ⟨hsees, h0⟩
      have hblk := hzero h0
      refine ⟨⟨D, X', Fs.Grown.refl s D, hX, hou.sees hsees, (hon.mono hsub).trans_sees hsees,
        .refl t D, fun hr => hr.trans (hkept.trans hsees.keepsDirs).dirBlocks⟩, hblk,
        fun h => (hsame h).trans hsees, ?_⟩
      intro hn
      exact absurd hwalk.lt (by omega)
  · rintro - t ⟨hsees, h0⟩
    exact ⟨⟨D, X, .of_sees ho hsees _⟩, h0, fun _ => hsees, fun _ => hsees⟩

/-- A block of a file is in use. -/
theorem Fs.Own.pointer_used (ho : s.Own D X) (hf : f ∈ Fs.files D) (hp : p ∈ s.pointers f)
    (h0 : s.num p ≠ 0) : s.num p ∈ s.used :=
  ho.holds.held p (ho.pointer_mem_slots hf hp) h0

theorem fileGetBlock_sat (ho : s.Own D X) (hf : f ∈ Fs.files D) (hm : s.isMapped (f / 1024) = true)
    (n : Nat) (hclean : n < nindirect → s.block f n = 0 → (s.IsDir f → s.Clean) ∧
      (ndirect ≤ n → s.num (fIndirect f) = 0 → s.NextClean)) :
    (fileGetBlock f n s).Sat
      (fun b t => (∃ u, s.Reached f n b u ∧ u.Sees t) ∧ b ≠ 0 ∧ t.isMapped b = true ∧
        ∃ D' X', s.Advance D X (s.emptySlots f) t D' X' ∧ ∃ p ∈ t.pointers f, t.num p = b)
      (fun _ t => (∃ D' X', s.Advance D X (s.emptySlots f) t D' X') ∧ s.block f n = 0 ∧ (nindirect ≤ n → s.Sees t))
      (fun q => q = .noMemory) := by
  rw [fileGetBlock]
  refine sat_call (fileMapBlock_sat ho hf hm n true fun _ => hclean) ?_
    (fun _ t h => ⟨h.1, h.2.1, h.2.2.2⟩) (fun _ h => h)
  rintro b u ⟨hreach, -, hne, D', X', hadv, p, hp, rfl⟩
  have hou := hadv.own
  have hused := hou.pointer_used (Fs.files_mono hadv.dirs.sub hf) hp hne
  refine sat_call (readBlock_sat hou.mounted hused.2.1 hused.2.2) ?_ (fun _ _ h => h.elim)
    (fun _ h => h)
  rintro - t ⟨hsees, hmt⟩
  refine ⟨⟨u, hreach, hsees⟩, hne, hmt, D', X', hadv.trans_sees hsees, p, ?_, ?_⟩
  · rwa [Fs.pointers_congr (hsees.look _)]
  · unfold Fs.num
    rw [hsees.look]

/-! ## Flushing -/

/-- A round of `file_flush`. -/
theorem flushRound_sat (ho : s.Own D X) (hf : f ∈ Fs.files D) (hm : s.isMapped (f / 1024) = true)
    (n : Nat) :
    ((do
      match ← Prog.attempt (fileMapBlock f n false) with
      | .error _ => pure ()
      | .ok diskno =>
        let dirty ← blockIsDirty diskno
        Prog.when dirty (writeBlock diskno) : FsM Unit) s).Sat
      (fun _ t => s.Sees t) (fun _ _ => False) (fun q => q = .noMemory) := by
  rw [sat_bind, sat_attempt]
  refine (fileMapBlock_sat ho hf hm n false (fun h => by cases h)).mono ?_ ?_ (fun _ h => h)
  · rintro b t ⟨-, hsees, hne, D', X', hadv, p, hp, rfl⟩
    have hsees := hsees rfl
    have hused := hadv.own.pointer_used (Fs.files_mono hadv.dirs.sub hf) hp hne
    have hlt : t.num p < 2 ^ 18 := by
      have := hused.2.1
      have := hadv.own.mounted.nblocks
      omega
    refine sat_call (R := fun d u => t = u ∧ t.isDirty (t.num p) = d) (F := fun _ _ => False)
      (G := fun _ => False) (by rw [blockIsDirty_eq hlt]; exact ⟨rfl, rfl⟩) ?_
      (fun _ _ h => h.elim) (fun _ h => h.elim)
    rintro _ _ ⟨rfl, rfl⟩
    refine sat_when ?_ (fun _ => hsees)
    intro hdirty
    have hmap : t.isMapped (t.num p) = true := by
      unfold Fs.isDirty at hdirty
      unfold Fs.isMapped
      rw [Option.any_eq_true] at hdirty
      obtain ⟨c, hc, -⟩ := hdirty
      rw [hc]
      rfl
    rw [writeBlock_mapped hlt hmap]
    exact hsees.trans (Fs.sees_writeBack hmap)
  · rintro e t ⟨-, -, hsees, -⟩
    exact hsees rfl

theorem fileFlush_sat (ho : s.Own D X) (hf : f ∈ Fs.files D) (hm : s.isMapped (f / 1024) = true) :
    (fileFlush f s).Sat (fun _ t => s.Sees t) (fun _ _ => False) (fun q => q = .noMemory) := by
  have hms : s.isMapped (fSize f / 1024) = true := by
    rw [fSize, Fs.file_words hf (by decide)]
    exact hm
  rw [fileFlush, bind_ret (load_look hms)]
  refine sat_loop (I := fun _ t => s.Sees t) (fun i t _ _ hsees => ?_) (Fs.Sees.refl s)
  exact (flushRound_sat (ho.sees hsees) hf (hsees.mapped _ hm) i).mono
    (fun _ u h => hsees.trans h) (fun _ _ h => h) (fun _ h => h)

/-- `f_dir` is null, or it points at a file in the cache. -/
def Fs.UpOk (s : Fs) (D : Set Nat) (f : Nat) : Prop :=
  s.look (fDir f) = 0 ∨
    ptrFile (s.look (fDir f)) ∈ Fs.files D ∧ s.isMapped (ptrFile (s.look (fDir f)) / 1024) = true

theorem flushDir_sat (ho : s.Own D X) (hf : f ∈ Fs.files D) (hm : s.isMapped (f / 1024) = true)
    (hup : s.UpOk D f) :
    (flushDir f s).Sat (fun _ t => s.Sees t) (fun _ _ => False) (fun q => q = .noMemory) := by
  have hmd : s.isMapped (fDir f / 1024) = true := by
    rw [fDir, Fs.file_words hf (by decide)]
    exact hm
  rw [flushDir, bind_ret (load_look hmd)]
  refine sat_when ?_ (fun _ => Fs.Sees.refl s)
  intro h0
  rcases hup with h | ⟨hd, hmd⟩
  · exact absurd h h0
  · exact fileFlush_sat ho hd hmd

theorem dirtyBlock_sat (hb : b < 2 ^ 18) :
    (dirtyBlock b s).Sat (fun _ t => s.Sees t) (fun _ t => s.Sees t) (fun _ => False) := by
  rw [dirtyBlock, bind_ret (diskaddr_eq hb), get_bind]
  split
  next => exact Fs.Sees.refl s
  next hm =>
    split
    next => exact Fs.Sees.refl s
    next => exact Fs.sees_mark (by simpa using hm)

theorem fileDirty_sat (ho : s.Own D X) (hf : f ∈ Fs.files D) (hm : s.isMapped (f / 1024) = true)
    (offset : Word) :
    (fileDirty f offset s).Sat (fun _ t => s.Sees t) (fun _ t => s.Sees t)
      (fun q => q = .noMemory) := by
  rw [fileDirty]
  refine sat_call (fileMapBlock_sat ho hf hm _ false (fun h => by cases h)) ?_
    (fun _ _ h => h.2.2.1 rfl) (fun _ h => h)
  rintro b t ⟨-, hsees, hne, D', X', hadv, p, hp, rfl⟩
  have hused := hadv.own.pointer_used (Fs.files_mono hadv.dirs.sub hf) hp hne
  have hlt : t.num p < 2 ^ 18 := by
    have := hused.2.1
    have := hadv.own.mounted.nblocks
    omega
  exact (dirtyBlock_sat hlt).mono (fun _ _ h => (hsees rfl).trans h)
    (fun _ _ h => (hsees rfl).trans h) (fun _ h => h.elim)

/-! ## Truncating -/

/-- What is known after the file `f` has been cut: index blocks may have gone, and only words of `f` have
changed. -/
structure Fs.Trimmed (s : Fs) (D : Set Nat) (f : Nat) (t : Fs) : Prop where
  own : ∃ X, t.Own D X
  types : ∀ g ∈ Fs.files D, t.look (fType g) = s.look (fType g)
  ups : ∀ g ∈ Fs.files D, t.look (fDir g) = s.look (fDir g)
  mapped : ∀ b, s.isMapped b = true → t.isMapped b = true
  frame : s.Frames (s.wordsOf f) t
  words : t.wordsOf f ⊆ s.wordsOf f

namespace Fs

theorem Trimmed.trans (h : s.Trimmed D f t) (h' : t.Trimmed D f u) : s.Trimmed D f u :=
  ⟨h'.own, fun g hg => (h'.types g hg).trans (h.types g hg),
    fun g hg => (h'.ups g hg).trans (h.ups g hg), fun b hb => h'.mapped b (h.mapped b hb),
    h.frame.trans h'.frame fun _ ha => .inl (h.words ha), h'.words.trans h.words⟩

/-- A file that holds no other blocks than before has no other words than before. -/
theorem wordsOf_subset (h : ∀ k, t.held f k ≠ 0 → t.held f k = s.held f k) :
    t.wordsOf f ⊆ s.wordsOf f := by
  rintro a (ha | ha | ⟨k, hk, ha⟩)
  · exact .inl ha
  · exact .inr (.inl ha)
  · refine .inr (.inr ⟨k, ?_, ?_⟩)
    · rwa [← h k hk]
    · rwa [← h k hk]

theorem Sees.trimmed (h : s.Sees t) (ho : s.Own D X) (f : Nat) : s.Trimmed D f t :=
  ⟨⟨X, ho.sees h⟩, fun _ _ => h.look _, fun _ _ => h.look _, h.mapped, h.frames _,
    wordsOf_subset fun k _ => held_congr h.num k⟩

theorem Own.dir_inData (ho : s.Own D X) (hf : f ∈ files D) : s.InData (fDir f / 1024) := by
  rw [fDir, file_words hf (by omega)]
  rcases ho.file_block hf with rfl | ⟨-, hD, -⟩
  · exact .inr (.inl rfl)
  · exact .inr (.inr hD)

theorem Own.slot_ne_dir (ho : s.Own D X) (ha : a ∈ slots D X) (hf : f ∈ files D) : fDir f ≠ a := by
  rintro rfl
  exact (ho.inert_file hf (i := 45) (by decide) (by decide)).2.1 _ rfl ha

end Fs

namespace Fs

/-- The slot `p` has given its block back. -/
structure Dropped (s : Fs) (p : Nat) (t : Fs) : Prop where
  nblocks : t.nblocks = s.nblocks
  free : ∀ c, t.Free c ↔ s.Free c ∨ c = s.num p
  look : ∀ a, s.InData (a / 1024) → a ≠ p → t.look a = s.look a
  self : t.num p = 0
  mapped : ∀ b, s.isMapped b = true → t.isMapped b = true

/-- A store to a word of the data is no store to the super block's fields or to the bitmap. -/
theorem Mounted.store (hs : s.Mounted) (hd : s.InData (p / 1024)) (hne : p ≠ 1025)
    (hm : s.isMapped (p / 1024) = true) (w : Word) :
    (s.setWord p w).Mounted ∧ (s.setWord p w).nblocks = s.nblocks ∧
      ∀ c, (s.setWord p w).Free c ↔ s.Free c := by
  have hn : (s.setWord p w).nblocks = s.nblocks := by
    unfold Fs.nblocks
    rw [look_setWord hm, if_neg (Ne.symm hne)]
  have hfirst : (s.setWord p w).firstData = s.firstData := by
    unfold Fs.firstData
    rw [hn]
  have hfree : ∀ c, (s.setWord p w).Free c ↔ s.Free c := by
    intro c
    unfold Free freeBit
    rw [hn]
    refine and_congr_right fun hc => ?_
    rw [look_setWord hm, if_neg (bitmapWord_ne hc hd).symm]
  refine ⟨⟨hs.super, hs.bitmap, by rw [hn]; exact hs.nblocks, ?_, ?_⟩, hn, hfree⟩
  · intro b h1 hb
    rw [isMapped_setWord, hs.mapped b h1 (by omega)]
    rfl
  · intro b hb hf
    exact hs.reserved b (by omega) ((hfree b).mp hf)

theorem Mounted.dropped (hs : s.Mounted) (hd : s.InData (p / 1024)) (hne : p ≠ 1025)
    (hm : s.isMapped (p / 1024) = true) (hv : s.num p ∈ s.used) :
    s.Dropped p ((s.give (s.num p)).setWord p 0) ∧ ((s.give (s.num p)).setWord p 0).Mounted := by
  have hm' := isMapped_give (b := s.num p) s hm
  have hn := nblocks_give hs hv.2.1
  have hd' : (s.give (s.num p)).InData (p / 1024) := by
    rwa [InData, Fs.firstData, hn]
  obtain ⟨hmt, hnt, hfree⟩ := (mounted_give hs hv).store hd' hne hm' 0
  refine ⟨⟨hnt.trans hn, ?_, ?_, by rw [num_setWord hm', if_pos rfl]; rfl, ?_⟩, hmt⟩
  · intro c
    rw [hfree, free_give hs.hasBitmap hv.2.1]
  · intro a ha hap
    rw [look_setWord hm', if_neg hap]
    exact look_setBits hs.hasBitmap hv.2.1 ha
  · intro b hb
    rw [isMapped_setWord, isMapped_give s hb]
    rfl

theorem Own.dropped (ho : s.Own D X) (hp : p ∈ slots D X) (hm : s.isMapped (p / 1024) = true)
    (h0 : s.num p ≠ 0) : s.Dropped p ((s.give (s.num p)).setWord p 0) :=
  have hplain := ho.slot_plain hp p rfl
  (ho.mounted.dropped hplain.1 hplain.2 hm (ho.holds.held p hp h0)).1

theorem Dropped.num (ho : s.Own D X) (h : s.Dropped p t) (ha : a ∈ slots D X) (hne : t.num a ≠ 0) :
    t.num a = s.num a := by
  unfold Fs.num
  rw [h.look a (ho.slot_inData ha)]
  rintro rfl
  exact hne h.self

/-- The file holds no other blocks than before. -/
theorem Dropped.held (ho : s.Own D X) (hf : f ∈ files D) (h : s.Dropped p t) {k : Slot}
    (hk : t.held f k ≠ 0) : t.held f k = s.held f k := by
  cases k with
  | direct i => exact h.num ho (direct_mem_slots hf i.isLt) hk
  | indirect => exact h.num ho (indirect_mem_slots hf) hk
  | entry i =>
    simp only [Fs.held] at hk ⊢
    by_cases hx : t.num (fIndirect f) = 0
    · simp [hx] at hk
    · have heq := h.num ho (indirect_mem_slots hf) hx
      rw [if_neg hx] at hk
      rw [if_neg hx, if_neg (by rwa [← heq])]
      rw [heq] at hk hx ⊢
      exact h.num ho (entry_mem_slots (ho.index f hf hx) i.isLt) hk

/-- A slot belongs to its file. -/
theorem slotAddr_mem_wordsOf {k : Slot} (h : s.held f k ≠ 0) : s.slotAddr f k ∈ s.wordsOf f := by
  cases k with
  | direct i => exact direct_mem_wordsOf i.isLt
  | indirect => exact indirect_mem_wordsOf
  | entry i =>
    have hx : s.num (fIndirect f) ≠ 0 := fun hx => by simp [Fs.held, hx] at h
    refine .inr (.inr ⟨.indirect, hx, ?_⟩)
    have := i.isLt
    simp only [slotAddr, Fs.held]
    omega

end Fs

/-- A slot of `f` that does not hold a directory block is cleared. -/
theorem clearSlot_sat (ho : s.Own D X) (hf : f ∈ Fs.files D) (hp : p ∈ Fs.slots D X)
    (hm : s.isMapped (p / 1024) = true)
    (hslot : s.num p ≠ 0 → ∃ k, s.slotAddr f k = p ∧ s.held f k = s.num p)
    (hD : s.num p ≠ 0 → s.num p ∉ D) (hpv : s.num p ≠ 0 → p / 1024 ≠ s.num p) :
    (clearSlot p s).Sat (fun _ t => s.Trimmed D f t) (fun _ _ => False) (fun _ => False) := by
  rw [clearSlot, bind_ret (load_look hm)]
  refine sat_when ?_ (fun _ => (Fs.Sees.refl s).trimmed ho f)
  intro h0
  have h0 : s.num p ≠ 0 := fun h => h0 (look_eq_zero.mpr h)
  have hused := ho.holds.held p hp h0
  have hfree : freeBlock (s.look p).toNat s = .ret () (s.give (s.num p)) :=
    freeBlock_eq ho.mounted.hasBitmap h0 hused.2.1
  rw [bind_ret hfree, store_mapped (Fs.isMapped_give s hm)]
  have hdrop := ho.dropped hp hm h0
  obtain ⟨k, rfl, hk⟩ := hslot h0
  rw [← hk] at h0
  refine ⟨⟨_, ho.detach hp hm (by rwa [← hk]) (hD (by rwa [← hk])) (hpv (by rwa [← hk]))⟩, ?_, ?_,
    hdrop.mapped, ⟨hdrop.nblocks, ?_, ?_⟩, Fs.wordsOf_subset fun k hk => hdrop.held ho hf hk⟩
  · exact fun g hg => hdrop.look _ (ho.type_inData hg) (ho.slot_ne_type hp hg)
  · exact fun g hg => hdrop.look _ (ho.dir_inData hg) (ho.slot_ne_dir hp hg)
  · intro a ha hd _
    refine hdrop.look a hd ?_
    rintro rfl
    exact ha (Fs.slotAddr_mem_wordsOf h0)
  · intro b hb
    rcases (hdrop.free b).mp hb with h | rfl
    · exact .inl h
    · exact .inr fun a ha => .inr (.inr ⟨k, h0, by rw [hk]; exact ha⟩)

theorem fileClearBlock_sat (ho : s.Own D X) (hf : f ∈ Fs.files D) (hdir : ¬s.IsDir f)
    (hm : s.isMapped (f / 1024) = true) (n : Nat) :
    (fileClearBlock f n s).Sat (fun _ t => s.Trimmed D f t) (fun _ t => s.Trimmed D f t)
      (fun q => q = .noMemory) := by
  rw [fileClearBlock]
  refine sat_call (fileBlockWalk_sat ho hf hm n false (fun h => by cases h)) ?_
    (fun _ t h => h.1.trimmed ho f) (fun _ h => h)
  rintro p u ⟨-, hsees, hp, hmp, X', hX, -, hon⟩
  have hsees := hsees rfl
  have hou := ho.sees hsees
  have hslot := hou.pointer_mem_slots hf hp
  have hdir' : ¬u.IsDir f := fun h => hdir ((hon.isDir hf).mp h)
  refine (clearSlot_sat hou hf hslot hmp (fun _ => ?_)
    (fun h0 => (hou.fileBlock f hf hdir' p hp h0).1) ?_).mono
    (fun _ t h => (hsees.trimmed ho f).trans h) (fun _ _ h => h.elim) (fun _ h => h.elim)
  · obtain ⟨k, -, haddr, hk⟩ := Fs.exists_slot_of_pointer hp
    exact ⟨k, haddr, hk⟩
  · intro h0 heq
    obtain ⟨h₁, h₂⟩ := hou.fileBlock f hf hdir' p hp h0
    rcases hou.slot_block hslot with ⟨h, -⟩ | h | h
    · have := (hou.pointer_used hf hp h0).1
      have := u.three_le_firstData
      omega
    · exact h₁ (heq ▸ h)
    · exact h₂ (heq ▸ h)

/-- `f_indirect` is cleared. -/
theorem clearIndirect_sat (ho : s.Own D X) (hf : f ∈ Fs.files D) (hm : s.isMapped (f / 1024) = true) :
    (clearSlot (fIndirect f) s).Sat (fun _ t => s.Trimmed D f t) (fun _ _ => False)
      (fun _ => False) := by
  have hblk : fIndirect f / 1024 = f / 1024 := Fs.file_words hf (by decide)
  refine clearSlot_sat ho hf (Fs.indirect_mem_slots hf) (by rw [hblk]; exact hm)
    (fun _ => ⟨.indirect, rfl, rfl⟩) ?_ ?_
  · exact fun h0 hD => ho.apart _ hD (ho.index f hf h0)
  · intro h0 heq
    have hX := ho.index f hf h0
    rw [hblk] at heq
    rcases ho.file_block hf with rfl | ⟨hD, -, -⟩
    · have := (ho.indexes hX).1
      have := s.three_le_firstData
      rw [show sRoot / 1024 = 1 from rfl] at heq
      omega
    · exact ho.apart _ (heq ▸ hD) hX

/-- A store to the size of a file. -/
theorem storeSize_sat (ho : s.Own D X) (hf : f ∈ Fs.files D) (hm : s.isMapped (f / 1024) = true)
    (w : Word) : (store (fSize f) w s).Sat (fun _ t => s.Trimmed D f t ∧ t.look (fSize f) = w)
      (fun _ _ => False) (fun _ => False) := by
  have hblk : fSize f / 1024 = f / 1024 := Fs.file_words hf (by decide)
  have hm' : s.isMapped (fSize f / 1024) = true := by rw [hblk]; exact hm
  have hinert := ho.inert_file hf (i := 32) (by decide) (by decide)
  have halt := Fs.alters_setWord (w := w) hm' (by rw [hblk]; exact ho.file_not_free hf)
  rw [store_mapped hm']
  refine ⟨⟨⟨X, ho.alters hinert halt⟩, fun g hg => halt.look _ (hinert.2.2 g hg), ?_, halt.mapped,
    (halt.frames hinert.1).mono ?_, Fs.wordsOf_subset fun k hk => ?_⟩, ?_⟩
  · intro g hg
    refine halt.look _ fun heq => ?_
    have := (ho.file_word_inj hg hf (i := 45) (j := 32) (by decide) (by decide) heq).2
    omega
  · rintro _ rfl
    exact .inl rfl
  · have hnum : ∀ a ∈ Fs.slots D X, (s.setWord (fSize f) w).num a = s.num a := by
      intro a ha
      unfold Fs.num
      rw [halt.look a]
      rintro rfl
      exact hinert.2.1 _ rfl ha
    cases k with
    | direct i => exact hnum _ (Fs.direct_mem_slots hf i.isLt)
    | indirect => exact hnum _ (Fs.indirect_mem_slots hf)
    | entry i =>
      simp only [Fs.held] at hk ⊢
      rw [hnum _ (Fs.indirect_mem_slots hf)] at hk ⊢
      by_cases hx : s.num (fIndirect f) = 0
      · simp [hx] at hk
      · rw [if_neg hx, if_neg hx]
        exact hnum _ (Fs.entry_mem_slots (ho.index f hf hx) i.isLt)
  · rw [Fs.look_setWord hm', if_pos rfl]

theorem fileTruncate_sat (ho : s.Own D X) (hf : f ∈ Fs.files D) (hdir : ¬s.IsDir f)
    (hm : s.isMapped (f / 1024) = true) (newsize : Word) :
    (fileTruncate f newsize s).Sat (fun _ t => s.Trimmed D f t) (fun _ _ => False)
      (fun q => q = .noMemory) := by
  have hms : s.isMapped (fSize f / 1024) = true := by
    rw [fSize, Fs.file_words hf (by decide)]
    exact hm
  rw [fileTruncate, bind_ret (load_look hms)]
  have hstep : ∀ i (t : Fs), s.Trimmed D f t → ((do
      let _ ← Prog.attempt (fileClearBlock f i) : FsM Unit) t).Sat (fun _ => s.Trimmed D f)
        (fun _ _ => False) (fun q => q = .noMemory) := by
    intro i t ht
    obtain ⟨X', hot⟩ := ht.own
    rw [sat_bind, sat_attempt]
    exact (fileClearBlock_sat hot hf (fun h => hdir ((Fs.IsDir.congr (ht.types f hf)).mp h))
      (ht.mapped _ hm) i).mono (fun _ _ h => ht.trans h) (fun _ _ h => ht.trans h) (fun _ h => h)
  refine sat_call (sat_loop (fun i t _ _ ht => hstep i t ht) ((Fs.Sees.refl s).trimmed ho f)) ?_
    (fun _ _ h => h) (fun _ h => h)
  intro _ t ht
  obtain ⟨X', hot⟩ := ht.own
  have hwhen : (Prog.when ((if newsize = 0 then 0 else newsize.toNat / by2blk + 1) ≤ ndirect)
      (clearSlot (fIndirect f)) t).Sat (fun _ => s.Trimmed D f) (fun _ _ => False)
        (fun q => q = .noMemory) := by
    refine sat_when (fun _ => ?_) (fun _ => ht)
    exact (clearIndirect_sat hot hf (ht.mapped _ hm)).mono (fun _ _ h => ht.trans h)
      (fun _ _ h => h) (fun _ h => h.elim)
  refine sat_call hwhen ?_ (fun _ _ h => h) (fun _ h => h)
  intro _ u hu
  obtain ⟨X'', hou⟩ := hu.own
  exact (storeSize_sat hou hf (hu.mapped _ hm) newsize).mono (fun _ _ h => hu.trans h.1)
    (fun _ _ h => h) (fun _ h => h.elim)

theorem Fs.UpOk.trimmed (h : s.UpOk D f) (ht : s.Trimmed D f' t) (hf : f ∈ Fs.files D) :
    t.UpOk D f := by
  unfold Fs.UpOk
  rw [ht.ups f hf]
  exact h.imp_right fun h => ⟨h.1, ht.mapped _ h.2⟩

theorem fileSetSize_sat (ho : s.Own D X) (hf : f ∈ Fs.files D) (hdir : ¬s.IsDir f)
    (hm : s.isMapped (f / 1024) = true) (hup : s.UpOk D f) (newsize : Word) :
    (fileSetSize f newsize s).Sat (fun _ t => s.Trimmed D f t ∧ t.look (fSize f) = newsize)
      (fun _ _ => False) (fun q => q = .noMemory) := by
  have hms : s.isMapped (fSize f / 1024) = true := by
    rw [fSize, Fs.file_words hf (by decide)]
    exact hm
  rw [fileSetSize, bind_ret (load_look hms)]
  have hwhen : (Prog.when (s.look (fSize f) > newsize) (fileTruncate f newsize) s).Sat
      (fun _ => s.Trimmed D f) (fun _ _ => False) (fun q => q = .noMemory) :=
    sat_when (fun _ => fileTruncate_sat ho hf hdir hm newsize)
      (fun _ => (Fs.Sees.refl s).trimmed ho f)
  refine sat_call hwhen ?_ (fun _ _ h => h) (fun _ h => h)
  intro _ t ht
  obtain ⟨X', hot⟩ := ht.own
  refine sat_call (storeSize_sat hot hf (ht.mapped _ hm) newsize) ?_ (fun _ _ h => h)
    (fun _ h => h.elim)
  rintro _ u ⟨hu, hsize⟩
  have hu := ht.trans hu
  obtain ⟨X'', hou⟩ := hu.own
  exact (flushDir_sat hou hf (hu.mapped _ hm) (hup.trimmed hu hf)).mono
    (fun _ _ h => ⟨hu.trans (h.trimmed hou f), (h.look _).trans hsize⟩) (fun _ _ h => h) (fun _ h => h)

end Mos
