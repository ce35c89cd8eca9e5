import Mos.Fs.BuilderTree

/-!
# What the functions of the builder do

Each function of `fsformat` keeps the invariant. `save_block_link` is the one that matters: it writes into a file, or
into the block of indirect links of that file alone.
-/

namespace Mos

open Lib Prog Function

namespace Builder

variable {e : Endian} {s t u : Builder} {p q : FileLoc} {b j k n : Nat} {w : Word}

/-! ## Steps that add no names and change no types -/

/-- Names and types stay. -/
structure Steady (e : Endian) (s t : Builder) : Prop where
  type : ∀ b, s.type b ≠ .free → t.type b = s.type b
  named : ∀ q, s.IsFile q → (t.Named q ↔ s.Named q)
  ftype : ∀ q, s.IsFile q → t.fieldOf e q typeField = s.fieldOf e q typeField

theorem isFile_mono (h : ∀ b, s.type b ≠ .free → t.type b = s.type b) (hp : s.IsFile p) : t.IsFile p := by
  rcases hp with rfl | ⟨b, i, hb, hi, rfl⟩
  · exact .inl rfl
  · exact isFile_slot (by rw [h b (by rw [hb]; decide), hb]) hi

theorem Steady.isFile (h : Steady e s t) (hp : s.IsFile p) : t.IsFile p := isFile_mono h.type hp

theorem Steady.kind (h : Steady e s t) (hp : s.IsFile p) : t.kind e p = s.kind e p := by
  rw [Builder.kind, h.ftype p hp, ← Builder.kind]

theorem Steady.trans (h : Steady e s t) (h' : Steady e t u) : Steady e s u where
  type b hb := by rw [h'.type b (by rw [h.type b hb]; exact hb), h.type b hb]
  named q hq := (h'.named q (h.isFile hq)).trans (h.named q hq)
  ftype q hq := (h'.ftype q (h.isFile hq)).trans (h.ftype q hq)

theorem Laid.steady_grown {type : BlockType} {m : Nat → Byte} (h : s.Laid e) : Steady e s (s.grown type m) where
  type _ hb := h.grown_type hb
  named q hq := by rw [Named, h.grown_file hq, ← Named]
  ftype q hq := h.fieldOf_grown hq

theorem Patch.steady {lo hi : Nat} (h : Patch p lo hi s t) (hp : s.IsFile p) (hlo : 136 ≤ lo ∨ 128 ≤ lo ∧ hi ≤ 132)
    (hhi : hi ≤ 256) : Steady e s t where
  type b _ := by rw [h.type]
  named q hq := by
    by_cases hqp : q = p
    · rw [hqp, Named, h.mem _ _ (.inr (.inl (by omega))), ← Named]
    · exact h.named hhi hp hq hqp
  ftype q hq := by
    by_cases hqp : q = p
    · rw [hqp]
      refine h.fieldOf_self ?_
      show 132 + 4 ≤ lo ∨ hi ≤ 132
      omega
    · exact h.fieldOf_other hhi hp hq hqp (by decide)

/-! ## `save_block_link` -/

/-- The block `b` has become block `k` of a file. -/
structure Stored (e : Endian) (p : FileLoc) (k b : Nat) (s t : Builder) : Prop where
  formed : t.Formed e
  steady : Steady e s t
  link : t.link e p k = b
  links : ∀ j ≠ k, t.link e p j = s.link e p j
  size : t.fieldOf e p sizeField = s.fieldOf e p sizeField

theorem toNat_block (hb : b < nblock) : (BitVec.ofNat 32 b).toNat = b := by
  rw [BitVec.toNat_ofNat]
  exact Nat.mod_eq_of_lt (hb.trans (by decide))

theorem kind_cases (e : Endian) (s : Builder) (p : FileLoc) : s.kind e p = .file ∨ s.kind e p = .data := by
  unfold kind
  split
  · exact .inl rfl
  · exact .inr rfl

theorem Laid.ne_zero (h : s.Laid e) (hb : s.type b = s.kind e p) : b ≠ 0 := by
  rintro rfl
  rw [h.boot] at hb
  rcases kind_cases e s p with hk | hk <;> rw [hk] at hb <;> cases hb

/-- The two conditions on the links of a file go over to a state where one more link is set. -/
theorem Formed.links_of (h : s.Formed e) (hp : s.IsFile p) (hb : s.type b = s.kind e p) (hsteady : Steady e s t)
    (hlink : t.link e p k = b) (hlinks : ∀ j ≠ k, t.link e p j = s.link e p j)
    (hsize : t.fieldOf e p sizeField = s.fieldOf e p sizeField) :
    (∀ j < nindirect, t.link e p j = 0 ∨ s.type (t.link e p j) = t.kind e p) ∧
      (t.fieldOf e p typeField = ftypeDir → ∀ j < (t.fieldOf e p sizeField).toNat / by2blk,
        j < nindirect ∧ t.link e p j ≠ 0) := by
  constructor
  · intro j hj
    rw [hsteady.kind hp]
    by_cases hjk : j = k
    · rw [hjk, hlink]
      exact .inr hb
    · rw [hlinks j hjk]
      exact h.linked.links p hp j hj
  · rw [hsteady.ftype p hp, hsize]
    intro hdir j hj
    have hold := h.linked.dirs p hp hdir j hj
    by_cases hjk : j = k
    · rw [hjk, hlink]
      exact ⟨hjk ▸ hold.1, h.laid.ne_zero hb⟩
    · rw [hlinks j hjk]
      exact hold

theorem directField_ge : 136 ≤ directField k := Nat.le_add_right _ _

/-- A direct link. -/
theorem Formed.setDirect (h : s.Formed e) (hp : s.IsFile p) (hname : s.Named p) (hk : k < ndirect)
    (hb : s.type b = s.kind e p) (hlt : b < nblock) :
    Stored e p k b s (s.setWord e p.region (p.off + directField k) (BitVec.ofNat 32 b)) := by
  have hpatch := setField_patch e s p (directField k) (BitVec.ofNat 32 b)
  have hle := Patch.directField_le hk
  have hge := directField_ge (k := k)
  have hsteady : Steady e s _ := hpatch.steady hp (.inl hge) (by omega)
  have hindirect : (s.setWord e p.region (p.off + directField k) (BitVec.ofNat 32 b)).indirect e p = s.indirect e p := by
    unfold indirect
    rw [hpatch.fieldOf_self (.inr (show directField k + 4 ≤ indirectField from hle))]
  have hlink : (s.setWord e p.region (p.off + directField k) (BitVec.ofNat 32 b)).link e p k = b := by
    rw [Builder.link, if_pos hk, fieldOf_setField_self, toNat_block hlt]
  have hlinks : ∀ j ≠ k, (s.setWord e p.region (p.off + directField k) (BitVec.ofNat 32 b)).link e p j =
      s.link e p j := by
    intro j hj
    unfold Builder.link
    split
    · rw [hpatch.fieldOf_self (by unfold directField; omega)]
    · rw [hindirect, word, word, hpatch.block hp (h.indirect_ne_file hp)]
  have hsize : (s.setWord e p.region (p.off + directField k) (BitVec.ofNat 32 b)).fieldOf e p sizeField =
      s.fieldOf e p sizeField := hpatch.fieldOf_self (.inl (show 128 + 4 ≤ directField k by omega))
  obtain ⟨hall, hdirs⟩ := h.links_of hp hb hsteady hlink hlinks hsize
  refine ⟨⟨?_, ?_⟩, hsteady, hlink, hlinks, hsize⟩
  · exact h.laid.patch hpatch (by omega) hp ((hsteady.named p hp).mpr hname) (h.laid.inOrder hp hname)
  · exact h.linked_patch hpatch (by omega) hp (.inl hindirect) hall hdirs

/-- A new block of indirect links. -/
theorem Formed.addIndex (h : s.Formed e) (hn : s.nextbno < nblock) (hp : s.IsFile p) (hname : s.Named p)
    (hind : s.indirect e p = 0) :
    ∃ t, t = (s.grown .index (s.mem (.block s.nextbno))).setWord e p.region (p.off + indirectField)
        (BitVec.ofNat 32 s.nextbno) ∧ t.Formed e ∧ Steady e s t ∧ t.indirect e p = s.nextbno ∧
      t.type s.nextbno = .index ∧ (∀ j, t.link e p j = s.link e p j) ∧
      t.fieldOf e p sizeField = s.fieldOf e p sizeField := by
  have hzero := h.laid.fresh s.nextbno (Nat.le_refl _)
  have hu := h.grown hn (.inr ⟨.inr rfl, hzero⟩ : Fits .index (s.mem (.block s.nextbno)))
  have hsu : Steady e s (s.grown .index (s.mem (.block s.nextbno))) := h.laid.steady_grown
  have hold : ∀ q, s.IsFile q → (s.grown .index (s.mem (.block s.nextbno))).indirect e q = s.indirect e q := by
    intro q hq
    rw [indirect, h.laid.fieldOf_grown hq]
    rfl
  have hfiles : ∀ q, (s.grown .index (s.mem (.block s.nextbno))).IsFile q → s.IsFile q := by
    intro q hq
    rcases h.laid.isFile_grown.mp hq with hq | ⟨hfile, -⟩
    · exact hq
    · cases hfile
  have hulink : ∀ j, (s.grown .index (s.mem (.block s.nextbno))).link e p j = s.link e p j := h.link_grown hp
  have husize : (s.grown .index (s.mem (.block s.nextbno))).fieldOf e p sizeField = s.fieldOf e p sizeField :=
    h.laid.fieldOf_grown hp
  have htype : (s.grown .index (s.mem (.block s.nextbno))).type s.nextbno = .index := update_self _ _ _
  have hmem : (s.grown .index (s.mem (.block s.nextbno))).mem (.block s.nextbno) = s.mem (.block s.nextbno) :=
    update_self _ _ _
  generalize s.grown .index (s.mem (.block s.nextbno)) = v at *
  have hpv : v.IsFile p := hsu.isFile hp
  have hpatch := setField_patch e v p indirectField (BitVec.ofNat 32 s.nextbno)
  have hsteady : Steady e v _ := hpatch.steady hpv (.inl (by decide)) (by decide)
  refine ⟨_, rfl, ?_⟩
  generalize htdef : v.setWord e p.region (p.off + indirectField) (BitVec.ofNat 32 s.nextbno) = t at *
  have hindirect : t.indirect e p = s.nextbno := by
    rw [← htdef, indirect, fieldOf_setField_self, toNat_block hn]
  have hlink : ∀ j, t.link e p j = v.link e p j := by
    intro j
    unfold link
    split
    · next hj =>
      rw [hpatch.fieldOf_self (.inl (Patch.directField_le hj))]
    · -- both the boot block and the new block hold zeros
      rw [hold p hp, hind, hindirect, word, word, hpatch.block hpv (by rw [htype]; decide), hmem,
        wordAt_zero fun x _ _ => hzero x, wordAt_zero fun x _ _ => hu.laid.zero x]
  have hsize : t.fieldOf e p sizeField = v.fieldOf e p sizeField := hpatch.fieldOf_self (.inl (by decide))
  have hkind := hsteady.kind hpv
  refine ⟨⟨?_, ?_⟩, hsu.trans hsteady, hindirect, ?_, fun j => (hlink j).trans (hulink j), hsize.trans husize⟩
  · refine hu.laid.patch hpatch (by decide) hpv ?_ (hu.laid.inOrder hpv ((hsu.named p hp).mpr hname))
    exact (hsteady.named p hpv).mpr ((hsu.named p hp).mpr hname)
  · refine hu.linked_patch hpatch (by decide) hpv (.inr ⟨by rw [hindirect]; exact htype, fun q hq => ?_⟩) ?_ ?_
    · rw [hold q (hfiles q hq), hindirect]
      intro heq
      have h3 := h.laid.started
      rcases h.linked.indirect q (hfiles q hq) with h0 | hindex
      · omega
      · rw [heq, h.laid.free _ (Nat.le_refl _)] at hindex
        cases hindex
    · intro j hj
      rw [hlink j, hkind]
      exact hu.linked.links p hpv j hj
    · rw [hsize, hsteady.ftype p hpv]
      intro hdir j hj
      rw [hlink j]
      exact hu.linked.dirs p hpv hdir j hj
  · rw [hpatch.type, htype]

theorem mem_setWord_other {r r' : Region} {a : Nat} (h : r' ≠ r) : (s.setWord e r a w).mem r' = s.mem r' :=
  update_of_ne h _ _

theorem word_setWord {r : Region} : (s.setWord e r (4 * k) w).word e r (4 * j) =
    if j = k then w else s.word e r (4 * j) := by
  show wordAt e (update s.mem r _ r) _ = _
  rw [update_self]
  split
  · next hjk =>
    rw [hjk]
    exact wordAt_setWordAt_self
  · exact wordAt_setWordAt_of_ne (by omega)

/-- An indirect link. -/
theorem Formed.setIndirect (h : s.Formed e) (hp : s.IsFile p) (hindex : s.type (s.indirect e p) = .index)
    (hk : ¬k < ndirect) (hb : s.type b = s.kind e p) (hlt : b < nblock) :
    Stored e p k b s (s.setWord e (.block (s.indirect e p)) (4 * k) (BitVec.ofNat 32 b)) := by
  generalize hx : s.indirect e p = x at *
  have hmem : ∀ r, r ≠ .block x → (s.setWord e (.block x) (4 * k) (BitVec.ofNat 32 b)).mem r = s.mem r :=
    fun r hr => mem_setWord_other hr
  have hword : ∀ j, (s.setWord e (.block x) (4 * k) (BitVec.ofNat 32 b)).word e (.block x) (4 * j) =
      if j = k then BitVec.ofNat 32 b else s.word e (.block x) (4 * j) := fun j => word_setWord
  have htype : (s.setWord e (.block x) (4 * k) (BitVec.ofNat 32 b)).type = s.type := rfl
  have hnextbno : (s.setWord e (.block x) (4 * k) (BitVec.ofNat 32 b)).nextbno = s.nextbno := rfl
  generalize s.setWord e (.block x) (4 * k) (BitVec.ofNat 32 b) = t at *
  have hblock : ∀ c, s.type c ≠ .index → t.mem (.block c) = s.mem (.block c) := by
    refine fun c hc => hmem _ fun heq => hc ?_
    rw [Region.block.inj heq, hindex]
  have hfile : ∀ q, s.IsFile q → t.mem q.region = s.mem q.region := fun q hq =>
    hmem _ (hq.region_ne (by rw [hindex]; decide))
  have hfield : ∀ q, s.IsFile q → ∀ off, t.fieldOf e q off = s.fieldOf e q off := by
    intro q hq off
    rw [fieldOf, word, hfile q hq]
    rfl
  have hisFile : ∀ q, t.IsFile q ↔ s.IsFile q := fun q => isFile_congr htype
  have hind : ∀ q, s.IsFile q → t.indirect e q = s.indirect e q := by
    intro q hq
    rw [indirect, hfield q hq]
    rfl
  have hother : ∀ q, s.IsFile q → q ≠ p → ∀ j, t.link e q j = s.link e q j := by
    intro q hq hne j
    unfold Builder.link
    rw [hfield q hq, hind q hq]
    split
    · rfl
    · -- another file has another block of links
      have hregion : s.indirect e q ≠ x := by
        intro heq
        refine hne (h.linked.unshared q p hq hp (heq.trans hx.symm) fun h0 => ?_)
        rw [← heq, h0, h.laid.boot] at hindex
        cases hindex
      rw [word, hmem _ fun heq => hregion (Region.block.inj heq)]
      rfl
  have hlink : t.link e p k = b := by
    rw [Builder.link, if_neg hk, hind p hp, hx, hword, if_pos rfl, toNat_block hlt]
  have hlinks : ∀ j ≠ k, t.link e p j = s.link e p j := by
    intro j hj
    unfold Builder.link
    rw [hfield p hp, hind p hp, hx]
    split
    · rfl
    · rw [hword, if_neg hj]
  have hsteady : Steady e s t := by
    refine ⟨fun c _ => by rw [htype], fun q hq => ?_, fun q hq => hfield q hq _⟩
    rw [Named, hfile q hq, ← Named]
  have hsize := hfield p hp sizeField
  obtain ⟨hall, hdirs⟩ := h.links_of hp hb hsteady hlink hlinks hsize
  refine ⟨⟨?_, ?_⟩, hsteady, hlink, hlinks, hsize⟩
  · have hsuper : t.mem .super = s.mem .super := hmem _ fun heq => by cases heq
    constructor
    · rw [hnextbno]
      exact h.laid.started
    · rw [hnextbno]
      exact h.laid.bounded
    · rw [word, hsuper]
      exact h.laid.magic
    · unfold Named root
      rw [hsuper]
      exact h.laid.rootNamed
    · rw [htype]
      exact h.laid.boot
    · rw [hblock 0 (by rw [h.laid.boot]; decide)]
      exact h.laid.zero
    · rw [htype]
      exact h.laid.super
    · rw [htype]
      exact h.laid.bmap
    · rw [htype, hnextbno]
      exact h.laid.free
    · intro c hc
      rw [hnextbno] at hc
      rw [hblock c (by rw [h.laid.free c hc]; decide)]
      exact h.laid.fresh c hc
    · intro c i hc hi
      rw [htype] at hc
      unfold Named slot
      rw [hblock c (by rw [hc]; decide)]
      exact h.laid.blank c i hc hi
    · intro c i j hc
      rw [htype] at hc
      unfold Named slot
      rw [hblock c (by rw [hc]; decide)]
      exact h.laid.front c i j hc
  · constructor
    · intro q hq
      rw [hisFile] at hq
      rw [hind q hq, htype]
      exact h.linked.indirect q hq
    · intro q r hq hr
      rw [hisFile] at hq hr
      rw [hind q hq, hind r hr]
      exact h.linked.unshared q r hq hr
    · intro q hq j hj
      rw [hisFile] at hq
      rw [htype]
      by_cases hqp : q = p
      · rw [hqp]
        exact hall j hj
      · rw [hother q hq hqp, kind, hfield q hq]
        exact h.linked.links q hq j hj
    · intro q hq
      rw [hisFile] at hq
      by_cases hqp : q = p
      · rw [hqp]
        exact hdirs
      · rw [hfield q hq, hfield q hq]
        intro hdir j hj
        rw [hother q hq hqp]
        exact h.linked.dirs q hq hdir j hj

/-! ## The functions -/

theorem nextBlock_sat (s : Builder) (type : BlockType) : (nextBlock type s).Sat
    (fun b t => s.nextbno < nblock ∧ b = s.nextbno ∧ t = s.grown type (s.mem (.block s.nextbno)))
    (fun _ _ => True) (fun _ => True) := by
  rw [nextBlock, get_bind]
  refine sat_bind.mpr (sat_assert.mpr ?_)
  split
  · next hn =>
    refine ⟨hn, rfl, ?_⟩
    rw [grown, update_eq_self]
  · trivial

theorem Laid.lt_nblock (h : s.Laid e) (hb : s.type b ≠ .free) : b < nblock :=
  Nat.lt_of_lt_of_le (Nat.lt_of_not_le fun hle => hb (h.free b hle)) h.bounded

theorem ne_free_of_kind (hb : s.type b = s.kind e p) : s.type b ≠ .free := by
  rw [hb]
  rcases kind_cases e s p with hk | hk <;> rw [hk] <;> decide

theorem inDisk_sat (s : Builder) (w : Word) :
    (inDisk w s).Sat (fun b t => b = w.toNat ∧ t = s) (fun _ _ => True) (fun _ => True) := by
  refine sat_bind.mpr (sat_assert.mpr ?_)
  split
  · exact ⟨rfl, rfl⟩
  · trivial

/-- **`save_block_link` adds one link.** -/
theorem saveBlockLink_sat (h : s.Formed e) (hp : s.IsFile p) (hname : s.Named p) (hb : s.type b = s.kind e p) :
    (saveBlockLink e p k b s).Sat (fun _ t => k < nindirect ∧ Stored e p k b s t) (fun _ _ => True)
      (fun _ => True) := by
  have hlt := h.laid.lt_nblock (ne_free_of_kind hb)
  refine sat_bind.mpr (sat_assert.mpr ?_)
  split
  case isFalse => trivial
  case isTrue hk =>
  split
  · next hdirect => exact ⟨hk, h.setDirect hp hname hdirect hb hlt⟩
  · next hdirect =>
    show ((do
      Prog.when (s.fieldOf e p indirectField = 0) do
        let b ← nextBlock .index
        setField e p indirectField (BitVec.ofNat 32 b)
      let indirect ← field e p indirectField
      let c ← inDisk indirect
      Prog.modify fun s => s.setWord e (.block c) (4 * k) (BitVec.ofNat 32 b) : BuilderM Unit) s).Sat _ _ _
    -- from a state with a block of indirect links on
    have hrest : ∀ t, t.Formed e → Steady e s t → t.type (t.indirect e p) = .index →
        (∀ j, t.link e p j = s.link e p j) → t.fieldOf e p sizeField = s.fieldOf e p sizeField →
        ((do
          let indirect ← field e p indirectField
          let c ← inDisk indirect
          Prog.modify fun s => s.setWord e (.block c) (4 * k) (BitVec.ofNat 32 b) : BuilderM Unit) t).Sat
          (fun _ u => k < nindirect ∧ Stored e p k b s u) (fun _ _ => True) (fun _ => True) := by
      intro t ht hst hindex hlinks hsize
      show ((do
        let c ← inDisk (t.fieldOf e p indirectField)
        Prog.modify fun s => s.setWord e (.block c) (4 * k) (BitVec.ofNat 32 b) : BuilderM Unit) t).Sat _ _ _
      refine sat_call (inDisk_sat t _) ?_ (fun _ _ h => h) (fun _ h => h)
      rintro c v ⟨hc, hv⟩
      rw [hc, hv]
      have hbt : t.type b = t.kind e p := by
        rw [hst.type b (ne_free_of_kind hb), hb, hst.kind hp]
      have hstored := ht.setIndirect (hst.isFile hp) hindex hdirect hbt hlt
      exact ⟨hk, hstored.formed, hst.trans hstored.steady, hstored.link,
        fun j hj => (hstored.links j hj).trans (hlinks j), hstored.size.trans hsize⟩
    refine sat_bind.mpr (sat_when (fun hzero => ?_) fun hne => ?_)
    · have hind : s.indirect e p = 0 := by
        rw [indirect, hzero]
        rfl
      refine sat_call (nextBlock_sat s .index) ?_ (fun _ _ h => h) (fun _ h => h)
      rintro _ _ ⟨hn, rfl, rfl⟩
      obtain ⟨t, ht, hformed, hst, hindirect, hindex, hlinks, hsize⟩ := h.addIndex hn hp hname hind
      rw [← hindirect] at hindex
      subst ht
      exact hrest _ hformed hst hindex hlinks hsize
    · refine hrest s h ⟨fun _ _ => rfl, fun _ _ => Iff.rfl, fun _ _ => rfl⟩ ?_ (fun _ => rfl) rfl
      refine (h.linked.indirect p hp).resolve_left fun h0 => hne ?_
      exact BitVec.eq_of_toNat_eq h0

/-- Directories stay directories. -/
structure Grown (e : Endian) (s t : Builder) : Prop where
  type : ∀ b, s.type b ≠ .free → t.type b = s.type b
  dirs : ∀ q, s.IsDir e q → t.IsDir e q

theorem Grown.refl (e : Endian) (s : Builder) : Grown e s s := ⟨fun _ _ => rfl, fun _ h => h⟩

theorem Grown.trans (h : Grown e s t) (h' : Grown e t u) : Grown e s u where
  type b hb := by rw [h'.type b (by rw [h.type b hb]; exact hb), h.type b hb]
  dirs q hq := h'.dirs q (h.dirs q hq)

theorem Steady.grown (h : Steady e s t) : Grown e s t where
  type := h.type
  dirs q hq := ⟨h.isFile hq.1, (h.named q hq.1).mpr hq.2.1, (h.ftype q hq.1).trans hq.2.2⟩

/-- A new size. -/
theorem Formed.setSize (h : s.Formed e) (hp : s.IsFile p) (hname : s.Named p)
    (hdirs : s.fieldOf e p typeField = ftypeDir → ∀ j < w.toNat / by2blk, j < nindirect ∧ s.link e p j ≠ 0) :
    (s.setWord e p.region (p.off + sizeField) w).Formed e ∧
      Steady e s (s.setWord e p.region (p.off + sizeField) w) ∧
      ∀ j, (s.setWord e p.region (p.off + sizeField) w).link e p j = s.link e p j := by
  have hpatch := setField_patch e s p sizeField w
  have hsteady : Steady e s (s.setWord e p.region (p.off + sizeField) w) :=
    hpatch.steady hp (.inr ⟨by decide, by decide⟩) (by decide)
  have hlink : ∀ j, (s.setWord e p.region (p.off + sizeField) w).link e p j = s.link e p j :=
    hpatch.link_self h hp (by decide)
  refine ⟨⟨?_, ?_⟩, hsteady, hlink⟩
  · exact h.laid.patch hpatch (by decide) hp ((hsteady.named p hp).mpr hname) (h.laid.inOrder hp hname)
  · refine h.linked_patch hpatch (by decide) hp (.inl ?_) (fun j hj => ?_) ?_
    · rw [indirect, hpatch.fieldOf_self (.inr (by decide)), ← indirect]
    · rw [hlink j, hsteady.kind hp]
      exact h.linked.links p hp j hj
    · rw [fieldOf_setField_self, hsteady.ftype p hp]
      intro hdir j hj
      rw [hlink j]
      exact hdirs hdir j hj

/-- The type of a file without links. -/
theorem Formed.setType (h : s.Formed e) (hp : s.IsFile p) (hname : s.Named p) (hlinks : ∀ j, s.link e p j = 0)
    (hdir : s.fieldOf e p typeField = ftypeDir → w = ftypeDir)
    (hsize : w = ftypeDir → (s.fieldOf e p sizeField).toNat / by2blk = 0) :
    (s.setWord e p.region (p.off + typeField) w).Formed e ∧
      Grown e s (s.setWord e p.region (p.off + typeField) w) ∧
      (s.setWord e p.region (p.off + typeField) w).Named p := by
  have hpatch := setField_patch e s p typeField w
  have hlink : ∀ j, (s.setWord e p.region (p.off + typeField) w).link e p j = 0 := fun j =>
    (hpatch.link_self h hp (by decide) j).trans (hlinks j)
  have hname' : (s.setWord e p.region (p.off + typeField) w).Named p := by
    rw [Named, hpatch.mem _ _ (.inr (.inl (Nat.lt_add_of_pos_right (by decide)))), ← Named]
    exact hname
  refine ⟨⟨?_, ?_⟩, ⟨fun b _ => by rw [hpatch.type], fun q hq => ?_⟩, hname'⟩
  · exact h.laid.patch hpatch (by decide) hp hname' (h.laid.inOrder hp hname)
  · refine h.linked_patch hpatch (by decide) hp (.inl ?_) (fun j _ => .inl (hlink j)) ?_
    · rw [indirect, hpatch.fieldOf_self (.inr (by decide)), ← indirect]
    · rw [fieldOf_setField_self, hpatch.fieldOf_self (.inl (by decide))]
      intro hw j hj
      rw [hsize hw] at hj
      exact absurd hj (Nat.not_lt_zero j)
  · refine ⟨hpatch.isFile.mpr hq.1, ?_⟩
    by_cases hqp : q = p
    · rw [hqp] at hq ⊢
      exact ⟨hname', fieldOf_setField_self.trans (hdir hq.2.2)⟩
    · rw [hpatch.named (by decide) hp hq.1 hqp, hpatch.fieldOf_other (by decide) hp hq.1 hqp (by decide)]
      exact hq.2

/-- The first unused place of a block of files. -/
def Vacant (s : Builder) (f : FileLoc) : Prop :=
  ∃ b j, f = slot b j ∧ s.type b = .file ∧ j < file2blk ∧ ¬s.Named f ∧ ∀ i < j, s.Named (slot b i)

/-- `make_link_block` for the next block of a directory. -/
theorem makeLinkBlock_sat (h : s.Formed e) (hd : s.IsDir e p) :
    (makeLinkBlock e p ((s.fieldOf e p sizeField).toNat / by2blk) s).Sat
      (fun b t => t.Formed e ∧ Grown e s t ∧ t.Vacant (slot b 0)) (fun _ _ => True) (fun _ => True) := by
  obtain ⟨hp, hname, hdir⟩ := hd
  refine sat_call (nextBlock_sat s .file) ?_ (fun _ _ h => h) (fun _ h => h)
  rintro _ u ⟨hn, rfl, hu⟩
  have hzero := h.laid.fresh s.nextbno (Nat.le_refl _)
  have hformed : u.Formed e := hu ▸ h.grown hn (.inr ⟨.inl rfl, hzero⟩)
  have hsu : Steady e s u := hu ▸ h.laid.steady_grown
  have htype : u.type s.nextbno = .file := hu ▸ update_self _ _ _
  have hbyte : u.mem (.block s.nextbno) 0 = 0 := by
    rw [hu]
    show update s.mem (.block s.nextbno) _ (.block s.nextbno) 0 = 0
    rw [update_self]
    exact hzero 0
  have hsize : u.fieldOf e p sizeField = s.fieldOf e p sizeField := hu ▸ h.laid.fieldOf_grown hp
  have hlinks : ∀ j, u.link e p j = s.link e p j := hu ▸ h.link_grown hp
  have hkind : u.kind e p = .file := by
    rw [hsu.kind hp, kind, if_pos hdir]
  have hnew : u.IsFile (slot s.nextbno 0) := isFile_slot htype (by decide)
  have hpu := hsu.isFile hp
  have hnameu := (hsu.named p hp).mpr hname
  refine sat_call (saveBlockLink_sat hformed hpu hnameu (htype.trans hkind.symm)) ?_ (fun _ _ h => h) (fun _ h => h)
  rintro _ v ⟨hk, hv⟩
  have hpv := hv.steady.isFile hpu
  have hvsize := hv.size.trans hsize
  show Outcome.Sat ((do
    setField e p sizeField (v.fieldOf e p sizeField + 4096)
    pure s.nextbno : BuilderM Nat) v) _ _ _
  rw [hvsize]
  have hnext : (s.fieldOf e p sizeField + 4096).toNat / by2blk = (s.fieldOf e p sizeField).toNat / by2blk + 1 := by
    rw [BitVec.toNat_add]
    show ((s.fieldOf e p sizeField).toNat + 4096) % 2 ^ 32 / 4096 = (s.fieldOf e p sizeField).toNat / 4096 + 1
    have hlt : (s.fieldOf e p sizeField).toNat / 4096 < 1024 := hk
    omega
  obtain ⟨hw, hvw, -⟩ := hv.formed.setSize (w := s.fieldOf e p sizeField + 4096) hpv
    ((hv.steady.named p hpu).mpr hnameu) (by
      rw [hnext]
      intro _ j hj
      by_cases hjk : j = (s.fieldOf e p sizeField).toNat / by2blk
      · rw [hjk, hv.link]
        exact ⟨hk, Nat.ne_of_gt (Nat.lt_of_lt_of_le (by decide) h.laid.started)⟩
      · rw [hv.links j hjk, hlinks j]
        exact h.linked.dirs p hp hdir j (by omega))
  have hall := hv.steady.trans hvw
  refine ⟨hw, (hsu.trans hall).grown, s.nextbno, 0, rfl, ?_, by decide, ?_, fun i hi => absurd hi (Nat.not_lt_zero i)⟩
  · rw [hall.type _ (by rw [htype]; decide), htype]
  · rw [hall.named _ hnew]
    exact not_not_intro hbyte

end Builder

end Mos
