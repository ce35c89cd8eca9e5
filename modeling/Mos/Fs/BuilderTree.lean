import Mos.Fs.Builder

/-!
# The directories that the builder writes

While `fsformat` adds files, every block that a directory links has the type `BLOCK_FILE` and is filled from the front,
the links of the other files have the type `BLOCK_DATA`, and no two files share their block of indirect links.

`Formed` is the invariant. Its first half, `Laid`, is about the blocks; the second, `Linked`, about the links.
-/

namespace Mos

open Lib Prog Function

namespace Builder

variable {e : Endian} {s s' t : Builder} {p q : FileLoc} {b i j k n lo hi off : Nat} {w : Word}

/-! ## Files and their fields -/

/-- A field of a file. -/
def fieldOf (e : Endian) (s : Builder) (p : FileLoc) (off : Nat) : Word := s.word e p.region (p.off + off)

/-- The number of the block with the indirect links. -/
def indirect (e : Endian) (s : Builder) (p : FileLoc) : Nat := (s.fieldOf e p indirectField).toNat

/-- The number of block `k` of a file; 0 if there is none. -/
def link (e : Endian) (s : Builder) (p : FileLoc) (k : Nat) : Nat :=
  (if k < ndirect then s.fieldOf e p (directField k) else s.word e (.block (s.indirect e p)) (4 * k)).toNat

/-- The type of the blocks of a file. -/
def kind (e : Endian) (s : Builder) (p : FileLoc) : BlockType :=
  if s.fieldOf e p typeField = ftypeDir then .file else .data

/-- The root directory, or a place for a file in a block of files. -/
def IsFile (s : Builder) (p : FileLoc) : Prop :=
  p = root ∨ ∃ b i, s.type b = .file ∧ i < file2blk ∧ p = slot b i

/-- The name is not empty. -/
def Named (s : Builder) (p : FileLoc) : Prop := s.mem p.region p.off ≠ 0

/-- A directory. -/
def IsDir (e : Endian) (s : Builder) (p : FileLoc) : Prop :=
  s.IsFile p ∧ s.Named p ∧ s.fieldOf e p typeField = ftypeDir

/-- The blocks have their types, and those of files are filled from the front. -/
structure Laid (e : Endian) (s : Builder) : Prop where
  started : 3 ≤ s.nextbno
  bounded : s.nextbno ≤ nblock
  magic : s.word e .super 0 = fsMagic
  rootNamed : s.Named root
  boot : s.type 0 = .boot
  zero : ∀ x, s.mem (.block 0) x = 0
  super : s.type 1 = .super
  bmap : s.type 2 = .bmap
  free : ∀ b, s.nextbno ≤ b → s.type b = .free
  fresh : ∀ b, s.nextbno ≤ b → ∀ x, s.mem (.block b) x = 0
  blank : ∀ b i, s.type b = .file → i < file2blk → ¬s.Named (slot b i) →
    ∀ x < 256, s.mem (.block b) (256 * i + x) = 0
  front : ∀ b i j, s.type b = .file → i < j → j < file2blk → s.Named (slot b j) → s.Named (slot b i)

/-- The links go to blocks of the right types. -/
structure Linked (e : Endian) (s : Builder) : Prop where
  indirect : ∀ p, s.IsFile p → s.indirect e p = 0 ∨ s.type (s.indirect e p) = .index
  unshared : ∀ p q, s.IsFile p → s.IsFile q → s.indirect e p = s.indirect e q → s.indirect e p ≠ 0 → p = q
  links : ∀ p, s.IsFile p → ∀ k < nindirect, s.link e p k = 0 ∨ s.type (s.link e p k) = s.kind e p
  dirs : ∀ p, s.IsFile p → s.fieldOf e p typeField = ftypeDir →
    ∀ j < (s.fieldOf e p sizeField).toNat / by2blk, j < nindirect ∧ s.link e p j ≠ 0

/-- The invariant of the builder. -/
structure Formed (e : Endian) (s : Builder) : Prop where
  laid : s.Laid e
  linked : s.Linked e

theorem isFile_slot (hb : s.type b = .file) (hi : i < file2blk) : s.IsFile (slot b i) := .inr ⟨b, i, hb, hi, rfl⟩

theorem isFile_congr (h : s'.type = s.type) : s'.IsFile p ↔ s.IsFile p := by
  unfold IsFile
  rw [h]

/-- A file lies in `super` or in a block of files. -/
theorem IsFile.region_ne (hp : s.IsFile p) (hb : s.type b ≠ .file) : p.region ≠ .block b := by
  rcases hp with rfl | ⟨c, i, hc, -, rfl⟩
  · exact fun h => by cases h
  · rintro h
    cases h
    exact hb hc

/-- Two files do not overlap. -/
theorem IsFile.disjoint (hp : s.IsFile p) (hq : s.IsFile q) (hne : q ≠ p) :
    q.region ≠ p.region ∨ q.off + 256 ≤ p.off ∨ p.off + 256 ≤ q.off := by
  rcases hp with rfl | ⟨b, i, -, -, rfl⟩
  · rcases hq with rfl | ⟨c, j, -, -, rfl⟩
    · exact absurd rfl hne
    · exact .inl fun h => by cases h
  · rcases hq with rfl | ⟨c, j, -, -, rfl⟩
    · exact .inl fun h => by cases h
    · by_cases hbc : c = b
      · subst hbc
        have hij : j ≠ i := fun h => hne (by rw [h])
        right
        show 256 * j + 256 ≤ 256 * i ∨ 256 * i + 256 ≤ 256 * j
        omega
      · exact .inl fun h => hbc (Region.block.inj h)

theorem fieldOf_congr (h : ∀ x < 256, s'.mem p.region (p.off + x) = s.mem p.region (p.off + x)) (hoff : off + 4 ≤ 256) :
    s'.fieldOf e p off = s.fieldOf e p off := by
  refine wordAt_congr fun x h1 h2 => ?_
  have := h (x - p.off) (by omega)
  rwa [Nat.add_sub_cancel' (by omega)] at this

theorem Formed.indirect_ne_file (h : s.Formed e) (hp : s.IsFile p) : s.type (s.indirect e p) ≠ .file := by
  rcases h.linked.indirect p hp with h0 | h1
  · rw [h0, h.laid.boot]
    decide
  · rw [h1]
    decide

/-- A file of zeros: nothing is linked. -/
theorem Laid.blank_file (h : s.Laid e) (hzero : ∀ x < 256, s.mem p.region (p.off + x) = 0) :
    (∀ off, off + 4 ≤ 256 → s.fieldOf e p off = 0) ∧ s.indirect e p = 0 ∧ ∀ k, s.link e p k = 0 := by
  have hfield : ∀ off, off + 4 ≤ 256 → s.fieldOf e p off = 0 := fun off hoff =>
    wordAt_zero fun x h1 h2 => by
      have := hzero (x - p.off) (by omega)
      rwa [Nat.add_sub_cancel' (by omega)] at this
  have hind : s.indirect e p = 0 := by
    rw [indirect, hfield indirectField (by decide)]
    rfl
  refine ⟨hfield, hind, fun k => ?_⟩
  rw [link]
  split
  · next hk =>
    have hdirect : directField k + 4 ≤ 256 := by
      unfold directField
      unfold ndirect at hk
      omega
    rw [hfield _ hdirect]
    rfl
  · rw [hind, word, wordAt_zero fun x _ _ => h.zero x]
    rfl

/-! ## Writes to one file -/

/-- Only the bytes from `lo` to `hi` of a file change. -/
structure Patch (p : FileLoc) (lo hi : Nat) (s s' : Builder) : Prop where
  type : s'.type = s.type
  nextbno : s'.nextbno = s.nextbno
  mem : ∀ r x, r ≠ p.region ∨ x < p.off + lo ∨ p.off + hi ≤ x → s'.mem r x = s.mem r x

theorem setField_patch (e : Endian) (s : Builder) (p : FileLoc) (off : Nat) (w : Word) :
    Patch p off (off + 4) s (s.setWord e p.region (p.off + off) w) := by
  refine ⟨rfl, rfl, fun r x h => ?_⟩
  show update s.mem p.region _ r x = _
  by_cases hr : r = p.region
  · have hout := h.resolve_left (not_not_intro hr)
    rw [hr, update_self]
    exact setWordAt_of_ne (by omega)
  · rw [update_of_ne hr]

theorem setBytes_patch (s : Builder) (p : FileLoc) (bytes : List Byte) :
    Patch p 0 bytes.length s (s.setBytes p.region p.off bytes) := by
  refine ⟨rfl, rfl, fun r x h => ?_⟩
  show update s.mem p.region _ r x = _
  by_cases hr : r = p.region
  · have hout := h.resolve_left (not_not_intro hr)
    rw [hr, update_self, if_neg (by omega)]
  · rw [update_of_ne hr]

theorem fieldOf_setField_self : (s.setWord e p.region (p.off + off) w).fieldOf e p off = w := by
  show wordAt e (update s.mem p.region _ p.region) _ = w
  rw [update_self]
  exact wordAt_setWordAt_self

namespace Patch

theorem isFile (h : Patch p lo hi s s') : s'.IsFile q ↔ s.IsFile q := isFile_congr h.type

theorem other (h : Patch p lo hi s s') (hhi : hi ≤ 256) (hp : s.IsFile p) (hq : s.IsFile q) (hne : q ≠ p) {x : Nat}
    (hx : x < 256) : s'.mem q.region (q.off + x) = s.mem q.region (q.off + x) := by
  refine h.mem _ _ ?_
  rcases hp.disjoint hq hne with hr | hoff
  · exact .inl hr
  · right
    omega

theorem named (h : Patch p lo hi s s') (hhi : hi ≤ 256) (hp : s.IsFile p) (hq : s.IsFile q) (hne : q ≠ p) :
    s'.Named q ↔ s.Named q := by
  have hbyte := h.other hhi hp hq hne (show 0 < 256 by decide)
  rw [Nat.add_zero] at hbyte
  unfold Named
  rw [hbyte]

theorem block (h : Patch p lo hi s s') (hp : s.IsFile p) (hb : s.type b ≠ .file) :
    s'.mem (.block b) = s.mem (.block b) :=
  funext fun _ => h.mem _ _ (.inl (hp.region_ne hb).symm)

theorem fieldOf_other (h : Patch p lo hi s s') (hhi : hi ≤ 256) (hp : s.IsFile p) (hq : s.IsFile q) (hne : q ≠ p)
    (hoff : off + 4 ≤ 256) : s'.fieldOf e q off = s.fieldOf e q off :=
  fieldOf_congr (fun _ hx => h.other hhi hp hq hne hx) hoff

theorem fieldOf_self (h : Patch p lo hi s s') (hout : off + 4 ≤ lo ∨ hi ≤ off) :
    s'.fieldOf e p off = s.fieldOf e p off :=
  wordAt_congr fun _ _ _ => h.mem _ _ (by omega)

/-- The links of a file whose fields have not changed. -/
theorem link_eq (h : Patch p lo hi s s') (hf : s.Formed e) (hp : s.IsFile p) (hq : s.IsFile q)
    (hdirect : ∀ k < ndirect, s'.fieldOf e q (directField k) = s.fieldOf e q (directField k))
    (hind : s'.indirect e q = s.indirect e q) (k : Nat) : s'.link e q k = s.link e q k := by
  unfold link
  split
  · next hk => rw [hdirect k hk]
  · rw [hind, word, word, h.block hp (hf.indirect_ne_file hq)]

theorem indirect_other (h : Patch p lo hi s s') (hhi : hi ≤ 256) (hp : s.IsFile p) (hq : s.IsFile q) (hne : q ≠ p) :
    s'.indirect e q = s.indirect e q := by
  unfold indirect
  rw [h.fieldOf_other hhi hp hq hne (by decide)]

theorem directField_le (hk : k < ndirect) : directField k + 4 ≤ 176 := by
  unfold directField
  unfold ndirect at hk
  omega

theorem link_other (h : Patch p lo hi s s') (hf : s.Formed e) (hhi : hi ≤ 256) (hp : s.IsFile p) (hq : s.IsFile q)
    (hne : q ≠ p) (k : Nat) : s'.link e q k = s.link e q k :=
  h.link_eq hf hp hq
    (fun _ hk => h.fieldOf_other hhi hp hq hne ((directField_le hk).trans (by decide)))
    (h.indirect_other hhi hp hq hne) k

/-- The links of the file itself, if the bytes are in front of them. -/
theorem link_self (h : Patch p lo hi s s') (hf : s.Formed e) (hp : s.IsFile p) (hhi : hi ≤ 136) (k : Nat) :
    s'.link e p k = s.link e p k := by
  refine h.link_eq hf hp hp (fun k _ => h.fieldOf_self (.inr ?_)) ?_ k
  · unfold directField
    omega
  · unfold indirect
    rw [h.fieldOf_self (.inr (hhi.trans (by decide)))]

end Patch

/-- The places in front of a file in its block have names. -/
def InOrder (s : Builder) (p : FileLoc) : Prop := ∀ b j, p = slot b j → ∀ i < j, s.Named (slot b i)

theorem slot_inj {c : Nat} (h : slot b i = slot c j) : b = c ∧ i = j := by
  obtain ⟨hb, hi⟩ := FileLoc.mk.inj h
  exact ⟨Region.block.inj hb, by omega⟩

theorem Laid.inOrder (h : s.Laid e) (hp : s.IsFile p) (hname : s.Named p) : s.InOrder p := by
  rintro b j rfl i hij
  rcases hp with hroot | ⟨c, k, hc, hk, heq⟩
  · cases hroot
  · obtain ⟨rfl, rfl⟩ := slot_inj heq
    exact h.front b i j hc hij hk hname

theorem Laid.patch (h : s.Laid e) (hpatch : Patch p lo hi s s') (hhi : hi ≤ 256) (hp : s.IsFile p)
    (hname : s'.Named p) (hprev : s.InOrder p) : s'.Laid e := by
  have hblock : ∀ b, s.type b ≠ .file → s'.mem (.block b) = s.mem (.block b) := fun b hb => hpatch.block hp hb
  constructor
  · rw [hpatch.nextbno]
    exact h.started
  · rw [hpatch.nextbno]
    exact h.bounded
  · refine Eq.trans (wordAt_congr fun x _ hx => hpatch.mem _ _ ?_) h.magic
    rcases hp with rfl | ⟨b, i, -, -, rfl⟩
    · right
      left
      show x < 8 + lo
      omega
    · exact .inl fun hr => by cases hr
  · by_cases hroot : root = p
    · rw [hroot]
      exact hname
    · exact (hpatch.named hhi hp (.inl rfl) hroot).mpr h.rootNamed
  · rw [hpatch.type]
    exact h.boot
  · rw [hblock 0 (by rw [h.boot]; decide)]
    exact h.zero
  · rw [hpatch.type]
    exact h.super
  · rw [hpatch.type]
    exact h.bmap
  · rw [hpatch.type, hpatch.nextbno]
    exact h.free
  · intro b hb
    rw [hpatch.nextbno] at hb
    rw [hblock b (by rw [h.free b hb]; decide)]
    exact h.fresh b hb
  · intro b i hb hi hblank x hx
    rw [hpatch.type] at hb
    have hne : slot b i ≠ p := fun heq => hblank (heq ▸ hname)
    have hfile := isFile_slot hb hi
    rw [hpatch.named hhi hp hfile hne] at hblank
    exact (hpatch.other hhi hp hfile hne hx).trans (h.blank b i hb hi hblank x hx)
  · intro b i j hb hij hj hnj
    rw [hpatch.type] at hb
    by_cases hi : slot b i = p
    · rw [hi]
      exact hname
    · rw [hpatch.named hhi hp (isFile_slot hb (hij.trans hj)) hi]
      by_cases hjp : slot b j = p
      · exact hprev b j hjp.symm i hij
      · exact h.front b i j hb hij hj ((hpatch.named hhi hp (isFile_slot hb hj) hjp).mp hnj)

/-- The links stay in order if those of the file do. Its block of indirect links may be one that was in no use. -/
theorem Formed.linked_patch (h : s.Formed e) (hpatch : Patch p lo hi s s') (hhi : hi ≤ 256) (hp : s.IsFile p)
    (hind : s'.indirect e p = s.indirect e p ∨
      s.type (s'.indirect e p) = .index ∧ ∀ q, s.IsFile q → s.indirect e q ≠ s'.indirect e p)
    (hlinks : ∀ k < nindirect, s'.link e p k = 0 ∨ s.type (s'.link e p k) = s'.kind e p)
    (hdirs : s'.fieldOf e p typeField = ftypeDir → ∀ j < (s'.fieldOf e p sizeField).toNat / by2blk,
      j < nindirect ∧ s'.link e p j ≠ 0) : s'.Linked e := by
  have hother : ∀ q, s.IsFile q → q ≠ p → s'.indirect e q = s.indirect e q := fun q hq hne =>
    hpatch.indirect_other hhi hp hq hne
  have hshared : ∀ q, s.IsFile q → s'.indirect e p = s.indirect e q → s'.indirect e p ≠ 0 → p = q := by
    intro q hq heq hne
    rcases hind with hsame | ⟨-, hfresh⟩
    · rw [hsame] at heq hne
      exact h.linked.unshared p q hp hq heq hne
    · exact absurd heq.symm (hfresh q hq)
  constructor
  · intro q hq
    rw [hpatch.isFile] at hq
    rw [hpatch.type]
    by_cases hqp : q = p
    · rw [hqp]
      rcases hind with hsame | ⟨hindex, -⟩
      · rw [hsame]
        exact h.linked.indirect p hp
      · exact .inr hindex
    · rw [hother q hq hqp]
      exact h.linked.indirect q hq
  · intro q r hq hr heq hne
    rw [hpatch.isFile] at hq hr
    by_cases hqp : q = p
    · by_cases hrp : r = p
      · rw [hqp, hrp]
      · rw [hqp] at heq hne ⊢
        rw [hother r hr hrp] at heq
        exact hshared r hr heq hne
    · by_cases hrp : r = p
      · rw [hrp] at heq ⊢
        rw [heq] at hne
        rw [hother q hq hqp] at heq
        exact (hshared q hq heq.symm hne).symm
      · rw [hother q hq hqp] at heq hne
        rw [hother r hr hrp] at heq
        exact h.linked.unshared q r hq hr heq hne
  · intro q hq k hk
    rw [hpatch.isFile] at hq
    by_cases hqp : q = p
    · rw [hqp, hpatch.type]
      exact hlinks k hk
    · rw [hpatch.link_other h hhi hp hq hqp, hpatch.type, kind, hpatch.fieldOf_other hhi hp hq hqp (by decide)]
      exact h.linked.links q hq k hk
  · intro q hq
    rw [hpatch.isFile] at hq
    by_cases hqp : q = p
    · rw [hqp]
      exact hdirs
    · rw [hpatch.fieldOf_other hhi hp hq hqp (by decide), hpatch.fieldOf_other hhi hp hq hqp (by decide)]
      intro hdir j hj
      rw [hpatch.link_other h hhi hp hq hqp]
      exact h.linked.dirs q hq hdir j hj

/-! ## A new block -/

/-- The next block gets a type, and bytes. -/
def grown (s : Builder) (type : BlockType) (m : Nat → Byte) : Builder where
  mem := update s.mem (.block s.nextbno) m
  type := update s.type s.nextbno type
  nextbno := s.nextbno + 1

section Grown

variable {type : BlockType} {m : Nat → Byte}

/-- What a new block may hold: anything if it is for data, zeros otherwise. -/
def Fits (type : BlockType) (m : Nat → Byte) : Prop :=
  type = .data ∨ (type = .file ∨ type = .index) ∧ ∀ x, m x = 0

theorem Fits.ne_free (h : Fits type m) : type ≠ .free := by
  rcases h with rfl | ⟨rfl | rfl, -⟩ <;> decide

theorem grown_mem {r : Region} (hr : r ≠ .block s.nextbno) : (s.grown type m).mem r = s.mem r :=
  update_of_ne hr _ _

theorem grown_type (h : b ≠ s.nextbno) : (s.grown type m).type b = s.type b := update_of_ne h _ _

theorem Laid.grown_type (h : s.Laid e) (hb : s.type b ≠ .free) : (s.grown type m).type b = s.type b :=
  Builder.grown_type fun heq => hb (h.free b (Nat.le_of_eq heq.symm))

theorem Laid.grown_block (h : s.Laid e) (hb : s.type b ≠ .free) :
    (s.grown type m).mem (.block b) = s.mem (.block b) :=
  grown_mem fun heq => hb (h.free b (Nat.le_of_eq (Region.block.inj heq).symm))

theorem Laid.grown_file (h : s.Laid e) (hp : s.IsFile p) : (s.grown type m).mem p.region = s.mem p.region :=
  grown_mem (hp.region_ne (by rw [h.free _ (Nat.le_refl _)]; decide))

theorem Laid.isFile_grown (h : s.Laid e) : (s.grown type m).IsFile p ↔
    s.IsFile p ∨ type = .file ∧ ∃ i < file2blk, p = slot s.nextbno i := by
  constructor
  · rintro (rfl | ⟨b, i, hb, hi, rfl⟩)
    · exact .inl (.inl rfl)
    · by_cases hn : b = s.nextbno
      · subst hn
        rw [show (s.grown type m).type s.nextbno = type from update_self _ _ _] at hb
        exact .inr ⟨hb, i, hi, rfl⟩
      · rw [Builder.grown_type hn] at hb
        exact .inl (isFile_slot hb hi)
  · rintro (hp | ⟨rfl, i, hi, rfl⟩)
    · rcases hp with rfl | ⟨b, i, hb, hi, rfl⟩
      · exact .inl rfl
      · exact isFile_slot (by rw [h.grown_type (by rw [hb]; decide), hb]) hi
    · exact isFile_slot (update_self _ _ _) hi

theorem Laid.grown (h : s.Laid e) (hn : s.nextbno < nblock) (hfits : Fits type m) : (s.grown type m).Laid e := by
  have h3 := h.started
  have hroot : (s.grown type m).mem .super = s.mem .super := h.grown_file (.inl rfl : s.IsFile root)
  have hnew : ∀ b, (s.grown type m).type b = .file → b ≠ s.nextbno → s.type b = .file := by
    intro b hb hne
    rwa [Builder.grown_type hne] at hb
  have hzero : ∀ x, (s.grown type m).type s.nextbno = .file → (s.grown type m).mem (.block s.nextbno) x = 0 := by
    intro x hfile
    rw [show (s.grown type m).type s.nextbno = type from update_self _ _ _] at hfile
    rw [show (s.grown type m).mem (.block s.nextbno) = m from update_self _ _ _]
    rcases hfits with hdata | ⟨-, hz⟩
    · rw [hdata] at hfile
      cases hfile
    · exact hz x
  constructor
  · exact Nat.le_succ_of_le h3
  · exact hn
  · rw [word, hroot]
    exact h.magic
  · unfold Named root
    rw [hroot]
    exact h.rootNamed
  · rw [h.grown_type (by rw [h.boot]; decide), h.boot]
  · rw [h.grown_block (by rw [h.boot]; decide)]
    exact h.zero
  · rw [h.grown_type (by rw [h.super]; decide), h.super]
  · rw [h.grown_type (by rw [h.bmap]; decide), h.bmap]
  · intro b hb
    have hb : s.nextbno + 1 ≤ b := hb
    rw [Builder.grown_type (by omega)]
    exact h.free b (by omega)
  · intro b hb x
    have hb : s.nextbno + 1 ≤ b := hb
    rw [grown_mem (by rintro heq; have := Region.block.inj heq; omega)]
    exact h.fresh b (by omega) x
  · intro b i hb hi hblank x hx
    by_cases hbn : b = s.nextbno
    · rw [hbn] at hb ⊢
      exact hzero _ hb
    · have hb' := hnew b hb hbn
      have hblock : (s.grown type m).mem (.block b) = s.mem (.block b) := h.grown_block (by rw [hb']; decide)
      unfold Named slot at hblank
      rw [hblock] at hblank ⊢
      exact h.blank b i hb' hi hblank x hx
  · intro b i j hb hij hj hname
    by_cases hbn : b = s.nextbno
    · rw [hbn] at hb hname
      exact absurd (hzero _ hb) hname
    · have hb' := hnew b hb hbn
      have hblock : (s.grown type m).mem (.block b) = s.mem (.block b) := h.grown_block (by rw [hb']; decide)
      unfold Named slot at hname ⊢
      rw [hblock] at hname ⊢
      exact h.front b i j hb' hij hj hname

theorem Laid.fieldOf_grown (h : s.Laid e) (hp : s.IsFile p) :
    (s.grown type m).fieldOf e p off = s.fieldOf e p off := by
  rw [fieldOf, word, h.grown_file hp]
  rfl

theorem Formed.link_grown (h : s.Formed e) (hp : s.IsFile p) (k : Nat) :
    (s.grown type m).link e p k = s.link e p k := by
  have hne : s.type (s.indirect e p) ≠ .free := by
    rcases h.linked.indirect p hp with h0 | hindex
    · rw [h0, h.laid.boot]
      decide
    · rw [hindex]
      decide
  rw [link, indirect, h.laid.fieldOf_grown hp, h.laid.fieldOf_grown hp, ← indirect, word, h.laid.grown_block hne]
  rfl

/-- A file in a new block is blank. -/
theorem Formed.grown_slot (h : s.Formed e) (hn : s.nextbno < nblock) (hfits : Fits type m) (hfile : type = .file)
    (i : Nat) : (∀ off, off + 4 ≤ 256 → (s.grown type m).fieldOf e (slot s.nextbno i) off = 0) ∧
      (s.grown type m).indirect e (slot s.nextbno i) = 0 ∧
      ∀ k, (s.grown type m).link e (slot s.nextbno i) k = 0 := by
  refine (h.laid.grown hn hfits).blank_file fun x _ => ?_
  show update s.mem (.block s.nextbno) m (.block s.nextbno) _ = 0
  rw [update_self]
  rcases hfits with hdata | ⟨-, hz⟩
  · rw [hdata] at hfile
    cases hfile
  · exact hz _

theorem Formed.grown (h : s.Formed e) (hn : s.nextbno < nblock) (hfits : Fits type m) :
    (s.grown type m).Formed e := by
  have hcase : ∀ p, (s.grown type m).IsFile p → s.IsFile p ∨
      ((∀ off, off + 4 ≤ 256 → (s.grown type m).fieldOf e p off = 0) ∧ (s.grown type m).indirect e p = 0 ∧
        ∀ k, (s.grown type m).link e p k = 0) := by
    intro p hp
    rcases h.laid.isFile_grown.mp hp with hold | ⟨hfile, i, -, rfl⟩
    · exact .inl hold
    · exact .inr (h.grown_slot hn hfits hfile i)
  have hold : ∀ p, s.IsFile p → (s.grown type m).indirect e p = s.indirect e p := by
    intro p hp
    rw [indirect, h.laid.fieldOf_grown hp]
    rfl
  refine ⟨h.laid.grown hn hfits, ?_, ?_, ?_, ?_⟩
  · intro p hp
    rcases hcase p hp with hp | ⟨-, h0, -⟩
    · rw [hold p hp]
      rcases h.linked.indirect p hp with h0 | hindex
      · exact .inl h0
      · exact .inr (by rw [h.laid.grown_type (by rw [hindex]; decide), hindex])
    · exact .inl h0
  · intro p q hp hq heq hne
    rcases hcase p hp with hp | ⟨-, h0, -⟩
    · rcases hcase q hq with hq | ⟨-, h0, -⟩
      · rw [hold p hp] at heq hne
        rw [hold q hq] at heq
        exact h.linked.unshared p q hp hq heq hne
      · exact absurd (heq.trans h0) hne
    · exact absurd h0 hne
  · intro p hp k hk
    rcases hcase p hp with hp | ⟨-, -, h0⟩
    · rw [h.link_grown hp, kind, h.laid.fieldOf_grown hp, ← kind]
      rcases h.linked.links p hp k hk with h0 | htype
      · exact .inl h0
      · refine .inr ?_
        rw [h.laid.grown_type, htype]
        rw [htype]
        unfold kind
        split <;> decide
    · exact .inl (h0 k)
  · intro p hp hdir
    rcases hcase p hp with hp | ⟨h0, -, -⟩
    · rw [h.laid.fieldOf_grown hp] at hdir ⊢
      intro j hj
      rw [h.link_grown hp]
      exact h.linked.dirs p hp hdir j hj
    · rw [h0 _ (by decide)] at hdir
      exact absurd hdir (by decide)

end Grown

end Builder

end Mos
