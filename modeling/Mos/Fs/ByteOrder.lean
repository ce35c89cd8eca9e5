import Mos.Fs.BuilderRun

/-!
# Reading an image with the other byte order

`finish_fs` turns every block round before it writes the image, for a machine of the other byte order. On a
little-endian host that machine reads in the image what the builder has stored. On a big-endian host it does not.
-/

namespace Mos

open Lib Prog Function

namespace Builder

variable {e : Endian} {s t u : Builder} {p q : FileLoc} {b j k n : Nat} {w : Word}

/-! ## The image -/

/-- `&((struct Super *)disk[1].data)->s_root`. -/
def imageRoot : FileLoc := ⟨.block 1, 8⟩

/-- The files of an image: the root directory, and those in the blocks of its directories. -/
inductive InTree (e : Endian) (t : Builder) : FileLoc → Prop where
  | root : InTree e t imageRoot
  | entry {p : FileLoc} {k j : Nat} (h : InTree e t p) (hdir : t.fieldOf e p typeField = ftypeDir)
      (hk : k < (t.fieldOf e p sizeField).toNat / by2blk) (hj : j < file2blk)
      (hname : t.Named (slot (t.link e p k) j)) : InTree e t (slot (t.link e p k) j)

/-- The offsets of the numbers in a `struct File`. -/
def IsNumberField (off : Nat) : Prop :=
  off = sizeField ∨ off = typeField ∨ (∃ k < ndirect, off = directField k) ∨ off = indirectField

/-- The bytes of block `b` after `reverse_block`. -/
def turned (e : Endian) (t : Builder) (b : Nat) : Nat → Byte := (reverseBlock e (t.blockAt b)).data

/-- A machine of the other byte order reads the numbers that the builder has stored, names and data are as they were,
and to turn the image round once more restores it. -/
structure Readable (e : Endian) (t : Builder) : Prop where
  magic : wordAt e.other (t.turned e 1) 0 = t.word e (.block 1) 0
  nblocks : wordAt e.other (t.turned e 1) 4 = t.word e (.block 1) 4
  fields : ∀ b off, InTree e t ⟨.block b, off⟩ → ∀ a, IsNumberField a →
    wordAt e.other (t.turned e b) (off + a) = t.fieldOf e ⟨.block b, off⟩ a
  names : ∀ b off, InTree e t ⟨.block b, off⟩ → ∀ x < maxnamelen, t.turned e b (off + x) = t.mem (.block b) (off + x)
  indexes : ∀ p, InTree e t p → t.indirect e p ≠ 0 → ∀ k < nindirect,
    wordAt e.other (t.turned e (t.indirect e p)) (4 * k) = t.word e (.block (t.indirect e p)) (4 * k)
  bitmap : ∀ i < nbitblock nblock, ∀ k < by2blk / 4,
    wordAt e.other (t.turned e (2 + i)) (4 * k) = t.word e (.block (2 + i)) (4 * k)
  data : ∀ p, InTree e t p → t.fieldOf e p typeField ≠ ftypeDir → ∀ k < nindirect, t.link e p k ≠ 0 →
    t.turned e (t.link e p k) = t.mem (.block (t.link e p k))
  twice : ∀ b, reverseBlock e (reverseBlock e (t.blockAt b)) = t.blockAt b

/-! ## How the builder begins -/

/-- The bytes of `super` after `init_disk`. -/
def superBytes (e : Endian) : Nat → Byte := fun x =>
  if 8 ≤ x ∧ x < 15 then (rootName ++ [0]).getD (x - 8) 0
  else setWordAt e (setWordAt e (setWordAt e (fun _ => 0) 0 fsMagic) 4 (BitVec.ofNat 32 nblock)) 140 ftypeDir x

theorem superBytes_magic (e : Endian) : wordAt e (superBytes e) 0 = fsMagic := by
  refine Eq.trans (wordAt_congr fun x _ hx => ?_) (wordAt_setWordAt_self (m := fun _ => 0))
  rw [superBytes, if_neg (by omega), setWordAt_of_ne (by omega), setWordAt_of_ne (by omega)]

theorem superBytes_type (e : Endian) : wordAt e (superBytes e) 140 = ftypeDir :=
  Eq.trans (wordAt_congr fun _ _ _ => if_neg (by omega)) wordAt_setWordAt_self

theorem superBytes_zero {x : Nat} (h1 : 15 ≤ x) (h2 : x < 140 ∨ 144 ≤ x) : superBytes e x = 0 := by
  rw [superBytes, if_neg (by omega), setWordAt_of_ne (by omega), setWordAt_of_ne (by omega),
    setWordAt_of_ne (by omega)]

theorem mem_setBytes_other {r r' : Region} {a : Nat} {bytes : List Byte} (h : r' ≠ r) :
    (s.setBytes r a bytes).mem r' = s.mem r' := update_of_ne h _ _

/-- What `init_disk` leaves. -/
theorem initDisk_ret (e : Endian) : ∃ s, initDisk e zeroed = .ret () s ∧ s.nextbno = 3 ∧ s.type 0 = .boot ∧
    s.type 1 = .super ∧ s.type 2 = .bmap ∧ (∀ b, 3 ≤ b → s.type b = .free) ∧
    (∀ b, b ≠ 2 → ∀ x, s.mem (.block b) x = 0) ∧ s.mem .super = superBytes e := by
  refine ⟨_, rfl, rfl, rfl, rfl, rfl, ?_, ?_, rfl⟩
  · intro b hb
    show update (update (update _ 0 _) (2 + 0) _) 1 _ b = _
    rw [update_of_ne (by omega), update_of_ne (by omega), update_of_ne (by omega)]
    rfl
  · intro b hb x
    have hroot : Region.block b ≠ root.region := fun h => by cases h
    have hsuper : Region.block b ≠ .super := hroot
    have hbitmap : Region.block b ≠ .block (2 + 0) := fun h => hb (Region.block.inj h)
    -- four writes go to `super`, and two to the bitmap
    refine (congrFun (mem_setBytes_other hroot) x).trans ?_
    refine (congrFun (mem_setWord_other hroot) x).trans ?_
    refine (congrFun (mem_setWord_other hsuper) x).trans ?_
    refine (congrFun (mem_setWord_other hsuper) x).trans ?_
    refine (congrFun (mem_setBytes_other hbitmap) x).trans ?_
    refine (congrFun (mem_setBytes_other hbitmap) x).trans ?_
    rfl

/-- **After `init_disk` the invariant holds**, and the root directory is empty. -/
theorem initDisk_sat (e : Endian) : (initDisk e zeroed).Sat
    (fun _ s => s.Formed e ∧ s.IsDir e root) (fun _ _ => False) (fun _ => False) := by
  obtain ⟨s, hrun, hnextbno, h0, h1, h2, hfree, hzero, hsuper⟩ := initDisk_ret e
  rw [hrun]
  have hfiles : ∀ p, s.IsFile p → p = root := by
    rintro p (hp | ⟨b, i, hb, -, -⟩)
    · exact hp
    · rcases Nat.lt_or_ge b 3 with hlt | hge
      · have hcases : b = 0 ∨ b = 1 ∨ b = 2 := by omega
        rcases hcases with rfl | rfl | rfl
        · rw [h0] at hb
          cases hb
        · rw [h1] at hb
          cases hb
        · rw [h2] at hb
          cases hb
      · rw [hfree b hge] at hb
        cases hb
  have hword : ∀ off, s.fieldOf e root off = wordAt e (superBytes e) (8 + off) := by
    intro off
    rw [fieldOf, word, root, hsuper]
  have hblank : ∀ off, 7 ≤ off → off + 4 ≤ 132 ∨ 136 ≤ off → s.fieldOf e root off = 0 := by
    intro off h7 hoff
    rw [hword]
    exact wordAt_zero fun x hx1 hx2 => superBytes_zero (by omega) (by omega)
  have hname : s.Named root := by
    show s.mem .super 8 ≠ 0
    rw [hsuper, superBytes, if_pos (by decide)]
    decide
  have hindirect : s.indirect e root = 0 := by
    rw [indirect, hblank indirectField (by decide) (by decide)]
    rfl
  have hlinks : ∀ k, s.link e root k = 0 := by
    intro k
    rw [link]
    split
    · rw [hblank (directField k) (by unfold directField; omega) (.inr (Nat.le_add_right _ _))]
      rfl
    · rw [hindirect, word, wordAt_zero fun x _ _ => hzero 0 (by decide) x]
      rfl
  refine ⟨⟨?_, ?_⟩, .inl rfl, hname, (hword typeField).trans (superBytes_type e)⟩
  · constructor
    · exact Nat.le_of_eq hnextbno.symm
    · rw [hnextbno]
      decide
    · rw [word, hsuper]
      exact superBytes_magic e
    · exact hname
    · exact h0
    · exact hzero 0 (by decide)
    · exact h1
    · exact h2
    · intro b hb
      exact hfree b (hnextbno ▸ hb)
    · intro b hb
      exact hzero b (by omega)
    · intro b i hb hi
      have := hfiles _ (isFile_slot hb hi)
      cases this
    · intro b i j hb hij hj
      have := hfiles _ (isFile_slot hb hj)
      cases this
  · constructor
    · intro p hp
      rw [hfiles p hp]
      exact .inl hindirect
    · intro p q hp hq _ _
      rw [hfiles p hp, hfiles q hq]
    · intro p hp k _
      rw [hfiles p hp]
      exact .inl (hlinks k)
    · intro p hp _ j hj
      rw [hfiles p hp, hblank sizeField (by decide) (by decide)] at hj
      exact absurd hj (Nat.not_lt_zero j)

/-! ## How it ends -/

/-- The image `t` of the builder's variables `s`: the bitmap is written, and the super block is copied. -/
structure ImageOf (e : Endian) (s t : Builder) : Prop where
  formed : s.Formed e
  type : t.type = s.type
  mem : ∀ r, r ≠ .block 1 → r ≠ .block 2 → t.mem r = s.mem r
  super : ∀ x < 264, t.mem (.block 1) x = s.mem .super x

theorem flushBitmap_sat (h : s.Formed e) : (flushBitmap e s).Sat
    (fun _ t => t.type = s.type ∧ ∀ r, r ≠ .block 2 → t.mem r = s.mem r) (fun _ _ => True) (fun _ => True) := by
  rw [flushBitmap, get_bind]
  refine sat_loop (I := fun (_ : Nat) (t : Builder) => t.type = s.type ∧ ∀ r, r ≠ .block 2 → t.mem r = s.mem r) ?_
    ⟨rfl, fun _ _ => rfl⟩
  rintro i t - hi ⟨htype, hmem⟩
  have hlt : i < 1024 := by
    have hn := h.laid.bounded
    rw [Nat.zero_add] at hi
    exact Nat.lt_of_lt_of_le hi hn
  have hblock : 2 + i / bit2blk = 2 := by
    unfold bit2blk
    omega
  refine ⟨htype, fun r hr => ?_⟩
  rw [hblock, mem_setWord_other hr]
  exact hmem r hr

/-- **What `fsformat` writes**, whatever it is given. -/
theorem fsformat_sat (e : Endian) (args : List HostFile) : (fsformat e args zeroed).Sat
    (fun _ t => ∃ s, ImageOf e s t) (fun _ _ => True) (fun _ => True) := by
  refine sat_call (initDisk_sat e) ?_ (fun _ _ h => h.elim) (fun _ h => h.elim)
  rintro _ s ⟨hs, hroot⟩
  refine sat_call (writeEntries_sat args hs hroot) ?_ (fun _ _ h => h) (fun _ h => h)
  rintro _ u ⟨hu, -⟩
  refine sat_call (flushBitmap_sat hu) ?_ (fun _ _ h => h) (fun _ h => h)
  rintro _ v ⟨htype, hmem⟩
  have hsuper : v.mem .super = u.mem .super := hmem _ fun h => by cases h
  refine ⟨u, hu, htype, fun r hr1 hr2 => ?_, fun x hx => ?_⟩
  · show update v.mem (.block 1) _ r = _
    rw [update_of_ne hr1]
    exact hmem r hr2
  · show (update v.mem (.block 1) fun x => if x < 264 then v.mem .super x else v.mem (.block 1) x :
      Region → Nat → Byte) (.block 1) x = _
    rw [update_self, if_pos hx, hsuper]

/-! ## The files of the image -/

/-- The file `p` of the image is the file `q` of the builder. -/
structure SameFile (e : Endian) (s t : Builder) (q p : FileLoc) : Prop where
  isFile : s.IsFile q
  fields : ∀ off, off + 4 ≤ 256 → t.fieldOf e p off = s.fieldOf e q off
  indirect : t.indirect e p = s.indirect e q
  links : ∀ k, t.link e p k = s.link e q k
  place : p = imageRoot ∧ q = root ∨ p = q ∧ ∃ b j, p = slot b j ∧ s.type b = .file ∧ j < file2blk ∧ s.Named p

namespace ImageOf

/-- The blocks that the end of `fsformat` does not touch. -/
theorem block (h : ImageOf e s t) (h1 : b ≠ 1) (h2 : b ≠ 2) : t.mem (.block b) = s.mem (.block b) :=
  h.mem _ (fun heq => h1 (Region.block.inj heq)) fun heq => h2 (Region.block.inj heq)

theorem block_of_type (h : ImageOf e s t) (hsuper : s.type b ≠ .super) (hbmap : s.type b ≠ .bmap) :
    t.mem (.block b) = s.mem (.block b) :=
  h.block (fun heq => hsuper (heq ▸ h.formed.laid.super)) fun heq => hbmap (heq ▸ h.formed.laid.bmap)

theorem sameFile (h : ImageOf e s t) (hq : s.IsFile q)
    (hbytes : ∀ x < 256, t.mem p.region (p.off + x) = s.mem q.region (q.off + x))
    (hplace : p = imageRoot ∧ q = root ∨ p = q ∧ ∃ b j, p = slot b j ∧ s.type b = .file ∧ j < file2blk ∧ s.Named p) :
    SameFile e s t q p := by
  have hfields : ∀ off, off + 4 ≤ 256 → t.fieldOf e p off = s.fieldOf e q off := by
    intro off hoff
    refine wordAt_eq_of_bytes fun k hk => ?_
    rw [Nat.add_assoc, Nat.add_assoc]
    exact hbytes _ (by omega)
  have hindirect : t.indirect e p = s.indirect e q := by
    rw [Builder.indirect, hfields _ (by decide), ← Builder.indirect]
  refine ⟨hq, hfields, hindirect, fun k => ?_, hplace⟩
  unfold link
  split
  · next hk => rw [hfields _ ((Patch.directField_le hk).trans (by decide))]
  · have hblock : t.mem (.block (s.indirect e q)) = s.mem (.block (s.indirect e q)) := by
      rcases h.formed.linked.indirect q hq with h0 | hindex
      · rw [h0]
        exact h.block (by decide) (by decide)
      · exact h.block_of_type (by rw [hindex]; decide) (by rw [hindex]; decide)
    rw [hindirect, word, word, hblock]

/-- **The files of the image are those of the builder**, in blocks of their types. -/
theorem inTree (h : ImageOf e s t) (hp : InTree e t p) : ∃ q, SameFile e s t q p := by
  induction hp with
  | root =>
    refine ⟨root, h.sameFile (.inl rfl) (fun x hx => ?_) (.inl ⟨rfl, rfl⟩)⟩
    exact h.super (8 + x) (by omega)
  | @entry p k j _ hdir hk hj hname ih =>
    obtain ⟨q, hq⟩ := ih
    rw [hq.fields _ (by decide)] at hdir hk
    obtain ⟨hlt, hne⟩ := h.formed.linked.dirs q hq.isFile hdir k hk
    have htype : s.type (s.link e q k) = .file := by
      rw [(h.formed.linked.links q hq.isFile k hlt).resolve_left hne, kind, if_pos hdir]
    rw [hq.links k] at hname ⊢
    have hblock := h.block_of_type (b := s.link e q k) (by rw [htype]; decide) (by rw [htype]; decide)
    have hnamed : s.Named (slot (s.link e q k) j) := by
      unfold Named slot at hname ⊢
      rwa [hblock] at hname
    refine ⟨slot (s.link e q k) j, h.sameFile (isFile_slot htype hj) (fun x _ => ?_)
      (.inr ⟨rfl, _, _, rfl, htype, hj, hnamed⟩)⟩
    exact congrFun hblock _

end ImageOf

/-! ## Main result -/

theorem turned_little (t : Builder) (b : Nat) :
    t.turned .little b = swapWords (fun j => (t.blockAt b).isNumber j = true) (t.mem (.block b)) :=
  congrArg Block.data (reverseBlock_little _)

/-- A number of a block is read right. -/
theorem wordAt_turned (h : (t.blockAt b).isNumber j = true) :
    wordAt .big (t.turned .little b) (4 * j) = t.word .little (.block b) (4 * j) := by
  rw [turned_little]
  exact wordAt_swapWords (e := .little) h

/-- Where there is no number, a byte stays. -/
theorem turned_byte {x : Nat} (h : ¬(t.blockAt b).isNumber (x / 4) = true) :
    t.turned .little b x = t.mem (.block b) x := by
  rw [turned_little]
  exact swapWords_of_not h

theorem IsNumberField.word {a : Nat} (h : IsNumberField a) : ∃ i, a = 4 * i ∧ 32 ≤ i ∧ i ≤ 44 := by
  rcases h with rfl | rfl | ⟨k, hk, rfl⟩ | rfl
  · exact ⟨32, rfl, by decide, by decide⟩
  · exact ⟨33, rfl, by decide, by decide⟩
  · unfold ndirect at hk
    exact ⟨34 + k, by unfold directField; omega, by omega, by omega⟩
  · exact ⟨44, rfl, by decide, by decide⟩

theorem ImageOf.readable (h : ImageOf .little s t) : Readable .little t := by
  have htype : ∀ b, (t.blockAt b).type = s.type b := fun b => congrFun h.type b
  have hsuper : ∀ i, i = 0 ∨ i = 1 ∨ (34 ≤ i ∧ i ≤ 46) → (t.blockAt 1).isNumber i = true := by
    intro i hi
    rw [Block.isNumber, htype, h.formed.laid.super]
    exact decide_eq_true hi
  -- the numbers of a file in a block of files
  have hfile : ∀ b j, s.type b = .file → j < file2blk → s.Named (slot b j) → ∀ i, 32 ≤ i → i ≤ 44 →
      (t.blockAt b).isNumber (64 * j + i) = true := by
    intro b j hb hj hname i h1 h2
    have hblock := h.block_of_type (b := b) (by rw [hb]; decide) (by rw [hb]; decide)
    rw [Block.isNumber, htype, hb]
    refine decide_eq_true ⟨Nat.zero_le _, by omega, fun k hk _ => ?_, by omega, by omega⟩
    show t.mem (.block b) (256 * k) ≠ 0
    rw [hblock]
    by_cases hkj : k = j
    · rw [hkj]
      exact hname
    · exact h.formed.laid.front b k j hb (by omega) hj hname
  have hnone : ∀ b, s.type b = .data → ∀ i, ¬(t.blockAt b).isNumber i = true := by
    intro b hb i
    rw [Block.isNumber, htype, hb]
    exact Bool.false_ne_true
  constructor
  · show wordAt .big (t.turned .little 1) (4 * 0) = t.word .little (.block 1) (4 * 0)
    exact wordAt_turned (hsuper 0 (.inl rfl))
  · show wordAt .big (t.turned .little 1) (4 * 1) = t.word .little (.block 1) (4 * 1)
    exact wordAt_turned (hsuper 1 (.inr (.inl rfl)))
  · intro b off hp a ha
    obtain ⟨i, rfl, h1, h2⟩ := ha.word
    obtain ⟨q, hq⟩ := h.inTree hp
    rcases hq.place with ⟨hroot, -⟩ | ⟨-, c, j, hslot, hc, hj, hname⟩
    · obtain ⟨hb, rfl⟩ := FileLoc.mk.inj hroot
      obtain rfl := Region.block.inj hb
      have hword := wordAt_turned (hsuper (2 + i) (.inr (.inr ⟨by omega, by omega⟩)))
      rw [show 4 * (2 + i) = 8 + 4 * i by omega] at hword
      show wordAt .big (t.turned .little 1) (8 + 4 * i) = t.word .little (.block 1) (8 + 4 * i)
      exact hword
    · obtain ⟨hb, rfl⟩ := FileLoc.mk.inj hslot
      obtain rfl := Region.block.inj hb
      have hword := wordAt_turned (hfile b j hc hj (hslot ▸ hname) i h1 h2)
      rw [show 4 * (64 * j + i) = 256 * j + 4 * i by omega] at hword
      show wordAt .big (t.turned .little b) (256 * j + 4 * i) = t.word .little (.block b) (256 * j + 4 * i)
      exact hword
  · intro b off hp x hx
    unfold maxnamelen at hx
    obtain ⟨q, hq⟩ := h.inTree hp
    rcases hq.place with ⟨hroot, -⟩ | ⟨-, c, j, hslot, hc, hj, hname⟩
    · obtain ⟨hb, rfl⟩ := FileLoc.mk.inj hroot
      obtain rfl := Region.block.inj hb
      refine turned_byte ?_
      rw [Block.isNumber, htype, h.formed.laid.super]
      intro hnum
      have := of_decide_eq_true hnum
      omega
    · obtain ⟨hb, rfl⟩ := FileLoc.mk.inj hslot
      obtain rfl := Region.block.inj hb
      refine turned_byte ?_
      rw [Block.isNumber, htype, hc]
      intro hnum
      have := (of_decide_eq_true hnum).2.2.2.1
      omega
  · intro p hp hne k hk
    obtain ⟨q, hq⟩ := h.inTree hp
    refine wordAt_turned ?_
    rw [hq.indirect] at hne ⊢
    rw [Block.isNumber, htype, (h.formed.linked.indirect q hq.isFile).resolve_left hne]
    exact decide_eq_true hk
  · intro i hi k hk
    obtain rfl : i = 0 := Nat.lt_one_iff.mp hi
    refine wordAt_turned ?_
    rw [Block.isNumber, htype, h.formed.laid.bmap]
    exact decide_eq_true hk
  · intro p hp hreg k hk hne
    obtain ⟨q, hq⟩ := h.inTree hp
    rw [hq.links k] at hne ⊢
    rw [hq.fields _ (by decide)] at hreg
    have hdata : s.type (s.link .little q k) = .data := by
      rw [(h.formed.linked.links q hq.isFile k hk).resolve_left hne, kind, if_neg hreg]
    exact funext fun x => turned_byte (hnone _ hdata _)
  · exact fun b => reverseBlock_reverseBlock _ _

/-- On a big-endian host the other machine already misreads `FS_MAGIC`. -/
theorem ImageOf.misread (h : ImageOf .big s t) : ¬Readable .big t := by
  intro hread
  have hmagic : wordAt .big (t.mem (.block 1)) 0 = fsMagic := by
    refine Eq.trans (wordAt_congr fun x _ hx => h.super x (by omega)) h.formed.laid.magic
  have hturned : t.turned .big 1 = t.mem (.block 1) := congrArg Block.data (reverseBlock_big _)
  have hother : wordAt .little (t.mem (.block 1)) 0 = fsMagic := by
    rw [← hmagic, ← hturned]
    exact hread.magic.trans (by rw [hturned]; rfl)
  -- the first byte of the block, as the two machines read it
  have hbig := byteAt_wordAt (e := .big) (m := t.mem (.block 1)) (a := 0) (x := 0) (Nat.le_refl 0) (by decide)
  have hlittle := byteAt_wordAt (e := .little) (m := t.mem (.block 1)) (a := 0) (x := 0) (Nat.le_refl 0) (by decide)
  rw [hmagic] at hbig
  rw [hother] at hlittle
  exact absurd (hbig.trans hlittle.symm) (by decide)

theorem exists_imageOf {args : List HostFile} (h : fsformat e args zeroed = .ret () t) : ∃ s, ImageOf e s t := by
  have hsat := fsformat_sat e args
  rwa [h] at hsat

/-- **The image can be read with the other byte order exactly when the host is little-endian**, whatever files and
directories `fsformat` was given. -/
theorem reverse_readable_iff (e : Endian) (args : List HostFile) (t : Builder)
    (h : fsformat e args zeroed = .ret () t) : Readable e t ↔ e = .little := by
  obtain ⟨s, himage⟩ := exists_imageOf h
  cases e with
  | little => exact ⟨fun _ => rfl, fun _ => himage.readable⟩
  | big => exact ⟨fun hread => absurd hread himage.misread, fun heq => by cases heq⟩

/-- A file `a` with the contents `hi`, and an empty directory `b`. -/
def smallArgs : List HostFile :=
  [.file ⟨[0x61], by decide, by decide⟩ 2 [⟨[0x68, 0x69], by decide, by decide⟩],
    .dir ⟨[0x62], by decide, by decide⟩ []]

theorem reverse_readable_iff_small : ∃ t, fsformat .little smallArgs zeroed = .ret () t ∧ Readable .little t := by
  have hret : (fsformat .little smallArgs zeroed).ret?.isSome = true := by decide +kernel
  obtain ⟨t, ht⟩ := Option.isSome_iff_exists.mp hret
  rw [Outcome.ret?_eq_some] at ht
  exact ⟨t, ht, (reverse_readable_iff .little smallArgs t ht).mpr rfl⟩

/-- On a big-endian host the image of the same files is not converted. -/
theorem reverse_misread : ∃ t, fsformat .big smallArgs zeroed = .ret () t ∧ ¬Readable .big t := by
  have hret : (fsformat .big smallArgs zeroed).ret?.isSome = true := by decide +kernel
  obtain ⟨t, ht⟩ := Option.isSome_iff_exists.mp hret
  rw [Outcome.ret?_eq_some] at ht
  obtain ⟨s, himage⟩ := exists_imageOf ht
  exact ⟨t, ht, himage.misread⟩

end Builder

end Mos
