import Mos.Fs.BuilderCopy

/-!
# The image of a tree of the host

`main` of `fsformat` starts with an empty root directory, adds its arguments, marks the blocks that it has taken in the
bitmap, and copies the super block into block 1. The image then shows the files and directories that it was given.
-/

namespace Mos

open Lib Prog Function

namespace Builder

variable {e : Endian} {s t u : Builder} {p q : FileLoc} {b j k n : Nat} {w : Word} {N : FileLoc → Prop}
  {args : List HostFile}

/-! ## The start -/

/-- Without blocks of files and of links there is the root directory only, and it is empty. -/
theorem Formed.treed_of_empty (h : s.Formed e) (hd : s.IsDir e root)
    (hnone : ∀ b, s.type b ≠ .file ∧ s.type b ≠ .index) : s.Treed e ∧ s.entries e root = [] := by
  have hfiles : ∀ p, s.IsFile p → p = root := by
    rintro p (hp | ⟨b, i, hb, -, -⟩)
    · exact hp
    · exact absurd hb (hnone b).1
  have hlinks : ∀ k < nindirect, s.link e root k = 0 := by
    intro k hk
    refine (h.linked.links root hd.1 k hk).resolve_right fun htype => ?_
    rw [kind, if_pos hd.2.2] at htype
    exact (hnone _).1 htype
  have hslots : s.slots e root = [] := by
    have hzero : s.nblocksOf e root = 0 := by
      by_contra hne
      obtain ⟨hlt, hlink⟩ := h.linked.dirs root hd.1 hd.2.2 0 (Nat.pos_of_ne_zero hne)
      exact hlink (hlinks 0 hlt)
    rw [slots, hzero]
    rfl
  refine ⟨⟨h, fun p q hp hq j hj k hk _ hne => ?_, fun p hp k _ => ?_, fun p hp => ?_⟩, by rw [entries, hslots]; rfl⟩
  · rw [hfiles p hp] at hne
    exact absurd (hlinks j hj) hne
  · rw [(h.linked.indirect p hp).resolve_right (hnone _).2]
    exact wordAt_zero fun x _ _ => h.laid.zero x
  · rw [hfiles p hp.1, hslots]
    exact .nil

theorem mem_setBytes_self (s : Builder) (r : Region) (a : Nat) (bytes : List Byte) (x : Nat) :
    (s.setBytes r a bytes).mem r x =
      if a ≤ x ∧ x < a + bytes.length then bytes.getD (x - a) 0 else s.mem r x := by
  show update s.mem r _ r x = _
  rw [update_self]

theorem getD_replicate (c : Byte) (n i : Nat) : (List.replicate n c).getD i 0 = if i < n then c else 0 := by
  rw [List.getD_eq_getElem?_getD, List.getElem?_replicate]
  split <;> rfl

/-- The bitmap after `init_disk`, and the number of blocks. -/
theorem initDisk_bitmap (e : Endian) : ∃ s, initDisk e zeroed = .ret () s ∧
    (∀ x, s.mem (.block 2) x = if x < 128 then 0xff else 0) := by
  refine ⟨_, rfl, fun x => ?_⟩
  have hroot : Region.block 2 ≠ root.region := fun h => by cases h
  have hsuper : Region.block 2 ≠ .super := hroot
  -- four writes go to `super`, and two to the bitmap
  refine (congrFun (mem_setBytes_other hroot) x).trans ?_
  refine (congrFun (mem_setWord_other hroot) x).trans ?_
  refine (congrFun (mem_setWord_other hsuper) x).trans ?_
  refine (congrFun (mem_setWord_other hsuper) x).trans ?_
  refine (mem_setBytes_self _ (.block 2) (nblock % bit2blk / 8)
    (List.replicate (by2blk - nblock % bit2blk / 8) 0) x).trans ?_
  rw [List.length_replicate, getD_replicate, show nblock % bit2blk / 8 = 128 from rfl]
  split
  · next hx =>
    unfold by2blk at *
    rw [if_pos (by omega), if_neg (by omega)]
  · next hx =>
    refine (mem_setBytes_self _ (.block 2) 0 (List.replicate by2blk 0xff) x).trans ?_
    rw [List.length_replicate, getD_replicate]
    unfold by2blk at *
    split
    · next hx' => rw [if_pos (by omega), if_pos (by omega)]
    · next hx' =>
      rw [if_neg (by omega)]
      rfl

theorem superBytes_nblocks (e : Endian) : wordAt e (superBytes e) 4 = BitVec.ofNat 32 nblock := by
  refine Eq.trans (wordAt_congr fun x _ hx => ?_) (wordAt_setWordAt_self (m := setWordAt e (fun _ => 0) 0 fsMagic))
  rw [superBytes, if_neg (by omega), setWordAt_of_ne (by omega)]

/-- What `init_disk` prepares: an empty tree, and a bitmap that says that all blocks are free. -/
theorem initDisk_treed (e : Endian) : (initDisk e zeroed).Sat
    (fun _ s => s.Treed e ∧ s.IsDir e root ∧ s.entries e root = [] ∧ s.NameIs root rootName ∧
      s.word e .super 4 = BitVec.ofNat 32 nblock ∧ ∀ x, s.mem (.block 2) x = if x < 128 then 0xff else 0)
    (fun _ _ => False) (fun _ => False) := by
  have hformed := initDisk_sat e
  obtain ⟨s, hrun, hnextbno, h0, h1, h2, hfree, -, hsuper⟩ := initDisk_ret e
  obtain ⟨u, hrun', hbitmap⟩ := initDisk_bitmap e
  rw [hrun] at hformed hrun' ⊢
  obtain ⟨-, rfl⟩ := Outcome.ret.inj hrun'
  have hnone : ∀ b, s.type b ≠ .file ∧ s.type b ≠ .index := by
    intro b
    rcases Nat.lt_or_ge b 3 with hlt | hge
    · have hcases : b = 0 ∨ b = 1 ∨ b = 2 := by omega
      rcases hcases with rfl | rfl | rfl
      · rw [h0]
        decide
      · rw [h1]
        decide
      · rw [h2]
        decide
    · rw [hfree b hge]
      decide
  obtain ⟨htreed, hempty⟩ := hformed.1.treed_of_empty hformed.2 hnone
  refine ⟨htreed, hformed.2, hempty, fun x hx => ?_, ?_, hbitmap⟩
  · unfold maxnamelen at hx
    show s.mem .super (8 + x) = _
    rw [hsuper]
    by_cases h7 : x < 7
    · rw [superBytes, if_pos (by omega), Nat.add_sub_cancel_left, getD_append_zero]
    · have hle : rootName.length ≤ x := Nat.le_trans (by decide) (Nat.le_of_not_lt h7)
      rw [superBytes_zero (by omega) (by omega), List.getD_eq_getElem?_getD, List.getElem?_eq_none hle]
      rfl
  · rw [word, hsuper]
    exact superBytes_nblocks e

/-! ## The bitmap -/

/-- The bit of block `b` in the bitmap of the image. -/
def bit (e : Endian) (s : Builder) (b : Nat) : Bool := (s.word e (.block 2) (4 * (b / 32))).getLsbD (b % 32)

theorem bit_flushBit (s : Builder) {i : Nat} (hi : i < nblock) (b : Nat) :
    (flushBit e i s).Sat (fun _ t => t.bit e b = (s.bit e b && decide (b ≠ i))) (fun _ _ => False)
      (fun _ => False) := by
  unfold nblock at *
  have hblock : 2 + i / bit2blk = 2 := by
    unfold bit2blk
    omega
  have hword : i % bit2blk / 32 = i / 32 := by
    unfold bit2blk
    omega
  show Builder.bit e (s.setWord e (.block (2 + i / bit2blk)) (4 * (i % bit2blk / 32)) _) b = _
  rw [hblock, hword, bit, word_setWord]
  split
  · next heq =>
    have h32 : b % 32 < 32 := Nat.mod_lt _ (by decide)
    have hbit : decide (b % 32 = i % 32) = decide (b = i) := decide_eq_decide.mpr (by omega)
    rw [BitVec.getLsbD_and, BitVec.getLsbD_not, getLsbD_bitOf, hbit, bit, heq]
    simp [h32]
  · next hne =>
    have hbi : b ≠ i := by
      rintro rfl
      exact hne rfl
    simp [bit, hbi]

/-- `flush_bitmap` takes the bits of the blocks that are in use. -/
theorem flushBitmap_bit (h : s.Formed e) (b : Nat) : (flushBitmap e s).Sat
    (fun _ t => t.bit e b = (s.bit e b && decide (s.nextbno ≤ b))) (fun _ _ => True) (fun _ => True) := by
  rw [flushBitmap, get_bind]
  refine (sat_loop (I := fun (i : Nat) (t : Builder) => t.bit e b = (s.bit e b && decide (i ≤ b)))
    (E := fun _ _ => True) (H := fun _ => True) ?_ ?_).mono ?_ (fun _ _ h => h) (fun _ h => h)
  · intro i t _ hi ht
    rw [Nat.zero_add] at hi
    refine (bit_flushBit t (hi.trans_le h.laid.bounded) b).mono ?_ (fun _ _ h => h.elim) (fun _ h => h.elim)
    rintro _ u hu
    rw [hu, ht, Bool.and_assoc, ← Bool.decide_and]
    congr 1
    exact decide_eq_decide.mpr (by omega)
  · simp
  · rintro _ t ht
    rwa [Nat.zero_add] at ht

/-- Bits of a bitmap that is full of ones. -/
theorem bit_of_ones (h : ∀ x, s.mem (.block 2) x = if x < 128 then 0xff else 0) (hb : b < nblock) :
    s.bit e b = true := by
  have hword : s.word e (.block 2) (4 * (b / 32)) = wordAt e (fun _ => 0xff) (4 * (b / 32)) := by
    refine wordAt_congr fun x _ hx => ?_
    unfold nblock at hb
    rw [h, if_pos (by omega)]
  have hones : wordAt e (fun _ => 0xff) (4 * (b / 32)) = BitVec.allOnes 32 := by
    show (0xff#8 ++ 0xff#8 ++ 0xff#8 ++ 0xff#8 : BitVec 32) = _
    decide
  rw [bit, hword, hones, BitVec.getLsbD_allOnes, decide_eq_true (Nat.mod_lt _ (by decide))]

/-! ## The image -/

/-- The image `t` of the builder's variables `s`, when `fsformat` was given `args`. -/
structure Image (e : Endian) (args : List HostFile) (s t : Builder) : Prop where
  image : ImageOf e s t
  treed : s.Treed e
  dir : s.IsDir e root
  name : s.NameIs root rootName
  shows : ShowsAll e s (fun _ => True) args (s.entries e root)
  nblocks : s.word e .super 4 = BitVec.ofNat 32 nblock
  bitmap : ∀ b < nblock, t.bit e b = decide (s.nextbno ≤ b)

theorem fsformat_image (e : Endian) (args : List HostFile) : (fsformat e args zeroed).Sat
    (fun _ t => ∃ s, Image e args s t) (fun _ _ => True) (fun _ => True) := by
  refine sat_call (initDisk_treed e) ?_ (fun _ _ h => h.elim) (fun _ h => h.elim)
  rintro _ s ⟨hs, hroot, hempty, hname, hnblocks, hones⟩
  refine sat_call (writeEntries_adds args hs hroot) ?_ (fun _ _ h => h) (fun _ h => h)
  rintro _ u ⟨qs, hadds, hshows⟩
  have hu := hadds.treed.formed
  have hbit : ∀ b < nblock, u.bit e b = true := fun b hb =>
    bit_of_ones (fun x => by rw [hadds.ext.bmap 2 hs.formed.laid.bmap, hones x]) hb
  have hflush : (flushBitmap e u).Sat
      (fun _ t => (t.type = u.type ∧ ∀ r, r ≠ .block 2 → t.mem r = u.mem r) ∧
        ∀ b < nblock, t.bit e b = decide (u.nextbno ≤ b)) (fun _ _ => True) (fun _ => True) := by
    have hmem := flushBitmap_sat hu
    have hbits := flushBitmap_bit hu
    cases hrun : flushBitmap e u with
    | ret a t =>
      rw [hrun] at hmem
      simp only [hrun] at hbits
      refine ⟨hmem, fun b hb => ?_⟩
      rw [hbits b, hbit b hb, Bool.true_and]
    | err x t => trivial
    | halt x => trivial
  refine sat_call hflush ?_ (fun _ _ h => h) (fun _ h => h)
  rintro _ v ⟨⟨htype, hmem⟩, hbits⟩
  have hsuper : v.mem .super = u.mem .super := hmem _ fun h => by cases h
  have h12 : Region.block 2 ≠ Region.block 1 := fun h => by cases h
  refine ⟨u, ⟨hu, htype, fun r hr1 hr2 => ?_, fun x hx => ?_⟩, hadds.treed, hadds.dir,
    hname.congr hadds.head, ?_, ?_, fun b hb => ?_⟩
  · show update v.mem (.block 1) _ r = _
    rw [update_of_ne hr1]
    exact hmem r hr2
  · show (update v.mem (.block 1) fun x => if x < 264 then v.mem .super x else v.mem (.block 1) x :
      Region → Nat → Byte) (.block 1) x = _
    rw [update_self, if_pos hx, hsuper]
  · rw [hadds.entries, hempty, List.nil_append]
    exact ShowsAll.mono (fun _ _ => trivial) args qs hshows
  · rw [← hnblocks]
    exact wordAt_congr fun x _ hx => hadds.ext.header x (by omega)
  · rw [← hbits b hb]
    show (wordAt e ((update v.mem (.block 1) fun x => if x < 264 then v.mem .super x else v.mem (.block 1) x :
      Region → Nat → Byte) (.block 2)) (4 * (b / 32))).getLsbD (b % 32) = _
    rw [update_of_ne h12]
    rfl

theorem Image.of_ret {t : Builder} (h : fsformat e args zeroed = .ret () t) : ∃ s, Image e args s t := by
  have hsat := fsformat_image e args
  rwa [h] at hsat

namespace Image

/-- The end of `fsformat` changes no file. -/
theorem keeps (h : Image e args s t) : Keeps e (fun _ => False) s t where
  type b _ := by rw [h.image.type]
  data b hb := h.image.block_of_type (by rw [hb]; decide) (by rw [hb]; decide)
  bytes _ hq _ x _ := by
    rcases hq with rfl | ⟨b, i, hb, -, rfl⟩
    · rw [h.image.mem _ (fun heq => by cases heq) fun heq => by cases heq]
    · exact congrFun (h.image.block_of_type (by rw [hb]; decide) (by rw [hb]; decide)) _
  index q hq _ := by
    rcases h.image.formed.linked.indirect q hq with h0 | hindex
    · rw [h0]
      exact h.image.block (by decide) (by decide)
    · exact h.image.block_of_type (by rw [hindex]; decide) (by rw [hindex]; decide)

/-- The root directory of the image. -/
theorem root_sameFile (h : Image e args s t) : SameFile e s t root imageRoot :=
  h.image.sameFile (.inl rfl) (fun x hx => h.image.super (8 + x) (by omega)) (.inl ⟨rfl, rfl⟩)

/-- The names of the places of a directory are those of the builder. -/
theorem filter_named (h : Image e args s t) (hd : s.IsDir e p) :
    ((s.slots e p).filter fun q => t.Named q) = s.entries e p :=
  List.filter_congr fun _ hq => decide_eq_decide.mpr
    (h.keeps.named (h.treed.formed.isFile_of_mem hd hq) fun h => h)

theorem root_entries (h : Image e args s t) : t.entries e imageRoot = s.entries e root := by
  have hroot := h.root_sameFile
  have hslots : t.slots e imageRoot = s.slots e root := by
    unfold slots nblocksOf
    rw [hroot.fields _ (by decide)]
    simp only [hroot.links]
  rw [entries, hslots]
  exact h.filter_named h.dir

theorem entries_eq (h : Image e args s t) (hd : s.IsDir e p) : t.entries e p = s.entries e p := by
  rw [entries, h.keeps.slots hd.1 fun h => h]
  exact h.filter_named hd

end Image

/-- **The image shows what `fsformat` was given**: the entries of its root directory are the arguments, in their order,
with their names, types, sizes and contents, and those of every directory the entries that it has on the host. -/
theorem fsformat_shows (e : Endian) (args : List HostFile) (t : Builder) (h : fsformat e args zeroed = .ret () t) :
    t.NameIs imageRoot rootName ∧ t.fieldOf e imageRoot typeField = ftypeDir ∧
      ShowsAll e t (fun _ => True) args (t.entries e imageRoot) := by
  obtain ⟨s, himage⟩ := Image.of_ret h
  have hroot := himage.root_sameFile
  refine ⟨fun x hx => ?_, ?_, ?_⟩
  · unfold maxnamelen at hx
    rw [← himage.name x hx]
    exact himage.image.super (8 + x) (by omega)
  · rw [hroot.fields _ (by decide)]
    exact himage.dir.2.2
  · rw [himage.root_entries]
    exact ShowsAll.keeps himage.keeps (fun _ _ _ h => h) (fun _ _ hd => himage.entries_eq hd) args _ himage.shows

/-- The contents of `a` and the empty directory `b` are in the image. -/
theorem fsformat_shows_small : ∃ t, fsformat .little smallArgs zeroed = .ret () t ∧
    ShowsAll .little t (fun _ => True) smallArgs (t.entries .little imageRoot) := by
  have hret : (fsformat .little smallArgs zeroed).ret?.isSome = true := by decide +kernel
  obtain ⟨t, ht⟩ := Option.isSome_iff_exists.mp hret
  rw [Outcome.ret?_eq_some] at ht
  exact ⟨t, ht, (fsformat_shows .little smallArgs t ht).2.2⟩

end Builder

end Mos
