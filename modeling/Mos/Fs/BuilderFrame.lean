import Mos.Fs.ByteOrder

/-!
# What the builder leaves alone

A function of `fsformat` that adds a file to a directory writes into that directory, into a place without a name, and
into blocks that were free. `Ext` says what it leaves as it was.

`Treed` adds to the invariant of the builder that no block is linked twice, and that the names of a directory fill its
places from the front.
-/

namespace Mos

open Lib Prog Function

namespace Builder

variable {e : Endian} {s t u : Builder} {p q : FileLoc} {b j k n lo hi off : Nat} {w : Word} {type : BlockType}
  {m : Nat → Byte} {A B : FileLoc → Prop}

/-! ## Places and entries -/

instance (s : Builder) : DecidablePred s.Named := fun p =>
  inferInstanceAs (Decidable (s.mem p.region p.off ≠ 0))

/-- The number of blocks of a directory. -/
def nblocksOf (e : Endian) (s : Builder) (p : FileLoc) : Nat := (s.fieldOf e p sizeField).toNat / by2blk

/-- The places for files in a block. -/
def slotsIn (b : Nat) : List FileLoc := (List.range file2blk).map (slot b)

/-- The places for files in a directory, in their order. -/
def slots (e : Endian) (s : Builder) (p : FileLoc) : List FileLoc :=
  (List.range (s.nblocksOf e p)).flatMap fun k => slotsIn (s.link e p k)

/-- The files in a directory. -/
def entries (e : Endian) (s : Builder) (p : FileLoc) : List FileLoc := (s.slots e p).filter fun q => s.Named q

theorem mem_slotsIn : q ∈ slotsIn b ↔ ∃ j < file2blk, q = slot b j := by
  unfold slotsIn
  simp only [List.mem_map, List.mem_range, eq_comm]

theorem mem_slots : q ∈ s.slots e p ↔ ∃ k < s.nblocksOf e p, ∃ j < file2blk, q = slot (s.link e p k) j := by
  unfold slots
  simp only [List.mem_flatMap, List.mem_range, mem_slotsIn]

theorem mem_entries : q ∈ s.entries e p ↔ q ∈ s.slots e p ∧ s.Named q := by
  unfold entries
  simp only [List.mem_filter, decide_eq_true_eq]

/-- The links of a directory lead to blocks of files. -/
theorem Formed.dirLink (h : s.Formed e) (hd : s.IsDir e p) (hk : k < s.nblocksOf e p) :
    k < nindirect ∧ s.link e p k ≠ 0 ∧ s.type (s.link e p k) = .file := by
  obtain ⟨hlt, hne⟩ := h.linked.dirs p hd.1 hd.2.2 k hk
  refine ⟨hlt, hne, ?_⟩
  rw [(h.linked.links p hd.1 k hlt).resolve_left hne, kind, if_pos hd.2.2]

theorem Formed.isFile_of_mem (h : s.Formed e) (hd : s.IsDir e p) (hq : q ∈ s.slots e p) : s.IsFile q := by
  obtain ⟨k, hk, j, hj, rfl⟩ := mem_slots.mp hq
  exact isFile_slot (h.dirLink hd hk).2.2 hj

/-! ## What stays -/

/-- No file changes but those in `A`. -/
structure Keeps (e : Endian) (A : FileLoc → Prop) (s t : Builder) : Prop where
  type : ∀ b, s.type b ≠ .free → t.type b = s.type b
  data : ∀ b, s.type b = .data → t.mem (.block b) = s.mem (.block b)
  bytes : ∀ q, s.IsFile q → ¬A q → ∀ x < 256, t.mem q.region (q.off + x) = s.mem q.region (q.off + x)
  index : ∀ q, s.IsFile q → ¬A q → t.mem (.block (s.indirect e q)) = s.mem (.block (s.indirect e q))

namespace Keeps

theorem isFile (h : Keeps e A s t) (hq : s.IsFile q) : t.IsFile q := isFile_mono h.type hq

theorem fieldOf (h : Keeps e A s t) (hq : s.IsFile q) (hA : ¬A q) (hoff : off + 4 ≤ 256) :
    t.fieldOf e q off = s.fieldOf e q off :=
  fieldOf_congr (h.bytes q hq hA) hoff

theorem indirect (h : Keeps e A s t) (hq : s.IsFile q) (hA : ¬A q) : t.indirect e q = s.indirect e q := by
  unfold Builder.indirect
  rw [h.fieldOf hq hA (by decide)]

theorem link (h : Keeps e A s t) (hq : s.IsFile q) (hA : ¬A q) (k : Nat) : t.link e q k = s.link e q k := by
  unfold Builder.link
  split
  · next hk => rw [h.fieldOf hq hA ((Patch.directField_le hk).trans (by decide))]
  · rw [h.indirect hq hA, word, word, h.index q hq hA]

theorem named (h : Keeps e A s t) (hq : s.IsFile q) (hA : ¬A q) : t.Named q ↔ s.Named q := by
  have := h.bytes q hq hA 0 (by decide)
  rw [Nat.add_zero] at this
  unfold Named
  rw [this]

theorem isDir (h : Keeps e A s t) (hq : s.IsDir e q) (hA : ¬A q) : t.IsDir e q :=
  ⟨h.isFile hq.1, (h.named hq.1 hA).mpr hq.2.1, (h.fieldOf hq.1 hA (by decide)).trans hq.2.2⟩

theorem slots (h : Keeps e A s t) (hq : s.IsFile q) (hA : ¬A q) : t.slots e q = s.slots e q := by
  unfold Builder.slots nblocksOf
  rw [h.fieldOf hq hA (by decide)]
  simp only [h.link hq hA]

end Keeps

/-- Nothing changes but the files in `A`, and blocks that were free. -/
structure Ext (e : Endian) (A : FileLoc → Prop) (s t : Builder) : Prop extends Keeps e A s t where
  bmap : ∀ b, s.type b = .bmap → t.mem (.block b) = s.mem (.block b)
  header : ∀ x < 8, t.mem .super x = s.mem .super x

namespace Ext

theorem refl (e : Endian) (A : FileLoc → Prop) (s : Builder) : Ext e A s s :=
  ⟨⟨fun _ _ => rfl, fun _ _ => rfl, fun _ _ _ _ _ => rfl, fun _ _ _ => rfl⟩, fun _ _ => rfl, fun _ _ => rfl⟩

/-- Two steps: what neither changes stays. -/
theorem trans {C : FileLoc → Prop} (h : Ext e A s t) (h' : Ext e B t u)
    (hAC : ∀ q, s.IsFile q → A q → C q) (hBC : ∀ q, s.IsFile q → ¬A q → B q → C q) : Ext e C s u where
  type b hb := by rw [h'.type b (by rw [h.type b hb]; exact hb), h.type b hb]
  data b hb := by rw [h'.data b (by rw [h.type b (by rw [hb]; decide), hb]), h.data b hb]
  bmap b hb := by rw [h'.bmap b (by rw [h.type b (by rw [hb]; decide), hb]), h.bmap b hb]
  header x hx := (h'.header x hx).trans (h.header x hx)
  bytes q hq hC x hx := by
    have hA : ¬A q := fun hA => hC (hAC q hq hA)
    have hB : ¬B q := fun hB => hC (hBC q hq hA hB)
    rw [h'.bytes q (h.isFile hq) hB x hx, h.bytes q hq hA x hx]
  index q hq hC := by
    have hA : ¬A q := fun hA => hC (hAC q hq hA)
    have hB : ¬B q := fun hB => hC (hBC q hq hA hB)
    have := h'.index q (h.isFile hq) hB
    rw [h.indirect hq hA] at this
    rw [this, h.index q hq hA]

theorem mono (h : Ext e A s t) (hAB : ∀ q, s.IsFile q → A q → B q) : Ext e B s t :=
  h.trans (refl e A t) hAB fun _ _ hA hA' => absurd hA' hA

end Ext

theorem Formed.indirect_ne_free (h : s.Formed e) (hp : s.IsFile p) : s.type (s.indirect e p) ≠ .free := by
  rcases h.linked.indirect p hp with h0 | hindex
  · rw [h0, h.laid.boot]
    decide
  · rw [hindex]
    decide

/-- A new block changes no file. -/
theorem Formed.ext_grown (h : s.Formed e) (type : BlockType) (m : Nat → Byte) :
    Ext e (fun _ => False) s (s.grown type m) where
  type _ hb := h.laid.grown_type hb
  data _ hb := h.laid.grown_block (by rw [hb]; decide)
  bmap _ hb := h.laid.grown_block (by rw [hb]; decide)
  header x _ := by rw [grown_mem fun heq => by cases heq]
  bytes q hq _ x _ := by rw [h.laid.grown_file hq]
  index q hq _ := h.laid.grown_block (h.indirect_ne_free hq)

/-- A write into a file changes no other. -/
theorem Patch.ext (h : Patch p lo hi s t) (hf : s.Formed e) (hhi : hi ≤ 256) (hp : s.IsFile p) :
    Ext e (· = p) s t where
  type _ _ := by rw [h.type]
  data _ hb := h.block hp (by rw [hb]; decide)
  bmap _ hb := h.block hp (by rw [hb]; decide)
  header x hx := h.mem _ _ (by
    rcases hp with rfl | ⟨b, i, -, -, rfl⟩
    · right
      left
      show x < 8 + lo
      omega
    · exact .inl fun hr => by cases hr)
  bytes q hq hne x hx := h.other hhi hp hq hne hx
  index q hq _ := h.block hp (hf.indirect_ne_file hq)

/-- A write into the indirect links of a file changes no other. -/
theorem Formed.ext_setIndirect (h : s.Formed e) (hp : s.IsFile p) (hindex : s.type (s.indirect e p) = .index) :
    Ext e (· = p) s (s.setWord e (.block (s.indirect e p)) off w) where
  type _ _ := rfl
  data b hb := mem_setWord_other fun heq => by
    rw [Region.block.inj heq, hindex] at hb
    cases hb
  bmap b hb := mem_setWord_other fun heq => by
    rw [Region.block.inj heq, hindex] at hb
    cases hb
  header x _ := by rw [mem_setWord_other fun heq => by cases heq]
  bytes q hq _ x _ := by rw [mem_setWord_other (hq.region_ne (by rw [hindex]; decide))]
  index q hq hne := mem_setWord_other fun heq => by
    have heq := Region.block.inj heq
    refine hne (h.linked.unshared q p hq hp heq fun h0 => ?_)
    rw [← heq, h0, h.laid.boot] at hindex
    cases hindex

/-! ## `save_block_link` -/

/-- The block of indirect links has none of the direct ones. -/
def LowZero (e : Endian) (s : Builder) (p : FileLoc) : Prop :=
  ∀ k < ndirect, s.word e (.block (s.indirect e p)) (4 * k) = 0

theorem LowZero.keeps (hlow : s.LowZero e q) (h : Keeps e A s t) (hq : s.IsFile q) (hA : ¬A q) : t.LowZero e q := by
  intro k hk
  rw [h.indirect hq hA, word, h.index q hq hA]
  exact hlow k hk

/-- What `save_block_link` leaves of the file `p`, and of all others. -/
structure Kept (e : Endian) (p : FileLoc) (s t : Builder) : Prop where
  ext : Ext e (· = p) s t
  head : ∀ x < 136, t.mem p.region (p.off + x) = s.mem p.region (p.off + x)
  low : s.LowZero e p → t.LowZero e p
  files : ∀ q, t.IsFile q → s.IsFile q

theorem Kept.trans (h : Kept e p s t) (h' : Kept e p t u) : Kept e p s u where
  ext := h.ext.trans h'.ext (fun _ _ h => h) fun _ _ _ h => h
  head x hx := (h'.head x hx).trans (h.head x hx)
  low hlow := h'.low (h.low hlow)
  files q hq := h.files q (h'.files q hq)

theorem Kept.refl (e : Endian) (p : FileLoc) (s : Builder) : Kept e p s s :=
  ⟨.refl e _ s, fun _ _ => rfl, fun h => h, fun _ h => h⟩

theorem Formed.kept_setDirect (h : s.Formed e) (hp : s.IsFile p) (hk : k < ndirect) :
    Kept e p s (s.setWord e p.region (p.off + directField k) w) := by
  have hpatch := setField_patch e s p (directField k) w
  have hle := Patch.directField_le hk
  have hge := directField_ge (k := k)
  refine ⟨hpatch.ext h (by omega) hp, fun x hx => hpatch.mem _ _ (by omega), fun hlow j hj => ?_,
    fun q hq => hpatch.isFile.mp hq⟩
  have hind : (s.setWord e p.region (p.off + directField k) w).indirect e p = s.indirect e p := by
    unfold indirect
    rw [hpatch.fieldOf_self (.inr (show directField k + 4 ≤ indirectField from hle))]
  rw [hind, word, hpatch.block hp (h.indirect_ne_file hp)]
  exact hlow j hj

theorem Formed.kept_setIndirect (h : s.Formed e) (hp : s.IsFile p) (hindex : s.type (s.indirect e p) = .index)
    (hk : ¬k < ndirect) : Kept e p s (s.setWord e (.block (s.indirect e p)) (4 * k) w) := by
  have hregion := hp.region_ne (b := s.indirect e p) (by rw [hindex]; decide)
  have hmem := mem_setWord_other (s := s) (e := e) (a := 4 * k) (w := w) hregion
  refine ⟨h.ext_setIndirect hp hindex, fun x _ => by rw [hmem], fun hlow j hj => ?_,
    fun q hq => (isFile_congr rfl).mp hq⟩
  have hind : (s.setWord e (.block (s.indirect e p)) (4 * k) w).indirect e p = s.indirect e p := by
    rw [indirect, Builder.fieldOf, word, hmem]
    rfl
  rw [hind, word_setWord, if_neg (by omega)]
  exact hlow j hj

/-- A new block of indirect links. -/
theorem Formed.kept_addIndex (h : s.Formed e) (hn : s.nextbno < nblock) (hp : s.IsFile p) :
    Kept e p s ((s.grown .index (s.mem (.block s.nextbno))).setWord e p.region (p.off + indirectField)
      (BitVec.ofNat 32 s.nextbno)) := by
  have hzero := h.laid.fresh s.nextbno (Nat.le_refl _)
  have hfits : Fits .index (s.mem (.block s.nextbno)) := .inr ⟨.inr rfl, hzero⟩
  have hu := h.grown hn hfits
  have hext := h.ext_grown .index (s.mem (.block s.nextbno))
  have hmem : (s.grown .index (s.mem (.block s.nextbno))).mem (.block s.nextbno) = s.mem (.block s.nextbno) :=
    update_self _ _ _
  have htype : (s.grown .index (s.mem (.block s.nextbno))).type s.nextbno = .index := update_self _ _ _
  have hfiles : ∀ q, (s.grown .index (s.mem (.block s.nextbno))).IsFile q → s.IsFile q := by
    intro q hq
    rcases h.laid.isFile_grown.mp hq with hq | ⟨hfile, -⟩
    · exact hq
    · cases hfile
  generalize s.grown .index (s.mem (.block s.nextbno)) = v at *
  have hpv := hext.isFile hp
  have hpatch := setField_patch e v p indirectField (BitVec.ofNat 32 s.nextbno)
  refine ⟨?_, fun x hx => ?_, fun _ j _ => ?_, fun q hq => hfiles q (hpatch.isFile.mp hq)⟩
  · exact hext.trans (hpatch.ext hu (by decide) hpv) (fun _ _ h => h.elim) fun _ _ _ h => h
  · have h176 : x < indirectField := hx.trans (by decide)
    rw [hpatch.mem _ _ (.inr (.inl (by omega))), hext.bytes p hp (fun h => h) x (by omega)]
  · -- the new block holds zeros
    rw [indirect, fieldOf_setField_self, toNat_block hn, word, hpatch.block hpv (by rw [htype]; decide), hmem]
    exact wordAt_zero fun x _ _ => hzero x

/-- **`save_block_link` changes no other file, and of this one only its links.** -/
theorem saveBlockLink_kept (h : s.Formed e) (hp : s.IsFile p) (hname : s.Named p) (k b : Nat) :
    (saveBlockLink e p k b s).Sat (fun _ t => Kept e p s t) (fun _ _ => True) (fun _ => True) := by
  refine sat_bind.mpr (sat_assert.mpr ?_)
  split
  case isFalse => trivial
  case isTrue hk =>
  split
  · next hdirect => exact h.kept_setDirect hp hdirect
  · next hdirect =>
    show ((do
      Prog.when (s.fieldOf e p indirectField = 0) do
        let b ← nextBlock .index
        setField e p indirectField (BitVec.ofNat 32 b)
      let indirect ← field e p indirectField
      let c ← inDisk indirect
      Prog.modify fun s => s.setWord e (.block c) (4 * k) (BitVec.ofNat 32 b) : BuilderM Unit) s).Sat _ _ _
    -- from a state with a block of indirect links on
    have hrest : ∀ t, t.Formed e → t.type (t.indirect e p) = .index → Kept e p s t →
        ((do
          let indirect ← field e p indirectField
          let c ← inDisk indirect
          Prog.modify fun s => s.setWord e (.block c) (4 * k) (BitVec.ofNat 32 b) : BuilderM Unit) t).Sat
          (fun _ u => Kept e p s u) (fun _ _ => True) (fun _ => True) := by
      intro t ht hindex hkept
      show ((do
        let c ← inDisk (t.fieldOf e p indirectField)
        Prog.modify fun s => s.setWord e (.block c) (4 * k) (BitVec.ofNat 32 b) : BuilderM Unit) t).Sat _ _ _
      refine sat_call (inDisk_sat t _) ?_ (fun _ _ h => h) (fun _ h => h)
      rintro c v ⟨hc, hv⟩
      rw [hc, hv]
      exact hkept.trans (ht.kept_setIndirect (hkept.ext.isFile hp) hindex hdirect)
    refine sat_bind.mpr (sat_when (fun hzero => ?_) fun hne => ?_)
    · have hind : s.indirect e p = 0 := by
        rw [indirect, hzero]
        rfl
      refine sat_call (nextBlock_sat s .index) ?_ (fun _ _ h => h) (fun _ h => h)
      rintro _ _ ⟨hn, rfl, rfl⟩
      obtain ⟨t, ht, hformed, -, hindirect, hindex, -, -⟩ := h.addIndex hn hp hname hind
      rw [← hindirect] at hindex
      subst ht
      exact hrest _ hformed hindex (h.kept_addIndex hn hp)
    · refine hrest s h ?_ (.refl e p s)
      exact (h.linked.indirect p hp).resolve_left fun h0 => hne (BitVec.eq_of_toNat_eq h0)

/-! ## The invariant -/

/-- No block is linked twice, and the names of a directory are in front. -/
structure Treed (e : Endian) (s : Builder) : Prop where
  formed : s.Formed e
  own : ∀ p q, s.IsFile p → s.IsFile q → ∀ j < nindirect, ∀ k < nindirect, s.link e p j = s.link e q k →
    s.link e p j ≠ 0 → p = q ∧ j = k
  low : ∀ p, s.IsFile p → s.LowZero e p
  packed : ∀ p, s.IsDir e p → (s.slots e p).Pairwise fun a b => s.Named b → s.Named a

/-- A place is in one directory. -/
theorem Treed.dir_unique {d d' : FileLoc} (h : s.Treed e) (hd : s.IsDir e d) (hd' : s.IsDir e d') (hq : q ∈ s.slots e d)
    (hq' : q ∈ s.slots e d') : d = d' := by
  obtain ⟨k, hk, i, -, rfl⟩ := mem_slots.mp hq
  obtain ⟨k', hk', i', -, heq⟩ := mem_slots.mp hq'
  obtain ⟨hlt, hne, -⟩ := h.formed.dirLink hd hk
  obtain ⟨hlt', -, -⟩ := h.formed.dirLink hd' hk'
  exact (h.own d d' hd.1 hd'.1 k hlt k' hlt' (slot_inj heq).1 hne).1

theorem slotsIn_nodup (b : Nat) : (slotsIn b).Nodup := by
  refine List.Nodup.map_on (fun i _ j _ heq => (slot_inj heq).2) List.nodup_range

/-- The places of a directory are different. -/
theorem Treed.slots_nodup (h : s.Treed e) (hd : s.IsDir e p) : (s.slots e p).Nodup := by
  refine List.nodup_flatMap.mpr ⟨fun k _ => slotsIn_nodup _, ?_⟩
  refine List.Pairwise.imp_of_mem ?_ (List.nodup_range (n := s.nblocksOf e p))
  intro j k hj hk hjk q hqj hqk
  obtain ⟨i, -, rfl⟩ := mem_slotsIn.mp hqj
  obtain ⟨i', -, heq⟩ := mem_slotsIn.mp hqk
  obtain ⟨hlt, hne, -⟩ := h.formed.dirLink hd (List.mem_range.mp hj)
  obtain ⟨hlt', -, -⟩ := h.formed.dirLink hd (List.mem_range.mp hk)
  exact hjk (h.own p p hd.1 hd.1 j hlt k hlt' (slot_inj heq).1 hne).2

/-- Where the places and their names stay, the names stay in front. -/
theorem Treed.packed_of {d : FileLoc} (h : s.Treed e) (hd : s.IsDir e d) (hslots : t.slots e d = s.slots e d)
    (hnamed : ∀ q ∈ s.slots e d, t.Named q ↔ s.Named q) :
    (t.slots e d).Pairwise fun a b => t.Named b → t.Named a := by
  rw [hslots]
  exact (h.packed d hd).imp_of_mem fun ha hb hab hb' => (hnamed _ ha).mpr (hab ((hnamed _ hb).mp hb'))

/-- A write into a file that leaves its links. -/
theorem Treed.patch (h : s.Treed e) (hpatch : Patch p lo hi s t) (hhi : hi ≤ 256) (hp : s.IsFile p) (hf : t.Formed e)
    (hlink : ∀ k, t.link e p k = s.link e p k) (hind : t.indirect e p = s.indirect e p)
    (hpacked : ∀ d, t.IsDir e d → (t.slots e d).Pairwise fun a b => t.Named b → t.Named a) : t.Treed e := by
  have hext := hpatch.ext h.formed hhi hp
  have hlinks : ∀ q, s.IsFile q → ∀ k, t.link e q k = s.link e q k := by
    intro q hq k
    by_cases hqp : q = p
    · rw [hqp]
      exact hlink k
    · exact hext.link hq hqp k
  refine ⟨hf, fun q r hq hr j hj k hk => ?_, fun q hq => ?_, hpacked⟩
  · rw [hpatch.isFile] at hq hr
    rw [hlinks q hq, hlinks r hr]
    exact h.own q r hq hr j hj k hk
  · rw [hpatch.isFile] at hq
    by_cases hqp : q = p
    · rw [hqp]
      intro k hk
      rw [hind, word, hpatch.block hp (h.formed.indirect_ne_file hp)]
      exact h.low p hp k hk
    · exact (h.low q hq).keeps hext.toKeeps hq hqp

/-- The next block has become block `k` of a file. -/
theorem Treed.store (h : s.Treed e) (hn : s.nextbno < nblock) (hfits : Fits type m) (hp : s.IsFile p)
    (hst : Stored e p k s.nextbno (s.grown type m) t) (hkept : Kept e p (s.grown type m) t)
    (hdir : s.IsDir e p → s.nblocksOf e p ≤ k) : t.Treed e := by
  have hgrown := h.formed.ext_grown type m
  have hpg := hgrown.isFile hp
  -- a file is one of before, or it is in the new block
  have hcases : ∀ q, t.IsFile q → s.IsFile q ∨ q ≠ p ∧ (s.grown type m).IsFile q ∧ ¬(s.grown type m).Named q ∧
      (s.grown type m).indirect e q = 0 ∧ ∀ j, (s.grown type m).link e q j = 0 := by
    intro q hq
    have hqg := hkept.files q hq
    rcases h.formed.laid.isFile_grown.mp hqg with hold | ⟨hfile, i, hi, rfl⟩
    · exact .inl hold
    · obtain ⟨-, hind, hlinks⟩ := h.formed.grown_slot hn hfits hfile i
      refine .inr ⟨fun heq => ?_, hqg, fun hname => ?_, hind, hlinks⟩
      · rw [← heq] at hp
        rcases hp with hroot | ⟨c, j, hc, -, hslot⟩
        · cases hroot
        · rw [← (slot_inj hslot).1, h.formed.laid.free _ (Nat.le_refl _)] at hc
          cases hc
      · refine hname ?_
        show update s.mem (.block s.nextbno) m (.block s.nextbno) _ = 0
        rw [update_self]
        rcases hfits with hdata | ⟨-, hz⟩
        · rw [hdata] at hfile
          cases hfile
        · exact hz _
  have hlinks : ∀ q, s.IsFile q → ∀ j, q ≠ p ∨ j ≠ k → t.link e q j = s.link e q j := by
    intro q hq j hqj
    rw [← hgrown.link hq (fun h => h) j]
    by_cases hqp : q = p
    · rw [hqp]
      exact hst.links j (hqj.resolve_left (not_not_intro hqp))
    · exact hkept.ext.link (hgrown.isFile hq) hqp j
  have hnew : ∀ q, t.IsFile q → ¬s.IsFile q → ∀ j, t.link e q j = 0 := by
    intro q hq hns j
    obtain ⟨hqp, hqg, -, -, hzero⟩ := (hcases q hq).resolve_left hns
    rw [hkept.ext.link hqg hqp]
    exact hzero j
  -- no link was to the next block
  have hfresh : ∀ q, s.IsFile q → ∀ j < nindirect, s.link e q j ≠ s.nextbno := by
    intro q hq j hj heq
    rcases h.formed.linked.links q hq j hj with h0 | htype
    · have := h.formed.laid.started
      omega
    · rw [heq, h.formed.laid.free _ (Nat.le_refl _)] at htype
      rcases kind_cases e s q with hk | hk <;> rw [hk] at htype <;> cases htype
  have hother : ∀ q, t.IsFile q → ∀ j < nindirect, q ≠ p ∨ j ≠ k → t.link e q j ≠ s.nextbno := by
    intro q hq j hj hqj
    by_cases hold : s.IsFile q
    · rw [hlinks q hold j hqj]
      exact hfresh q hold j hj
    · rw [hnew q hq hold j]
      have := h.formed.laid.started
      omega
  refine ⟨hst.formed, fun q r hq hr i hi j hj heq hne => ?_, fun q hq => ?_, fun d hd => ?_⟩
  · by_cases hqk : q = p ∧ i = k
    · obtain ⟨rfl, rfl⟩ := hqk
      by_cases hrk : r = q ∧ j = i
      · exact ⟨hrk.1.symm, hrk.2.symm⟩
      · rw [hst.link] at heq
        exact absurd heq.symm (hother r hr j hj (by tauto))
    · by_cases hrk : r = p ∧ j = k
      · obtain ⟨rfl, rfl⟩ := hrk
        rw [hst.link] at heq
        exact absurd heq (hother q hq i hi (by tauto))
      · by_cases hqs : s.IsFile q
        · by_cases hrs : s.IsFile r
          · rw [hlinks q hqs i (by tauto)] at heq hne
            rw [hlinks r hrs j (by tauto)] at heq
            exact h.own q r hqs hrs i hi j hj heq hne
          · exact absurd (heq.trans (hnew r hr hrs j)) hne
        · exact absurd (hnew q hq hqs i) hne
  · by_cases hqp : q = p
    · rw [hqp]
      exact hkept.low ((h.low p hp).keeps hgrown.toKeeps hp fun h => h)
    · rcases hcases q hq with hold | ⟨-, hqg, -, hind, -⟩
      · exact ((h.low q hold).keeps hgrown.toKeeps hold fun h => h).keeps hkept.ext.toKeeps (hgrown.isFile hold) hqp
      · refine LowZero.keeps (fun j _ => ?_) hkept.ext.toKeeps hqg hqp
        rw [hind, word]
        exact wordAt_zero fun x _ _ => (h.formed.grown hn hfits).laid.zero x
  · rcases hcases d hd.1 with hold | ⟨hdp, hdg, hname, -, -⟩
    · have hds : s.IsDir e d := by
        refine ⟨hold, ?_, ?_⟩
        · exact (hgrown.named hold fun h => h).mp ((hst.steady.named d (hgrown.isFile hold)).mp hd.2.1)
        · rw [← hgrown.fieldOf hold (fun h => h) (by decide), ← hst.steady.ftype d (hgrown.isFile hold)]
          exact hd.2.2
      refine h.packed_of hds ?_ fun q hq => ?_
      · by_cases hdp : d = p
        · subst hdp
          have hsize : t.nblocksOf e d = s.nblocksOf e d := by
            unfold nblocksOf
            rw [hst.size, hgrown.fieldOf hold (fun h => h) (by decide)]
          unfold slots
          rw [hsize]
          refine List.flatMap_congr fun j hj => ?_
          rw [hlinks d hold j (.inr ?_)]
          have := hdir hds
          have := List.mem_range.mp hj
          omega
        · rw [hkept.ext.slots (hgrown.isFile hold) hdp, hgrown.slots hold fun h => h]
      · have hqs := h.formed.isFile_of_mem hds hq
        exact (hst.steady.named q (hgrown.isFile hqs)).trans (hgrown.named hqs fun h => h)
    · exact absurd ((hst.steady.named d hdg).mp hd.2.1) hname

end Builder

end Mos
