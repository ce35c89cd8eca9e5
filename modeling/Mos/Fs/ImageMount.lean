import Mos.Fs.BuilderImage
import Mos.Fs.Walks

/-!
# The server mounts the image

On a disk with an image that a little-endian `fsformat` has written, `fs_init` succeeds. Then the words of memory are
those of the image, and the invariant of the server holds: `Own`, with the blocks of files and of links of the builder.
-/

namespace Mos

open Lib Prog Function

variable {d : Nat → Page} {v : Fs} {m n : Nat}

/-! ## Any disk with a good bitmap -/

/-- `read_bitmap` on a disk whose super block and bitmap are marked as used. -/
theorem readBitmap_sat (h : v.Reading d 2) (hd : (d 1 1).toNat = n) (h3 : 3 ≤ n) (hn : n ≤ 2 ^ 18)
    (hused : ∀ b < 2 + nbitmap n, imageBit d b = false) :
    (readBitmap v).Sat (fun _ t => ∃ u : Fs, u.Reading d (2 + nbitmap n) ∧ t = u.withBitmap) (fun _ _ => False)
      (fun p => p = .noMemory) := by
  rw [readBitmap, bind_ret (h.sNblocks (Nat.le_refl 2)), hd]
  refine sat_call (readBlocks_sat h hd h3 hn) ?_ (fun _ _ h => h) (fun _ h => h)
  intro _ t ht
  have hfree : ∀ b < 2 + nbitmap n, blockIsFree b t.withBitmap = .ret false t.withBitmap := by
    intro b hb
    rw [ht.blockIsFree hd hn, hused b hb, Bool.and_false]
  rw [modify_bind, ← Fs.withBitmap]
  rw [bind_ret (hfree 0 (by omega)), bind_ret (assert_pos rfl), bind_ret (hfree 1 (by omega)),
    bind_ret (assert_pos rfl)]
  refine (sat_loop (I := fun _ u => u = t.withBitmap) (fun j u _ hj hu => ?_) rfl).mono ?_
    (fun _ _ h => h) (fun _ h => h)
  · subst hu
    rw [bind_ret (hfree (j + 2) (by omega)), assert_pos rfl]
    rfl
  · rintro _ u rfl
    exact ⟨t, ht, rfl⟩

/-- `fs_init` on a disk with a good super block and a good bitmap. -/
theorem fsInit_reading (avail : Nat → Bool) (hmagic : d 1 0 = fsMagic) (hd : (d 1 1).toNat = n) (h3 : 3 ≤ n)
    (hn : n ≤ 2 ^ 18) (hused : ∀ b < 2 + nbitmap n, imageBit d b = false) :
    (fsInit (unmounted d avail)).Sat (fun _ t => ∃ u : Fs, u.Reading d (2 + nbitmap n) ∧ t = u.withBitmap)
      (fun _ _ => False) (fun p => p = .noMemory) := by
  refine sat_call (readSuper_sat avail hmagic (by rw [hd]; exact hn)) ?_ (fun _ _ h => h) (fun _ h => h)
  intro _ t ht
  exact sat_call (checkWriteBlock_sat ht) (fun _ u hu => readBitmap_sat hu hd h3 hn hused) (fun _ _ h => h)
    (fun _ h => h)

/-- All words but those of the boot block are read from the disk. -/
theorem Fs.Reading.look (h : v.Reading d m) {a : Nat} (ha : 1024 ≤ a) :
    v.withBitmap.look a = d (a / 1024) (a % 1024) := by
  have h1 : 1 ≤ a / 1024 := by omega
  unfold Fs.look
  split
  · next hm =>
    show v.page (a / 1024) (a % 1024) = _
    rw [h.page _ h1 ((h.mapped _).mp hm)]
  · show v.disk (a / 1024) (a % 1024) = _
    rw [h.disk _ h1]

namespace Builder

variable {s t : Builder} {p q : FileLoc} {b i k : Nat} {args : List HostFile}

/-! ## The words of the image -/

/-- The blocks of the image, as a little-endian machine reads their words. -/
def words (t : Builder) : Nat → Page := fun b i => t.word .little (.block b) (4 * i)

/-- Where the server finds a file of the builder. -/
def addr (p : FileLoc) : Nat :=
  match p.region with
  | .super => sRoot
  | .block b => 1024 * b + p.off / 4

theorem addr_slot (b i : Nat) : addr (slot b i) = fileIn b i := by
  show 1024 * b + 256 * i / 4 = 1024 * b + 64 * i
  omega

theorem words_file (h : Image .little args s t) (hq : s.IsFile q) (hk : k < 64) :
    t.words ((addr q + k) / 1024) ((addr q + k) % 1024) = s.fieldOf .little q (4 * k) := by
  rcases hq with rfl | ⟨b, i, hb, hi, rfl⟩
  · have hblk : (sRoot + k) / 1024 = 1 := by
      unfold sRoot
      omega
    have hoff : (sRoot + k) % 1024 = 2 + k := by
      unfold sRoot
      omega
    rw [show addr root = sRoot from rfl, hblk, hoff, ← h.root_sameFile.fields (4 * k) (by omega)]
    show t.word .little (.block 1) (4 * (2 + k)) = t.word .little (.block 1) (8 + 4 * k)
    rw [Nat.mul_add]
  · have hblk : (fileIn b i + k) / 1024 = b := by
      unfold fileIn file2blk at *
      omega
    have hoff : (fileIn b i + k) % 1024 = 64 * i + k := by
      unfold fileIn file2blk at *
      omega
    have hq := isFile_slot hb hi
    rw [addr_slot, hblk, hoff, ← h.keeps.fieldOf hq (fun h => h) (by omega)]
    show t.word .little (.block b) (4 * (64 * i + k)) = t.word .little (.block b) (256 * i + 4 * k)
    congr 1
    omega

theorem words_of_mem (h : t.mem (.block b) = s.mem (.block b)) (i : Nat) :
    t.words b i = s.word .little (.block b) (4 * i) := by
  rw [words, word, h]
  rfl

theorem imageBit_words (t : Builder) (hb : b < nblock) : imageBit t.words b = t.bit .little b := by
  unfold nblock at hb
  have hblock : 2 + b / bit2blk = 2 := by
    unfold bit2blk
    omega
  have hword : b % bit2blk / 32 = b / 32 := by
    unfold bit2blk
    omega
  rw [imageBit, hblock, hword]
  rfl

/-! ## Mounting -/

/-- What the server knows after `fs_init`. -/
structure Mounts (s t : Builder) (v : Fs) : Prop where
  super : v.super = true
  bitmap : v.bitmap = true
  mapped : ∀ b < 3, v.isMapped b = true
  look : ∀ a, 1024 ≤ a → v.look a = t.words (a / 1024) (a % 1024)

/-- **`fs_init` mounts every image.** -/
theorem fsInit_mounts (h : Image .little args s t) (avail : Nat → Bool) :
    (fsInit (unmounted t.words avail)).Sat (fun _ v => Mounts s t v) (fun _ _ => False)
      (fun p => p = .noMemory ∧ ¬∀ k, avail k = true) := by
  have hword : ∀ i < 2, t.words 1 i = s.word .little .super (4 * i) := fun i hi =>
    wordAt_congr fun x _ hx => h.image.super x (by omega)
  have hmagic : t.words 1 0 = fsMagic := (hword 0 (by decide)).trans h.image.formed.laid.magic
  have hn : (t.words 1 1).toNat = nblock := by
    rw [hword 1 (by decide), show 4 * 1 = 4 from rfl, h.nblocks]
    rfl
  have hused : ∀ b < 2 + nbitmap nblock, imageBit t.words b = false := by
    intro b hb
    have hb : b < 3 := hb
    have hlt : b < nblock := hb.trans (by decide)
    rw [imageBit_words t hlt, h.bitmap b hlt, decide_eq_false]
    have := h.image.formed.laid.started
    omega
  refine fsInit_feeds.sat ((fsInit_reading avail hmagic hn (by decide) (by decide) hused).mono ?_ (fun _ _ h => h)
    fun _ h => h)
  rintro _ v ⟨u, hu, rfl⟩
  exact ⟨hu.super, rfl, fun b hb => (hu.mapped b).mpr hb, fun a ha => hu.look ha⟩

/-- The blocks of files. -/
def dirSet (s : Builder) : Set Nat := {b | s.type b = .file}

/-- The blocks of indirect links. -/
def indexSet (s : Builder) : Set Nat := {x | ∃ q, s.IsFile q ∧ s.indirect .little q = x ∧ x ≠ 0}

/-- The files of the server are those of the builder. -/
theorem mem_files {f : Nat} : f ∈ Fs.files (dirSet s) ↔ ∃ q, s.IsFile q ∧ f = addr q := by
  constructor
  · rintro (rfl | ⟨b, hb, j, hj, rfl⟩)
    · exact ⟨root, .inl rfl, rfl⟩
    · exact ⟨slot b j, isFile_slot hb hj, (addr_slot b j).symm⟩
  · rintro ⟨q, rfl | ⟨b, i, hb, hi, rfl⟩, rfl⟩
    · exact .inl rfl
    · exact .inr ⟨b, hb, i, hi, addr_slot b i⟩

namespace Mounts

theorem field (hv : Mounts s t v) (h : Image .little args s t) (hq : s.IsFile q) (hk : k < 64) :
    v.look (addr q + k) = s.fieldOf .little q (4 * k) := by
  rw [hv.look _ ?_, words_file h hq hk]
  rcases hq with rfl | ⟨b, i, hb, hi, rfl⟩
  · exact Nat.le_add_right_of_le (show 1024 ≤ sRoot by decide)
  · rw [addr_slot]
    have hb0 : b ≠ 0 := by
      rintro rfl
      rw [h.image.formed.laid.boot] at hb
      cases hb
    unfold fileIn
    omega

theorem word (hv : Mounts s t v) (hb : b ≠ 0) (hmem : t.mem (.block b) = s.mem (.block b)) (hi : i < 1024) :
    v.look (1024 * b + i) = s.word .little (.block b) (4 * i) := by
  have hblk : (1024 * b + i) / 1024 = b := by omega
  have hoff : (1024 * b + i) % 1024 = i := by omega
  rw [hv.look _ (by omega), hblk, hoff, words_of_mem hmem]

theorem nblocks (hv : Mounts s t v) (h : Image .little args s t) : v.nblocks = nblock := by
  have hword : t.words 1 1 = s.word .little .super (4 * 1) :=
    wordAt_congr fun x _ hx => h.image.super x (by omega)
  rw [Fs.nblocks, hv.look _ (by decide)]
  show (t.words 1 1).toNat = _
  rw [hword, show 4 * 1 = 4 from rfl, h.nblocks]
  rfl

theorem firstData (hv : Mounts s t v) (h : Image .little args s t) : v.firstData = 3 := by
  rw [Fs.firstData, hv.nblocks h]
  rfl

theorem free_iff (hv : Mounts s t v) (h : Image .little args s t) : v.Free b ↔ b < nblock ∧ s.nextbno ≤ b := by
  unfold Fs.Free
  rw [hv.nblocks h]
  refine and_congr_right fun hb => ?_
  have hword : bitmapWord (b / 32) / 1024 = 2 ∧ bitmapWord (b / 32) % 1024 = b / 32 := by
    unfold nblock at hb
    unfold bitmapWord
    omega
  rw [Fs.freeBit, hv.look _ (by unfold bitmapWord; omega), hword.1, hword.2]
  show t.bit .little b = true ↔ _
  rw [h.bitmap b hb, decide_eq_true_eq]

theorem mounted (hv : Mounts s t v) (h : Image .little args s t) : v.Mounted where
  super := hv.super
  bitmap := hv.bitmap
  nblocks := by
    rw [hv.nblocks h]
    decide
  mapped b _ hb := hv.mapped b (hv.firstData h ▸ hb)
  reserved b hb hfree := by
    rw [hv.firstData h] at hb
    rw [hv.free_iff h] at hfree
    have := h.image.formed.laid.started
    omega

/-- The blocks of the builder are in use. -/
theorem mem_used (hv : Mounts s t v) (h : Image .little args s t)
    (hb : s.type b = .file ∨ s.type b = .data ∨ s.type b = .index) : b ∈ v.used := by
  have hlaid := h.image.formed.laid
  have hfree : s.type b ≠ .free := by
    rcases hb with hb | hb | hb <;> rw [hb] <;> decide
  have hlt : b < s.nextbno := Nat.lt_of_not_le fun hle => hfree (hlaid.free b hle)
  have h3 : 3 ≤ b := by
    by_contra hlt3
    have hcases : b = 0 ∨ b = 1 ∨ b = 2 := by omega
    rcases hcases with rfl | rfl | rfl
    · rw [hlaid.boot] at hb
      simp at hb
    · rw [hlaid.super] at hb
      simp at hb
    · rw [hlaid.bmap] at hb
      simp at hb
  refine ⟨by rw [hv.firstData h]; exact h3, ?_, ?_⟩
  · rw [hv.nblocks h]
    exact hlt.trans_le hlaid.bounded
  · rw [hv.free_iff h]
    omega

theorem num_direct (hv : Mounts s t v) (h : Image .little args s t) (hq : s.IsFile q) (hk : k < ndirect) :
    v.num (addr q + 34 + k) = s.link .little q k := by
  have h10 : k < 10 := hk
  rw [Fs.num, Nat.add_assoc, hv.field h hq (by omega), link, if_pos hk, directField]
  congr 2
  omega

theorem num_indirect (hv : Mounts s t v) (h : Image .little args s t) (hq : s.IsFile q) :
    v.num (addr q + 44) = s.indirect .little q := by
  rw [Fs.num, hv.field h hq (by decide)]
  rfl

theorem num_entry (hv : Mounts s t v) (h : Image .little args s t) (hq : s.IsFile q)
    (hne : s.indirect .little q ≠ 0) (hi : i < 1024) :
    v.num (1024 * s.indirect .little q + i) = if i < ndirect then 0 else s.link .little q i := by
  have htype := (h.image.formed.linked.indirect q hq).resolve_left hne
  rw [Fs.num, hv.word hne (h.image.block_of_type (by rw [htype]; decide) (by rw [htype]; decide)) hi]
  split
  · next hlow =>
    rw [h.treed.low q hq i hlow]
    rfl
  · next hlow => rw [link, if_neg hlow]

/-- A slot with a number is that of a link, or of a block of links. -/
theorem slot_cases (hv : Mounts s t v) (h : Image .little args s t) {a : Nat}
    (ha : a ∈ Fs.slots (dirSet s) (indexSet s)) (h0 : v.num a ≠ 0) :
    (∃ q k, s.IsFile q ∧ k < nindirect ∧ v.num a = s.link .little q k ∧
      a = if k < ndirect then addr q + 34 + k else 1024 * s.indirect .little q + k) ∨
    ∃ q, s.IsFile q ∧ v.num a = s.indirect .little q ∧ a = addr q + 44 := by
  rcases ha with ⟨f, hf, i, hi, rfl⟩ | ⟨x, ⟨q, hq, rfl, hx⟩, i, hi, rfl⟩
  · obtain ⟨q, hq, rfl⟩ := mem_files.mp hf
    by_cases h10 : i < ndirect
    · exact .inl ⟨q, i, hq, h10.trans (by decide), hv.num_direct h hq h10, (if_pos h10).symm⟩
    · obtain rfl : i = 10 := by
        unfold ndirect at h10
        omega
      exact .inr ⟨q, hq, hv.num_indirect h hq, rfl⟩
  · have hnum := hv.num_entry h hq hx hi
    by_cases h10 : i < ndirect
    · rw [if_pos h10] at hnum
      exact absurd hnum h0
    · rw [if_neg h10] at hnum
      exact .inl ⟨q, i, hq, hi, hnum, (if_neg h10).symm⟩

theorem link_type (h : Image .little args s t) (hq : s.IsFile q) (hk : k < nindirect)
    (h0 : s.link .little q k ≠ 0) : s.type (s.link .little q k) = s.kind .little q :=
  (h.image.formed.linked.links q hq k hk).resolve_left h0

/-- **After `fs_init` the invariant of the server holds.** -/
theorem own (hv : Mounts s t v) (h : Image .little args s t) : v.Own (dirSet s) (indexSet s) := by
  have hlinked := h.image.formed.linked
  have hindex : ∀ q, s.IsFile q → s.indirect .little q ≠ 0 → s.type (s.indirect .little q) = .index :=
    fun q hq h0 => (hlinked.indirect q hq).resolve_left h0
  -- a number found in a file
  have hpointer : ∀ q, s.IsFile q → ∀ a ∈ v.pointers (addr q), v.num a ≠ 0 →
      s.type (v.num a) = s.kind .little q := by
    rintro q hq a (⟨i, hi, rfl⟩ | ⟨hne, i, hi, rfl⟩) h0
    · rw [show fDirect (addr q) i = addr q + 34 + i from rfl, hv.num_direct h hq hi] at h0 ⊢
      exact link_type h hq (hi.trans (by decide)) h0
    · rw [show fIndirect (addr q) = addr q + 44 from rfl, hv.num_indirect h hq] at hne h0 ⊢
      rw [hv.num_entry h hq hne hi] at h0 ⊢
      split at h0
      · exact absurd rfl h0
      · next h10 =>
        rw [if_neg h10]
        exact link_type h hq hi h0
  have hdir : ∀ q, s.IsFile q → (v.IsDir (addr q) ↔ s.fieldOf .little q typeField = ftypeDir) := by
    intro q hq
    unfold Fs.IsDir
    rw [show fType (addr q) = addr q + 33 from rfl, hv.field h hq (by decide)]
    rfl
  refine ⟨hv.mounted h, ⟨fun a ha h0 => ?_, fun a ha a' ha' h0 heq => ?_⟩, fun b hb => hv.mem_used h (.inl hb), ?_, ?_,
    ?_, ?_, ?_⟩
  · rcases hv.slot_cases h ha h0 with ⟨q, k, hq, hk, hnum, -⟩ | ⟨q, hq, hnum, -⟩
    · rw [hnum] at h0 ⊢
      have htype := link_type h hq hk h0
      refine hv.mem_used h ?_
      rcases kind_cases .little s q with hkind | hkind
      · exact .inl (htype.trans hkind)
      · exact .inr (.inl (htype.trans hkind))
    · rw [hnum] at h0 ⊢
      exact hv.mem_used h (.inr (.inr (hindex q hq h0)))
  · have h0' : v.num a' ≠ 0 := heq ▸ h0
    have hmix : ∀ q k r, s.IsFile q → k < nindirect → s.IsFile r → s.link .little q k = s.indirect .little r →
        s.link .little q k ≠ 0 → False := by
      intro q k r hq hk hr heq hne
      have htype := link_type h hq hk hne
      rw [heq, hindex r hr (heq ▸ hne)] at htype
      rcases kind_cases .little s q with hkind | hkind <;> rw [hkind] at htype <;> cases htype
    rcases hv.slot_cases h ha h0 with ⟨q, k, hq, hk, hnum, hplace⟩ | ⟨q, hq, hnum, hplace⟩
    · rcases hv.slot_cases h ha' h0' with ⟨r, j, hr, hj, hnum', hplace'⟩ | ⟨r, hr, hnum', -⟩
      · rw [hnum] at h0 heq
        rw [hnum'] at heq
        obtain ⟨rfl, rfl⟩ := h.treed.own q r hq hr k hk j hj heq h0
        rw [hplace, hplace']
      · rw [hnum] at h0 heq
        rw [hnum'] at heq
        exact (hmix q k r hq hk hr heq h0).elim
    · rcases hv.slot_cases h ha' h0' with ⟨r, j, hr, hj, hnum', -⟩ | ⟨r, hr, hnum', hplace'⟩
      · rw [hnum'] at h0' heq
        rw [hnum] at heq
        exact (hmix r j q hr hj hq heq.symm h0').elim
      · rw [hnum] at h0 heq
        rw [hnum'] at heq
        rw [hplace, hplace', hlinked.unshared q r hq hr heq h0]
  · rintro x ⟨q, hq, rfl, hx⟩
    exact hv.mem_used h (.inr (.inr (hindex q hq hx)))
  · rintro b hb ⟨q, hq, rfl, hx⟩
    have hb : s.type (s.indirect .little q) = .file := hb
    rw [hindex q hq hx] at hb
    cases hb
  · intro f hf h0
    obtain ⟨q, hq, rfl⟩ := mem_files.mp hf
    rw [show fIndirect (addr q) = addr q + 44 from rfl, hv.num_indirect h hq] at h0 ⊢
    exact ⟨q, hq, rfl, h0⟩
  · intro f hf hd a ha h0
    obtain ⟨q, hq, rfl⟩ := mem_files.mp hf
    have htype := hpointer q hq a ha h0
    rwa [kind, if_pos ((hdir q hq).mp hd)] at htype
  · intro f hf hd a ha h0
    obtain ⟨q, hq, rfl⟩ := mem_files.mp hf
    have htype := hpointer q hq a ha h0
    rw [kind, if_neg fun hreg => hd ((hdir q hq).mpr hreg)] at htype
    refine ⟨fun hfile => ?_, ?_⟩
    · have hfile : s.type (v.num a) = .file := hfile
      rw [htype] at hfile
      cases hfile
    · rintro ⟨r, hr, heq, hne⟩
      rw [← heq] at htype hne
      rw [hindex r hr hne] at htype
      cases htype

end Mounts

end Builder

end Mos
