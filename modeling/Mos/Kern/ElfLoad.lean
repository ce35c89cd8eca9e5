import Mos.Kern.Counter

/-!
# Loading a segment

`elf_load_seg` maps the pages of a segment in three steps that hand over one index: the head of a
segment that does not start on a page boundary, the pages with file contents, and the pages beyond
them. Every call of `load_icode_mapper` replaces a whole page, so it matters that no page is mapped
by two of the steps. That is so unless the file contents end in the middle of an unaligned first
page: then the index of the last step starts inside that page (`elf_load_seg_faithful_iff`).
-/

namespace Mos

open Lib Prog Function

variable {M : List Nat} {k k' : Kernel} {e : EnvPtr} {va perm : Word} {ph : ElfPhdr}
  {bin : Nat → BitVec 8}

/-! ## Bytes -/

theorem byteOf_wordOf (b : Nat → BitVec 8) {j : Nat} (hj : j < 4) : byteOf (wordOf b) j = b j := by
  have hcases : j = 0 ∨ j = 1 ∨ j = 2 ∨ j = 3 := by omega
  unfold byteOf wordOf
  apply BitVec.eq_of_getLsbD_eq
  intro i hi
  rcases hcases with rfl | rfl | rfl | rfl <;>
    simp [BitVec.getLsbD_or, BitVec.getLsbD_shiftLeft] <;> grind

/-- The byte at address `a` of the address space of `e`, if a page is mapped there. -/
def Kernel.userByte (k : Kernel) (e : EnvPtr) (a : Nat) : Option (BitVec 8) :=
  (k.vm.leaf e (a / 4096)).map fun w => byteOf (k.mem (ppn w) (a % 4096 / 4)) (a % 4)

/-- The bytes of a page that `load_icode_mapper` has filled. -/
def pageBytes (offset len : Nat) : Option (Nat → BitVec 8) → Nat → BitVec 8
  | none, _ => 0
  | some src, j => if offset ≤ j ∧ j < offset + len then src (j - offset) else 0

theorem pageBytes_zero (len : Nat) (src : Nat → BitVec 8) (j : Nat) :
    pageBytes (0 : Word).toNat len (some src) j = if j < len then src j else 0 := by
  simp [pageBytes]

theorem byteOf_newPage (offset len : Nat) (src : Option (Nat → BitVec 8)) (j : Nat) :
    byteOf (newPage offset len src (j / 4)) (j % 4) = pageBytes offset len src j := by
  cases src with
  | none => simp [newPage, pageBytes, byteOf]
  | some b =>
    have hj : 4 * (j / 4) + j % 4 = j := by omega
    rw [newPage, copyBytes, byteOf_wordOf _ (Nat.mod_lt _ (by decide)), hj]
    simp [pageBytes, byteOf]

/-! ## The callback -/

/-- The env is live, in a state that is in order. -/
structure Kernel.Hosts (M : List Nat) (e : EnvPtr) (k : Kernel) : Prop where
  inv : k.Inv M
  live : k.Live e

/-- A call replaces the bytes of one page. -/
theorem loadIcodeMapper_bytes (h : k.Hosts M e) (hva : va < utop) (hperm : perm < 4096)
    (offset : Word) (src : Option (Nat → BitVec 8)) (len : Word) :
    (loadIcodeMapper e va offset perm src len k).Sat
      (fun _ k' => k'.Hosts M e ∧ ∀ a, k'.userByte e a =
        if a / 4096 = va.toNat / 4096 then
          some (pageBytes offset.toNat len.toNat src (a % 4096))
        else k.userByte e a)
      (fun _ _ => True) (fun _ => True) := by
  refine (loadIcodeMapper_maps h.inv h.live hva hperm offset src len).mono ?_ (fun _ _ _ => trivial)
    (fun _ _ => trivial)
  rintro _ k' ⟨hinv, hlive, p, hp, hmap, hmem⟩
  refine ⟨⟨hinv, hlive⟩, fun a => ?_⟩
  unfold Kernel.userByte
  rw [hmap.leaf, ← ppn_eq]
  by_cases ha : a / 4096 = ppn va
  · have hppn : ppn (pageEntry p perm) = p := ppn_entry hp hperm
    have hmod : a % 4 = a % 4096 % 4 := by omega
    rw [if_pos ⟨rfl, ha⟩, if_pos ha, Option.map_some, hppn, hmem, hmod, byteOf_newPage]
  · rw [if_neg fun hc => ha hc.2, if_neg ha]
    cases hw : k.vm.leaf e (a / 4096) with
    | none => rfl
    | some w =>
      have hdata : k'.mem (ppn w) = k.mem (ppn w) := hmap.data _ (h.inv.vm.usable_of_leaf hw)
      rw [Option.map_some, Option.map_some, hdata]

/-! ## The loops -/

theorem toNat_add_of_lt {a b : Word} (h : a.toNat + b.toNat < 2 ^ 32) :
    (a + b).toNat = a.toNat + b.toNat := by
  rw [BitVec.toNat_add, Nat.mod_eq_of_lt h]

theorem toNat_minWord (a b : Word) : (minWord a b).toNat = min a.toNat b.toNat := by
  unfold minWord
  split
  next h => exact (Nat.min_eq_left h).symm
  next h => exact (Nat.min_eq_right (Nat.le_of_lt (Nat.lt_of_not_le h))).symm

/-- The address of a byte of a segment, and the index of the next page. -/
theorem seg_index {size i : Word} (h : ph.pVaddr.toNat + size.toNat ≤ utop.toNat) (hi : i < size) :
    (ph.pVaddr + i).toNat = ph.pVaddr.toNat + i.toNat ∧ (i + by2pg).toNat = i.toNat + 4096 := by
  have hi' : i.toNat < size.toNat := hi
  rw [toNat_utop] at h
  have hpg := toNat_by2pg
  exact ⟨toNat_add_of_lt (by omega), toNat_add_of_lt (by omega)⟩

/-- **Step 1** fills the pages from an index on a page boundary up to the end of the file
contents. -/
theorem elfLoadFile_bytes (hph : ph.BelowUtop) (hperm : perm < 4096) (bin : Nat → BitVec 8) :
    ∀ (fuel : Nat) (i : Word) (k : Kernel), k.Hosts M e → ph.pFilesz.toNat ≤ fuel + i.toNat →
      (ph.pVaddr.toNat + i.toNat) % 4096 = 0 →
      (elfLoadFile ph bin (loadIcodeMapper e) perm fuel i k).Sat
        (fun i' k' => k'.Hosts M e ∧ i.toNat ≤ i'.toNat ∧ ph.pFilesz.toNat ≤ i'.toNat ∧
          (ph.pVaddr.toNat + i'.toNat) % 4096 = 0 ∧
          ∀ a, k'.userByte e a =
            if ph.pVaddr.toNat + i.toNat ≤ a ∧ a < ph.pVaddr.toNat + i'.toNat then
              some (if a - ph.pVaddr.toNat < ph.pFilesz.toNat then bin (a - ph.pVaddr.toNat) else 0)
            else k.userByte e a)
        (fun _ _ => True) (fun _ => True) := by
  intro fuel
  induction fuel with
  | zero =>
    intro i k hk hfuel halign
    refine ⟨hk, le_refl _, by omega, halign, fun a => ?_⟩
    rw [if_neg (by omega)]
  | succ fuel ih =>
    intro i k hk hfuel halign
    unfold elfLoadFile
    split
    next hi =>
      obtain ⟨haddr, hnext⟩ := seg_index hph.filesz hi
      have hi' : i.toNat < ph.pFilesz.toNat := hi
      refine sat_call (loadIcodeMapper_bytes hk (covers_add hph.filesz hi).2 hperm _ _ _) ?_
        (fun _ _ h => h) (fun _ h => h)
      rintro _ k₁ ⟨hk₁, hbytes₁⟩
      refine (ih _ k₁ hk₁ (by omega) (by omega)).mono ?_ (fun _ _ h => h) (fun _ h => h)
      rintro i' k' ⟨hk', hle, hend, halign', hbytes⟩
      refine ⟨hk', by omega, hend, halign', fun a => ?_⟩
      have hlen : (minWord (ph.pFilesz - i) by2pg).toNat
          = min (ph.pFilesz.toNat - i.toNat) 4096 := by
        rw [toNat_minWord, BitVec.toNat_sub_of_le (Nat.le_of_lt hi'), toNat_by2pg]
      rw [hbytes, hbytes₁, hnext, haddr, hlen]
      by_cases hpage : a / 4096 = (ph.pVaddr.toNat + i.toNat) / 4096
      · have hj : i.toNat + a % 4096 = a - ph.pVaddr.toNat := by omega
        rw [if_neg (by omega), if_pos hpage, if_pos (by omega)]
        rw [pageBytes_zero, hj]
        exact congrArg some (if_congr (by omega) rfl rfl)
      · rw [if_neg hpage]
        exact if_congr (by omega) rfl rfl
    next hi =>
      have hi' : ph.pFilesz.toNat ≤ i.toNat := Nat.le_of_not_lt hi
      refine ⟨hk, le_refl _, hi', halign, fun a => ?_⟩
      rw [if_neg (by omega)]

/-- **Step 2** clears a page for every index below the size of the segment. -/
theorem elfLoadZero_bytes (hph : ph.BelowUtop) (hperm : perm < 4096) :
    ∀ (fuel : Nat) (i : Word) (k : Kernel), k.Hosts M e → ph.pMemsz.toNat ≤ fuel + i.toNat →
      (elfLoadZero ph (loadIcodeMapper e) perm fuel i k).Sat
        (fun _ k' => k'.Hosts M e ∧ ∀ a, k'.userByte e a =
          if (ph.pVaddr.toNat + i.toNat) / 4096 ≤ a / 4096 ∧
            i.toNat + 4096 * (a / 4096 - (ph.pVaddr.toNat + i.toNat) / 4096) < ph.pMemsz.toNat
          then some 0 else k.userByte e a)
        (fun _ _ => True) (fun _ => True) := by
  intro fuel
  induction fuel with
  | zero =>
    intro i k hk hfuel
    refine ⟨hk, fun a => ?_⟩
    rw [if_neg (by omega)]
  | succ fuel ih =>
    intro i k hk hfuel
    unfold elfLoadZero
    split
    next hi =>
      obtain ⟨haddr, hnext⟩ := seg_index hph.memsz hi
      have hi' : i.toNat < ph.pMemsz.toNat := hi
      refine sat_call (loadIcodeMapper_bytes hk (covers_add hph.memsz hi).2 hperm _ _ _) ?_
        (fun _ _ h => h) (fun _ h => h)
      rintro _ k₁ ⟨hk₁, hbytes₁⟩
      refine (ih _ k₁ hk₁ (by omega)).mono ?_ (fun _ _ h => h) (fun _ h => h)
      rintro _ k' ⟨hk', hbytes⟩
      refine ⟨hk', fun a => ?_⟩
      have hpage : (ph.pVaddr.toNat + (i.toNat + 4096)) / 4096
          = (ph.pVaddr.toNat + i.toNat) / 4096 + 1 := by omega
      rw [hbytes, hbytes₁, hnext, haddr, hpage]
      rcases Nat.lt_trichotomy (a / 4096) ((ph.pVaddr.toNat + i.toNat) / 4096) with hlt | heq | hgt
      · rw [if_neg (by omega), if_neg (by omega), if_neg (by omega)]
      · rw [if_neg (by omega), if_pos heq, if_pos (by omega)]
        rfl
      · rw [if_neg (c := a / 4096 = _) (by omega)]
        exact if_congr (by omega) rfl rfl
    next hi =>
      have hi' : ph.pMemsz.toNat ≤ i.toNat := Nat.le_of_not_lt hi
      refine ⟨hk, fun a => ?_⟩
      rw [if_neg (by omega)]

/-! ## The segment -/

/-- The segment has been loaded: every page that it touches is mapped, the file contents are there
and zeros after them. -/
structure Kernel.Loaded (k : Kernel) (e : EnvPtr) (ph : ElfPhdr) (bin : Nat → BitVec 8) : Prop where
  mapped : ∀ a, ph.pVaddr.toNat ≤ a → a < ph.pVaddr.toNat + ph.pMemsz.toNat →
    k.vm.leaf e (a / 4096) ≠ none
  file : ∀ j < ph.pFilesz.toNat, k.userByte e (ph.pVaddr.toNat + j) = some (bin j)
  zero : ∀ j, ph.pFilesz.toNat ≤ j → j < ph.pMemsz.toNat →
    k.userByte e (ph.pVaddr.toNat + j) = some 0

/-- The byte at `a` of a segment that has been loaded. -/
def ElfPhdr.byte (ph : ElfPhdr) (bin : Nat → BitVec 8) (a : Nat) : BitVec 8 :=
  if a - ph.pVaddr.toNat < ph.pFilesz.toNat then bin (a - ph.pVaddr.toNat) else 0

theorem loaded_iff (hsize : ph.pFilesz ≤ ph.pMemsz) : k.Loaded e ph bin ↔
    ∀ a, ph.pVaddr.toNat ≤ a → a < ph.pVaddr.toNat + ph.pMemsz.toNat →
      k.userByte e a = some (ph.byte bin a) := by
  have hsize' : ph.pFilesz.toNat ≤ ph.pMemsz.toNat := hsize
  constructor
  · intro h a hlo hhi
    obtain ⟨j, rfl⟩ := Nat.exists_eq_add_of_le hlo
    unfold ElfPhdr.byte
    rw [Nat.add_sub_cancel_left]
    split
    next hj => exact h.file j hj
    next hj => exact h.zero j (Nat.le_of_not_lt hj) (by omega)
  · intro h
    refine ⟨fun a hlo hhi hc => ?_, fun j hj => ?_, fun j hlo hhi => ?_⟩
    · have hbyte := h a hlo hhi
      rw [Kernel.userByte, hc] at hbyte
      cases hbyte
    · rw [h _ (by omega) (by omega), ElfPhdr.byte, Nat.add_sub_cancel_left, if_pos hj]
    · rw [h _ (by omega) (by omega), ElfPhdr.byte, Nat.add_sub_cancel_left, if_neg (by omega)]

theorem toNat_offset (va : Word) : (va - (va &&& ~~~(by2pg - 1))).toNat = va.toNat % 4096 := by
  have hround : va &&& ~~~(by2pg - 1) = pteAddr va := rfl
  have hnat := pteAddr_toNat va
  rw [hround, BitVec.toNat_sub_of_le, hnat]
  · omega
  · show (pteAddr va).toNat ≤ va.toNat
    omega

/-- The two loops together, from an index on a page boundary. -/
theorem elfLoadRest_bytes (hph : ph.BelowUtop) (hperm : perm < 4096) (bin : Nat → BitVec 8)
    {i : Word} (hk : k.Hosts M e) (halign : (ph.pVaddr.toNat + i.toNat) % 4096 = 0) :
    ((elfLoadFile ph bin (loadIcodeMapper e) perm ph.pFilesz.toNat i >>= fun j =>
      elfLoadZero ph (loadIcodeMapper e) perm ph.pMemsz.toNat j) k).Sat
      (fun _ k' => ∀ a < ph.pVaddr.toNat + ph.pMemsz.toNat, k'.userByte e a =
        if ph.pVaddr.toNat + i.toNat ≤ a then some (ph.byte bin a) else k.userByte e a)
      (fun _ _ => True) (fun _ => True) := by
  refine sat_call (elfLoadFile_bytes hph hperm bin _ i k hk (by omega) halign) ?_ (fun _ _ h => h)
    (fun _ h => h)
  rintro i' k₁ ⟨hk₁, hle, hend, halign', hbytes₁⟩
  refine (elfLoadZero_bytes hph hperm _ i' k₁ hk₁ (by omega)).mono ?_ (fun _ _ h => h)
    (fun _ h => h)
  rintro _ k' ⟨-, hbytes⟩ a ha
  rw [hbytes, hbytes₁]
  by_cases htail : ph.pVaddr.toNat + i'.toNat ≤ a
  · rw [if_pos (by omega), if_pos (by omega), ElfPhdr.byte, if_neg (by omega)]
  · rw [if_neg (by omega)]
    exact if_congr (by omega) rfl rfl

theorem elfLoadFile_done {mapPage : ElfMapper} {i : Word} (h : ph.pFilesz ≤ i) :
    ∀ fuel, elfLoadFile ph bin mapPage perm fuel i k = .ret i k
  | 0 => rfl
  | fuel + 1 => by
    have hi : ¬i < ph.pFilesz := Nat.not_lt.mpr h
    rw [elfLoadFile, if_neg hi]
    rfl

/-- The permissions of the pages of the segment. -/
theorem segPerm_lt (ph : ElfPhdr) :
    (if has ph.pFlags pfW then pteV ||| pteD else pteV) < 4096 := by
  split <;> decide

/-- The steps follow each other if the segment starts on a page boundary or fills its first page. -/
theorem elfLoadSeg_long (hk : k.Hosts M e) (hph : ph.BelowUtop) (hsize : ph.pFilesz ≤ ph.pMemsz)
    (bin : Nat → BitVec 8)
    (hlong : ph.pVaddr.toNat % 4096 = 0 ∨ 4096 - ph.pVaddr.toNat % 4096 ≤ ph.pFilesz.toNat) :
    (elfLoadSeg ph bin (loadIcodeMapper e) k).Sat (fun _ k' => k'.Loaded e ph bin)
      (fun _ _ => True) (fun _ => True) := by
  have hperm := segPerm_lt ph
  have hoff := toNat_offset ph.pVaddr
  simp only [elfLoadSeg]
  generalize (if has ph.pFlags pfW then pteV ||| pteD else pteV) = perm at hperm ⊢
  generalize ph.pVaddr - (ph.pVaddr &&& ~~~(by2pg - 1)) = offset at hoff ⊢
  split
  next hne =>
    have hne' : offset.toNat ≠ 0 := fun hc => hne (BitVec.eq_of_toNat_eq hc)
    have hrest : (by2pg - offset).toNat = 4096 - offset.toNat := by
      rw [BitVec.toNat_sub_of_le, toNat_by2pg]
      show offset.toNat ≤ 4096
      omega
    have hstart : (minWord ph.pFilesz (by2pg - offset)).toNat = 4096 - ph.pVaddr.toNat % 4096 := by
      rw [toNat_minWord]
      omega
    refine sat_call (loadIcodeMapper_bytes hk hph.vaddr hperm _ _ _) ?_ (fun _ _ h => h)
      (fun _ h => h)
    rintro _ k₁ ⟨hk₁, hbytes₁⟩
    refine (elfLoadRest_bytes hph hperm bin hk₁ (by omega)).mono ?_ (fun _ _ h => h) (fun _ h => h)
    intro _ k' hbytes
    refine (loaded_iff hsize).mpr fun a hlo hhi => ?_
    rw [hbytes a hhi]
    split
    next => rfl
    next hin =>
      have hj : a % 4096 - ph.pVaddr.toNat % 4096 = a - ph.pVaddr.toNat := by omega
      rw [hbytes₁, if_pos (by omega), hstart, hoff, pageBytes, if_pos (by omega), ElfPhdr.byte,
        if_pos (by omega), hj]
  next hz =>
    have hz' : offset.toNat = 0 := congrArg BitVec.toNat (not_not.mp hz)
    refine (elfLoadRest_bytes hph hperm bin hk (by simp; omega)).mono ?_ (fun _ _ h => h)
      (fun _ h => h)
    intro _ k' hbytes
    refine (loaded_iff hsize).mpr fun a hlo hhi => ?_
    rw [hbytes a hhi, if_pos (by simpa using hlo)]

/-- File contents that end inside an unaligned first page: the last step starts where they end. -/
theorem elfLoadSeg_short (hk : k.Hosts M e) (hph : ph.BelowUtop) (bin : Nat → BitVec 8)
    (hne : ph.pVaddr.toNat % 4096 ≠ 0)
    (hshort : ph.pFilesz.toNat < 4096 - ph.pVaddr.toNat % 4096) :
    (elfLoadSeg ph bin (loadIcodeMapper e) k).Sat
      (fun _ k' => ∀ a, k'.userByte e a =
        if ph.pVaddr.toNat / 4096 ≤ a / 4096 ∧
          ph.pFilesz.toNat + 4096 * (a / 4096 - ph.pVaddr.toNat / 4096) < ph.pMemsz.toNat
        then some 0
        else if a / 4096 = ph.pVaddr.toNat / 4096 then
          some (pageBytes (ph.pVaddr.toNat % 4096) ph.pFilesz.toNat (some bin) (a % 4096))
        else k.userByte e a)
      (fun _ _ => True) (fun _ => True) := by
  have hperm := segPerm_lt ph
  have hoff := toNat_offset ph.pVaddr
  simp only [elfLoadSeg]
  generalize (if has ph.pFlags pfW then pteV ||| pteD else pteV) = perm at hperm ⊢
  generalize ph.pVaddr - (ph.pVaddr &&& ~~~(by2pg - 1)) = offset at hoff ⊢
  have hne' : offset ≠ 0 := by
    rintro rfl
    exact hne hoff.symm
  have hrest : (by2pg - offset).toNat = 4096 - offset.toNat := by
    rw [BitVec.toNat_sub_of_le, toNat_by2pg]
    show offset.toNat ≤ 4096
    omega
  have hstart : minWord ph.pFilesz (by2pg - offset) = ph.pFilesz := by
    refine if_pos ?_
    show ph.pFilesz.toNat ≤ (by2pg - offset).toNat
    omega
  rw [if_pos hne', hstart]
  refine sat_call (loadIcodeMapper_bytes hk hph.vaddr hperm _ _ _) ?_ (fun _ _ h => h)
    (fun _ h => h)
  rintro _ k₁ ⟨hk₁, hbytes₁⟩
  rw [bind_ret (elfLoadFile_done (Nat.le_refl _) _)]
  refine (elfLoadZero_bytes hph hperm _ _ k₁ hk₁ (by omega)).mono ?_ (fun _ _ h => h)
    (fun _ h => h)
  rintro _ k' ⟨-, hbytes⟩ a
  have hpage : (ph.pVaddr.toNat + ph.pFilesz.toNat) / 4096 = ph.pVaddr.toNat / 4096 := by omega
  rw [hbytes, hbytes₁, hpage, hoff]

/-! ## When a segment is loaded faithfully -/

/-- The file contents end before the first page does, the segment does not start with that page, and
there is more to come: the last step then begins inside the first page. -/
def ElfPhdr.Overlaps (ph : ElfPhdr) : Prop :=
  ph.pVaddr.toNat % 4096 ≠ 0 ∧ ph.pFilesz.toNat < 4096 - ph.pVaddr.toNat % 4096 ∧
    ph.pFilesz.toNat < ph.pMemsz.toNat

/-- An address of the segment that the last step does not come to in its strides of a page from the
end of the file contents. -/
def ElfPhdr.Missed (ph : ElfPhdr) (a : Nat) : Prop :=
  a < ph.pVaddr.toNat + ph.pMemsz.toNat ∧ ph.pVaddr.toNat / 4096 ≤ a / 4096 ∧
    ph.pMemsz.toNat ≤ ph.pFilesz.toNat + 4096 * (a / 4096 - ph.pVaddr.toNat / 4096)

/-- **A segment is loaded faithfully** unless its last step begins inside the first page. Then the
first page is cleared, which does no harm only if the file contents are zeros, and the end of the
last page can be left as it was before. -/
theorem elf_load_seg_faithful_iff (h : k.Inv M) (hl : k.Live e) (hph : ph.BelowUtop)
    (hsize : ph.pFilesz ≤ ph.pMemsz) (hret : elfLoadSeg ph bin (loadIcodeMapper e) k = .ret () k') :
    k'.Loaded e ph bin ↔ (ph.Overlaps →
      (∀ j < ph.pFilesz.toNat, bin j = 0) ∧ ∀ a, ph.Missed a → k.userByte e a = some 0) := by
  have hsize' : ph.pFilesz.toNat ≤ ph.pMemsz.toNat := hsize
  by_cases hlong : ph.pVaddr.toNat % 4096 = 0 ∨ 4096 - ph.pVaddr.toNat % 4096 ≤ ph.pFilesz.toNat
  · have hload := elfLoadSeg_long ⟨h, hl⟩ hph hsize bin hlong
    rw [hret] at hload
    refine ⟨fun _ hov => ?_, fun _ => hload⟩
    unfold ElfPhdr.Overlaps at hov
    omega
  have hview := elfLoadSeg_short ⟨h, hl⟩ hph bin (by omega) (by omega)
  rw [hret] at hview
  rw [loaded_iff hsize]
  by_cases hmore : ph.pFilesz.toNat < ph.pMemsz.toNat
  · have hov : ph.Overlaps := ⟨by omega, by omega, hmore⟩
    constructor
    · intro hload _
      refine ⟨fun j hj => ?_, fun a ⟨hhi, hpage, hmiss⟩ => ?_⟩
      · have hbyte := hload (ph.pVaddr.toNat + j) (by omega) (by omega)
        rw [hview, if_pos (by omega), ElfPhdr.byte, Nat.add_sub_cancel_left, if_pos hj] at hbyte
        exact (Option.some.inj hbyte).symm
      · have hbyte := hload a (by omega) hhi
        rw [hview, if_neg (by omega), if_neg (by omega), ElfPhdr.byte, if_neg (by omega)] at hbyte
        exact hbyte
    · intro hcond a hlo hhi
      obtain ⟨hbin, hmissed⟩ := hcond hov
      rw [hview]
      split
      next hin =>
        unfold ElfPhdr.byte
        split
        next hj => rw [hbin _ hj]
        next => rfl
      next hout =>
        rw [if_neg (by omega), hmissed a ⟨hhi, by omega, by omega⟩, ElfPhdr.byte, if_neg (by omega)]
  · refine ⟨fun _ hov => absurd hov.2.2 hmore, fun _ a hlo hhi => ?_⟩
    have hj : a % 4096 - ph.pVaddr.toNat % 4096 = a - ph.pVaddr.toNat := by omega
    rw [hview, if_neg (by omega), if_pos (by omega), pageBytes, if_pos (by omega), ElfPhdr.byte,
      if_pos (by omega), hj]

/-! ## Segments that end early -/

/-- A segment of `filesz` bytes from the file and `memsz` in memory, in the middle of a page. -/
def unalignedPhdr (filesz memsz : Word) : ElfPhdr :=
  { pType := ptLoad, pOffset := 0, pVaddr := 0x400800, pFilesz := filesz, pMemsz := memsz,
    pFlags := pfW }

/-- A state with an env that the segment can be loaded into. -/
theorem exists_load (ph : ElfPhdr) (bin : Nat → BitVec 8) (test : Kernel → Kernel → Bool)
    (h : ((boot smallBoot).state?.bind (plainOps [.envCreate (some emptyImage) 1])).any
      (fun k => match elfLoadSeg ph bin (loadIcodeMapper 0) k with
        | .ret _ k' => decide ((k.envs 0).envStatus ≠ .free) && test k k'
        | _ => false) = true) :
    ∃ k k' M, k.Inv M ∧ k.Live 0 ∧ elfLoadSeg ph bin (loadIcodeMapper 0) k = .ret () k' ∧
      test k k' = true := by
  obtain ⟨k, hk, htest⟩ := exists_fitting smallBoot _ _ h
  obtain ⟨M, hgood⟩ := hk.reach.good
  split at htest
  next k' hret =>
    rw [Bool.and_eq_true, decide_eq_true_eq] at htest
    exact ⟨k, k', M, hgood.inv, htest.1, hret, htest.2⟩
  next => cases htest

/-- All of the segment comes from the file. -/
theorem elf_load_seg_faithful_full : ∃ k k' M, k.Inv M ∧ k.Live 0 ∧
    elfLoadSeg (unalignedPhdr 4 4) (fun _ => 1) (loadIcodeMapper 0) k = .ret () k' ∧
    k'.Loaded 0 (unalignedPhdr 4 4) fun _ => 1 := by
  obtain ⟨k, k', M, hinv, hlive, hret, -⟩ :=
    exists_load (unalignedPhdr 4 4) (fun _ => 1) (fun _ _ => true) (by decide +kernel)
  have hph : (unalignedPhdr 4 4).BelowUtop := ⟨by decide, by decide, by decide⟩
  refine ⟨k, k', M, hinv, hlive, hret, ?_⟩
  exact (elf_load_seg_faithful_iff hinv hlive hph (by decide) hret).mpr fun hov =>
    absurd hov.2.2 (by decide)

/-- **Four bytes from the file, with four more to clear after them**: the last step clears the page
that the first one has filled. -/
theorem elf_load_seg_loses_bytes : ¬∀ (M : List Nat) (k k' : Kernel) (e : EnvPtr) (ph : ElfPhdr)
    (bin : Nat → BitVec 8), k.Inv M → k.Live e → ph.BelowUtop → ph.pFilesz ≤ ph.pMemsz →
      elfLoadSeg ph bin (loadIcodeMapper e) k = .ret () k' → k'.Loaded e ph bin := by
  intro hall
  obtain ⟨k, k', M, hinv, hlive, hret, htest⟩ :=
    exists_load (unalignedPhdr 4 8) (fun _ => 1) (fun _ k' => k'.userByte 0 0x400800 == some 0)
      (by decide +kernel)
  have hph : (unalignedPhdr 4 8).BelowUtop := ⟨by decide, by decide, by decide⟩
  have hload := hall M k k' 0 (unalignedPhdr 4 8) (fun _ => 1) hinv hlive hph (by decide) hret
  have hbyte : k'.userByte 0 0x400800 = some 1 := hload.file 0 (by decide)
  rw [hbyte] at htest
  exact absurd htest (by decide)

end Mos
