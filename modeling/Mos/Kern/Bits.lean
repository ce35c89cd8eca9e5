import Mathlib.Tactic.NormNum
import Mos.Kern.State

/-!
# Page numbers, table indices and entries

The address arithmetic of `include/mmu.h` on natural numbers, and what the fields of a page table
entry are after `page2pa(pp) | perm | PTE_V` has put it together. An entry names the frame it was
built from only if the permission stays below `2^12` (`ppn_entry`).
-/

namespace Mos

/-! ## Addresses -/

theorem ppn_eq (va : Word) : ppn va = va.toNat / 4096 := by
  simp [ppn, BitVec.toNat_ushiftRight, Nat.shiftRight_eq_div_pow]

theorem pdx_eq (va : Word) : pdx va = va.toNat / 4194304 := by
  have h := va.isLt
  simp only [pdx, BitVec.toNat_and, BitVec.toNat_ushiftRight, Nat.shiftRight_eq_div_pow]
  rw [show (0x3ff : Word).toNat = 2 ^ 10 - 1 from rfl, Nat.and_two_pow_sub_one_eq_mod]
  omega

theorem ptx_eq (va : Word) : ptx va = va.toNat / 4096 % 1024 := by
  simp only [ptx, BitVec.toNat_and, BitVec.toNat_ushiftRight, Nat.shiftRight_eq_div_pow]
  rw [show (0x3ff : Word).toNat = 2 ^ 10 - 1 from rfl, Nat.and_two_pow_sub_one_eq_mod]

theorem ptx_lt (va : Word) : ptx va < 1024 := by
  rw [ptx_eq]
  exact Nat.mod_lt _ (by decide)

theorem ppn_lt (va : Word) : ppn va < 2 ^ 20 := by
  have h := va.isLt
  rw [ppn_eq]
  omega

/-- `VPN(va)` is `PDX(va)` and `PTX(va)` side by side. -/
theorem ppn_split (va : Word) : ppn va = pdx va * 1024 + ptx va := by
  rw [ppn_eq, pdx_eq, ptx_eq]
  omega

theorem ppn_div (va : Word) : ppn va / 1024 = pdx va := by
  rw [ppn_eq, pdx_eq]
  omega

theorem ppn_mod (va : Word) : ppn va % 1024 = ptx va := by rw [ppn_eq, ptx_eq]

theorem pdx_lt_of_lt_utop {va : Word} (h : va < utop) : pdx va < 509 := by
  have h' : va.toNat < 0x7f400000 := h
  rw [pdx_eq]
  omega

theorem pdx_utop : pdx utop = 509 := by decide

theorem pdx_uvpt : pdx uvpt = 511 := by decide

/-- Legal user addresses lie in `[UTEMP, UTOP)`. -/
theorem toNat_utemp : utemp.toNat = 0x3fe000 := by decide

theorem toNat_utop : utop.toNat = 0x7f400000 := by decide

theorem toNat_by2pg : by2pg.toNat = 4096 := by decide

/-! ## Fields of words -/

theorem pteAddr_toNat (w : Word) : (pteAddr w).toNat = w.toNat / 4096 * 4096 := by
  have h : pteAddr w = w >>> 12 <<< 12 := by
    apply BitVec.eq_of_getLsbD_eq
    intro i hi
    have hm : (0xfff : Word).getLsbD i = decide (i < 12) := by
      rw [show (0xfff : Word) = BitVec.ofNat 32 (2 ^ 12 - 1) from rfl, BitVec.getLsbD_ofNat,
        Nat.testBit_two_pow_sub_one]
      simp [hi]
    simp only [pteAddr, BitVec.getLsbD_and, BitVec.getLsbD_not, BitVec.getLsbD_shiftLeft,
      BitVec.getLsbD_ushiftRight, hm]
    by_cases hlt : i < 12
    · simp [hlt]
    · simp [hlt, hi, show 12 + (i - 12) = i by omega]
  have hw := w.isLt
  rw [h, BitVec.toNat_shiftLeft, BitVec.toNat_ushiftRight, Nat.shiftRight_eq_div_pow,
    Nat.shiftLeft_eq]
  omega

@[simp] theorem ppn_pteAddr (w : Word) : ppn (pteAddr w) = ppn w := by
  rw [ppn_eq, ppn_eq, pteAddr_toNat]
  omega

@[simp] theorem pdx_pteAddr (w : Word) : pdx (pteAddr w) = pdx w := by
  rw [pdx_eq, pdx_eq, pteAddr_toNat]
  omega

@[simp] theorem ptx_pteAddr (w : Word) : ptx (pteAddr w) = ptx w := by
  rw [ptx_eq, ptx_eq, pteAddr_toNat]
  omega

theorem has_or (a b flag : Word) : has (a ||| b) flag = (has a flag || has b flag) := by
  simp only [has, BitVec.and_or_distrib_right]
  cases ha : (a &&& flag != 0) with
  | true =>
    have hne : a &&& flag ≠ 0 := by simpa using ha
    have hor : (a &&& flag) ||| (b &&& flag) ≠ 0 := fun h => hne (BitVec.or_eq_zero_iff.mp h).1
    simpa using hor
  | false =>
    have he : a &&& flag = 0 := by simpa using ha
    simp [he]

theorem has_and_not (a b : Word) (flag : Word) (h : b &&& flag = 0) :
    has (a &&& ~~~b) flag = has a flag := by
  have heq : a &&& ~~~b &&& flag = a &&& flag := by
    apply BitVec.eq_of_getLsbD_eq
    intro i hi
    have hbit : (b &&& flag).getLsbD i = false := by rw [h]; simp
    rw [BitVec.getLsbD_and] at hbit
    simp only [BitVec.getLsbD_and, BitVec.getLsbD_not, hi, decide_true, Bool.true_and]
    cases ha : a.getLsbD i <;> cases hb : b.getLsbD i <;> cases hf : flag.getLsbD i <;>
      simp_all
  unfold has
  rw [heq]

theorem has_and_not_self (a : Word) (flag : Word) : has (a &&& ~~~flag) flag = false := by
  have heq : a &&& ~~~flag &&& flag = 0 := by
    apply BitVec.eq_of_getLsbD_eq
    intro i hi
    simp only [BitVec.getLsbD_and, BitVec.getLsbD_not]
    cases a.getLsbD i <;> cases flag.getLsbD i <;> simp
  simp [has, heq]

/-! ## Entries -/

theorem page2pa_toNat {f : Nat} (hf : f < 2 ^ 20) : (page2pa f).toNat = f * 4096 := by
  simp only [page2pa, BitVec.toNat_shiftLeft, BitVec.toNat_ofNat, Nat.shiftLeft_eq]
  omega

@[simp] theorem ppn_page2pa {f : Nat} (hf : f < 2 ^ 20) : ppn (page2pa f) = f := by
  rw [ppn_eq, page2pa_toNat hf]
  omega

theorem page2pa_or_toNat {f : Nat} {p : Word} (hf : f < 2 ^ 20) (hp : p < 4096) :
    (page2pa f ||| p).toNat = f * 4096 + p.toNat := by
  have hp' : p.toNat < 2 ^ 12 := hp
  rw [BitVec.toNat_or, page2pa_toNat hf, show f * 4096 = f <<< 12 by rw [Nat.shiftLeft_eq],
    Nat.shiftLeft_add_eq_or_of_lt hp']

theorem or_lt_4096 {p q : Word} (hp : p < 4096) (hq : q < 4096) : p ||| q < 4096 := by
  have hp' : p.toNat < 2 ^ 12 := hp
  have hq' : q.toNat < 2 ^ 12 := hq
  show (p ||| q).toNat < 2 ^ 12
  rw [BitVec.toNat_or]
  exact Nat.or_lt_two_pow hp' hq'

/-- **The frame of an entry is the one it was built from.** -/
theorem ppn_entry {f : Nat} {p : Word} (hf : f < 2 ^ 20) (hp : p < 4096) :
    ppn (page2pa f ||| p ||| pteV) = f := by
  rw [BitVec.or_assoc, ppn_eq, page2pa_or_toNat hf (or_lt_4096 hp (by decide))]
  have : (p ||| pteV).toNat < 4096 := or_lt_4096 hp (by decide)
  omega

/-- The permission bits of an entry are `perm | PTE_V`. -/
theorem perm_entry {f : Nat} {p : Word} (hf : f < 2 ^ 20) (hp : p < 4096) :
    (page2pa f ||| p ||| pteV) &&& 0xfff = p ||| pteV := by
  have hq : p ||| pteV < 4096 := or_lt_4096 hp (by decide)
  have hq' : (p ||| pteV).toNat < 4096 := hq
  apply BitVec.eq_of_toNat_eq
  rw [BitVec.or_assoc, BitVec.toNat_and, page2pa_or_toNat hf hq,
    show (0xfff : Word).toNat = 2 ^ 12 - 1 from rfl, Nat.and_two_pow_sub_one_eq_mod]
  omega

theorem has_entry_valid (f : Nat) (p : Word) : has (page2pa f ||| p ||| pteV) pteV = true := by
  rw [has_or]
  simp [show has pteV pteV = true by decide]

/-- A page directory entry as `pgdir_walk` writes it. -/
theorem ppn_tableEntry {f : Nat} (hf : f < 2 ^ 20) : ppn (page2pa f ||| pteV ||| pteD) = f := by
  rw [BitVec.or_assoc, BitVec.or_comm pteV pteD, ← BitVec.or_assoc]
  exact ppn_entry hf (by decide)

theorem has_tableEntry_valid (f : Nat) : has (page2pa f ||| pteV ||| pteD) pteV = true := by
  rw [has_or, has_or]
  simp [show has pteV pteV = true by decide]

theorem has_tableEntry_dirty (f : Nat) : has (page2pa f ||| pteV ||| pteD) pteD = true := by
  rw [has_or]
  simp [show has pteD pteD = true by decide]

@[simp] theorem has_zero (flag : Word) : has (0#32) flag = false := by simp [has]

theorem has_page2pa (f : Nat) {flag : Word} (hflag : flag < 4096) : has (page2pa f) flag = false := by
  have hfl : flag.toNat < 2 ^ 12 := hflag
  have h0 : page2pa f &&& flag = 0 := by
    apply BitVec.eq_of_getLsbD_eq
    intro i _
    rw [page2pa, BitVec.getLsbD_and, BitVec.getLsbD_shiftLeft]
    by_cases hi : i < 12
    · simp [hi]
    · have hbit : flag.getLsbD i = false := Nat.testBit_lt_two_pow (Nat.lt_of_lt_of_le hfl
        (Nat.pow_le_pow_right (by decide) (Nat.le_of_not_lt hi)))
      simp [hbit]
  simp [has, h0]

/-- The flags of an entry only depend on its low 12 bits. -/
theorem has_entry {f : Nat} {p flag : Word} (hflag : flag < 4096) :
    has (page2pa f ||| p ||| pteV) flag = (has p flag || has pteV flag) := by
  rw [has_or, has_or, has_page2pa f hflag, Bool.false_or]

/-! ## The address of a table position -/

/-- The address that `env_free` builds from a directory and a table index. -/
theorem index_toNat {i j : Nat} (hi : i < 1024) (hj : j < 1024) :
    (BitVec.ofNat 32 i <<< 22 ||| BitVec.ofNat 32 j <<< 12).toNat = i * 4194304 + j * 4096 := by
  have h1 : (BitVec.ofNat 32 i <<< 22).toNat = i <<< 22 := by
    simp only [BitVec.toNat_shiftLeft, BitVec.toNat_ofNat, Nat.shiftLeft_eq]
    omega
  have h2 : (BitVec.ofNat 32 j <<< 12).toNat = j * 4096 := by
    simp only [BitVec.toNat_shiftLeft, BitVec.toNat_ofNat, Nat.shiftLeft_eq]
    omega
  rw [BitVec.toNat_or, h1, h2, ← Nat.shiftLeft_add_eq_or_of_lt (by omega : j * 4096 < 2 ^ 22),
    Nat.shiftLeft_eq]

theorem pdx_index {i j : Nat} (hi : i < 1024) (hj : j < 1024) :
    pdx (BitVec.ofNat 32 i <<< 22 ||| BitVec.ofNat 32 j <<< 12) = i := by
  rw [pdx_eq, index_toNat hi hj]
  omega

theorem ptx_index {i j : Nat} (hi : i < 1024) (hj : j < 1024) :
    ptx (BitVec.ofNat 32 i <<< 22 ||| BitVec.ofNat 32 j <<< 12) = j := by
  rw [ptx_eq, index_toNat hi hj]
  omega

end Mos
