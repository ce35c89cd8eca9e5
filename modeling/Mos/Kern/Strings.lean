import Mos.Lib.While
import Mos.Kern.ElfLoad

/-!
# Copying by words

`memcpy` and `memset` of `lib/string.c` go by words where the addresses allow it. They compare addresses, and
addresses have 32 bits: at the end of the address space the comparisons go wrong.
-/

namespace Mos

open Lib Function

/-! ## `lib/string.c` -/

/-- The pointers of `memcpy`, and the memory. -/
structure Copy where
  dst : Word
  src : Word
  mem : Word → Byte

/-- The pointer of `memset`, and the memory. -/
structure Fill where
  dst : Word
  mem : Word → Byte

/-- A word of memory. -/
def getWord (mem : Word → Byte) (a : Word) : Word := wordOf fun j => mem (a + BitVec.ofNat 32 j)

/-- Memory after a word has been stored. -/
def putWord (mem : Word → Byte) (a w : Word) : Word → Byte :=
  update (update (update (update mem a (byteOf w 0)) (a + 1) (byteOf w 1)) (a + 2) (byteOf w 2)) (a + 3) (byteOf w 3)

/-- `*(char *)dst++ = *(char *)src++`. -/
def Copy.byte (c : Copy) : Copy := ⟨c.dst + 1, c.src + 1, update c.mem c.dst (c.mem c.src)⟩

/-- `*(uint32_t *)dst = *(uint32_t *)src; dst += 4; src += 4`. Words that are not aligned cannot be accessed. -/
def Copy.word (c : Copy) : Option Copy :=
  if c.dst &&& 3 = 0 ∧ c.src &&& 3 = 0 then some ⟨c.dst + 4, c.src + 4, putWord c.mem c.dst (getWord c.mem c.src)⟩
  else none

/-- `*(u_char *)dst++ = byte`. -/
def Fill.byte (b : Byte) (f : Fill) : Fill := ⟨f.dst + 1, update f.mem f.dst b⟩

/-- `*(uint32_t *)dst = word; dst += 4`. -/
def Fill.word (w : Word) (f : Fill) : Option Fill :=
  if f.dst &&& 3 = 0 then some ⟨f.dst + 4, putWord f.mem f.dst w⟩ else none

/-- `byte` of `memset`. -/
def fillByte (c : Word) : Byte := (c &&& 0xff).setWidth 8

/-- `word` of `memset`. -/
def fillWord (b : Byte) : Word :=
  b.setWidth 32 ||| b.setWidth 32 <<< 8 ||| b.setWidth 32 <<< 16 ||| b.setWidth 32 <<< 24

namespace CLib

/-- `memcpy(dst, src, n)`: the memory behind it, if it comes to an end. -/
def memcpy (fuel : Nat) (dst src n : Word) (mem : Word → Byte) : Option (Word → Byte) :=
  let max := dst + n
  if src &&& 3 ≠ dst &&& 3 then do
    let c ← whileLoop (fun c : Copy => c.dst < max) (fun c => some c.byte) fuel ⟨dst, src, mem⟩
    some c.mem
  else do
    let c ← whileLoop (fun c : Copy => c.dst &&& 3 ≠ 0 ∧ c.dst < max) (fun c => some c.byte) fuel ⟨dst, src, mem⟩
    let c ← whileLoop (fun c : Copy => c.dst + 4 ≤ max) Copy.word fuel c
    let c ← whileLoop (fun c : Copy => c.dst < max) (fun c => some c.byte) fuel c
    some c.mem

/-- `memset(dst, c, n)`: the memory behind it, if it comes to an end. -/
def memset (fuel : Nat) (dst c n : Word) (mem : Word → Byte) : Option (Word → Byte) :=
  let max := dst + n
  let byte := fillByte c
  let word := fillWord byte
  do
    let f ← whileLoop (fun f : Fill => f.dst &&& 3 ≠ 0 ∧ f.dst < max) (fun f => some (f.byte byte)) fuel ⟨dst, mem⟩
    let f ← whileLoop (fun f : Fill => f.dst + 4 ≤ max) (Fill.word word) fuel f
    let f ← whileLoop (fun f : Fill => f.dst < max) (fun f => some (f.byte byte)) fuel f
    some f.mem

end CLib

/-! ## The plain loops -/

/-- Copies `n` bytes one by one, upwards. -/
def copyBytewise (n : Nat) (c : Copy) : Copy := Copy.byte^[n] c

/-- Fills `n` bytes one by one. -/
def fillBytewise (b : Byte) (n : Nat) (f : Fill) : Fill := (Fill.byte b)^[n] f

/-! ## Three loops, by bytes, by words and by bytes -/

/-- The low two bits of an address. -/
theorem lowBits_iff {w : Word} : w &&& 3 = 0 ↔ w.toNat % 4 = 0 := by
  rw [← BitVec.toNat_inj, BitVec.toNat_and]
  show w.toNat &&& (2 ^ 2 - 1) = 0 ↔ _
  rw [Nat.and_two_pow_sub_one_eq_mod]

section Strides

variable {σ : Type} {dst : σ → Word} {byte : σ → σ} {word : σ → Option σ} {ok : σ → Prop} {max : Word}
  {s : σ} {n fuel : Nat}

/-- The three loops that `memcpy` and `memset` have in common. -/
def threeLoops (dst : σ → Word) (byte : σ → σ) (word : σ → Option σ) (max : Word) (fuel : Nat) (s : σ) : Option σ := do
  let s ← whileLoop (fun s => dst s &&& 3 ≠ 0 ∧ dst s < max) (fun s => some (byte s)) fuel s
  let s ← whileLoop (fun s => dst s + 4 ≤ max) word fuel s
  whileLoop (fun s => dst s < max) (fun s => some (byte s)) fuel s

/-- A step by a word is four steps by a byte, if the word is aligned. -/
structure Strides (dst : σ → Word) (byte : σ → σ) (word : σ → Option σ) (ok : σ → Prop) : Prop where
  dst_byte : ∀ s, dst (byte s) = dst s + 1
  ok_byte : ∀ s, ok s → ok (byte s)
  word_aligned : ∀ s, ok s → dst s &&& 3 = 0 → word s = some (byte^[4] s)
  word_unaligned : ∀ s, dst s &&& 3 ≠ 0 → word s = none

namespace Strides

theorem ok_iterate (h : Strides dst byte word ok) (hs : ok s) : ∀ j, ok (byte^[j] s) := by
  intro j
  induction j with
  | zero => exact hs
  | succ j ih =>
    rw [iterate_succ_apply']
    exact h.ok_byte _ ih

theorem dst_iterate (h : Strides dst byte word ok) (s : σ) : ∀ j, dst (byte^[j] s) = dst s + BitVec.ofNat 32 j := by
  intro j
  induction j with
  | zero => simp
  | succ j ih =>
    rw [iterate_succ_apply', h.dst_byte, ih, BitVec.add_assoc, BitVec.ofNat_add]
    rfl

theorem dst_toNat (h : Strides dst byte word ok) {j : Nat} (hj : (dst s).toNat + j < 2 ^ 32) :
    (dst (byte^[j] s)).toNat = (dst s).toNat + j := by
  rw [h.dst_iterate, BitVec.toNat_add, BitVec.toNat_ofNat]
  omega

/-- A loop by bytes up to `max`. -/
theorem byteLoop_eq (h : Strides dst byte word ok) (hn : (dst s).toNat + n < 2 ^ 32)
    (hmax : max.toNat = (dst s).toNat + n) (hfuel : n < fuel) :
    whileLoop (fun s => dst s < max) (fun s => some (byte s)) fuel s = some (byte^[n] s) := by
  refine whileLoop_eq (f := fun j => byte^[j] s) (fun j hj => ?_) (fun j _ => ?_) ?_ hfuel
  · show (dst (byte^[j] s)).toNat < max.toNat
    rw [h.dst_toNat (by omega)]
    omega
  · exact congrArg some (iterate_succ_apply' byte j s).symm
  · show ¬(dst (byte^[n] s)).toNat < max.toNat
    rw [h.dst_toNat hn]
    omega

/-- The first loop stops at an aligned address or at the end. -/
theorem headLoop_eq (h : Strides dst byte word ok) (hn : (dst s).toNat + n < 2 ^ 32)
    (hmax : max.toNat = (dst s).toNat + n) (hfuel : n < fuel) :
    ∃ m ≤ n, whileLoop (fun s => dst s &&& 3 ≠ 0 ∧ dst s < max) (fun s => some (byte s)) fuel s =
      some (byte^[m] s) ∧ (m = n ∨ ((dst s).toNat + m) % 4 = 0) := by
  obtain ⟨m, hm⟩ : ∃ m, m = min n ((4 - (dst s).toNat % 4) % 4) := ⟨_, rfl⟩
  refine ⟨m, by omega, ?_, by omega⟩
  refine whileLoop_eq (f := fun j => byte^[j] s) (fun j hj => ?_) (fun j _ => ?_) ?_ (by omega)
  · show _ ∧ (dst (byte^[j] s)).toNat < max.toNat
    rw [ne_eq, lowBits_iff, h.dst_toNat (by omega)]
    omega
  · exact congrArg some (iterate_succ_apply' byte j s).symm
  · rintro ⟨halign, hlt⟩
    replace hlt : (dst (byte^[m] s)).toNat < max.toNat := hlt
    rw [ne_eq, lowBits_iff] at halign
    rw [h.dst_toNat (by omega)] at hlt halign
    omega

/-- The loop by words. -/
theorem wordLoop_eq (h : Strides dst byte word ok) (hs : ok s) (hn : (dst s).toNat + n + 4 < 2 ^ 32)
    (hmax : max.toNat = (dst s).toNat + n) (halign : n = 0 ∨ (dst s).toNat % 4 = 0) (hfuel : n < fuel) :
    whileLoop (fun s => dst s + 4 ≤ max) word fuel s = some (byte^[4 * (n / 4)] s) := by
  have hfour : ∀ t : σ, (dst t).toNat + 4 < 2 ^ 32 → (dst t + 4).toNat = (dst t).toNat + 4 := by
    intro t ht
    rw [BitVec.toNat_add]
    show ((dst t).toNat + 4) % 2 ^ 32 = _
    omega
  refine whileLoop_eq (f := fun j => byte^[4 * j] s) (fun j hj => ?_) (fun j hj => ?_) ?_ (by omega)
  · show (dst (byte^[4 * j] s) + 4).toNat ≤ max.toNat
    rw [hfour _ (by rw [h.dst_toNat (by omega)]; omega), h.dst_toNat (by omega)]
    omega
  · have haligned : dst (byte^[4 * j] s) &&& 3 = 0 := by
      rw [lowBits_iff, h.dst_toNat (by omega)]
      omega
    rw [h.word_aligned _ (h.ok_iterate hs _) haligned, ← iterate_add_apply]
    congr 2
    omega
  · show ¬(dst (byte^[4 * (n / 4)] s) + 4).toNat ≤ max.toNat
    rw [hfour _ (by rw [h.dst_toNat (by omega)]; omega), h.dst_toNat (by omega)]
    omega

/-- Far from the end of the address space the three loops are one loop by bytes. -/
theorem threeLoops_eq (h : Strides dst byte word ok) (hs : ok s) (hn : (dst s).toNat + n + 4 < 2 ^ 32)
    (hmax : max.toNat = (dst s).toNat + n) (hfuel : n < fuel) :
    threeLoops dst byte word max fuel s = some (byte^[n] s) := by
  obtain ⟨m, hm, hhead, hcase⟩ := h.headLoop_eq (by omega) hmax hfuel
  have hm' := h.dst_toNat (s := s) (j := m) (by omega)
  have hwords := h.wordLoop_eq (h.ok_iterate hs m) (show _ + (n - m) + 4 < 2 ^ 32 by omega)
    (show max.toNat = _ by omega) (by omega) (show n - m < fuel by omega)
  rw [← iterate_add_apply] at hwords
  have hk : 4 * ((n - m) / 4) + m ≤ n := by omega
  generalize 4 * ((n - m) / 4) + m = k at hwords hk
  have hk' := h.dst_toNat (s := s) (j := k) (by omega)
  have htail := h.byteLoop_eq (show (dst (byte^[k] s)).toNat + (n - k) < 2 ^ 32 by omega)
    (show max.toNat = _ by omega) (show n - k < fuel by omega)
  rw [← iterate_add_apply, Nat.sub_add_cancel hk] at htail
  rw [threeLoops, hhead]
  show (whileLoop _ _ fuel (byte^[m] s)).bind _ = _
  rw [hwords]
  exact htail

/-- Close to the end of the address space the loop by words has no result. -/
theorem threeLoops_none (h : Strides dst byte word ok) (hs : ok s) (hmax : max.toNat = (dst s).toNat + n)
    (hend : 2 ^ 32 ≤ max.toNat + 4) (fuel : Nat) : threeLoops dst byte word max fuel s = none := by
  have hmaxlt := max.isLt
  rw [threeLoops]
  cases hhead : whileLoop (fun s => dst s &&& 3 ≠ 0 ∧ dst s < max) (fun s => some (byte s)) fuel s with
  | none => rfl
  | some t =>
    obtain ⟨⟨hok, hle⟩, hstop⟩ := whileLoop_some (I := fun s => ok s ∧ (dst s).toNat ≤ max.toNat) (fun s t hs hc ht => by
      obtain rfl := Option.some.inj ht
      have hlt : (dst s).toNat < max.toNat := hc.2
      have hnext := h.dst_toNat (s := s) (j := 1) (by omega)
      rw [iterate_one] at hnext
      exact ⟨h.ok_byte s hs.1, by omega⟩) fuel s t ⟨hs, by omega⟩ hhead
    have hstuck : whileLoop (fun s => dst s + 4 ≤ max) word fuel t = none := by
      refine whileLoop_none
        (I := fun s => (ok s ∧ dst s &&& 3 = 0) ∨ (dst s &&& 3 ≠ 0 ∧ (dst s).toNat = max.toNat)) ?_ ?_ fuel t ?_
      · intro s hs
        show (dst s + 4).toNat ≤ max.toNat
        rw [BitVec.toNat_add]
        show ((dst s).toNat + 4) % 2 ^ 32 ≤ max.toNat
        rcases hs with ⟨-, halign⟩ | ⟨-, heq⟩
        · rw [lowBits_iff] at halign
          omega
        · omega
      · intro s t hs ht
        rcases hs with ⟨hok, halign⟩ | ⟨halign, -⟩
        · rw [h.word_aligned s hok halign] at ht
          obtain rfl := Option.some.inj ht
          refine .inl ⟨h.ok_iterate hok 4, ?_⟩
          rw [lowBits_iff] at halign ⊢
          rw [h.dst_iterate, BitVec.toNat_add]
          show ((dst s).toNat + 4) % 2 ^ 32 % 4 = 0
          omega
        · rw [h.word_unaligned s halign] at ht
          cases ht
      · by_cases halign : dst t &&& 3 = 0
        · exact .inl ⟨hok, halign⟩
        · have hge : ¬(dst t).toNat < max.toNat := fun hlt => hstop ⟨halign, hlt⟩
          exact .inr ⟨halign, by omega⟩
    show (whileLoop (fun s => dst s + 4 ≤ max) word fuel t).bind _ = none
    rw [hstuck]
    rfl

/-- When the range ends with the address space, only its last word is ever reached. -/
theorem threeLoops_zero (h : Strides dst byte word ok) (hs : ok s) (fuel : Nat) :
    threeLoops dst byte word 0 (fuel + 2) s =
      some (if (dst s).toNat + 4 = 2 ^ 32 then byte^[4] s else s) := by
  have hlt := (dst s).isLt
  have hzero : ∀ t : σ, ¬dst t < 0 := fun t hlt => Nat.not_lt_zero _ (show (dst t).toNat < 0 from hlt)
  have htail : ∀ t : σ, whileLoop (fun s => dst s < 0) (fun s => some (byte s)) (fuel + 2) t = some t := fun t =>
    if_neg (hzero t)
  rw [threeLoops, whileLoop_skip (fun hc => hzero s hc.2) (fuel + 1)]
  show (whileLoop (fun s => dst s + 4 ≤ 0) word (fuel + 2) s).bind _ = _
  have htest : ∀ t : σ, dst t + 4 ≤ 0 ↔ ((dst t).toNat + 4) % 2 ^ 32 = 0 := by
    intro t
    show (dst t + 4).toNat ≤ 0 ↔ _
    rw [BitVec.toNat_add]
    exact Nat.le_zero
  by_cases hlast : (dst s).toNat + 4 = 2 ^ 32
  · have halign : dst s &&& 3 = 0 := by
      rw [lowBits_iff]
      omega
    have hnext : ¬dst (byte^[4] s) + 4 ≤ 0 := by
      rw [htest, h.dst_iterate, BitVec.toNat_add]
      show ¬(((dst s).toNat + 4) % 2 ^ 32 + 4) % 2 ^ 32 = 0
      omega
    rw [if_pos hlast, whileLoop, if_pos ((htest s).mpr (by omega)), h.word_aligned s hs halign]
    have hskip : whileLoop (fun s => dst s + 4 ≤ 0) word (fuel + 1) (byte^[4] s) = some (byte^[4] s) := if_neg hnext
    show (whileLoop (fun s => dst s + 4 ≤ 0) word (fuel + 1) (byte^[4] s)).bind _ = _
    rw [hskip]
    exact htail _
  · have hskip : whileLoop (fun s => dst s + 4 ≤ 0) word (fuel + 2) s = some s := if_neg fun hc => by
      have := (htest s).mp hc
      omega
    rw [if_neg hlast, hskip]
    exact htail _

end Strides

end Strides

/-! ## `memcpy` and `memset` go by strides -/

theorem lowBits_eq_iff {v w : Word} : v &&& 3 = w &&& 3 ↔ v.toNat % 4 = w.toNat % 4 := by
  have hmod : ∀ u : Word, (u &&& 3).toNat = u.toNat % 4 := by
    intro u
    rw [BitVec.toNat_and]
    exact Nat.and_two_pow_sub_one_eq_mod _ 2
  rw [← BitVec.toNat_inj, hmod, hmod]

theorem add_toNat_mod (w : Word) (j : Nat) : (w + BitVec.ofNat 32 j).toNat % 4 = (w.toNat + j) % 4 := by
  rw [BitVec.toNat_add, BitVec.toNat_ofNat]
  omega

/-- Addresses at different places of their words are different. -/
theorem add_ne {v w : Word} (h : v.toNat % 4 = w.toNat % 4) {i j : Nat} (hij : i % 4 ≠ j % 4) :
    v + BitVec.ofNat 32 i ≠ w + BitVec.ofNat 32 j := by
  intro heq
  have hmod := congrArg (fun x : Word => x.toNat % 4) heq
  simp only [add_toNat_mod] at hmod
  omega

theorem copyStrides : Strides Copy.dst Copy.byte Copy.word fun c => c.src &&& 3 = c.dst &&& 3 where
  dst_byte _ := rfl
  ok_byte c h := by
    rw [lowBits_eq_iff] at h ⊢
    show (c.src + BitVec.ofNat 32 1).toNat % 4 = (c.dst + BitVec.ofNat 32 1).toNat % 4
    rw [add_toNat_mod, add_toNat_mod]
    omega
  word_unaligned c h := if_neg fun hc => h hc.1
  word_aligned c h halign := by
    have hmod := lowBits_eq_iff.mp h
    have h2 : ∀ a : Word, a + 1 + 1 = a + 2 := fun a => BitVec.add_assoc a 1 1
    have h3 : ∀ a : Word, a + 2 + 1 = a + 3 := fun a => BitVec.add_assoc a 2 1
    have h4 : ∀ a : Word, a + 3 + 1 = a + 4 := fun a => BitVec.add_assoc a 3 1
    have hzero : ∀ a : Word, a + BitVec.ofNat 32 0 = a := fun a => BitVec.add_zero a
    -- the bytes that are read are not among those that have just been written
    have hne : ∀ i j, i % 4 ≠ j % 4 → c.src + BitVec.ofNat 32 i ≠ c.dst + BitVec.ofNat 32 j := fun i j => add_ne hmod
    have h10 : c.src + 1 ≠ c.dst := hzero c.dst ▸ hne 1 0 (by decide)
    have h20 : c.src + 2 ≠ c.dst := hzero c.dst ▸ hne 2 0 (by decide)
    have h30 : c.src + 3 ≠ c.dst := hzero c.dst ▸ hne 3 0 (by decide)
    have h21 : c.src + 2 ≠ c.dst + 1 := hne 2 1 (by decide)
    have h31 : c.src + 3 ≠ c.dst + 1 := hne 3 1 (by decide)
    have h32 : c.src + 3 ≠ c.dst + 2 := hne 3 2 (by decide)
    have hget : ∀ j < 4, byteOf (getWord c.mem c.src) j = c.mem (c.src + BitVec.ofNat 32 j) := fun j hj =>
      byteOf_wordOf _ hj
    rw [Copy.word, if_pos ⟨halign, h.trans halign⟩, putWord, hget 0 (by decide), hget 1 (by decide),
      hget 2 (by decide), hget 3 (by decide), hzero]
    simp only [iterate_succ_apply, iterate_zero_apply, Copy.byte, h2, h3, h4, update_of_ne h10, update_of_ne h20,
      update_of_ne h30, update_of_ne h21, update_of_ne h31, update_of_ne h32]
    rfl

theorem fillStrides {b : Byte} {w : Word} (hw : ∀ j < 4, byteOf w j = b) :
    Strides Fill.dst (Fill.byte b) (Fill.word w) fun _ => True where
  dst_byte _ := rfl
  ok_byte _ _ := trivial
  word_unaligned f h := if_neg h
  word_aligned f _ halign := by
    rw [Fill.word, if_pos halign, putWord, hw 0 (by decide), hw 1 (by decide), hw 2 (by decide), hw 3 (by decide)]
    have h2 : f.dst + 1 + 1 = f.dst + 2 := BitVec.add_assoc f.dst 1 1
    have h3 : f.dst + 2 + 1 = f.dst + 3 := BitVec.add_assoc f.dst 2 1
    have h4 : f.dst + 3 + 1 = f.dst + 4 := BitVec.add_assoc f.dst 3 1
    simp only [iterate_succ_apply, iterate_zero_apply, Fill.byte, h2, h3, h4]

/-! ## What the plain loops do -/

theorem copyBytewise_frame {c : Copy} {a : Word} : ∀ n, c.dst.toNat + n ≤ 2 ^ 32 →
    ¬(c.dst.toNat ≤ a.toNat ∧ a.toNat < c.dst.toNat + n) → (copyBytewise n c).mem a = c.mem a := by
  intro n
  induction n with
  | zero => exact fun _ _ => rfl
  | succ n ih =>
    intro hn ha
    unfold copyBytewise at ih ⊢
    rw [iterate_succ_apply']
    have hdst : (Copy.byte^[n] c).dst.toNat = c.dst.toNat + n := copyStrides.dst_toNat (by omega)
    have hne : a ≠ (Copy.byte^[n] c).dst := by
      intro heq
      rw [← heq] at hdst
      omega
    exact (update_of_ne hne _ _).trans (ih (by omega) (by omega))

theorem fillBytewise_frame {b : Byte} {f : Fill} {a : Word} : ∀ n, f.dst.toNat + n ≤ 2 ^ 32 →
    ¬(f.dst.toNat ≤ a.toNat ∧ a.toNat < f.dst.toNat + n) → (fillBytewise b n f).mem a = f.mem a := by
  intro n
  induction n with
  | zero => exact fun _ _ => rfl
  | succ n ih =>
    intro hn ha
    unfold fillBytewise at ih ⊢
    rw [iterate_succ_apply']
    have hdst : ((Fill.byte b)^[n] f).dst.toNat = f.dst.toNat + n :=
      (fillStrides (w := wordOf fun _ => b) fun j hj => byteOf_wordOf _ hj).dst_toNat (by omega)
    have hne : a ≠ ((Fill.byte b)^[n] f).dst := by
      intro heq
      rw [← heq] at hdst
      omega
    exact (update_of_ne hne _ _).trans (ih (by omega) (by omega))

theorem copyBytewise_first {c : Copy} {n : Nat} (hpos : 0 < n) (hn : c.dst.toNat + n ≤ 2 ^ 32) :
    (copyBytewise n c).mem c.dst = c.mem c.src := by
  obtain ⟨k, rfl⟩ := Nat.exists_eq_succ_of_ne_zero (Nat.ne_of_gt hpos)
  have hfirst : c.byte.mem c.dst = c.mem c.src := update_self _ _ _
  rw [← hfirst]
  show (copyBytewise k c.byte).mem c.dst = _
  by_cases hk : k = 0
  · rw [hk]
    rfl
  · have hdst : c.byte.dst.toNat = c.dst.toNat + 1 := copyStrides.dst_toNat (s := c) (j := 1) (by omega)
    exact copyBytewise_frame k (by omega) (by omega)

theorem fillBytewise_first {b : Byte} {f : Fill} {n : Nat} (hpos : 0 < n) (hn : f.dst.toNat + n ≤ 2 ^ 32) :
    (fillBytewise b n f).mem f.dst = b := by
  obtain ⟨k, rfl⟩ := Nat.exists_eq_succ_of_ne_zero (Nat.ne_of_gt hpos)
  have hfirst : (f.byte b).mem f.dst = b := update_self _ _ _
  refine Eq.trans ?_ hfirst
  show (fillBytewise b k (f.byte b)).mem f.dst = _
  by_cases hk : k = 0
  · rw [hk]
    rfl
  · have hdst : (f.byte b).dst.toNat = f.dst.toNat + 1 :=
      (fillStrides (w := wordOf fun _ => b) fun j hj => byteOf_wordOf _ hj).dst_toNat (s := f) (j := 1) (by omega)
    exact fillBytewise_frame k (by omega) (by omega)

/-- Copying a range to itself changes nothing. -/
theorem copyBytewise_self (a : Word) (mem : Word → Byte) : ∀ n, copyBytewise n ⟨a, a, mem⟩ =
    ⟨a + BitVec.ofNat 32 n, a + BitVec.ofNat 32 n, mem⟩ := by
  intro n
  induction n with
  | zero => simp [copyBytewise]
  | succ n ih =>
    unfold copyBytewise at ih ⊢
    rw [iterate_succ_apply', ih, Copy.byte, update_eq_self, BitVec.ofNat_add, ← BitVec.add_assoc]
    rfl

/-! ## Main result -/

variable {dst src n c : Word} {fuel : Nat} {mem : Word → Byte}

theorem bind_some_map {α β : Type} (o : Option α) (f : α → β) : (o.bind fun a => some (f a)) = o.map f := by
  cases o <;> rfl

theorem memcpy_aligned (h : src &&& 3 = dst &&& 3) :
    CLib.memcpy fuel dst src n mem =
      (threeLoops Copy.dst Copy.byte Copy.word (dst + n) fuel ⟨dst, src, mem⟩).map Copy.mem := by
  unfold CLib.memcpy threeLoops
  rw [if_neg (not_not_intro h)]
  cases whileLoop (fun c : Copy => c.dst &&& 3 ≠ 0 ∧ c.dst < dst + n) (fun c => some c.byte) fuel ⟨dst, src, mem⟩ with
  | none => rfl
  | some t =>
    show (whileLoop (fun c : Copy => c.dst + 4 ≤ dst + n) Copy.word fuel t).bind _ =
      ((whileLoop (fun c : Copy => c.dst + 4 ≤ dst + n) Copy.word fuel t).bind _).map _
    cases whileLoop (fun c : Copy => c.dst + 4 ≤ dst + n) Copy.word fuel t with
    | none => rfl
    | some u => exact bind_some_map _ _

theorem memcpy_unaligned (h : src &&& 3 ≠ dst &&& 3) :
    CLib.memcpy fuel dst src n mem =
      (whileLoop (fun c : Copy => c.dst < dst + n) (fun c => some c.byte) fuel ⟨dst, src, mem⟩).map Copy.mem := by
  unfold CLib.memcpy
  rw [if_pos h]
  exact bind_some_map _ _

theorem memset_eq :
    CLib.memset fuel dst c n mem =
      (threeLoops Fill.dst (Fill.byte (fillByte c)) (Fill.word (fillWord (fillByte c))) (dst + n) fuel ⟨dst, mem⟩).map
        Fill.mem := by
  unfold CLib.memset threeLoops
  dsimp only
  cases whileLoop (fun f : Fill => f.dst &&& 3 ≠ 0 ∧ f.dst < dst + n) (fun f => some (f.byte (fillByte c))) fuel
      ⟨dst, mem⟩ with
  | none => rfl
  | some t =>
    show (whileLoop (fun f : Fill => f.dst + 4 ≤ dst + n) (Fill.word _) fuel t).bind _ =
      ((whileLoop (fun f : Fill => f.dst + 4 ≤ dst + n) (Fill.word _) fuel t).bind _).map _
    cases whileLoop (fun f : Fill => f.dst + 4 ≤ dst + n) (Fill.word (fillWord (fillByte c))) fuel t with
    | none => rfl
    | some u => exact bind_some_map _ _

theorem byteOf_fillWord (b : Byte) {j : Nat} (hj : j < 4) : byteOf (fillWord b) j = b := by
  have hall : ∀ b : Byte, ∀ j < 4, byteOf (fillWord b) j = b := by decide +kernel
  exact hall b j hj

theorem fillByte_eq (c : Word) : fillByte c = BitVec.ofNat 8 (c.toNat % 256) := by
  have hmask : (c &&& 0xff).toNat = c.toNat % 256 := by
    rw [BitVec.toNat_and]
    exact Nat.and_two_pow_sub_one_eq_mod _ 8
  rw [fillByte, ← BitVec.toNat_inj, BitVec.toNat_setWidth, hmask, BitVec.toNat_ofNat]

/-- `memcpy` does what the plain loop does, and changes nothing outside the range. -/
def CopiesRight (dst src n : Word) : Prop :=
  ∀ mem, ∃ m, ∀ fuel > m, ∃ mem', CLib.memcpy fuel dst src n mem = some mem' ∧
    mem' = (copyBytewise n.toNat ⟨dst, src, mem⟩).mem ∧
    ∀ a : Word, ¬(dst.toNat ≤ a.toNat ∧ a.toNat < dst.toNat + n.toNat) → mem' a = mem a

/-- `memset` does what the plain loop does, and changes nothing outside the range. -/
def FillsRight (dst c n : Word) : Prop :=
  ∀ mem, ∃ m, ∀ fuel > m, ∃ mem', CLib.memset fuel dst c n mem = some mem' ∧
    mem' = (fillBytewise (BitVec.ofNat 8 (c.toNat % 256)) n.toNat ⟨dst, mem⟩).mem ∧
    ∀ a : Word, ¬(dst.toNat ≤ a.toNat ∧ a.toNat < dst.toNat + n.toNat) → mem' a = mem a

/-- The range ends more than four bytes before the end of the address space. If the pointers are aligned differently, it
may end anywhere before the end of the address space. If they are aligned alike, it may also end there, when it is the
last word or is copied to itself. -/
def CopyFits (dst src n : Word) : Prop :=
  (dst.toNat + n.toNat < 2 ^ 32 ∧ (dst.toNat % 4 ≠ src.toNat % 4 ∨ dst.toNat + n.toNat + 4 < 2 ^ 32)) ∨
  (dst.toNat + n.toNat = 2 ^ 32 ∧ dst.toNat % 4 = src.toNat % 4 ∧ (n.toNat = 4 ∨ src = dst))

/-- The range ends more than four bytes before the end of the address space, or it is the last word. -/
def FillFits (dst n : Word) : Prop :=
  dst.toNat + n.toNat + 4 < 2 ^ 32 ∨ (dst.toNat + n.toNat = 2 ^ 32 ∧ n.toNat = 4)

theorem add_toNat_of_lt (h : dst.toNat + n.toNat < 2 ^ 32) : (dst + n).toNat = dst.toNat + n.toNat := by
  rw [BitVec.toNat_add, Nat.mod_eq_of_lt h]

theorem add_eq_zero (h : dst.toNat + n.toNat = 2 ^ 32) : dst + n = 0 := by
  rw [← BitVec.toNat_inj, BitVec.toNat_add, h]
  rfl

theorem copiesRight_of (hdst : dst.toNat + n.toNat ≤ 2 ^ 32)
    (h : ∀ mem, ∃ m, ∀ fuel > m, CLib.memcpy fuel dst src n mem = some (copyBytewise n.toNat ⟨dst, src, mem⟩).mem) :
    CopiesRight dst src n := by
  intro mem
  obtain ⟨m, hm⟩ := h mem
  exact ⟨m, fun fuel hfuel => ⟨_, hm fuel hfuel, rfl, fun a ha => copyBytewise_frame _ hdst ha⟩⟩

theorem fillsRight_of (hdst : dst.toNat + n.toNat ≤ 2 ^ 32)
    (h : ∀ mem, ∃ m, ∀ fuel > m, CLib.memset fuel dst c n mem = some (fillBytewise (fillByte c) n.toNat ⟨dst, mem⟩).mem) :
    FillsRight dst c n := by
  intro mem
  obtain ⟨m, hm⟩ := h mem
  rw [fillByte_eq] at hm
  exact ⟨m, fun fuel hfuel => ⟨_, hm fuel hfuel, rfl, fun a ha => fillBytewise_frame _ hdst ha⟩⟩

/-- A copy that leaves the memory alone is wrong, unless the range is copied to itself. -/
theorem not_copiesRight (hdst : dst.toNat + n.toNat ≤ 2 ^ 32) (hpos : 0 < n.toNat) (hne : src ≠ dst)
    (h : ∀ mem fuel, CLib.memcpy (fuel + 2) dst src n mem = some mem) : ¬CopiesRight dst src n := by
  intro hright
  obtain ⟨m, hm⟩ := hright fun a => if a = src then 1 else 0
  obtain ⟨mem', hmem, hbytes, -⟩ := hm (m + 2) (by omega)
  rw [h] at hmem
  obtain rfl := Option.some.inj hmem
  have hfirst := copyBytewise_first (c := ⟨dst, src, fun a => if a = src then 1 else 0⟩) hpos hdst
  have hat := congrFun hbytes dst
  rw [hfirst] at hat
  simp [Ne.symm hne] at hat

theorem memcpy_right_iff (hdst : dst.toNat + n.toNat ≤ 2 ^ 32) : CopiesRight dst src n ↔ CopyFits dst src n := by
  unfold CopyFits
  by_cases hlt : dst.toNat + n.toNat < 2 ^ 32
  · have hmax := add_toNat_of_lt hlt
    by_cases hmod : src &&& 3 = dst &&& 3
    · have halign := lowBits_eq_iff.mp hmod
      by_cases hend : dst.toNat + n.toNat + 4 < 2 ^ 32
      · refine iff_of_true (copiesRight_of hdst fun mem => ⟨n.toNat, fun fuel hfuel => ?_⟩) (.inl ⟨hlt, .inr hend⟩)
        rw [memcpy_aligned hmod, copyStrides.threeLoops_eq (s := ⟨dst, src, mem⟩) hmod hend hmax hfuel]
        rfl
      · refine iff_of_false (fun hright => ?_) (by omega)
        obtain ⟨m, hm⟩ := hright fun _ => 0
        obtain ⟨mem', hmem, -⟩ := hm (m + 1) (Nat.lt_succ_self m)
        rw [memcpy_aligned hmod, copyStrides.threeLoops_none (s := ⟨dst, src, fun _ => 0⟩) hmod hmax (by omega)] at hmem
        cases hmem
    · have halign := fun h => hmod (lowBits_eq_iff.mpr h)
      refine iff_of_true (copiesRight_of hdst fun mem => ⟨n.toNat, fun fuel hfuel => ?_⟩)
        (.inl ⟨hlt, .inl fun h => halign h.symm⟩)
      rw [memcpy_unaligned hmod, copyStrides.byteLoop_eq (s := ⟨dst, src, mem⟩) hlt hmax hfuel]
      rfl
  · have heq : dst.toNat + n.toNat = 2 ^ 32 := by omega
    have hpos : 0 < n.toNat := by
      have := dst.isLt
      omega
    have hzero := add_eq_zero heq
    by_cases hmod : src &&& 3 = dst &&& 3
    · have halign := (lowBits_eq_iff.mp hmod).symm
      have hloops : ∀ mem fuel, CLib.memcpy (fuel + 2) dst src n mem =
          some (if dst.toNat + 4 = 2 ^ 32 then copyBytewise 4 ⟨dst, src, mem⟩ else ⟨dst, src, mem⟩).mem := by
        intro mem fuel
        rw [memcpy_aligned hmod, hzero, copyStrides.threeLoops_zero (s := ⟨dst, src, mem⟩) hmod]
        rfl
      by_cases hfour : n.toNat = 4
      · refine iff_of_true (copiesRight_of hdst fun mem => ⟨1, fun fuel hfuel => ?_⟩) (.inr ⟨heq, halign, .inl hfour⟩)
        obtain ⟨k, rfl⟩ : ∃ k, fuel = k + 2 := ⟨fuel - 2, by omega⟩
        rw [hloops, if_pos (by omega), hfour]
      · have hskip : ∀ mem fuel, CLib.memcpy (fuel + 2) dst src n mem = some mem := by
          intro mem fuel
          rw [hloops, if_neg (by omega)]
        by_cases hself : src = dst
        · refine iff_of_true (copiesRight_of hdst fun mem => ⟨1, fun fuel hfuel => ?_⟩) (.inr ⟨heq, halign, .inr hself⟩)
          obtain ⟨k, rfl⟩ : ∃ k, fuel = k + 2 := ⟨fuel - 2, by omega⟩
          rw [hskip, hself, copyBytewise_self]
        · refine iff_of_false (not_copiesRight hdst hpos hself hskip) ?_
          rintro (⟨h, -⟩ | ⟨-, -, h | h⟩)
          · exact hlt h
          · exact hfour h
          · exact hself h
    · have halign := fun h => hmod (lowBits_eq_iff.mpr h)
      have hskip : ∀ mem fuel, CLib.memcpy (fuel + 2) dst src n mem = some mem := by
        intro mem fuel
        rw [memcpy_unaligned hmod, hzero]
        have hstop : ¬(⟨dst, src, mem⟩ : Copy).dst < 0 := fun h => Nat.not_lt_zero _ (show dst.toNat < 0 from h)
        exact congrArg (Option.map Copy.mem) (if_neg hstop)
      have hself : src ≠ dst := fun h => halign (h ▸ rfl)
      refine iff_of_false (not_copiesRight hdst hpos hself hskip) ?_
      rintro (⟨h, -⟩ | ⟨-, h, -⟩)
      · exact hlt h
      · exact halign h.symm

theorem memset_right_iff (hdst : dst.toNat + n.toNat ≤ 2 ^ 32) : FillsRight dst c n ↔ FillFits dst n := by
  have hstrides := fillStrides (b := fillByte c) (w := fillWord (fillByte c)) fun j hj => byteOf_fillWord _ hj
  unfold FillFits
  by_cases hlt : dst.toNat + n.toNat < 2 ^ 32
  · have hmax := add_toNat_of_lt hlt
    by_cases hend : dst.toNat + n.toNat + 4 < 2 ^ 32
    · refine iff_of_true (fillsRight_of hdst fun mem => ⟨n.toNat, fun fuel hfuel => ?_⟩) (.inl hend)
      rw [memset_eq, hstrides.threeLoops_eq (s := ⟨dst, mem⟩) trivial hend hmax hfuel]
      rfl
    · refine iff_of_false (fun hright => ?_) (by omega)
      obtain ⟨m, hm⟩ := hright fun _ => 0
      obtain ⟨mem', hmem, -⟩ := hm (m + 1) (Nat.lt_succ_self m)
      rw [memset_eq, hstrides.threeLoops_none (s := ⟨dst, fun _ => 0⟩) trivial hmax (by omega)] at hmem
      cases hmem
  · have heq : dst.toNat + n.toNat = 2 ^ 32 := by omega
    have hpos : 0 < n.toNat := by
      have := dst.isLt
      omega
    have hloops : ∀ mem fuel, CLib.memset (fuel + 2) dst c n mem =
        some (if dst.toNat + 4 = 2 ^ 32 then fillBytewise (fillByte c) 4 ⟨dst, mem⟩ else ⟨dst, mem⟩).mem := by
      intro mem fuel
      rw [memset_eq, add_eq_zero heq, hstrides.threeLoops_zero (s := ⟨dst, mem⟩) trivial]
      rfl
    by_cases hfour : n.toNat = 4
    · refine iff_of_true (fillsRight_of hdst fun mem => ⟨1, fun fuel hfuel => ?_⟩) (.inr ⟨heq, hfour⟩)
      obtain ⟨k, rfl⟩ : ∃ k, fuel = k + 2 := ⟨fuel - 2, by omega⟩
      rw [hloops, if_pos (by omega), hfour]
    · refine iff_of_false (fun hright => ?_) (by omega)
      obtain ⟨m, hm⟩ := hright fun _ => fillByte c + 1
      obtain ⟨mem', hmem, hbytes, -⟩ := hm (m + 2) (by omega)
      rw [hloops, if_neg (by omega)] at hmem
      obtain rfl := Option.some.inj hmem
      have hat := congrFun hbytes dst
      rw [← fillByte_eq, fillBytewise_first hpos hdst] at hat
      replace hat : fillByte c + 1 = fillByte c := hat
      have hcontra : ∀ b : Byte, b + 1 ≠ b := by decide
      exact hcontra _ hat

/-- **`memcpy` and `memset` do what the loops by single bytes do, for all alignments and overlaps, exactly when the
range does not come too close to the end of the address space.** -/
theorem copies_right_iff (dst n : Word) (hdst : dst.toNat + n.toNat ≤ 2 ^ 32) :
    (∀ src : Word, src.toNat + n.toNat ≤ 2 ^ 32 → (CopiesRight dst src n ↔ CopyFits dst src n)) ∧
    ∀ c : Word, FillsRight dst c n ↔ FillFits dst n :=
  ⟨fun _ _ => memcpy_right_iff hdst, fun _ => memset_right_iff hdst⟩

/-- Overlapping ranges of ten bytes, and a range of ten bytes that is filled. -/
theorem copies_right_iff_small : CopiesRight 0x80001002 0x80001000 10 ∧ FillsRight 0x80001002 0x1ff 10 :=
  ⟨((copies_right_iff 0x80001002 10 (by decide)).1 0x80001000 (by decide)).mpr
    (.inl ⟨by decide, .inl (by decide)⟩),
    ((copies_right_iff 0x80001002 10 (by decide)).2 0x1ff).mpr (.inl (by decide))⟩

/-- The last word but one is never done: behind it the loop goes on. -/
theorem copies_wrong_at_top :
    ((0xfffffff8 : Word).toNat + (4 : Word).toNat ≤ 2 ^ 32 ∧ ¬CopiesRight 0xfffffff8 0x1000 4) ∧
    ¬FillsRight 0xfffffff8 0 4 := by
  refine ⟨⟨by decide, fun h => ?_⟩, fun h => ?_⟩
  · rcases (memcpy_right_iff (by decide)).mp h with ⟨-, h | h⟩ | ⟨h, -⟩ <;> exact absurd h (by decide)
  · rcases (memset_right_iff (by decide)).mp h with h | ⟨h, -⟩ <;> exact absurd h (by decide)

end Mos
