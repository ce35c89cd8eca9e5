import Mathlib.Data.Nat.Digits.Lemmas
import Mathlib.Data.List.GetD
import Mos.Lib.Prog
import Mos.Kern.State

/-!
# Printing a number

`print_num` of `lib/print.c` writes the digits of a number backwards into a local array, fills it up and turns
it around in place.
-/

namespace Mos

open Lib Prog Function

/-! ## `lib/print.c` -/

/-- Why printing stops. -/
inductive PrintPanic where
  /-- An access outside an array, a string or the arguments. -/
  | wild
  /-- An `int` would become too large. -/
  | overflow
  /-- A loop has used up its fuel. -/
  | spin
deriving DecidableEq

/-- The local array `buf`, with the contents that it has so far. -/
structure NumBuf where
  size : Nat
  cells : Nat → Byte

/-- Functions on `buf`. -/
abbrev BufM := Prog NumBuf Empty PrintPanic

/-- `buf[i] = c`. -/
def storeChar (i : Nat) (c : Byte) : BufM Unit := do
  let b ← Prog.get
  Prog.assert (i < b.size) .wild
  Prog.put { b with cells := update b.cells i c }

/-- `buf[i]`. -/
def loadChar (i : Nat) : BufM Byte := do
  let b ← Prog.get
  Prog.assert (i < b.size) .wild
  pure (b.cells i)

/-- The character of a digit. -/
def digitChar (upcase : Bool) (tmp : Nat) : Byte :=
  if tmp ≤ 9 then BitVec.ofNat 8 (0x30 + tmp)
  else if upcase then BitVec.ofNat 8 (0x41 + tmp - 10)
  else BitVec.ofNat 8 (0x61 + tmp - 10)

/-- The loop over the digits, the last digit first, with `p = buf + i`; the result is `p - buf`. -/
def digitRun (base : Nat) (upcase : Bool) : Nat → Nat → Nat → BufM Nat
  | 0, _, _ => Prog.halt .spin
  | fuel + 1, u, i => do
    storeChar i (digitChar upcase (u % base))
    if u / base ≠ 0 then digitRun base upcase fuel (u / base) (i + 1) else pure (i + 1)

/-- The loop that turns `buf[first], …, buf[last]` around. -/
def reverseRun : Nat → Nat → Nat → BufM Unit
  | 0, _, _ => Prog.halt .spin
  | fuel + 1, first, last => do
    if last > first then
      let tmp ← loadChar first
      let c ← loadChar last
      storeChar first c
      storeChar last tmp
      reverseRun fuel (first + 1) (last - 1)
    else pure ()

/-- The padding, up to `length` characters. -/
def padRun (neg ladjust : Bool) (padc : Byte) (actualLength length : Nat) : BufM Unit :=
  if neg = true ∧ ladjust = false ∧ padc = 0x30 then do
    Prog.loop (fun i => storeChar i padc) (actualLength - 1) (length - 1 - (actualLength - 1))
    storeChar (length - 1) 0x2d
  else Prog.loop (fun i => storeChar i padc) actualLength (length - actualLength)

/-- `print_num(out, data, u, base, neg_flag, length, ladjust, padc, upcase)`; the result is what it gives to
`out`. The width is so small that `length + 70` is an `int`. -/
def printNum (u : Word) (base : Nat) (neg : Bool) (length : Nat) (ladjust : Bool) (padc : Byte)
    (upcase : Bool) : BufM (List Byte) := do
  Prog.modify fun b => { b with size := length + 70 }
  let p ← digitRun base upcase 32 u.toNat 0
  Prog.when (neg = true) (storeChar p 0x2d)
  let actualLength := if neg then p + 1 else p
  let length := if length < actualLength then actualLength else length
  padRun neg ladjust (if ladjust then 0x20 else padc) actualLength length
  reverseRun length 0 (if ladjust then actualLength - 1 else length - 1)
  let b ← Prog.get
  Prog.assert (length ≤ b.size) .wild
  pure ((List.range length).map b.cells)

/-- The case `'d'` of `vprintfmt`, for the argument `num`. -/
def printDecimal (num : Word) (length : Nat) (ladjust : Bool) (padc : Byte) : BufM (List Byte) :=
  if num.toInt < 0 then printNum (-num) 10 true length ladjust padc false
  else printNum num 10 false length ladjust padc false

/-! ## What a number looks like -/

/-- The digits of a number, the last digit first. -/
def digitsOf (base u : Nat) : List Nat := if u = 0 then [0] else Nat.digits base u

/-- The digits of a number as they are read. -/
def numeral (u base : Nat) (upcase : Bool) : List Byte := ((digitsOf base u).map (digitChar upcase)).reverse

/-- With the sign. -/
def signed (neg : Bool) (s : List Byte) : List Byte := if neg then 0x2d :: s else s

/-- Padded to the width. -/
def padded (s : List Byte) (neg : Bool) (width : Nat) (ladjust : Bool) (padc : Byte) : List Byte :=
  let fill := width - (signed neg s).length
  if ladjust then signed neg s ++ List.replicate fill 0x20
  else if padc = 0x30 then signed neg (List.replicate fill 0x30 ++ s)
  else List.replicate fill 0x20 ++ signed neg s

/-- Whether a character is a decimal digit. -/
def isDigit (c : Byte) : Bool := decide (0x30 ≤ c.toNat ∧ c.toNat ≤ 0x39)

/-- The value of decimal digits. -/
def decimalValue (s : List Byte) : Nat := s.foldl (fun v c => 10 * v + (c.toNat - 0x30)) 0

/-- Reads a decimal number with spaces around it. -/
def readInt (s : List Byte) : Option Int :=
  let s := s.dropWhile (· = 0x20)
  let neg : Bool := decide (s.head? = some 0x2d)
  let s := if neg then s.drop 1 else s
  let ds := s.takeWhile isDigit
  if ds ≠ [] ∧ (s.dropWhile isDigit).all (· = 0x20) then
    some (if neg then -(decimalValue ds : Int) else decimalValue ds)
  else none

/-! ## Access to the array -/

variable {b : NumBuf} {base i : Nat} {c : Byte} {neg : Bool}

theorem storeChar_ret (h : i < b.size) : storeChar i c b = .ret () { b with cells := update b.cells i c } :=
  (bind_ret (assert_pos h)).trans rfl

theorem loadChar_ret (h : i < b.size) : loadChar i b = .ret (b.cells i) b := (bind_ret (assert_pos h)).trans rfl

/-- The array begins with the string `s`. -/
structure NumBuf.Begins (b : NumBuf) (s : List Byte) : Prop where
  fits : s.length ≤ b.size
  cells : ∀ k < s.length, b.cells k = s.getD k 0

/-- A character is stored behind the string. -/
theorem NumBuf.Begins.store {s : List Byte} (h : b.Begins s) (hfits : s.length < b.size) (c : Byte) :
    ({ b with cells := update b.cells s.length c } : NumBuf).Begins (s ++ [c]) := by
  refine ⟨by simpa using hfits, fun k hk => ?_⟩
  rw [List.length_append, List.length_singleton] at hk
  by_cases hend : k = s.length
  · subst hend
    simp
  · have hlt : k < s.length := by omega
    show update b.cells s.length c k = _
    rw [update_of_ne hend, h.cells k hlt, List.getD_append _ _ _ _ hlt]

theorem NumBuf.Begins.of_append {s t : List Byte} (h : b.Begins (s ++ t)) : b.Begins s := by
  have hlen := h.fits
  rw [List.length_append] at hlen
  refine ⟨by omega, fun k hk => ?_⟩
  rw [h.cells k (by rw [List.length_append]; omega), List.getD_append _ _ _ _ hk]

/-- What the array holds is the string. -/
theorem NumBuf.Begins.read {s : List Byte} (h : b.Begins s) : (List.range s.length).map b.cells = s := by
  refine List.ext_getElem (by simp) fun k hk hk' => ?_
  rw [List.getElem_map, List.getElem_range, h.cells k hk', List.getD_eq_getElem _ _ hk']

/-! ## The loops -/

theorem digitsOf_step (hbase : 2 ≤ base) (u : Nat) :
    digitsOf base u = u % base :: if u / base ≠ 0 then digitsOf base (u / base) else [] := by
  unfold digitsOf
  by_cases hu : u = 0
  · subst hu
    simp
  · rw [if_neg hu, Nat.digits_def' (by omega) (by omega)]
    by_cases hdiv : u / base = 0
    · simp [hdiv]
    · rw [if_pos hdiv, if_neg hdiv]

theorem digitsOf_length (hbase : 2 ≤ base) : ∀ fuel u, u < 2 ^ (fuel + 1) →
    (digitsOf base u).length ≤ fuel + 1 := by
  intro fuel
  induction fuel with
  | zero =>
    intro u hu
    have hdiv : u / base = 0 := Nat.div_eq_of_lt (by omega)
    rw [digitsOf_step hbase, if_neg (not_not_intro hdiv)]
    simp
  | succ fuel ih =>
    intro u hu
    rw [digitsOf_step hbase]
    split
    · have hdiv : u / base < 2 ^ (fuel + 1) := by
        rw [pow_succ] at hu
        exact Nat.div_lt_of_lt_mul (Nat.lt_of_lt_of_le (by omega) (Nat.mul_le_mul_right _ hbase))
      have := ih _ hdiv
      simpa using this
    · simp

/-- The loop over the digits writes them behind the string that is there. -/
theorem digitRun_ret (hbase : 2 ≤ base) (upcase : Bool) : ∀ fuel u (s : List Byte) (b : NumBuf), u < 2 ^ (fuel + 1) →
    b.Begins s → s.length + (fuel + 1) ≤ b.size →
    ∃ b', digitRun base upcase (fuel + 1) u s.length b =
        .ret (s ++ (digitsOf base u).map (digitChar upcase)).length b' ∧ b'.size = b.size ∧
      b'.Begins (s ++ (digitsOf base u).map (digitChar upcase)) := by
  intro fuel
  induction fuel with
  | zero =>
    intro u s b hu hs hfits
    have hdiv : u / base = 0 := Nat.div_eq_of_lt (by omega)
    have hstep := digitsOf_step hbase u
    rw [if_neg (not_not_intro hdiv)] at hstep
    rw [digitRun, bind_ret (storeChar_ret (by omega)), if_neg (not_not_intro hdiv), hstep]
    refine ⟨{ b with cells := update b.cells s.length (digitChar upcase (u % base)) }, ?_, rfl, hs.store (by omega) _⟩
    rw [List.length_append]
    rfl
  | succ fuel ih =>
    intro u s b hu hs hfits
    rw [digitRun, bind_ret (storeChar_ret (by omega)), digitsOf_step hbase]
    by_cases hdiv : u / base ≠ 0
    · have hlt : u / base < 2 ^ (fuel + 1) := by
        rw [pow_succ] at hu
        exact Nat.div_lt_of_lt_mul (Nat.lt_of_lt_of_le (by omega) (Nat.mul_le_mul_right _ hbase))
      rw [if_pos hdiv, if_pos hdiv]
      have hnext := hs.store (by omega) (digitChar upcase (u % base))
      obtain ⟨b', hrun, hsize, hbegins⟩ := ih _ (s ++ [digitChar upcase (u % base)]) _ hlt hnext (by simp; omega)
      rw [List.length_append, List.length_singleton] at hrun
      simp only [List.append_assoc, List.singleton_append] at hrun hbegins
      exact ⟨b', hrun, hsize, hbegins⟩
    · rw [if_neg hdiv, if_neg hdiv]
      refine ⟨{ b with cells := update b.cells s.length (digitChar upcase (u % base)) }, ?_, rfl, hs.store (by omega) _⟩
      rw [List.length_append]
      rfl

/-- The loop that pads. -/
theorem padRunLoop_ret (c : Byte) : ∀ n (s : List Byte) (b : NumBuf), b.Begins s → s.length + n ≤ b.size →
    ∃ b', Prog.loop (fun i => storeChar i c) s.length n b = .ret () b' ∧ b'.size = b.size ∧
      b'.Begins (s ++ List.replicate n c) := by
  intro n
  induction n with
  | zero => exact fun s b hs _ => ⟨b, rfl, rfl, by simpa using hs⟩
  | succ n ih =>
    intro s b hs hfits
    rw [Prog.loop, bind_ret (storeChar_ret (by omega))]
    obtain ⟨b', hrun, hsize, hbegins⟩ := ih (s ++ [c]) _ (hs.store (by omega) c) (by simp; omega)
    rw [List.length_append, List.length_singleton] at hrun
    rw [List.append_assoc, List.singleton_append, ← List.replicate_succ] at hbegins
    exact ⟨b', hrun, hsize, hbegins⟩

/-- A part of the array is turned around. -/
theorem reverseRun_ret : ∀ fuel first last (b : NumBuf), last - first < fuel → last < b.size →
    reverseRun fuel first last b = .ret () { b with
      cells := fun j => if first ≤ j ∧ j ≤ last then b.cells (first + last - j) else b.cells j } := by
  intro fuel
  induction fuel with
  | zero => exact fun _ _ _ h _ => absurd h (Nat.not_lt_zero _)
  | succ fuel ih =>
    intro first last b hfuel hlast
    rw [reverseRun]
    by_cases hlt : last > first
    · have hlast' : last - 1 < b.size := by omega
      rw [if_pos hlt, bind_ret (loadChar_ret (by omega)), bind_ret (loadChar_ret hlast),
        bind_ret (storeChar_ret (by omega)), bind_ret (storeChar_ret (by exact hlast)), ih _ _ _ (by omega) (by exact hlast')]
      congr 2
      funext j
      simp only [update_apply]
      grind
    · rw [if_neg hlt]
      have hsame : (fun j => if first ≤ j ∧ j ≤ last then b.cells (first + last - j) else b.cells j) = b.cells := by
        funext j
        grind
      rw [hsame]
      rfl

theorem NumBuf.Begins.reverse {s t : List Byte} (h : b.Begins (s ++ t)) (fuel : Nat) (hs : s ≠ []) (hfuel : s.length ≤ fuel) :
    ∃ b', reverseRun fuel 0 (s.length - 1) b = .ret () b' ∧ b'.size = b.size ∧ b'.Begins (s.reverse ++ t) := by
  have hpos := List.length_pos_iff.mpr hs
  have hfits := h.fits
  rw [List.length_append] at hfits
  refine ⟨_, reverseRun_ret fuel 0 (s.length - 1) b (by omega) (by omega), rfl, by simpa using hfits, fun k hk => ?_⟩
  rw [List.length_append, List.length_reverse] at hk
  show (if 0 ≤ k ∧ k ≤ s.length - 1 then b.cells (0 + (s.length - 1) - k) else b.cells k) = _
  by_cases hlt : k < s.length
  · rw [if_pos ⟨Nat.zero_le k, by omega⟩, h.cells _ (by rw [List.length_append]; omega),
      List.getD_append _ _ _ _ (by omega), List.getD_append _ _ _ _ (by simpa using hlt),
      List.getD_eq_getElem _ _ (by omega), List.getD_eq_getElem _ _ (by simpa using hlt), List.getElem_reverse]
    congr 1
    omega
  · rw [if_neg (by omega), h.cells k (by rw [List.length_append]; omega),
      List.getD_append_right _ _ _ _ (by omega), List.getD_append_right _ _ _ _ (by simpa using Nat.le_of_not_lt hlt),
      List.length_reverse]

/-! ## The whole function -/

/-- The end of `print_num`: the characters `s` are turned around, and all is given to `out`. -/
theorem printed {s t : List Byte} (h : b.Begins (s ++ t)) (hs : s ≠ []) (length last : Nat)
    (hlength : length = (s ++ t).length) (hlast : last = s.length - 1) :
    ∃ b', (do
      reverseRun length 0 last
      let b ← Prog.get
      Prog.assert (length ≤ b.size) .wild
      pure ((List.range length).map b.cells) : BufM (List Byte)) b = .ret (s.reverse ++ t) b' := by
  obtain ⟨b', hrun, -, hbegins⟩ := h.reverse length hs (by rw [hlength, List.length_append]; omega)
  have hread := hbegins.read
  have hfits := hbegins.fits
  have hlen : (s.reverse ++ t).length = length := by simp [hlength]
  rw [hlen] at hread hfits
  refine ⟨b', ?_⟩
  rw [hlast, bind_ret hrun, get_bind, bind_ret (assert_pos hfits), hread]
  rfl

theorem numeral_length (hbase : 2 ≤ base) (u : Word) (upcase : Bool) :
    0 < (numeral u.toNat base upcase).length ∧ (numeral u.toNat base upcase).length ≤ 32 := by
  unfold numeral
  rw [List.length_reverse, List.length_map]
  refine ⟨?_, digitsOf_length hbase 31 _ u.isLt⟩
  rw [digitsOf_step hbase]
  exact Nat.zero_lt_succ _

/-- The digits and the sign, the last digit first. -/
def backwards (neg : Bool) (ds : List Byte) : List Byte := ds ++ if neg then [0x2d] else []

theorem backwards_reverse (neg : Bool) (ds : List Byte) : (backwards neg ds).reverse = signed neg ds.reverse := by
  cases neg <;> simp [backwards, signed]

theorem backwards_length (neg : Bool) (ds : List Byte) :
    (backwards neg ds).length = if neg then ds.length + 1 else ds.length := by
  cases neg <;> simp [backwards]

/-- The sign is stored behind the digits. -/
theorem signStore_ret {ds : List Byte} (h : b.Begins ds) (hfits : ds.length < b.size) (neg : Bool) :
    ∃ b', Prog.when (neg = true) (storeChar ds.length 0x2d) b = .ret () b' ∧ b'.size = b.size ∧
      b'.Begins (backwards neg ds) := by
  cases neg with
  | false => exact ⟨b, rfl, rfl, by simpa [backwards] using h⟩
  | true =>
    refine ⟨{ b with cells := update b.cells ds.length 0x2d }, ?_, rfl, h.store hfits _⟩
    rw [when_pos rfl, storeChar_ret hfits]

/-- The padding keeps the sign at the end, if it is done with zeros. -/
theorem padRun_zeros {ds : List Byte} {length : Nat} (h : b.Begins (backwards true ds))
    (hlength : ds.length + 1 ≤ length) (hfits : length ≤ b.size) :
    ∃ b', padRun true false 0x30 (ds.length + 1) length b = .ret () b' ∧
      b'.Begins (backwards true (ds ++ List.replicate (length - (ds.length + 1)) 0x30)) := by
  have hds : b.Begins ds := h.of_append
  obtain ⟨b', hloop, hsize, hbegins⟩ := padRunLoop_ret 0x30 (length - 1 - ds.length) ds b hds (by omega)
  have hlast := hbegins.store (c := 0x2d) (by rw [List.length_append, List.length_replicate]; omega)
  have hlen : (ds ++ List.replicate (length - 1 - ds.length) (0x30 : Byte)).length = length - 1 := by
    rw [List.length_append, List.length_replicate]
    omega
  rw [hlen] at hlast
  rw [show length - (ds.length + 1) = length - 1 - ds.length by omega]
  refine ⟨_, ?_, hlast⟩
  rw [padRun, if_pos ⟨rfl, rfl, rfl⟩, Nat.add_sub_cancel, bind_ret hloop]
  exact storeChar_ret (by omega)

/-- Otherwise it follows the sign. -/
theorem padRun_behind {ds : List Byte} {length : Nat} (h : b.Begins (backwards neg ds)) (ladjust : Bool)
    (padc : Byte) (hneg : ¬(neg = true ∧ ladjust = false ∧ padc = 0x30)) (hlength : (backwards neg ds).length ≤ length)
    (hfits : length ≤ b.size) :
    ∃ b', padRun neg ladjust padc (backwards neg ds).length length b = .ret () b' ∧
      b'.Begins (backwards neg ds ++ List.replicate (length - (backwards neg ds).length) padc) := by
  obtain ⟨b', hloop, -, hbegins⟩ := padRunLoop_ret padc (length - (backwards neg ds).length) _ b h (by omega)
  exact ⟨b', (congrFun (if_neg hneg) b).trans hloop, hbegins⟩

/-- What `print_num` gives to `out`. -/
theorem printNum_ret (hbase : 2 ≤ base) (u : Word) (neg : Bool) (length : Nat) (ladjust : Bool) {padc : Byte}
    (hpadc : padc = 0x20 ∨ padc = 0x30) (upcase : Bool) (b : NumBuf) :
    ∃ b', printNum u base neg length ladjust padc upcase b =
      .ret (padded (numeral u.toNat base upcase) neg length ladjust padc) b' := by
  have hnum := numeral_length hbase u upcase
  have hrev : numeral u.toNat base upcase = ((digitsOf base u.toNat).map (digitChar upcase)).reverse := rfl
  have hdigits := digitRun_ret hbase upcase 31 u.toNat [] { b with size := length + 70 } u.isLt
    ⟨Nat.zero_le _, fun k hk => absurd hk (Nat.not_lt_zero k)⟩ (by simp)
  rw [List.nil_append] at hdigits
  generalize (digitsOf base u.toNat).map (digitChar upcase) = ds at hdigits hrev
  rw [hrev] at hnum ⊢
  rw [List.length_reverse] at hnum
  obtain ⟨b₁, hrun, hsize₁, hbegins₁⟩ := hdigits
  replace hrun : digitRun base upcase 32 u.toNat 0 { b with size := length + 70 } = .ret ds.length b₁ := hrun
  replace hsize₁ : b₁.size = length + 70 := hsize₁
  obtain ⟨b₂, hsign, hsize₂, hbegins₂⟩ := signStore_ret hbegins₁ (by omega) neg
  rw [printNum, modify_bind, bind_ret hrun, bind_ret hsign, ← backwards_length]
  have hlen := backwards_length neg ds
  have hne : backwards neg ds ≠ [] := by
    rw [ne_eq, ← List.length_eq_zero_iff, hlen]
    split <;> omega
  have hbound : (backwards neg ds).length ≤ 33 := by
    rw [hlen]
    split <;> omega
  -- the width after it has been made large enough
  generalize hwidth : (if length < (backwards neg ds).length then (backwards neg ds).length else length) = width
  have hle : (backwards neg ds).length ≤ width := by
    rw [← hwidth]
    split <;> omega
  have hfits : width ≤ b₂.size := by
    rw [← hwidth]
    split <;> omega
  have hfill : width - (backwards neg ds).length = length - (signed neg ds.reverse).length := by
    rw [← backwards_reverse, List.length_reverse, ← hwidth]
    split <;> omega
  cases ladjust with
  | true =>
    obtain ⟨b₃, hpad, hbegins₃⟩ := padRun_behind hbegins₂ true 0x20 (by simp) hle hfits
    obtain ⟨b₄, hend⟩ := printed hbegins₃ hne width _ (by simp; omega) rfl
    refine ⟨b₄, ?_⟩
    rw [if_pos rfl, if_pos rfl, bind_ret hpad, hend, backwards_reverse, hfill]
    rfl
  | false =>
    rw [if_neg Bool.false_ne_true, if_neg Bool.false_ne_true]
    by_cases hzero : neg = true ∧ padc = 0x30
    · obtain ⟨rfl, rfl⟩ := hzero
      have hlen' : (backwards true ds).length = ds.length + 1 := hlen
      rw [hlen'] at hle hfill ⊢
      obtain ⟨b₃, hpad, hbegins₃⟩ := padRun_zeros hbegins₂ hle hfits
      rw [← List.append_nil (backwards _ _)] at hbegins₃
      have hwhole : (backwards true (ds ++ List.replicate (width - (ds.length + 1)) (0x30 : Byte))).length = width := by
        rw [backwards_length, if_pos rfl, List.length_append, List.length_replicate]
        omega
      obtain ⟨b₄, hend⟩ := printed hbegins₃ (by simp [backwards]) width (width - 1)
        (by rw [List.append_nil, hwhole]) (by rw [hwhole])
      refine ⟨b₄, ?_⟩
      rw [bind_ret hpad, hend, backwards_reverse, List.reverse_append, List.reverse_replicate, hfill, List.append_nil]
      rfl
    · obtain ⟨b₃, hpad, hbegins₃⟩ := padRun_behind hbegins₂ false padc (by simpa using hzero) hle hfits
      rw [← List.append_nil (_ ++ _)] at hbegins₃
      have hwhole : (backwards neg ds ++ List.replicate (width - (backwards neg ds).length) padc).length = width := by
        rw [List.length_append, List.length_replicate]
        omega
      obtain ⟨b₄, hend⟩ := printed hbegins₃ (by simp [hne]) width (width - 1)
        (by rw [List.append_nil, hwhole]) (by rw [hwhole])
      refine ⟨b₄, ?_⟩
      rw [bind_ret hpad, hend, List.reverse_append, List.reverse_replicate, backwards_reverse, hfill, List.append_nil]
      rcases hpadc with rfl | rfl
      · rfl
      · have hneg : neg = false := by simpa using hzero
        rw [hneg]
        rfl

/-- What `%d` gives to `out`. -/
theorem printDecimal_ret (num : Word) (width : Nat) (ladjust : Bool) {padc : Byte}
    (hpadc : padc = 0x20 ∨ padc = 0x30) (b : NumBuf) :
    ∃ b', printDecimal num width ladjust padc b =
      .ret (padded (numeral num.toInt.natAbs 10 false) (num.toInt < 0) width ladjust padc) b' := by
  have hlt := num.isLt
  unfold printDecimal
  split
  · next hneg =>
    have habs : num.toInt.natAbs = (-num).toNat := by
      rw [BitVec.toInt_eq_toNat_cond] at hneg ⊢
      rw [BitVec.toNat_neg]
      split at hneg
      · omega
      · rw [if_neg (by assumption)]
        omega
    rw [habs, decide_eq_true hneg]
    exact printNum_ret (by decide) _ _ _ _ hpadc _ b
  · next hneg =>
    have habs : num.toInt.natAbs = num.toNat := by
      rw [BitVec.toInt_eq_toNat_cond] at hneg ⊢
      split
      · omega
      · rw [if_neg (by assumption)] at hneg
        omega
    rw [habs, decide_eq_false hneg]
    exact printNum_ret (by decide) _ _ _ _ hpadc _ b

/-! ## Reading a number back -/

theorem isDigit_digitChar {d : Nat} (h : d < 10) : isDigit (digitChar false d) = true ∧
    (digitChar false d).toNat = 0x30 + d := by
  have hall : ∀ e < 10, isDigit (digitChar false e) = true ∧ (digitChar false e).toNat = 0x30 + e := by decide
  exact hall d h

theorem digitsOf_lt (hbase : 2 ≤ base) (u : Nat) : ∀ d ∈ digitsOf base u, d < base := by
  intro d hd
  unfold digitsOf at hd
  split at hd
  · obtain rfl : d = 0 := by simpa using hd
    omega
  · exact Nat.digits_lt_base (by omega) hd

theorem ofDigits_digitsOf (base u : Nat) : Nat.ofDigits base (digitsOf base u) = u := by
  unfold digitsOf
  split
  · next h => simp [h]
  · exact Nat.ofDigits_digits base u

theorem decimalValue_numeral (u : Nat) : decimalValue (numeral u 10 false) = u := by
  have hdigits : ∀ ds : List Nat, (∀ d ∈ ds, d < 10) →
      decimalValue ((ds.map (digitChar false)).reverse) = Nat.ofDigits 10 ds := by
    intro ds
    induction ds with
    | nil => exact fun _ => rfl
    | cons d ds ih =>
      intro h
      have hd := isDigit_digitChar (h d List.mem_cons_self)
      have htail := ih fun e he => h e (List.mem_cons_of_mem d he)
      rw [List.map_cons, List.reverse_cons, Nat.ofDigits_cons, ← htail]
      unfold decimalValue
      rw [List.foldl_append, List.foldl_cons, List.foldl_nil, hd.2]
      omega
  rw [numeral, hdigits _ (digitsOf_lt (by decide) u), ofDigits_digitsOf]

/-- Zeros in front do not matter. -/
theorem decimalValue_zeros (n : Nat) (s : List Byte) :
    decimalValue (List.replicate n 0x30 ++ s) = decimalValue s := by
  induction n with
  | zero => rfl
  | succ n ih =>
    rw [List.replicate_succ, List.cons_append]
    exact ih

theorem isDigit_numeral (u : Nat) : ∀ c ∈ numeral u 10 false, isDigit c = true := by
  intro c hc
  rw [numeral, List.mem_reverse, List.mem_map] at hc
  obtain ⟨d, hd, rfl⟩ := hc
  exact (isDigit_digitChar (digitsOf_lt (by decide) u d hd)).1

/-- A number in the middle of spaces is read. -/
theorem readInt_spaces (m n : Nat) (neg : Bool) {ds : List Byte} (hne : ds ≠ []) (hds : ∀ c ∈ ds, isDigit c = true) :
    readInt (List.replicate m 0x20 ++ signed neg ds ++ List.replicate n 0x20) =
      some (if neg then -(decimalValue ds : Int) else decimalValue ds) := by
  obtain ⟨c, cs, rfl⟩ := List.exists_cons_of_ne_nil hne
  have hc := hds c List.mem_cons_self
  have hspace : c ≠ 0x20 := by
    rintro rfl
    exact absurd hc (by decide)
  have hminus : c ≠ 0x2d := by
    rintro rfl
    exact absurd hc (by decide)
  have hdrop : (List.replicate m (0x20 : Byte) ++ signed neg (c :: cs) ++ List.replicate n 0x20).dropWhile (· = 0x20) =
      signed neg (c :: cs) ++ List.replicate n 0x20 := by
    rw [List.append_assoc, List.dropWhile_append_of_pos (by simp)]
    cases neg with
    | true => exact List.dropWhile_cons_of_neg (by decide)
    | false => exact List.dropWhile_cons_of_neg (by simpa using hspace)
  have htake : ((c :: cs) ++ List.replicate n (0x20 : Byte)).takeWhile isDigit = c :: cs := by
    rw [List.takeWhile_append_of_pos hds, List.takeWhile_replicate, if_neg (by decide), List.append_nil]
  have hrest : ((c :: cs) ++ List.replicate n (0x20 : Byte)).dropWhile isDigit = List.replicate n 0x20 := by
    rw [List.dropWhile_append_of_pos hds, List.dropWhile_replicate, if_neg (by decide)]
  have hall : (List.replicate n (0x20 : Byte)).all (· = 0x20) = true := by simp
  unfold readInt
  rw [hdrop]
  cases neg with
  | true =>
    have hhead : decide ((signed true (c :: cs) ++ List.replicate n (0x20 : Byte)).head? = some 0x2d) = true := by simp [signed]
    have htail : (signed true (c :: cs) ++ List.replicate n (0x20 : Byte)).drop 1 = (c :: cs) ++ List.replicate n 0x20 := rfl
    simp only [hhead, if_true, htail, htake, hrest]
    exact if_pos ⟨hne, hall⟩
  | false =>
    have hhead : decide (((c :: cs) ++ List.replicate n (0x20 : Byte)).head? = some 0x2d) = false := by
      simpa using hminus
    have hsame : signed false (c :: cs) = c :: cs := rfl
    rw [hsame]
    simp only [hhead, Bool.false_eq_true, if_false, htake, hrest]
    exact if_pos ⟨hne, hall⟩

/-- Padding does not change the number. -/
theorem readInt_padded (u : Nat) (neg : Bool) (width : Nat) (ladjust : Bool) (padc : Byte) :
    readInt (padded (numeral u 10 false) neg width ladjust padc) = some (if neg then -(u : Int) else u) := by
  have hne : numeral u 10 false ≠ [] := by
    intro hnil
    have h := congrArg List.length hnil
    rw [numeral, List.length_reverse, List.length_map, digitsOf_step (by decide)] at h
    exact absurd h (Nat.succ_ne_zero _)
  have hds := isDigit_numeral u
  unfold padded
  cases ladjust with
  | true =>
    have h := readInt_spaces 0 (width - (signed neg (numeral u 10 false)).length) neg hne hds
    rw [decimalValue_numeral] at h
    exact h
  | false =>
    by_cases hpadc : padc = 0x30
    · have hzeros : ∀ c ∈ List.replicate (width - (signed neg (numeral u 10 false)).length) 0x30 ++ numeral u 10 false,
          isDigit c = true := by
        intro c hc
        rcases List.mem_append.mp hc with hc | hc
        · rw [List.eq_of_mem_replicate hc]
          decide
        · exact hds c hc
      have h := readInt_spaces 0 0 neg (by simp [hne]) hzeros
      rw [decimalValue_zeros, decimalValue_numeral] at h
      rw [if_neg Bool.false_ne_true, if_pos hpadc]
      simpa using h
    · have h := readInt_spaces (width - (signed neg (numeral u 10 false)).length) 0 neg hne hds
      rw [decimalValue_numeral] at h
      rw [if_neg Bool.false_ne_true, if_neg hpadc]
      simpa using h

/-! ## Main result -/

theorem padded_length (s : List Byte) (neg : Bool) (width : Nat) (ladjust : Bool) (padc : Byte) :
    (padded s neg width ladjust padc).length = max width (signed neg s).length := by
  have hsigned : ∀ t : List Byte, (signed neg t).length = t.length + if neg then 1 else 0 := by
    intro t
    cases neg <;> rfl
  unfold padded
  split
  · rw [List.length_append, List.length_replicate]
    omega
  · split
    · rw [hsigned, hsigned, List.length_append, List.length_replicate]
      omega
    · rw [List.length_append, List.length_replicate]
      omega

/-- The digits of a number other than zero do not begin with a zero. -/
theorem digitsOf_getLast (base : Nat) {u : Nat} (hu : u ≠ 0) : (digitsOf base u).getLast? ≠ some 0 := by
  unfold digitsOf
  rw [if_neg hu, List.getLast?_eq_some_getLast (Nat.digits_ne_nil_iff_ne_zero.mpr hu)]
  exact fun h => Nat.getLast_digit_ne_zero base hu (Option.some.inj h)

/-- **`print_num` stays inside its array for every number, base and width; it prints the digits of the number,
padded to the width, and what `%d` prints is read back as the same number.** -/
theorem printNum_renders :
    (∀ (u : Word) (base : Nat) (neg : Bool) (width : Nat) (ladjust : Bool) (padc : Byte) (upcase : Bool) (b : NumBuf),
      2 ≤ base → base ≤ 16 → padc = 0x20 ∨ padc = 0x30 →
      ∃ ds b', Nat.ofDigits base ds = u.toNat ∧ (∀ d ∈ ds, d < base) ∧ (if u = 0 then ds = [0] else ds.getLast? ≠ some 0) ∧
        printNum u base neg width ladjust padc upcase b =
          .ret (padded (ds.map (digitChar upcase)).reverse neg width ladjust padc) b' ∧
        (padded (ds.map (digitChar upcase)).reverse neg width ladjust padc).length =
          max width (ds.length + if neg then 1 else 0)) ∧
    ∀ (n : Word) (width : Nat) (ladjust : Bool) (padc : Byte) (b : NumBuf), padc = 0x20 ∨ padc = 0x30 →
      ∃ s b', printDecimal n width ladjust padc b = .ret s b' ∧ readInt s = some n.toInt := by
  refine ⟨fun u base neg width ladjust padc upcase b hbase _ hpadc => ?_, fun n width ladjust padc b hpadc => ?_⟩
  · obtain ⟨b', hprint⟩ := printNum_ret hbase u neg width ladjust hpadc upcase b
    refine ⟨digitsOf base u.toNat, b', ofDigits_digitsOf base _, digitsOf_lt hbase _, ?_, hprint, ?_⟩
    · split
      · next h => rw [h]; rfl
      · next h => exact digitsOf_getLast base fun h0 => h (BitVec.eq_of_toNat_eq h0)
    · rw [padded_length]
      cases neg <;> simp [signed]
  · obtain ⟨b', hprint⟩ := printDecimal_ret n width ladjust hpadc b
    refine ⟨_, b', hprint, ?_⟩
    rw [readInt_padded]
    congr 1
    by_cases hneg : n.toInt < 0
    · rw [if_pos (decide_eq_true hneg)]
      omega
    · rw [if_neg (by simpa using hneg)]
      omega

/-- 255 in base 16 and the least number in base 10, in an array with arbitrary contents. -/
theorem printNum_renders_small :
    (∃ s b', printNum 255 16 false 6 true 0x20 true ⟨0, fun _ => 7⟩ = .ret s b' ∧ s.length = 6) ∧
    ∃ s b', printDecimal 0x80000000 4 false 0x30 ⟨0, fun _ => 7⟩ = .ret s b' ∧ readInt s = some (-2147483648) := by
  constructor
  · obtain ⟨ds, b', hval, hlt, hlead, hprint, hlen⟩ :=
      printNum_renders.1 255 16 false 6 true 0x20 true ⟨0, fun _ => 7⟩ (by decide) (by decide) (.inl rfl)
    refine ⟨_, b', hprint, hlen.trans ?_⟩
    have hshort : ds.length ≤ 6 := by
      have hds : Nat.digits 16 (Nat.ofDigits 16 ds) = ds :=
        Nat.digits_ofDigits 16 (by decide) ds hlt fun hne hzero => hlead
          (by rw [List.getLast?_eq_some_getLast hne, hzero])
      rw [← hds, hval]
      decide
    rw [if_neg Bool.false_ne_true]
    omega
  · exact printNum_renders.2 0x80000000 4 false 0x30 ⟨0, fun _ => 7⟩ (.inr rfl)

end Mos
