import Mos.User.Print

/-!
# Format strings

`vprintfmt` of `lib/print.c` scans a format string by its characters. What a format string means is said by its
pieces: characters that are copied, and directives.
-/

namespace Mos

open Lib Prog Function

/-! ## `lib/print.c` -/

/-- A string in memory, without its terminator. -/
structure CString where
  chars : List Byte
  nonzero : ∀ c ∈ chars, c ≠ 0

/-- An argument. Integers have 32 bits, whether they are `int` or `long`. -/
inductive Arg where
  | int (w : Word)
  | str (s : CString)

/-- What a call of `vprintfmt` works on. -/
structure Printer where
  /-- `ap`. -/
  args : List Arg
  /-- The strings that `out` has been called with. -/
  out : List (List Byte)
  /-- What lies on the stack where local arrays begin. -/
  stack : Nat → Byte

/-- Functions that print. -/
abbrev PrintM := Prog Printer Empty PrintPanic

/-- `s[i]`. -/
def CString.charAt (s : CString) (i : Nat) : PrintM Byte := do
  Prog.assert (i ≤ s.chars.length) .wild
  pure (s.chars.getD i 0)

/-- `out(data, s, l)`. -/
def outChars (s : List Byte) : PrintM Unit := Prog.modify fun p => { p with out := p.out ++ [s] }

/-- `va_arg(ap, int)` and `va_arg(ap, long int)`. -/
def vaInt : PrintM Word := fun p =>
  match p.args with
  | .int w :: args => .ret w { p with args := args }
  | _ => .halt .wild

/-- `va_arg(ap, char *)`. -/
def vaStr : PrintM CString := fun p =>
  match p.args with
  | .str s :: args => .ret s { p with args := args }
  | _ => .halt .wild

/-- `print_char(out, data, c, length, ladjust)`. -/
def printChar (c : Byte) (length : Nat) (ladjust : Bool) : PrintM Unit :=
  let length := if length < 1 then 1 else length
  if ladjust then do
    outChars [c]
    Prog.loop (fun _ => outChars [0x20]) 1 (length - 1)
  else do
    Prog.loop (fun _ => outChars [0x20]) 0 (length - 1)
    outChars [c]

/-- The loop of `print_str` that counts. -/
def lenRun (s : CString) : Nat → Nat → PrintM Nat
  | 0, _ => Prog.halt .spin
  | fuel + 1, len => do
    let c ← s.charAt len
    if c ≠ 0 then lenRun s fuel (len + 1) else pure len

/-- `print_str(out, data, s, length, ladjust)`. -/
def printStr (s : CString) (length : Nat) (ladjust : Bool) : PrintM Unit := do
  let len ← lenRun s (s.chars.length + 1) 0
  let length := if length < len then len else length
  if ladjust then do
    outChars (s.chars.take len)
    Prog.loop (fun _ => outChars [0x20]) len (length - len)
  else do
    Prog.loop (fun _ => outChars [0x20]) 0 (length - len)
    outChars (s.chars.take len)

/-- A call of `print_num`, whose array has `length + 70` elements. -/
def callNum (length : Nat) (m : BufM (List Byte)) : PrintM Unit := do
  Prog.assert (length + 70 < 2 ^ 31) .overflow
  let s ← Prog.zoom (fun p : Printer => (⟨0, p.stack⟩ : NumBuf)) (fun _ p => p) id m
  outChars s

/-- `width`, `ladjust` and `padc` of `vprintfmt`. -/
structure Flags where
  width : Nat
  ladjust : Bool
  padc : Byte

/-- The loop to the next `%`, with `fmt` at position `i`. -/
def textRun (f : CString) : Nat → Nat → PrintM Nat
  | 0, _ => Prog.halt .spin
  | fuel + 1, i => do
    let c ← f.charAt i
    if c ≠ 0 ∧ c ≠ 0x25 then do
      outChars [c]
      textRun f fuel (i + 1)
    else pure i

/-- The format flag. -/
def scanFlag (f : CString) (v : Flags) (i : Nat) : PrintM (Flags × Nat) := do
  let c ← f.charAt i
  if c = 0x2d then pure ({ v with ladjust := true, padc := 0x20 }, i + 1)
  else if c = 0x30 then pure ({ v with padc := 0x30 }, i + 1)
  else pure (v, i)

/-- The loop over the digits of the width. -/
def widthRun (f : CString) : Nat → Flags → Nat → PrintM (Flags × Nat)
  | 0, _, _ => Prog.halt .spin
  | fuel + 1, v, i => do
    let c ← f.charAt i
    if 0x30 ≤ c.toNat ∧ c.toNat ≤ 0x39 then do
      Prog.assert (v.width * 10 + c.toNat < 2 ^ 31) .overflow
      widthRun f fuel { v with width := v.width * 10 + c.toNat - 0x30 } (i + 1)
    else pure (v, i)

/-- The letter `l`. -/
def scanLong (f : CString) (i : Nat) : PrintM Nat := do
  let c ← f.charAt i
  if c = 0x6c then pure (i + 1) else pure i

/-- The `switch` of `vprintfmt`, for a character other than the terminator. -/
def convert (v : Flags) (c : Byte) : PrintM Unit :=
  if c = 0x62 then do
    let num ← vaInt
    callNum v.width (printNum num 2 false v.width v.ladjust v.padc false)
  else if c = 0x64 ∨ c = 0x44 then do
    let num ← vaInt
    callNum v.width (printDecimal num v.width v.ladjust v.padc)
  else if c = 0x6f ∨ c = 0x4f then do
    let num ← vaInt
    callNum v.width (printNum num 8 false v.width v.ladjust v.padc false)
  else if c = 0x75 ∨ c = 0x55 then do
    let num ← vaInt
    callNum v.width (printNum num 10 false v.width v.ladjust v.padc false)
  else if c = 0x78 then do
    let num ← vaInt
    callNum v.width (printNum num 16 false v.width v.ladjust v.padc false)
  else if c = 0x58 then do
    let num ← vaInt
    callNum v.width (printNum num 16 false v.width v.ladjust v.padc true)
  else if c = 0x63 then do
    let c ← vaInt
    printChar (c.setWidth 8) v.width v.ladjust
  else if c = 0x73 then do
    let s ← vaStr
    printStr s v.width v.ladjust
  else outChars [c]

/-- The outer loop of `vprintfmt`. -/
def fmtRun (f : CString) : Nat → Flags → Nat → PrintM Unit
  | 0, _, _ => Prog.halt .spin
  | fuel + 1, v, i => do
    let i ← textRun f (f.chars.length + 1) i
    let v := { v with width := 0, ladjust := false, padc := 0x20 }
    let c ← f.charAt i
    if c = 0 then pure ()
    else do
      let (v, i) ← scanFlag f v (i + 1)
      let (v, i) ← widthRun f (f.chars.length + 1) v i
      let i ← scanLong f i
      let c ← f.charAt i
      -- at the terminator `fmt` steps back, and forward again behind the `switch`
      if c = 0 then fmtRun f fuel v (i - 1 + 1)
      else do
        convert v c
        fmtRun f fuel v (i + 1)

/-- `vprintfmt(out, data, fmt, ap)`. -/
def vprintfmt (f : CString) : PrintM Unit := fmtRun f (f.chars.length + 1) ⟨0, false, 0x20⟩ 0

/-! ## What a format string means -/

/-- What is between `%` and the conversion, and the conversion, unless the string ends before it. -/
structure Directive where
  /-- `-` or `0`. -/
  flag : Option Byte
  width : Nat
  conv : Option Byte

/-- Whether a character is a flag. -/
def isFlag (c : Byte) : Bool := decide (c = 0x2d ∨ c = 0x30)

/-- Reads a directive behind its `%`: an optional flag, digits, an optional `l` and the conversion. -/
def readDirective (cs : List Byte) : Directive × List Byte :=
  let flag := cs.head?.filter isFlag
  let cs := if flag.isSome then cs.tail else cs
  let rest := cs.dropWhile isDigit
  let rest := if rest.head? = some 0x6c then rest.tail else rest
  (⟨flag, decimalValue (cs.takeWhile isDigit), rest.head?⟩, rest.tail)

/-- A part of a format string. -/
inductive Piece where
  | text (c : Byte)
  | directive (d : Directive)

theorem readDirective_length (cs : List Byte) : (readDirective cs).2.length ≤ cs.length := by
  unfold readDirective
  have htail : ∀ xs : List Byte, xs.tail.length ≤ xs.length := fun xs => by simp
  have hif : ∀ (p : Prop) [Decidable p] (xs : List Byte), (if p then xs.tail else xs).length ≤ xs.length := by
    intro p _ xs
    split
    · exact htail xs
    · exact Nat.le_refl _
  exact (htail _).trans ((hif _ _).trans ((List.dropWhile_suffix _).length_le.trans (hif _ _)))

/-- The parts of a format string. -/
def piecesOf : List Byte → List Piece
  | [] => []
  | c :: cs =>
    if c = 0x25 then .directive (readDirective cs).1 :: piecesOf (readDirective cs).2 else .text c :: piecesOf cs
termination_by cs => cs.length
decreasing_by
  · exact Nat.lt_succ_of_le (readDirective_length cs)
  · exact Nat.lt_succ_self _

/-- What a conversion prints. -/
inductive Conv where
  | unsigned (base : Nat) (upcase : Bool)
  | decimal
  | char
  | string

/-- The conversions: `b d D o O u U x X c s`. -/
def conversion (c : Byte) : Option Conv :=
  if c = 0x62 then some (.unsigned 2 false)
  else if c = 0x64 ∨ c = 0x44 then some .decimal
  else if c = 0x6f ∨ c = 0x4f then some (.unsigned 8 false)
  else if c = 0x75 ∨ c = 0x55 then some (.unsigned 10 false)
  else if c = 0x78 then some (.unsigned 16 false)
  else if c = 0x58 then some (.unsigned 16 true)
  else if c = 0x63 then some .char
  else if c = 0x73 then some .string
  else none

/-- What a conversion makes of its argument. Zeros are only put before numbers. -/
def Conv.render (d : Directive) : Conv → Arg → Option (List Byte)
  | .unsigned base upcase, .int w => some (padded (numeral w.toNat base upcase) false d.width
      (d.flag = some 0x2d) (if d.flag = some 0x30 then 0x30 else 0x20))
  | .decimal, .int w => some (padded (numeral w.toInt.natAbs 10 false) (w.toInt < 0) d.width
      (d.flag = some 0x2d) (if d.flag = some 0x30 then 0x30 else 0x20))
  | .char, .int w => some (padded [w.setWidth 8] false d.width (d.flag = some 0x2d) 0x20)
  | .string, .str s => some (padded s.chars false d.width (d.flag = some 0x2d) 0x20)
  | _, _ => none

/-- What the parts of a format string print, and the arguments that remain. A conversion takes one argument; the
characters after `%` that are no conversion are printed, and a directive without a character prints nothing. -/
def render : List Piece → List Arg → Option (List Byte × List Arg)
  | [], args => some ([], args)
  | .text c :: ps, args => (render ps args).map fun r => (c :: r.1, r.2)
  | .directive d :: ps, args =>
    match d.conv with
    | none => render ps args
    | some c =>
      match conversion c, args with
      | none, args => (render ps args).map fun r => (c :: r.1, r.2)
      | some k, a :: args => (k.render d a).bind fun s => (render ps args).map fun r => (s ++ r.1, r.2)
      | some _, [] => none

/-! ## Reading the format string -/

variable {f : CString} {p : Printer} {v : Flags} {i : Nat} {c : Byte} {cs : List Byte}

/-- The rest of the string from position `i` on is `cs`. -/
def CString.At (f : CString) (i : Nat) (cs : List Byte) : Prop := i ≤ f.chars.length ∧ f.chars.drop i = cs

theorem CString.At.start (f : CString) : f.At 0 f.chars := ⟨Nat.zero_le _, rfl⟩

theorem CString.At.next (h : f.At i (c :: cs)) : f.At (i + 1) cs := by
  obtain ⟨hle, hdrop⟩ := h
  have hlen := congrArg List.length hdrop
  rw [List.length_drop, List.length_cons] at hlen
  refine ⟨by omega, ?_⟩
  rw [← List.drop_drop, hdrop]
  rfl

theorem CString.At.charAt (h : f.At i cs) (p : Printer) : f.charAt i p = .ret (cs.headD 0) p := by
  obtain ⟨hle, rfl⟩ := h
  rw [CString.charAt, bind_ret (assert_pos hle)]
  show Outcome.ret (f.chars.getD i 0) p = _
  congr 1
  rw [List.headD_eq_head?_getD, List.head?_drop, List.getD_eq_getElem?_getD]

theorem CString.At.ne_zero (h : f.At i (c :: cs)) : c ≠ 0 := by
  refine f.nonzero c ?_
  have hmem : c ∈ f.chars.drop i := by
    rw [h.2]
    exact List.mem_cons_self
  exact List.mem_of_mem_drop hmem

theorem CString.At.length_le (h : f.At i cs) : cs.length ≤ f.chars.length := by
  rw [← h.2, List.length_drop]
  omega

/-- The text up to the next `%` is copied. -/
theorem textRun_ret : ∀ (cs : List Byte) fuel i (p : Printer), f.At i cs → cs.length < fuel →
    ∃ j, textRun f fuel i p = .ret j { p with out := p.out ++ (cs.takeWhile (· ≠ 0x25)).map fun c => [c] } ∧
      f.At j (cs.dropWhile (· ≠ 0x25)) := by
  intro cs
  induction cs with
  | nil =>
    intro fuel i p h hfuel
    obtain ⟨n, rfl⟩ := Nat.exists_eq_succ_of_ne_zero (Nat.ne_of_gt hfuel)
    refine ⟨i, ?_, h⟩
    rw [textRun, bind_ret (h.charAt p), if_neg (by simp)]
    simp
  | cons c cs ih =>
    intro fuel i p h hfuel
    obtain ⟨n, rfl⟩ : ∃ n, fuel = n + 1 := ⟨fuel - 1, by omega⟩
    rw [textRun, bind_ret (h.charAt p)]
    by_cases hc : c = 0x25
    · refine ⟨i, ?_, ?_⟩
      · rw [if_neg (by simp [hc])]
        simp [hc]
      · rwa [List.dropWhile_cons_of_neg (by simp [hc])]
    · rw [if_pos ⟨h.ne_zero, hc⟩]
      obtain ⟨j, hrun, hj⟩ := ih n (i + 1) { p with out := p.out ++ [[c]] } h.next (by simpa using hfuel)
      refine ⟨j, ?_, ?_⟩
      · rw [outChars, modify_bind]
        refine hrun.trans ?_
        rw [List.takeWhile_cons_of_pos (by simpa using hc), List.map_cons]
        simp
      · rwa [List.dropWhile_cons_of_pos (by simpa using hc)]

theorem scanFlag_ret (h : f.At i cs) (p : Printer) :
    ∃ j, scanFlag f v i p = .ret ({ v with
        ladjust := if cs.head?.filter isFlag = some 0x2d then true else v.ladjust
        padc := if cs.head?.filter isFlag = some 0x2d then 0x20
          else if cs.head?.filter isFlag = some 0x30 then 0x30 else v.padc }, j) p ∧
      f.At j (if (cs.head?.filter isFlag).isSome then cs.tail else cs) := by
  rw [scanFlag, bind_ret (h.charAt p)]
  cases cs with
  | nil => exact ⟨i, rfl, h⟩
  | cons c cs =>
    rw [List.headD_cons]
    by_cases hminus : c = 0x2d
    · subst hminus
      exact ⟨i + 1, rfl, h.next⟩
    · by_cases hzero : c = 0x30
      · subst hzero
        exact ⟨i + 1, rfl, h.next⟩
      · have hfalse : isFlag c = false := decide_eq_false fun h => h.elim hminus hzero
        have hflag : (some c).filter isFlag = none := by simp [hfalse]
        rw [if_neg hminus, if_neg hzero, List.head?_cons, hflag]
        exact ⟨i, rfl, h⟩

theorem scanLong_ret (h : f.At i cs) (p : Printer) :
    ∃ j, scanLong f i p = .ret j p ∧ f.At j (if cs.head? = some 0x6c then cs.tail else cs) := by
  rw [scanLong, bind_ret (h.charAt p)]
  cases cs with
  | nil => exact ⟨i, rfl, h⟩
  | cons c cs =>
    rw [List.headD_cons, List.head?_cons]
    by_cases hc : c = 0x6c
    · rw [if_pos hc, if_pos (congrArg some hc)]
      exact ⟨i + 1, rfl, h.next⟩
    · rw [if_neg hc, if_neg fun heq => hc (Option.some.inj heq)]
      exact ⟨i, rfl, h⟩

/-- The value of digits behind those that have the value `n`. -/
def valueFrom (n : Nat) (ds : List Byte) : Nat := ds.foldl (fun v c => 10 * v + (c.toNat - 0x30)) n

theorem le_valueFrom (ds : List Byte) : ∀ n, n ≤ valueFrom n ds := by
  induction ds with
  | nil => exact fun n => Nat.le_refl n
  | cons c ds ih => exact fun n => (by omega : n ≤ 10 * n + (c.toNat - 0x30)).trans (ih _)

theorem widthRun_ret : ∀ (cs : List Byte) fuel i (v : Flags) (p : Printer), f.At i cs → cs.length < fuel →
    valueFrom v.width (cs.takeWhile isDigit) + 70 < 2 ^ 31 →
    ∃ j, widthRun f fuel v i p = .ret ({ v with width := valueFrom v.width (cs.takeWhile isDigit) }, j) p ∧
      f.At j (cs.dropWhile isDigit) := by
  intro cs
  induction cs with
  | nil =>
    intro fuel i v p h hfuel _
    obtain ⟨n, rfl⟩ := Nat.exists_eq_succ_of_ne_zero (Nat.ne_of_gt hfuel)
    refine ⟨i, ?_, h⟩
    rw [widthRun, bind_ret (h.charAt p), if_neg (by decide)]
    rfl
  | cons c cs ih =>
    intro fuel i v p h hfuel hwidth
    obtain ⟨n, rfl⟩ : ∃ n, fuel = n + 1 := ⟨fuel - 1, by omega⟩
    rw [widthRun, bind_ret (h.charAt p), List.headD_cons]
    by_cases hc : 0x30 ≤ c.toNat ∧ c.toNat ≤ 0x39
    · have hdigit : isDigit c = true := decide_eq_true hc
      rw [List.takeWhile_cons_of_pos hdigit] at hwidth ⊢
      rw [List.dropWhile_cons_of_pos hdigit]
      have hstep : v.width * 10 + c.toNat - 0x30 = 10 * v.width + (c.toNat - 0x30) := by omega
      have hle := le_valueFrom (cs.takeWhile isDigit) (10 * v.width + (c.toNat - 0x30))
      rw [show valueFrom v.width (c :: cs.takeWhile isDigit) =
        valueFrom (10 * v.width + (c.toNat - 0x30)) (cs.takeWhile isDigit) from rfl] at hwidth ⊢
      rw [if_pos hc, bind_ret (assert_pos (by omega)), hstep]
      exact ih n (i + 1) { v with width := 10 * v.width + (c.toNat - 0x30) } p h.next (by simpa using hfuel) hwidth
    · have hdigit : ¬isDigit c = true := by simpa [isDigit] using hc
      rw [if_neg hc, List.takeWhile_cons_of_neg hdigit, List.dropWhile_cons_of_neg hdigit]
      exact ⟨i, rfl, h⟩

/-! ## Printing -/

theorem outLoop_ret : ∀ n i (p : Printer), Prog.loop (fun _ => outChars [0x20]) i n p =
    .ret () { p with out := p.out ++ List.replicate n [0x20] } := by
  intro n
  induction n with
  | zero => exact fun i p => by simp [Prog.loop]
  | succ n ih =>
    intro i p
    rw [Prog.loop, outChars, modify_bind]
    refine (ih (i + 1) _).trans ?_
    rw [List.append_assoc, List.replicate_succ]
    rfl

/-- `m` prints the characters `s`, perhaps in several pieces. -/
def Prints (m : PrintM Unit) (p : Printer) (s : List Byte) : Prop :=
  ∃ ss, m p = .ret () { p with out := p.out ++ ss } ∧ ss.flatten = s

theorem printChar_prints (c : Byte) (length : Nat) (ladjust : Bool) (p : Printer) :
    Prints (printChar c length ladjust) p (padded [c] false length ladjust 0x20) := by
  have hlen : (if length < 1 then 1 else length) - 1 = length - 1 := by
    split <;> omega
  unfold printChar padded
  dsimp only
  rw [hlen]
  cases ladjust with
  | true =>
    refine ⟨[c] :: List.replicate (length - 1) [0x20], ?_, by simp [signed]⟩
    rw [if_pos rfl, outChars, modify_bind]
    refine (outLoop_ret _ _ _).trans ?_
    rw [List.append_assoc]
    rfl
  | false =>
    refine ⟨List.replicate (length - 1) [0x20] ++ [[c]], ?_, by simp [signed]⟩
    rw [if_neg Bool.false_ne_true, bind_ret (outLoop_ret _ _ _)]
    exact congrArg (fun out => Outcome.ret () { p with out := out }) (List.append_assoc _ _ _)

theorem lenRun_ret (s : CString) : ∀ (cs : List Byte) fuel i (p : Printer), s.At i cs → cs.length < fuel →
    lenRun s fuel i p = .ret (i + cs.length) p := by
  intro cs
  induction cs with
  | nil =>
    intro fuel i p h hfuel
    obtain ⟨n, rfl⟩ := Nat.exists_eq_succ_of_ne_zero (Nat.ne_of_gt hfuel)
    rw [lenRun, bind_ret (h.charAt p), if_neg (by simp)]
    rfl
  | cons c cs ih =>
    intro fuel i p h hfuel
    obtain ⟨n, rfl⟩ : ∃ n, fuel = n + 1 := ⟨fuel - 1, by omega⟩
    rw [lenRun, bind_ret (h.charAt p), List.headD_cons, if_pos h.ne_zero, ih n (i + 1) p h.next (by simpa using hfuel)]
    congr 1
    rw [List.length_cons]
    omega

theorem printStr_prints (s : CString) (length : Nat) (ladjust : Bool) (p : Printer) :
    Prints (printStr s length ladjust) p (padded s.chars false length ladjust 0x20) := by
  have hlen := lenRun_ret s s.chars (s.chars.length + 1) 0 p (CString.At.start s) (Nat.lt_succ_self _)
  rw [Nat.zero_add] at hlen
  have hfill : (if length < s.chars.length then s.chars.length else length) - s.chars.length =
      length - s.chars.length := by
    split <;> omega
  unfold Prints printStr padded
  rw [bind_ret hlen, List.take_length]
  dsimp only
  rw [hfill]
  cases ladjust with
  | true =>
    refine ⟨s.chars :: List.replicate (length - s.chars.length) [0x20], ?_, by simp [signed]⟩
    rw [if_pos rfl, outChars, modify_bind]
    refine (outLoop_ret _ _ _).trans ?_
    rw [List.append_assoc]
    rfl
  | false =>
    refine ⟨List.replicate (length - s.chars.length) [0x20] ++ [s.chars], ?_, by simp [signed]⟩
    rw [if_neg Bool.false_ne_true, bind_ret (outLoop_ret _ _ _)]
    exact congrArg (fun out => Outcome.ret () { p with out := out }) (List.append_assoc _ _ _)

theorem callNum_prints {width : Nat} {m : BufM (List Byte)} {s : List Byte} (hwidth : width + 70 < 2 ^ 31)
    (hm : ∀ b, ∃ b', m b = .ret s b') (p : Printer) : Prints (callNum width m) p s := by
  obtain ⟨b', hb⟩ := hm ⟨0, p.stack⟩
  refine ⟨[s], ?_, by simp⟩
  have hzoom : Prog.zoom (fun p : Printer => (⟨0, p.stack⟩ : NumBuf)) (fun _ p => p) id m p = .ret s p := by
    unfold Prog.zoom
    rw [hb]
  rw [callNum, bind_ret (assert_pos hwidth), bind_ret hzoom]
  rfl

/-! ## One conversion -/

/-- The flags that belong to a directive. -/
structure Flags.For (v : Flags) (d : Directive) : Prop where
  width : v.width = d.width
  ladjust : v.ladjust = decide (d.flag = some 0x2d)
  padc : v.padc = if d.flag = some 0x30 then 0x30 else 0x20
  fits : d.width + 70 < 2 ^ 31

theorem Flags.For.padc_cases {d : Directive} (h : v.For d) : v.padc = 0x20 ∨ v.padc = 0x30 := by
  rw [h.padc]
  split
  · exact .inr rfl
  · exact .inl rfl

/-- A conversion that takes an argument and prints what it means. -/
def Takes (m : PrintM Unit) (p : Printer) (args : List Arg) (s : List Byte) : Prop :=
  ∃ ss, m p = .ret () { p with args := args, out := p.out ++ ss } ∧ ss.flatten = s

theorem takes_int {m : Word → PrintM Unit} {w : Word} {args : List Arg} {s : List Byte}
    (hargs : p.args = .int w :: args) (hm : ∀ q, Prints (m w) q s) :
    Takes (do let num ← vaInt; m num) p args s := by
  obtain ⟨ss, hrun, hflat⟩ := hm { p with args := args }
  have hva : vaInt p = .ret w { p with args := args } := by
    unfold vaInt
    rw [hargs]
  exact ⟨ss, (bind_ret hva).trans hrun, hflat⟩

theorem takes_str {m : CString → PrintM Unit} {w : CString} {args : List Arg} {s : List Byte}
    (hargs : p.args = .str w :: args) (hm : ∀ q, Prints (m w) q s) :
    Takes (do let s ← vaStr; m s) p args s := by
  obtain ⟨ss, hrun, hflat⟩ := hm { p with args := args }
  have hva : vaStr p = .ret w { p with args := args } := by
    unfold vaStr
    rw [hargs]
  exact ⟨ss, (bind_ret hva).trans hrun, hflat⟩

theorem takes_number {d : Directive} {base : Nat} {upcase : Bool} {a : Arg} {args : List Arg} {s : List Byte}
    (hv : v.For d) (hbase : 2 ≤ base) (hargs : p.args = a :: args)
    (hs : (Conv.unsigned base upcase).render d a = some s) :
    Takes (do
      let num ← vaInt
      callNum v.width (printNum num base false v.width v.ladjust v.padc upcase)) p args s := by
  cases a with
  | str w => cases hs
  | int w =>
    refine takes_int hargs fun q => callNum_prints (hv.width ▸ hv.fits) (fun b => ?_) q
    obtain ⟨b', hprint⟩ := printNum_ret hbase w false v.width v.ladjust hv.padc_cases upcase b
    refine ⟨b', hprint.trans ?_⟩
    rw [← Option.some.inj hs, hv.width, hv.ladjust, hv.padc]

theorem convert_other (h : conversion c = none) (v : Flags) : convert v c = outChars [c] := by
  have hnone : ∀ {q : Prop} [Decidable q] {k : Conv} {o : Option Conv}, (if q then some k else o) = none → ¬q ∧ o = none := by
    intro q _ k o h
    split at h
    · cases h
    · next hq => exact ⟨hq, h⟩
  obtain ⟨h1, h⟩ := hnone h
  obtain ⟨h2, h⟩ := hnone h
  obtain ⟨h3, h⟩ := hnone h
  obtain ⟨h4, h⟩ := hnone h
  obtain ⟨h5, h⟩ := hnone h
  obtain ⟨h6, h⟩ := hnone h
  obtain ⟨h7, h⟩ := hnone h
  obtain ⟨h8, -⟩ := hnone h
  rw [convert, if_neg h1, if_neg h2, if_neg h3, if_neg h4, if_neg h5, if_neg h6, if_neg h7, if_neg h8]

theorem convert_takes {d : Directive} {k : Conv} {a : Arg} {args : List Arg} {s : List Byte}
    (hv : v.For d) (hk : conversion c = some k) (hargs : p.args = a :: args) (hs : k.render d a = some s) :
    Takes (convert v c) p args s := by
  unfold conversion at hk
  unfold convert
  by_cases h1 : c = 0x62
  · rw [if_pos h1] at hk ⊢
    obtain rfl := Option.some.inj hk
    exact takes_number hv (by decide) hargs hs
  rw [if_neg h1] at hk ⊢
  by_cases h2 : c = 0x64 ∨ c = 0x44
  · rw [if_pos h2] at hk ⊢
    obtain rfl := Option.some.inj hk
    cases a with
    | str w => cases hs
    | int w =>
      refine takes_int hargs fun q => callNum_prints (hv.width ▸ hv.fits) (fun b => ?_) q
      obtain ⟨b', hprint⟩ := printDecimal_ret w v.width v.ladjust hv.padc_cases b
      refine ⟨b', hprint.trans ?_⟩
      rw [← Option.some.inj hs, hv.width, hv.ladjust, hv.padc]
  rw [if_neg h2] at hk ⊢
  by_cases h3 : c = 0x6f ∨ c = 0x4f
  · rw [if_pos h3] at hk ⊢
    obtain rfl := Option.some.inj hk
    exact takes_number hv (by decide) hargs hs
  rw [if_neg h3] at hk ⊢
  by_cases h4 : c = 0x75 ∨ c = 0x55
  · rw [if_pos h4] at hk ⊢
    obtain rfl := Option.some.inj hk
    exact takes_number hv (by decide) hargs hs
  rw [if_neg h4] at hk ⊢
  by_cases h5 : c = 0x78
  · rw [if_pos h5] at hk ⊢
    obtain rfl := Option.some.inj hk
    exact takes_number hv (by decide) hargs hs
  rw [if_neg h5] at hk ⊢
  by_cases h6 : c = 0x58
  · rw [if_pos h6] at hk ⊢
    obtain rfl := Option.some.inj hk
    exact takes_number hv (by decide) hargs hs
  rw [if_neg h6] at hk ⊢
  by_cases h7 : c = 0x63
  · rw [if_pos h7] at hk ⊢
    obtain rfl := Option.some.inj hk
    cases a with
    | str w => cases hs
    | int w =>
      refine takes_int hargs fun q => ?_
      rw [← Option.some.inj hs, ← hv.width, ← hv.ladjust]
      exact printChar_prints _ _ _ q
  rw [if_neg h7] at hk ⊢
  by_cases h8 : c = 0x73
  · rw [if_pos h8] at hk ⊢
    obtain rfl := Option.some.inj hk
    cases a with
    | int w => cases hs
    | str w =>
      refine takes_str hargs fun q => ?_
      rw [← Option.some.inj hs, ← hv.width, ← hv.ladjust]
      exact printStr_prints _ _ _ q
  rw [if_neg h8] at hk
  cases hk

/-! ## The whole string -/

theorem piecesOf_text (cs : List Byte) :
    piecesOf cs = (cs.takeWhile (· ≠ 0x25)).map .text ++ piecesOf (cs.dropWhile (· ≠ 0x25)) := by
  induction cs with
  | nil => rw [List.takeWhile_nil, List.dropWhile_nil]; rfl
  | cons c cs ih =>
    by_cases hc : c = 0x25
    · rw [List.takeWhile_cons_of_neg (by simp [hc]), List.dropWhile_cons_of_neg (by simp [hc])]
      rfl
    · rw [List.takeWhile_cons_of_pos (by simpa using hc), List.dropWhile_cons_of_pos (by simpa using hc),
        List.map_cons, List.cons_append, ← ih, piecesOf, if_neg hc]

theorem render_text (ps : List Piece) (args : List Arg) : ∀ xs : List Byte,
    render (xs.map .text ++ ps) args = (render ps args).map fun r => (xs ++ r.1, r.2) := by
  intro xs
  induction xs with
  | nil => simp
  | cons x xs ih =>
    rw [List.map_cons, List.cons_append, render, ih, Option.map_map]
    rfl

/-- Every width in the format string is small enough. -/
def WidthsFit (cs : List Byte) : Prop := ∀ d, .directive d ∈ piecesOf cs → d.width + 70 < 2 ^ 31

/-- The scan of a directive behind its `%`. -/
theorem scanDirective_ret {g : Flags → Nat → PrintM Unit} (h : f.At i cs)
    (hfit : (readDirective cs).1.width + 70 < 2 ^ 31) (p : Printer) :
    ∃ w j, ((do
        let (v, i) ← scanFlag f ⟨0, false, 0x20⟩ i
        let (v, i) ← widthRun f (f.chars.length + 1) v i
        let i ← scanLong f i
        g v i : PrintM Unit) p = g w j p) ∧ w.For (readDirective cs).1 ∧
      ∃ rest, f.At j rest ∧ (readDirective cs).1.conv = rest.head? ∧ (readDirective cs).2 = rest.tail := by
  obtain ⟨j₁, hflag, h₁⟩ := scanFlag_ret (v := ⟨0, false, 0x20⟩) h p
  obtain ⟨j₂, hwidth, h₂⟩ := widthRun_ret _ (f.chars.length + 1) j₁
    { width := 0
      ladjust := if cs.head?.filter isFlag = some 0x2d then true else false
      padc := if cs.head?.filter isFlag = some 0x2d then 0x20
        else if cs.head?.filter isFlag = some 0x30 then 0x30 else 0x20 }
    p h₁ (Nat.lt_succ_of_le h₁.length_le) hfit
  obtain ⟨j₃, hlong, h₃⟩ := scanLong_ret h₂ p
  have hladjust : (if cs.head?.filter isFlag = some 0x2d then true else false) =
      decide ((readDirective cs).1.flag = some 0x2d) := by
    split
    · next hf => exact (decide_eq_true hf).symm
    · next hf => exact (decide_eq_false hf).symm
  have hpadc : (if cs.head?.filter isFlag = some 0x2d then (0x20 : Byte)
      else if cs.head?.filter isFlag = some 0x30 then 0x30 else 0x20) =
      if (readDirective cs).1.flag = some 0x30 then 0x30 else 0x20 := by
    split
    · next hf =>
      refine (if_neg fun heq => ?_).symm
      exact absurd (hf.symm.trans heq) (by decide)
    · rfl
  exact ⟨_, j₃, (bind_ret hflag).trans ((bind_ret hwidth).trans (bind_ret hlong)), ⟨rfl, hladjust, hpadc, hfit⟩,
    _, h₃, rfl, rfl⟩

/-- What a loop of `vprintfmt` leaves when it has printed `s`. -/
def Printed (o : Outcome Printer Empty PrintPanic Unit) (p : Printer) (s : List Byte) (args : List Arg) : Prop :=
  ∃ q, o = .ret () q ∧ q.out.flatten = p.out.flatten ++ s ∧ q.args = args

theorem fmtRun_printed : ∀ fuel (cs : List Byte) (v : Flags) i (p : Printer) s args, f.At i cs → cs.length < fuel →
    WidthsFit cs → render (piecesOf cs) p.args = some (s, args) → Printed (fmtRun f fuel v i p) p s args := by
  intro fuel
  induction fuel with
  | zero => exact fun _ _ _ _ _ _ _ h => absurd h (Nat.not_lt_zero _)
  | succ fuel ih =>
    intro cs v i p s args hat hfuel hfit hrender
    obtain ⟨j, htext, hj⟩ := textRun_ret cs (f.chars.length + 1) i p hat (Nat.lt_succ_of_le hat.length_le)
    have hlen := (List.dropWhile_suffix (l := cs) (p := (· ≠ (0x25 : Byte)))).length_le
    have hhead := List.head?_dropWhile_not (p := (· ≠ (0x25 : Byte))) (l := cs)
    rw [piecesOf_text, render_text] at hrender
    unfold WidthsFit at hfit
    rw [piecesOf_text] at hfit
    rw [fmtRun, bind_ret htext, bind_ret (hj.charAt _)]
    generalize cs.takeWhile (· ≠ 0x25) = xs at hrender hfit ⊢
    generalize cs.dropWhile (· ≠ 0x25) = rest at hrender hfit hj hlen hhead ⊢
    obtain ⟨⟨s', args'⟩, hrest, heq⟩ := Option.map_eq_some_iff.mp hrender
    obtain ⟨rfl, rfl⟩ := Prod.mk.inj heq
    have hflat : ∀ xs : List Byte, (xs.map fun c => [c]).flatten = xs := fun xs => by
      rw [← List.flatMap_def, List.flatMap_singleton']
    cases rest with
    | nil =>
      rw [piecesOf] at hrest
      obtain ⟨rfl, rfl⟩ := Prod.mk.inj (Option.some.inj hrest)
      refine ⟨_, rfl, ?_, rfl⟩
      rw [List.flatten_append, hflat, List.append_nil]
    | cons c ds =>
      obtain rfl : c = 0x25 := by simpa using hhead
      rw [piecesOf, if_pos rfl] at hrest hfit
      have hd := hfit _ (List.mem_append_right _ List.mem_cons_self)
      rw [List.headD_cons, if_neg (by decide)]
      obtain ⟨w, j', hscan, hw, rest, hrestAt, hconv, htail⟩ := scanDirective_ret hj.next hd
        { p with out := p.out ++ xs.map fun c => [c] }
        (g := fun v i => do
          let c ← f.charAt i
          if c = 0 then fmtRun f fuel v (i - 1 + 1)
          else do
            convert v c
            fmtRun f fuel v (i + 1))
      refine (congrArg (Printed · p _ _) hscan).mpr ?_
      rw [bind_ret (hrestAt.charAt _)]
      rw [htail] at hrest hfit
      have hwidths : WidthsFit rest.tail := fun d hd => hfit d (List.mem_append_right _ (List.mem_cons_of_mem _ hd))
      have hshort : rest.tail.length < fuel := by
        have := readDirective_length ds
        rw [htail] at this
        rw [List.length_cons] at hlen
        omega
      rw [render, hconv] at hrest
      cases rest with
      | nil =>
        have hend : f.At (j' - 1 + 1) [] := by
          have hpos := hj.length_le
          have hle := List.drop_eq_nil_iff.mp hrestAt.2
          rw [List.length_cons] at hpos
          rwa [Nat.sub_add_cancel (by omega)]
        obtain ⟨q, hq, hout, hargs⟩ := ih [] w _ { p with out := p.out ++ xs.map fun c => [c] } s' args' hend
          (Nat.zero_lt_of_lt hshort) hwidths hrest
        refine ⟨q, hq, ?_, hargs⟩
        rw [hout, List.flatten_append, hflat, List.append_assoc]
      | cons k rest =>
        rw [List.headD_cons, if_neg hrestAt.ne_zero]
        rw [List.head?_cons, List.tail_cons] at hrest
        dsimp only at hrest
        cases hk : conversion k with
        | none =>
          rw [hk] at hrest
          obtain ⟨⟨t, args''⟩, ht, heq⟩ := Option.map_eq_some_iff.mp hrest
          obtain ⟨rfl, rfl⟩ := Prod.mk.inj heq
          obtain ⟨q, hq, hout, hargs⟩ := ih rest w (j' + 1)
            { p with out := p.out ++ (xs.map fun c => [c]) ++ [[k]] } t _ hrestAt.next hshort hwidths ht
          rw [convert_other hk, outChars, modify_bind]
          refine ⟨q, hq, ?_, hargs⟩
          rw [hout, List.flatten_append, List.flatten_append, hflat]
          simp
        | some kk =>
          rw [hk] at hrest
          cases hpargs : p.args with
          | nil =>
            rw [hpargs] at hrest
            cases hrest
          | cons a as =>
            rw [hpargs] at hrest
            obtain ⟨t, ht, hrest⟩ := Option.bind_eq_some_iff.mp hrest
            obtain ⟨⟨u, args''⟩, hu, heq⟩ := Option.map_eq_some_iff.mp hrest
            obtain ⟨rfl, rfl⟩ := Prod.mk.inj heq
            obtain ⟨ss, hconvert, hss⟩ := convert_takes
              (p := { p with args := a :: as, out := p.out ++ xs.map fun c => [c] }) hw hk rfl ht
            obtain ⟨q, hq, hout, hargs⟩ := ih rest w (j' + 1)
              { p with args := as, out := p.out ++ (xs.map fun c => [c]) ++ ss } u _ hrestAt.next hshort hwidths hu
            refine ⟨q, (bind_ret hconvert).trans hq, ?_, hargs⟩
            rw [hout, List.flatten_append, List.flatten_append, hflat, hss]
            simp

/-- **For every format string and matching arguments, `vprintfmt` comes to an end. What it prints is what the parts
of the format string mean, one after the other, and it takes as many arguments as they need.** -/
theorem vprintfmt_renders (f : CString) (p : Printer) (s : List Byte) (args : List Arg) (hfit : WidthsFit f.chars)
    (hrender : render (piecesOf f.chars) p.args = some (s, args)) :
    ∃ q, vprintfmt f p = .ret () q ∧ q.out.flatten = p.out.flatten ++ s ∧ q.args = args :=
  fmtRun_printed _ f.chars _ 0 p s args (CString.At.start f) (Nat.lt_succ_self _) hfit hrender

/-- The format string `%03d%s` with the arguments -7 and `ok`. -/
theorem vprintfmt_renders_small :
    ∃ q, vprintfmt ⟨[0x25, 0x30, 0x33, 0x64, 0x25, 0x73], by decide⟩
        ⟨[.int (-7), .str ⟨[0x6f, 0x6b], by decide⟩], [], fun _ => 7⟩ = .ret () q ∧
      q.out.flatten = [0x2d, 0x30, 0x37, 0x6f, 0x6b] ∧ q.args = [] := by
  have hpieces : piecesOf [0x25, 0x30, 0x33, 0x64, 0x25, 0x73] =
      [.directive ⟨some 0x30, 3, some 0x64⟩, .directive ⟨none, 0, some 0x73⟩] := by
    have hfirst : readDirective [0x30, 0x33, 0x64, 0x25, 0x73] = (⟨some 0x30, 3, some 0x64⟩, [0x25, 0x73]) := by rfl
    have hsecond : readDirective [0x73] = (⟨none, 0, some 0x73⟩, []) := by rfl
    rw [piecesOf, if_pos rfl, hfirst, piecesOf, if_pos rfl, hsecond, piecesOf]
  refine vprintfmt_renders _ _ [0x2d, 0x30, 0x37, 0x6f, 0x6b] [] (fun d hd => ?_) ?_
  · rw [hpieces] at hd
    simp only [List.mem_cons, List.not_mem_nil, or_false, Piece.directive.injEq] at hd
    rcases hd with rfl | rfl <;> decide
  · rw [hpieces]
    rfl

end Mos
