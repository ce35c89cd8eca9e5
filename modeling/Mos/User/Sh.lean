import Mathlib.Data.BitVec
import Mathlib.Logic.Function.Basic
import Mathlib.Data.List.TakeWhile
import Mos.Fs.Names

/-!
# The lexer of the shell

`_gettoken` and `gettoken` of `user/sh.c`. The line is cut up where it stands: what follows a word is overwritten
with zeros when the next token is looked for, one call ahead of the token that is returned.
-/

namespace Mos

open Function

/-! ## `user/sh.c` -/

/-- `WHITESPACE`. -/
def whitespace : List Byte := [0x20, 0x09, 0x0d, 0x0a]
/-- `SYMBOLS`. -/
def symbols : List Byte := [0x3c, 0x7c, 0x3e, 0x26, 0x3b, 0x28, 0x29]

/-- Whether `strchr(s, c)` finds the character in a string. -/
def strchr : List Byte → Byte → Bool
  | [], _ => false
  | b :: s, c => if b = c then true else strchr s c

/-- The loop of `_gettoken` over white space; it may run out of fuel. -/
def skipWhite : Nat → Nat → (Nat → Byte) → Option (Nat × (Nat → Byte))
  | 0, _, _ => none
  | n + 1, s, mem => if strchr whitespace (mem s) then skipWhite n (s + 1) (update mem s 0) else some (s, mem)

/-- The loop of `_gettoken` over the characters of a word. -/
def skipWord : Nat → Nat → (Nat → Byte) → Option Nat
  | 0, _, _ => none
  | n + 1, s, mem =>
    if mem s ≠ 0 ∧ strchr (whitespace ++ symbols) (mem s) = false then skipWord n (s + 1) mem else some s

/-- What `_gettoken` returns, sets `*p1` and `*p2` to, and makes of the memory. -/
structure Scan where
  code : Byte
  p1 : Nat
  p2 : Nat
  mem : Nat → Byte

/-- `_gettoken(s, p1, p2)`. -/
def gettokenAt (fuel s : Nat) (mem : Nat → Byte) : Option Scan :=
  if s = 0 then some ⟨0, 0, 0, mem⟩
  else do
    let (s, mem) ← skipWhite fuel s mem
    if mem s = 0 then some ⟨0, 0, 0, mem⟩
    else if strchr symbols (mem s) then some ⟨mem s, s, s + 1, update mem s 0⟩
    else do
      let e ← skipWord fuel s mem
      some ⟨0x77, s, e, mem⟩

/-- The memory and the static variables of `gettoken`. -/
structure Lexer where
  c : Byte
  nc : Byte
  np1 : Nat
  np2 : Nat
  mem : Nat → Byte

/-- `nc = _gettoken(s, &np1, &np2)`. -/
def Lexer.ahead (l : Lexer) (fuel s : Nat) : Option Lexer := do
  let r ← gettokenAt fuel s l.mem
  some { l with nc := r.code, np1 := r.p1, np2 := r.p2, mem := r.mem }

/-- `gettoken(s, p1)`: the result, and `*p1` where it is set. -/
def gettoken (fuel s : Nat) (l : Lexer) : Option (Byte × Option Nat × Lexer) :=
  if s ≠ 0 then do
    let l ← l.ahead fuel s
    some (0, none, l)
  else do
    let t := { l with c := l.nc }
    let u ← t.ahead fuel t.np2
    some (u.c, some l.np1, u)

/-- `n` times `gettoken(0, &t)`. -/
def gettokens (fuel : Nat) : Nat → Lexer → Option Lexer
  | 0, l => some l
  | n + 1, l => do
    let (_, _, l) ← gettoken fuel 0 l
    gettokens fuel n l

/-! ## The tokens of a line -/

/-- A token. -/
inductive Token where
  | word (w : List Byte)
  | symbol (c : Byte)
deriving DecidableEq

/-- A character of a word. -/
def wordChar (c : Byte) : Bool := !strchr (whitespace ++ symbols) c

/-- The tokens of a line: symbols, and the longest runs of characters that are neither symbols nor white
space. -/
def tokens : List Byte → List Token
  | [] => []
  | c :: cs =>
    if strchr whitespace c then tokens cs
    else if strchr symbols c then .symbol c :: tokens cs
    else .word (c :: cs.takeWhile wordChar) :: tokens (cs.dropWhile wordChar)
termination_by cs => cs.length
decreasing_by
  · exact Nat.lt_succ_self _
  · exact Nat.lt_succ_self _
  · exact Nat.lt_succ_of_le (List.dropWhile_suffix _).length_le

/-- The string at an address. -/
def IsString (mem : Nat → Byte) (a : Nat) (s : List Byte) : Prop :=
  ∀ i < s.length + 1, mem (a + i) = s.getD i 0

/-- `c` of a token. -/
def Token.code : Token → Byte
  | .word _ => 0x77
  | .symbol c => c

/-! ## Characters and strings -/

variable {mem mem' : Nat → Byte} {a c s n : Nat} {r w : List Byte} {b : Byte}

theorem strchr_iff : strchr r b = true ↔ b ∈ r := by
  induction r with
  | nil => simp [strchr]
  | cons x r ih =>
    rw [strchr, List.mem_cons]
    by_cases h : x = b
    · simp [h]
    · rw [if_neg h, ih]
      exact ⟨.inr, fun hb => hb.resolve_left fun heq => h heq.symm⟩

theorem strchr_append (r w : List Byte) : strchr (r ++ w) b = (strchr r b || strchr w b) := by
  rw [Bool.eq_iff_iff, Bool.or_eq_true]
  simp only [strchr_iff, List.mem_append]

/-- White space is no part of a word, and no symbol is. -/
theorem wordChar_eq_false : wordChar b = false ↔ strchr whitespace b = true ∨ strchr symbols b = true := by
  unfold wordChar
  rw [strchr_append, Bool.not_eq_false', Bool.or_eq_true]

namespace IsString

theorem nil_iff : IsString mem a [] ↔ mem a = 0 := by
  constructor
  · exact fun h => h 0 (Nat.lt_succ_self 0)
  · intro h i hi
    obtain rfl : i = 0 := by simpa using hi
    exact h

theorem cons_iff : IsString mem a (b :: r) ↔ mem a = b ∧ IsString mem (a + 1) r := by
  constructor
  · intro h
    refine ⟨h 0 (Nat.succ_pos _), fun i hi => ?_⟩
    have hb := h (i + 1) (by simpa using hi)
    rwa [List.getD_cons_succ, Nat.add_comm i 1, ← Nat.add_assoc] at hb
  · rintro ⟨h0, h⟩ i hi
    cases i with
    | zero => exact h0
    | succ i =>
      rw [List.getD_cons_succ, ← h i (by simpa using hi), Nat.add_assoc, Nat.add_comm 1 i]

theorem congr (h : IsString mem a r) (heq : ∀ x, a ≤ x → mem' x = mem x) : IsString mem' a r :=
  fun i hi => (heq _ (Nat.le_add_right a i)).trans (h i hi)

/-- A string behind some bytes. -/
theorem append_iff : IsString mem a (w ++ r) ↔
    (∀ i < w.length, mem (a + i) = w.getD i 0) ∧ IsString mem (a + w.length) r := by
  induction w generalizing a with
  | nil => simp
  | cons b w ih =>
    rw [List.cons_append, cons_iff, ih, List.length_cons]
    constructor
    · rintro ⟨h0, hw, hr⟩
      refine ⟨fun i hi => ?_, ?_⟩
      · cases i with
        | zero => exact h0
        | succ i =>
          rw [List.getD_cons_succ, ← hw i (by omega), Nat.add_assoc, Nat.add_comm 1 i]
      · rwa [Nat.add_comm w.length 1, ← Nat.add_assoc]
    · rintro ⟨hw, hr⟩
      refine ⟨hw 0 (Nat.succ_pos _), fun i hi => ?_, ?_⟩
      · have hb := hw (i + 1) (by omega)
        rwa [List.getD_cons_succ, Nat.add_comm i 1, ← Nat.add_assoc] at hb
      · rwa [Nat.add_comm w.length 1, ← Nat.add_assoc] at hr

end IsString

/-! ## One scan -/

/-- White space in front of the tokens. -/
theorem tokens_dropWhile : ∀ r, tokens (r.dropWhile (strchr whitespace)) = tokens r := by
  intro r
  induction r with
  | nil => rfl
  | cons b r ih =>
    rw [List.dropWhile_cons]
    by_cases h : strchr whitespace b = true
    · rw [if_pos h, ih, tokens.eq_2, if_pos h]
    · rw [if_neg h]

/-- The loop over white space leaves zeros behind. -/
theorem skipWhite_spec : ∀ r n s mem, IsString mem s r → 0 ∉ r → r.length < n →
    ∃ s' mem', skipWhite n s mem = some (s', mem') ∧ s' = s + (r.takeWhile (strchr whitespace)).length ∧
      IsString mem' s' (r.dropWhile (strchr whitespace)) ∧ (∀ x, x < s ∨ s' ≤ x → mem' x = mem x) ∧
      ∀ x, s ≤ x → x < s' → mem' x = 0 := by
  intro r
  induction r with
  | nil =>
    intro n s mem h _ hn
    obtain ⟨m, rfl⟩ := Nat.exists_eq_succ_of_ne_zero (Nat.ne_of_gt hn)
    have h0 := IsString.nil_iff.mp h
    refine ⟨s, mem, ?_, rfl, h, fun _ _ => rfl, fun x h1 h2 => absurd h1 (Nat.not_le_of_lt h2)⟩
    rw [skipWhite, h0]
    rfl
  | cons b r ih =>
    intro n s mem h hz hn
    rw [List.mem_cons, not_or] at hz
    obtain ⟨m, rfl⟩ := Nat.exists_eq_succ_of_ne_zero (Nat.ne_of_gt (Nat.zero_lt_of_lt hn))
    obtain ⟨h0, hr⟩ := IsString.cons_iff.mp h
    rw [skipWhite, h0, List.dropWhile_cons, List.takeWhile_cons]
    by_cases hw : strchr whitespace b = true
    · rw [if_pos hw, if_pos hw, if_pos hw]
      have hr' : IsString (update mem s 0) (s + 1) r :=
        hr.congr fun x hx => update_of_ne (by omega) _ _
      obtain ⟨s', mem', hret, hs', hstr, hsame, hzero⟩ := ih m (s + 1) _ hr' hz.2 (by simpa using hn)
      refine ⟨s', mem', hret, by rw [hs', List.length_cons]; omega, hstr, fun x hx => ?_, fun x h1 h2 => ?_⟩
      · rw [hsame x (by omega), update_of_ne (by omega)]
      · rcases Nat.eq_or_lt_of_le h1 with rfl | hlt
        · rw [hsame s (by omega), update_self]
        · exact hzero x hlt h2
    · rw [if_neg hw, if_neg hw, if_neg hw]
      exact ⟨s, mem, rfl, rfl, h, fun _ _ => rfl, fun x h1 h2 => absurd h1 (Nat.not_le_of_lt h2)⟩

/-- The loop over a word stops behind it. -/
theorem skipWord_spec : ∀ r n s, IsString mem s r → 0 ∉ r → r.length < n →
    skipWord n s mem = some (s + (r.takeWhile wordChar).length) := by
  intro r
  induction r with
  | nil =>
    intro n s h _ hn
    obtain ⟨m, rfl⟩ := Nat.exists_eq_succ_of_ne_zero (Nat.ne_of_gt hn)
    rw [skipWord, IsString.nil_iff.mp h]
    rfl
  | cons b r ih =>
    intro n s h hz hn
    rw [List.mem_cons, not_or] at hz
    obtain ⟨m, rfl⟩ := Nat.exists_eq_succ_of_ne_zero (Nat.ne_of_gt (Nat.zero_lt_of_lt hn))
    obtain ⟨h0, hr⟩ := IsString.cons_iff.mp h
    have hb : b ≠ 0 := fun h => hz.1 h.symm
    rw [skipWord, h0, List.takeWhile_cons]
    by_cases hw : wordChar b = true
    · have hnot : strchr (whitespace ++ symbols) b = false := by simpa [wordChar] using hw
      rw [if_pos ⟨hb, hnot⟩, if_pos hw, ih m (s + 1) hr hz.2 (by simpa using hn), List.length_cons]
      congr 1
      omega
    · have hnot : ¬strchr (whitespace ++ symbols) b = false := by simpa [wordChar] using hw
      rw [if_neg (fun h => hnot h.2), if_neg hw]
      rfl

/-- The token that is returned next has been scanned: `ts` are the tokens that are left with it. Behind a word
stands something that ends it. -/
def NextToken (fuel : Nat) (code : Byte) (p1 p2 : Nat) (mem : Nat → Byte) : List Token → Prop
  | [] => code = 0 ∧ p2 = 0
  | t :: ts => code = t.code ∧ p2 ≠ 0 ∧ ∃ r, IsString mem p2 r ∧ 0 ∉ r ∧ r.length < fuel ∧ tokens r = ts ∧
    match t with
    | .symbol _ => True
    | .word w => p2 = p1 + w.length ∧ (∀ i < w.length, mem (p1 + i) = w.getD i 0) ∧
      ∀ b ∈ r.head?, wordChar b = false

/-- What follows a word ends it. -/
theorem head_dropWhile (r : List Byte) : ∀ b ∈ (r.dropWhile wordChar).head?, wordChar b = false := by
  intro b hb
  have hnot := List.head?_dropWhile_not wordChar r
  rw [Option.mem_def.mp hb] at hnot
  exact hnot

/-- **One scan** finds the first token of the rest of the line. It puts a zero where it begins, unless a word
begins there, and changes nothing before. -/
theorem gettokenAt_spec (hs : s ≠ 0) (h : IsString mem s r) (hz : 0 ∉ r) (hn : r.length < n) :
    ∃ x, gettokenAt n s mem = some x ∧ (∀ y < s, x.mem y = mem y) ∧
      ((∀ b ∈ r.head?, wordChar b = false) → x.mem s = 0) ∧
      NextToken n x.code x.p1 x.p2 x.mem (tokens r) := by
  obtain ⟨s', mem', hskip, hs', hstr, hsame, hzero⟩ := skipWhite_spec r n s mem h hz hn
  have hsplit := List.takeWhile_append_dropWhile (p := strchr whitespace) (l := r)
  have hlen := (List.dropWhile_suffix (l := r) (strchr whitespace)).length_le
  have hz' : 0 ∉ r.dropWhile (strchr whitespace) := fun h0 =>
    hz ((List.dropWhile_suffix (strchr whitespace)).subset h0)
  rw [gettokenAt, if_neg hs, hskip, ← tokens_dropWhile r]
  have hhead := List.head?_dropWhile_not (strchr whitespace) r
  cases hq : r.dropWhile (strchr whitespace) with
  | nil =>
    -- the end of the line
    rw [hq] at hstr
    have h0 := IsString.nil_iff.mp hstr
    refine ⟨⟨0, 0, 0, mem'⟩, if_pos h0, fun y hy => hsame y (.inl hy), fun _ => ?_, ?_⟩
    · rcases Nat.lt_or_ge s s' with hlt | hge
      · exact hzero s (le_refl s) hlt
      · obtain rfl : s' = s := by omega
        exact h0
    · rw [tokens]
      exact ⟨rfl, rfl⟩
  | cons b q =>
    rw [hq] at hstr hlen hz' hhead
    obtain ⟨hb, hstr'⟩ := IsString.cons_iff.mp hstr
    rw [List.mem_cons, not_or] at hz'
    have hne : mem' s' ≠ 0 := by
      rw [hb]
      exact fun h => hz'.1 h.symm
    have hwhite : ¬strchr whitespace b = true := by simpa using hhead
    rw [tokens.eq_2, if_neg hwhite]
    simp only [Option.bind_eq_bind, Option.bind_some, if_neg hne]
    rw [hb]
    by_cases hsym : strchr symbols b = true
    · rw [if_pos hsym, if_pos hsym]
      refine ⟨_, rfl, fun y hy => ?_, fun _ => ?_, rfl, Nat.succ_ne_zero _, q, ?_, hz'.2, ?_, rfl, trivial⟩
      · dsimp only
        rw [update_of_ne (by omega), hsame y (.inl hy)]
      · dsimp only
        rcases Nat.lt_or_ge s s' with hlt | hge
        · rw [update_of_ne (by omega), hzero s (le_refl s) hlt]
        · obtain rfl : s' = s := by omega
          rw [update_self]
      · exact hstr'.congr fun x hx => update_of_ne (by omega) _ _
      · rw [List.length_cons] at hlen
        omega
    · rw [if_neg hsym, if_neg hsym, skipWord_spec (b :: q) n s' hstr (List.mem_cons.not.mpr (not_or.mpr hz'))
        (by omega)]
      have hword : wordChar b = true := by
        rw [← Bool.not_eq_false, wordChar_eq_false]
        exact not_or.mpr ⟨hwhite, hsym⟩
      rw [List.takeWhile_cons, if_pos hword]
      have hqsplit := List.takeWhile_append_dropWhile (p := wordChar) (l := q)
      have hqlen := (List.dropWhile_suffix (l := q) wordChar).length_le
      -- the word and what is left of the line
      have hparts : IsString mem' s' ((b :: q.takeWhile wordChar) ++ q.dropWhile wordChar) := by
        rwa [List.cons_append, hqsplit]
      obtain ⟨hw, hrest⟩ := IsString.append_iff.mp hparts
      refine ⟨⟨0x77, s', s' + (b :: q.takeWhile wordChar).length, mem'⟩, rfl, fun y hy => hsame y (.inl hy),
        fun hstop => ?_, rfl, ?_, q.dropWhile wordChar, hrest,
        fun h0 => hz'.2 ((List.dropWhile_suffix wordChar).subset h0), ?_, rfl, rfl, hw, head_dropWhile q⟩
      · rcases Nat.lt_or_ge s s' with hlt | hge
        · exact hzero s (le_refl s) hlt
        · -- no white space, so the line begins with this word
          have hnil : r.takeWhile (strchr whitespace) = [] := List.length_eq_zero_iff.mp (by omega)
          rw [hnil, List.nil_append, hq] at hsplit
          have hfalse := hstop b (by rw [← hsplit]; rfl)
          rw [hword] at hfalse
          cases hfalse
      · dsimp only
        omega
      · rw [List.length_cons] at hlen
        omega

/-! ## All scans -/

/-- The next token of the lexer has been scanned. -/
def Lexer.HasNext (l : Lexer) (fuel : Nat) (ts : List Token) : Prop :=
  NextToken fuel l.nc l.np1 l.np2 l.mem ts

/-- What a call of `gettoken(0, &t)` must deliver: the code, and the string at `t` if it is a word. -/
def Delivers (code : Byte) (t : Option Nat) (mem : Nat → Byte) : Option Token → Prop
  | none => code = 0
  | some (.symbol c) => code = c
  | some (.word w) => code = 0x77 ∧ ∃ a, t = some a ∧ IsString mem a w

/-- **One call** delivers the token that has been scanned, and scans the next one: this ends the word. -/
theorem gettoken_spec {l : Lexer} {ts : List Token} (h : l.HasNext n ts) :
    ∃ code t u, gettoken n 0 l = some (code, t, u) ∧ Delivers code t u.mem ts.head? ∧ u.HasNext n ts.tail := by
  cases ts with
  | nil =>
    obtain ⟨hc, hp⟩ := h
    refine ⟨0, some l.np1, { l with c := l.nc, nc := 0, np1 := 0, np2 := 0 }, ?_, rfl, rfl, rfl⟩
    have hscan : gettokenAt n l.np2 l.mem = some ⟨0, 0, 0, l.mem⟩ := if_pos hp
    simp only [gettoken, ne_eq, not_true_eq_false, if_false, Lexer.ahead, hscan, Option.bind_eq_bind,
      Option.bind_some, hc]
  | cons tok ts =>
    obtain ⟨hc, hp, r, hstr, hz, hn, hts, htok⟩ := h
    obtain ⟨x, hx, hsame, hstop, hscan⟩ := gettokenAt_spec hp hstr hz hn
    rw [hts] at hscan
    refine ⟨l.nc, some l.np1, ⟨l.nc, x.code, x.p1, x.p2, x.mem⟩, ?_, ?_, hscan⟩
    · simp only [gettoken, ne_eq, not_true_eq_false, if_false, Lexer.ahead, hx, Option.bind_eq_bind,
        Option.bind_some]
    · cases tok with
      | symbol c => exact hc
      | word w =>
        obtain ⟨hp2, hw, hhead⟩ := htok
        refine ⟨hc, l.np1, rfl, ?_⟩
        rw [← List.append_nil w]
        refine IsString.append_iff.mpr ⟨fun i hi => ?_, IsString.nil_iff.mpr ?_⟩
        · rw [← hw i hi]
          exact hsame _ (by omega)
        · rw [← hp2]
          exact hstop hhead

/-- After `k` calls the first `k` tokens have been delivered. -/
theorem gettokens_scanned : ∀ k (l : Lexer) ts, l.HasNext n ts →
    ∃ u, gettokens n k l = some u ∧ u.HasNext n (ts.drop k) := by
  intro k
  induction k with
  | zero => exact fun l ts h => ⟨l, rfl, h⟩
  | succ k ih =>
    intro l ts h
    obtain ⟨code, t, u, hcall, -, hu⟩ := gettoken_spec h
    obtain ⟨v, hv, hdone⟩ := ih u ts.tail hu
    refine ⟨v, ?_, ?_⟩
    · rw [gettokens, hcall]
      exact hv
    · rwa [List.drop_tail] at hdone

/-- **The lexer splits every line correctly.** `gettoken(line, 0)` and `k` calls of `gettoken(0, &t)` return, and
one more call delivers the token number `k` of the line, or 0 if there are only `k` tokens or fewer. -/
theorem gettoken_tokens {line : List Byte} (hz : 0 ∉ line) (ha : a ≠ 0) {l : Lexer} (hline : IsString l.mem a line)
    (hn : line.length < n) (k : Nat) :
    ∃ l₀ u, gettoken n a l = some (0, none, l₀) ∧ gettokens n k l₀ = some u ∧
      ∃ code t v, gettoken n 0 u = some (code, t, v) ∧ Delivers code t v.mem (tokens line)[k]? := by
  obtain ⟨x, hx, -, -, hscan⟩ := gettokenAt_spec ha hline hz hn
  have hfirst : gettoken n a l = some (0, none, ⟨l.c, x.code, x.p1, x.p2, x.mem⟩) := by
    simp only [gettoken, ne_eq, ha, not_false_eq_true, if_true, Lexer.ahead, hx, Option.bind_eq_bind,
      Option.bind_some]
  obtain ⟨u, hu, hdone⟩ := gettokens_scanned k ⟨l.c, x.code, x.p1, x.p2, x.mem⟩ _ hscan
  obtain ⟨code, t, v, hcall, hdel, -⟩ := gettoken_spec hdone
  rw [List.head?_drop] at hdel
  exact ⟨_, u, hfirst, hu, code, t, v, hcall, hdel⟩

/-- `ls|wc `, from the address 16 on. -/
def smallLine : Lexer where
  c := 0
  nc := 0
  np1 := 0
  np2 := 0
  mem := fun x => [0x6c, 0x73, 0x7c, 0x77, 0x63, 0x20].getD (x - 16) 0

theorem smallLine_isString : IsString smallLine.mem 16 [0x6c, 0x73, 0x7c, 0x77, 0x63, 0x20] := by
  intro i _
  show List.getD _ (16 + i - 16) 0 = _
  rw [Nat.add_sub_cancel_left]

theorem gettoken_tokens_small : ∃ l₀ u, gettoken 7 16 smallLine = some (0, none, l₀) ∧ gettokens 7 2 l₀ = some u ∧
    ∃ code t v, gettoken 7 0 u = some (code, t, v) ∧
      Delivers code t v.mem (tokens [0x6c, 0x73, 0x7c, 0x77, 0x63, 0x20])[2]? :=
  gettoken_tokens (by decide) (by decide) smallLine_isString (by decide) 2

/-- Its tokens. -/
example : tokens [0x6c, 0x73, 0x7c, 0x77, 0x63, 0x20] = [.word [0x6c, 0x73], .symbol 0x7c, .word [0x77, 0x63]] := by
  simp [tokens, strchr, whitespace, symbols, wordChar]

end Mos
