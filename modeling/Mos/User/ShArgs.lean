import Mos.Lib.Prog
import Mos.User.Sh

/-!
# The arguments of a command

`parsecmd` of `user/sh.c` puts the words of a command into the array that `runcmd` has. The array has room for `MAXARGS`
pointers, and `runcmd` stores one more behind the words.
-/

namespace Mos

open Lib Prog Function

/-! ## `user/sh.c` -/

/-- `MAXARGS`. -/
def maxArgs : Nat := 128

/-- The shell, or one of the children that it forks while it reads a line. -/
structure Shell where
  lex : Lexer
  argv : Nat → Option Nat
  /-- Whether `open` will succeed the next time, the time after, … -/
  opens : Nat → Bool
  /-- Whether `fork` will return 0 the next time, the time after, …: then the model goes on with the child. -/
  forks : Nat → Bool

/-- Why a process stops. -/
inductive ShPanic where
  /-- `exit()`. -/
  | exit
  /-- `user_panic`. -/
  | panic
  /-- An index outside `argv`. -/
  | wild
  /-- A loop has used up its fuel. -/
  | spin
deriving DecidableEq

/-- Functions of the shell. -/
abbrev ShM := Prog Shell Empty ShPanic

/-- `gettoken(0, &t)`: the result, and `t`. -/
def nextToken (fuel : Nat) : ShM (Byte × Option Nat) := fun s =>
  match gettoken fuel 0 s.lex with
  | some (c, t, l) => .ret (c, t) { s with lex := l }
  | none => .halt .spin

/-- `argv[i] = t`. -/
def storeArg (i : Nat) (t : Option Nat) : ShM Unit := do
  Prog.assert (i < maxArgs) .wild
  Prog.modify fun s => { s with argv := update s.argv i t }

/-- Whether `open(t, mode)` succeeds. -/
def askOpen : ShM Bool := fun s => .ret (s.opens 0) { s with opens := fun n => s.opens (n + 1) }

/-- Whether `fork()` returns 0. -/
def askFork : ShM Bool := fun s => .ret (s.forks 0) { s with forks := fun n => s.forks (n + 1) }

/-- `parsecmd(argv, rightpipe)`, from `argc` on; the fuel is for the tokens and for the lexer. The files and the pipe
that it sets up are left out. -/
def parsecmd (lexFuel : Nat) : Nat → Nat → ShM Nat
  | 0, _ => Prog.halt .spin
  | fuel + 1, argc => do
    let (c, t) ← nextToken lexFuel
    if c = 0 then pure argc
    else if c = 0x77 then do
      Prog.assert (argc < maxArgs) .exit
      storeArg argc t
      parsecmd lexFuel fuel (argc + 1)
    else if c = 0x3c ∨ c = 0x3e then do
      let (c, _) ← nextToken lexFuel
      Prog.assert (c = 0x77) .exit
      let opened ← askOpen
      Prog.assert (opened = true) .panic
      parsecmd lexFuel fuel argc
    else if c = 0x7c then do
      let child ← askFork
      if child then parsecmd lexFuel fuel 0 else pure argc
    else parsecmd lexFuel fuel argc

/-- What `runcmd` does with the result, up to the call of `spawn`. -/
def finishArgs (argc : Nat) : ShM Unit := if argc = 0 then pure () else storeArg argc none

/-- `runcmd(s)`, up to the call of `spawn`. -/
def runcmd (fuel a : Nat) : ShM Unit := do
  let s ← Prog.get
  match gettoken fuel a s.lex with
  | none => Prog.halt .spin
  | some (_, _, l) => do
    Prog.put { s with lex := l }
    let argc ← parsecmd fuel fuel 0
    finishArgs argc

/-- Whatever `open` and `fork` answer, a process that runs the line stores nothing outside `argv`, and it comes to an
end. -/
def ArgvSafe (line : List Byte) : Prop :=
  ∀ a (s : Shell), a ≠ 0 → IsString s.lex.mem a line → ∃ m, ∀ fuel > m,
    runcmd fuel a s ≠ .halt .wild ∧ runcmd fuel a s ≠ .halt .spin

/-! ## The commands of a line -/

/-- `<` or `>`. -/
def IsRedirect (c : Byte) : Prop := c = 0x3c ∨ c = 0x3e

instance (c : Byte) : Decidable (IsRedirect c) := inferInstanceAs (Decidable (_ ∨ _))

/-- The parts of a line between the pipes. -/
def pipeParts : List Token → List (List Token)
  | [] => [[]]
  | t :: ts => if t = .symbol 0x7c then [] :: pipeParts ts else (pipeParts ts).modifyHead (t :: ·)

/-- The number of words that are arguments; none if there is a `<` or `>` without a word behind it. -/
def argWords : List Token → Option Nat
  | [] => some 0
  | .word _ :: ts => (argWords ts).map (· + 1)
  | .symbol c :: .word _ :: ts => if IsRedirect c then argWords ts else (argWords ts).map (· + 1)
  | .symbol c :: ts => if IsRedirect c then none else argWords ts

/-- No command has exactly `MAXARGS` arguments, up to the first command that is malformed or has more. -/
def ArgsFit : List (List Token) → Prop
  | [] => True
  | p :: ps => argWords p ≠ some maxArgs ∧ ((∃ m ≤ maxArgs, argWords p = some m) → ArgsFit ps)

/-- The same when `n` arguments of the first command have been stored. -/
def FitFrom (n : Nat) : List (List Token) → Prop
  | [] => True
  | p :: ps => (∀ m, argWords p = some m → n + m ≠ maxArgs) ∧
    ((∃ m, argWords p = some m ∧ n + m ≤ maxArgs) → ArgsFit ps)

variable {n fuel lexFuel : Nat} {ts : List Token} {c : Byte} {w : List Byte} {s : Shell}

theorem argWords_word (w : List Byte) (ts : List Token) :
    argWords (.word w :: ts) = (argWords ts).map (· + 1) := rfl

/-- Other symbols do not matter. -/
theorem argWords_symbol (hc : ¬IsRedirect c) (ts : List Token) : argWords (.symbol c :: ts) = argWords ts := by
  cases ts with
  | nil => exact if_neg hc
  | cons t ts =>
    cases t with
    | word w => exact if_neg hc
    | symbol d => exact if_neg hc

theorem argWords_redirect (hc : IsRedirect c) (w : List Byte) (ts : List Token) :
    argWords (.symbol c :: .word w :: ts) = argWords ts := if_pos hc

theorem fitFrom_zero (ps : List (List Token)) : FitFrom 0 ps ↔ ArgsFit ps := by
  cases ps with
  | nil => exact Iff.rfl
  | cons p ps =>
    show ((∀ m, argWords p = some m → 0 + m ≠ maxArgs) ∧
      ((∃ m, argWords p = some m ∧ 0 + m ≤ maxArgs) → ArgsFit ps)) ↔
        argWords p ≠ some maxArgs ∧ ((∃ m ≤ maxArgs, argWords p = some m) → ArgsFit ps)
    simp only [Nat.zero_add]
    refine and_congr ⟨fun h heq => h _ heq rfl, fun h m hm heq => h (heq ▸ hm)⟩ (imp_congr ?_ Iff.rfl)
    exact ⟨fun ⟨m, hm, hle⟩ => ⟨m, hle, hm⟩, fun ⟨m, hle, hm⟩ => ⟨m, hm, hle⟩⟩

theorem exists_pipeParts (ts : List Token) : ∃ p ps, pipeParts ts = p :: ps := by
  induction ts with
  | nil => exact ⟨[], [], rfl⟩
  | cons t ts ih =>
    obtain ⟨p, ps, h⟩ := ih
    rw [pipeParts]
    split
    · exact ⟨_, _, rfl⟩
    · rw [h]
      exact ⟨_, _, rfl⟩

theorem fitFrom_nil : FitFrom n (pipeParts []) ↔ n ≠ maxArgs := by
  refine ⟨fun h => h.1 0 rfl, fun h => ⟨fun m hm => ?_, fun _ => trivial⟩⟩
  obtain rfl : 0 = m := Option.some.inj hm
  exact h

theorem fitFrom_word : FitFrom n (pipeParts (.word w :: ts)) ↔ FitFrom (n + 1) (pipeParts ts) := by
  obtain ⟨p, ps, h⟩ := exists_pipeParts ts
  have hparts : pipeParts (.word w :: ts) = (.word w :: p) :: ps := by
    rw [pipeParts, if_neg (by simp), h]
    rfl
  rw [hparts, h]
  unfold FitFrom
  simp only [argWords_word, Option.map_eq_some_iff]
  refine and_congr ⟨fun hall m hm => ?_, ?_⟩ (imp_congr ⟨?_, ?_⟩ Iff.rfl)
  · have := hall (m + 1) ⟨m, hm, rfl⟩
    omega
  · rintro hall m ⟨k, hk, rfl⟩
    have := hall k hk
    omega
  · rintro ⟨m, ⟨k, hk, rfl⟩, hle⟩
    exact ⟨k, hk, by omega⟩
  · rintro ⟨m, hm, hle⟩
    exact ⟨m + 1, ⟨m, hm, rfl⟩, by omega⟩

theorem fitFrom_pipe (hn : n ≤ maxArgs) : FitFrom n (pipeParts (.symbol 0x7c :: ts)) ↔
    n ≠ maxArgs ∧ FitFrom 0 (pipeParts ts) := by
  have hparts : pipeParts (.symbol 0x7c :: ts) = [] :: pipeParts ts := if_pos rfl
  rw [hparts, fitFrom_zero]
  refine and_congr ⟨fun hall => hall 0 rfl, fun h m hm => ?_⟩ ⟨fun himp => himp ⟨0, rfl, hn⟩, fun h _ => h⟩
  obtain rfl : 0 = m := Option.some.inj hm
  exact h

theorem fitFrom_congr {p p' : List Token} (h : argWords p' = argWords p) (ps : List (List Token)) :
    FitFrom n (p' :: ps) ↔ FitFrom n (p :: ps) := by
  unfold FitFrom
  simp only [h]

theorem pipeParts_symbol (hc : c ≠ 0x7c) (ts : List Token) :
    pipeParts (.symbol c :: ts) = (pipeParts ts).modifyHead (.symbol c :: ·) :=
  if_neg fun heq => hc (Token.symbol.inj heq)

theorem fitFrom_symbol (hc : ¬IsRedirect c) (hpipe : c ≠ 0x7c) :
    FitFrom n (pipeParts (.symbol c :: ts)) ↔ FitFrom n (pipeParts ts) := by
  obtain ⟨p, ps, h⟩ := exists_pipeParts ts
  rw [pipeParts_symbol hpipe, h]
  exact fitFrom_congr (argWords_symbol hc p) ps

theorem IsRedirect.ne_pipe (hc : IsRedirect c) : c ≠ 0x7c := by
  rcases hc with rfl | rfl <;> decide

theorem fitFrom_redirect (hc : IsRedirect c) :
    FitFrom n (pipeParts (.symbol c :: .word w :: ts)) ↔ FitFrom n (pipeParts ts) := by
  obtain ⟨p, ps, h⟩ := exists_pipeParts ts
  have hword : pipeParts (.word w :: ts) = (.word w :: p) :: ps := by
    rw [pipeParts, if_neg (by simp), h]
    rfl
  rw [pipeParts_symbol hc.ne_pipe, hword, h]
  exact fitFrom_congr (argWords_redirect hc w p) ps

/-- Behind a malformed redirection nothing is stored. -/
theorem fitFrom_malformed (hc : IsRedirect c) (hts : ∀ w, ts.head? ≠ some (.word w)) :
    FitFrom n (pipeParts (.symbol c :: ts)) := by
  obtain ⟨p, ps, h⟩ := exists_pipeParts ts
  have hnone : argWords (.symbol c :: p) = none := by
    cases p with
    | nil => exact if_pos hc
    | cons t p =>
      cases t with
      | symbol d => exact if_pos hc
      | word w =>
        -- the first part begins with the first token, unless that is a pipe
        cases ts with
        | nil =>
          obtain ⟨heq, -⟩ := List.cons.inj h
          cases heq
        | cons u us =>
          obtain ⟨q, qs, hq⟩ := exists_pipeParts us
          rw [pipeParts] at h
          split at h
          · obtain ⟨heq, -⟩ := List.cons.inj h
            cases heq
          · rw [hq] at h
            obtain ⟨heq, -⟩ := List.cons.inj h
            obtain ⟨rfl, -⟩ := List.cons.inj heq
            exact absurd rfl (hts w)
  rw [pipeParts_symbol hc.ne_pipe, h]
  show (∀ m, argWords (.symbol c :: p) = some m → n + m ≠ maxArgs) ∧
    ((∃ m, argWords (.symbol c :: p) = some m ∧ n + m ≤ maxArgs) → ArgsFit ps)
  rw [hnone]
  exact ⟨fun m hm => (nomatch hm), fun ⟨m, hm, _⟩ => nomatch hm⟩

/-! ## One token -/

/-- The symbols among the tokens are those of the lexer. -/
def SymbolsOnly (ts : List Token) : Prop := ∀ c, .symbol c ∈ ts → c ∈ symbols

theorem symbolsOnly_tokens (r : List Byte) : SymbolsOnly (tokens r) := by
  induction r using tokens.induct with
  | case1 => exact fun c hc => absurd hc (by rw [tokens]; exact List.not_mem_nil)
  | case2 b r hb ih =>
    rw [tokens, if_pos hb]
    exact ih
  | case3 b r hb hs ih =>
    rw [tokens, if_neg hb, if_pos hs]
    intro c hc
    rcases List.mem_cons.mp hc with heq | hc
    · rw [Token.symbol.inj heq]
      exact strchr_iff.mp hs
    · exact ih c hc
  | case4 b r hb hs ih =>
    rw [tokens, if_neg hb, if_neg hs]
    intro c hc
    rcases List.mem_cons.mp hc with heq | hc
    · cases heq
    · exact ih c hc

theorem symbol_code (h : c ∈ symbols) : c ≠ 0 ∧ c ≠ 0x77 := by
  have hall : ∀ d ∈ symbols, d ≠ 0 ∧ d ≠ 0x77 := by decide
  exact hall c h

/-- `parsecmd` gets the next token. -/
theorem nextToken_ret (h : s.lex.HasNext lexFuel ts) :
    ∃ t l, nextToken lexFuel s = .ret ((ts.head?.map Token.code).getD 0, t) { s with lex := l } ∧
      l.HasNext lexFuel ts.tail := by
  obtain ⟨code, t, u, hcall, hdel, hu⟩ := gettoken_spec h
  have hcode : code = (ts.head?.map Token.code).getD 0 := by
    cases ts with
    | nil => exact hdel
    | cons tok ts =>
      cases tok with
      | word w => exact hdel.1
      | symbol c => exact hdel
  refine ⟨t, u, ?_, hu⟩
  unfold nextToken
  rw [hcall, hcode]

theorem storeArg_ret (hn : n < maxArgs) (t : Option Nat) (s : Shell) :
    storeArg n t s = .ret () { s with argv := update s.argv n t } :=
  bind_ret (assert_pos hn)

/-! ### What `parsecmd` does with it -/

theorem parsecmd_nil (fuel n : Nat) (h : s.lex.HasNext lexFuel []) : ∃ s', parsecmd lexFuel (fuel + 1) n s = .ret n s' := by
  obtain ⟨t, l, hnext, -⟩ := nextToken_ret h
  refine ⟨{ s with lex := l }, ?_⟩
  rw [parsecmd, bind_ret hnext]
  rfl

theorem parsecmd_word (fuel n : Nat) (h : s.lex.HasNext lexFuel (.word w :: ts)) :
    ∃ s', s'.lex.HasNext lexFuel ts ∧ s'.opens = s.opens ∧ s'.forks = s.forks ∧
      parsecmd lexFuel (fuel + 1) n s =
        if n < maxArgs then parsecmd lexFuel fuel (n + 1) s' else .halt .exit := by
  obtain ⟨t, l, hnext, hl⟩ := nextToken_ret h
  refine ⟨{ s with lex := l, argv := update s.argv n t }, hl, rfl, rfl, ?_⟩
  rw [parsecmd, bind_ret hnext]
  show (do
    Prog.assert (n < maxArgs) ShPanic.exit
    storeArg n t
    parsecmd lexFuel fuel (n + 1) : ShM Nat) { s with lex := l } = _
  split
  · next hn => rw [bind_ret (assert_pos hn), bind_ret (storeArg_ret hn t _)]
  · next hn => exact bind_halt (assert_neg hn)

theorem parsecmd_symbol (fuel n : Nat) (h : s.lex.HasNext lexFuel (.symbol c :: ts)) (hc : c ∈ symbols) (hne : ¬IsRedirect c)
    (hpipe : c ≠ 0x7c) :
    ∃ s', s'.lex.HasNext lexFuel ts ∧ s'.opens = s.opens ∧ s'.forks = s.forks ∧
      parsecmd lexFuel (fuel + 1) n s = parsecmd lexFuel fuel n s' := by
  obtain ⟨t, l, hnext, hl⟩ := nextToken_ret h
  refine ⟨{ s with lex := l }, hl, rfl, rfl, ?_⟩
  rw [parsecmd, bind_ret hnext]
  show (if c = 0 then _ else if c = 0x77 then _ else if c = 0x3c ∨ c = 0x3e then _ else if c = 0x7c then _ else _ :
    ShM Nat) _ = _
  rw [if_neg (symbol_code hc).1, if_neg (symbol_code hc).2, if_neg (show ¬(c = 0x3c ∨ c = 0x3e) from hne), if_neg hpipe]

theorem parsecmd_pipe (fuel n : Nat) (h : s.lex.HasNext lexFuel (.symbol 0x7c :: ts)) :
    ∃ s', s'.lex.HasNext lexFuel ts ∧ s'.opens = s.opens ∧ (s'.forks = fun k => s.forks (k + 1)) ∧
      parsecmd lexFuel (fuel + 1) n s = if s.forks 0 then parsecmd lexFuel fuel 0 s' else .ret n s' := by
  obtain ⟨t, l, hnext, hl⟩ := nextToken_ret h
  refine ⟨{ s with lex := l, forks := fun k => s.forks (k + 1) }, hl, rfl, rfl, ?_⟩
  rw [parsecmd, bind_ret hnext]
  show (do
    let child ← askFork
    if child then parsecmd lexFuel fuel 0 else pure n : ShM Nat) { s with lex := l } = _
  show (if s.forks 0 then parsecmd lexFuel fuel 0 else pure n : ShM Nat) _ = _
  split <;> rfl

theorem parsecmd_redirect (fuel n : Nat) (h : s.lex.HasNext lexFuel (.symbol c :: ts)) (hc : IsRedirect c) :
    ∃ s', s'.lex.HasNext lexFuel ts.tail ∧ (s'.opens = fun k => s.opens (k + 1)) ∧ s'.forks = s.forks ∧
      parsecmd lexFuel (fuel + 1) n s =
        if (ts.head?.map Token.code).getD 0 = 0x77 then
          if s.opens 0 then parsecmd lexFuel fuel n s' else .halt .panic
        else .halt .exit := by
  obtain ⟨t, l, hnext, hl⟩ := nextToken_ret h
  obtain ⟨t', l', hnext', hl'⟩ := nextToken_ret (s := { s with lex := l }) hl
  refine ⟨{ s with lex := l', opens := fun k => s.opens (k + 1) }, hl', rfl, rfl, ?_⟩
  have hne : c ≠ 0 ∧ c ≠ 0x77 := by
    rcases hc with rfl | rfl <;> decide
  rw [parsecmd, bind_ret hnext]
  show (if c = 0 then _ else if c = 0x77 then _ else if c = 0x3c ∨ c = 0x3e then _ else _ : ShM Nat) _ = _
  rw [if_neg hne.1, if_neg hne.2, if_pos (show c = 0x3c ∨ c = 0x3e from hc), bind_ret hnext']
  show (do
    Prog.assert ((ts.head?.map Token.code).getD 0 = 0x77) ShPanic.exit
    let opened ← askOpen
    Prog.assert (opened = true) ShPanic.panic
    parsecmd lexFuel fuel n : ShM Nat) { s with lex := l' } = _
  split
  · next hword =>
    rw [bind_ret (assert_pos hword)]
    show (do
      Prog.assert (s.opens 0 = true) ShPanic.panic
      parsecmd lexFuel fuel n : ShM Nat) { s with lex := l', opens := fun k => s.opens (k + 1) } = _
    split
    · next hopen => exact bind_ret (assert_pos hopen)
    · next hopen => exact bind_halt (assert_neg hopen)
  · next hword => exact bind_halt (assert_neg hword)

/-! ## All tokens -/

theorem SymbolsOnly.tail (h : SymbolsOnly ts) : SymbolsOnly ts.tail := fun c hc => h c (List.mem_of_mem_tail hc)

/-- `parsecmd` returns less than `MAXARGS`, or the process ends. -/
def Stays (o : Outcome Shell Empty ShPanic Nat) : Prop :=
  o.Sat (fun argc _ => argc < maxArgs) (fun _ _ => True) fun p => p ≠ .wild ∧ p ≠ .spin

theorem stays_halt {p : ShPanic} (h : p ≠ .wild ∧ p ≠ .spin) : Stays (.halt p) := h

theorem parsecmd_stays : ∀ fuel (ts : List Token) n (s : Shell), ts.length < fuel → s.lex.HasNext lexFuel ts →
    SymbolsOnly ts → n ≤ maxArgs → FitFrom n (pipeParts ts) → Stays (parsecmd lexFuel fuel n s) := by
  intro fuel
  induction fuel with
  | zero => exact fun _ _ _ h => absurd h (Nat.not_lt_zero _)
  | succ fuel ih =>
    intro ts n s hfuel h hsym hn hfit
    cases ts with
    | nil =>
      obtain ⟨s', hret⟩ := parsecmd_nil fuel n h
      rw [hret]
      exact Nat.lt_of_le_of_ne hn (fitFrom_nil.mp hfit)
    | cons t ts =>
      have hshort : ts.length < fuel := by simpa using hfuel
      cases t with
      | word w =>
        obtain ⟨s', hs', -, -, hret⟩ := parsecmd_word fuel n h
        rw [hret]
        split
        · next hlt => exact ih ts (n + 1) s' hshort hs' hsym.tail hlt (fitFrom_word.mp hfit)
        · exact stays_halt (by decide)
      | symbol c =>
        have hc := hsym c List.mem_cons_self
        by_cases hpipe : c = 0x7c
        · subst hpipe
          obtain ⟨hne, hrest⟩ := (fitFrom_pipe hn).mp hfit
          obtain ⟨s', hs', -, -, hret⟩ := parsecmd_pipe fuel n h
          rw [hret]
          split
          · exact ih ts 0 s' hshort hs' hsym.tail (Nat.zero_le _) hrest
          · exact Nat.lt_of_le_of_ne hn hne
        · by_cases hred : IsRedirect c
          · obtain ⟨s', hs', -, -, hret⟩ := parsecmd_redirect fuel n h hred
            rw [hret]
            split
            · next hword =>
              split
              · cases ts with
                | nil => cases hword
                | cons u us =>
                  cases u with
                  | symbol d => exact absurd hword (symbol_code (hsym d (List.mem_cons_of_mem _ List.mem_cons_self))).2
                  | word w =>
                    exact ih us n s' (by rw [List.length_cons] at hshort; omega) hs' hsym.tail.tail hn
                      ((fitFrom_redirect hred).mp hfit)
              · exact stays_halt (by decide)
            · exact stays_halt (by decide)
          · obtain ⟨s', hs', -, -, hret⟩ := parsecmd_symbol fuel n h hc hred hpipe
            rw [hret]
            exact ih ts n s' hshort hs' hsym.tail hn ((fitFrom_symbol hred hpipe).mp hfit)

/-- If the arguments do not fit, one of the processes gets to `MAXARGS` arguments. The answers of `fork` that lead to it
depend on the tokens alone. -/
theorem parsecmd_full : ∀ m (ts : List Token) n, ts.length < m → SymbolsOnly ts → n ≤ maxArgs →
    ¬FitFrom n (pipeParts ts) → ∃ forks, ∀ lexFuel fuel (s : Shell), ts.length < fuel → s.lex.HasNext lexFuel ts →
      (∀ k, s.opens k = true) → s.forks = forks → ∃ s', parsecmd lexFuel fuel n s = .ret maxArgs s' := by
  intro m
  induction m with
  | zero => exact fun _ _ h => absurd h (Nat.not_lt_zero _)
  | succ m ih =>
    intro ts n hm hsym hn hfit
    have hpred : ∀ {fuel}, ts.length < fuel → ∃ k, fuel = k + 1 := fun h => ⟨_, (Nat.sub_add_cancel (by omega)).symm⟩
    cases ts with
    | nil =>
      obtain rfl : n = maxArgs := Classical.not_not.mp fun hne => hfit (fitFrom_nil.mpr hne)
      refine ⟨fun _ => false, fun lexFuel fuel s hfuel h _ _ => ?_⟩
      obtain ⟨k, rfl⟩ := hpred hfuel
      exact parsecmd_nil k maxArgs h
    | cons t ts =>
      have hshort : ts.length < m := by simpa using hm
      cases t with
      | word w =>
        rw [fitFrom_word] at hfit
        have hlt : n < maxArgs := by
          refine Nat.lt_of_le_of_ne hn fun heq => hfit ?_
          obtain ⟨p, ps, hparts⟩ := exists_pipeParts ts
          rw [hparts]
          exact ⟨fun m _ => by omega, fun ⟨m, _, hle⟩ => absurd hle (by omega)⟩
        obtain ⟨forks, hforks⟩ := ih ts (n + 1) hshort hsym.tail hlt hfit
        refine ⟨forks, fun lexFuel fuel s hfuel h hopens hs => ?_⟩
        obtain ⟨k, rfl⟩ := hpred hfuel
        obtain ⟨s', hs', hopens', hforks', hret⟩ := parsecmd_word k n h
        rw [hret, if_pos hlt]
        exact hforks lexFuel k s' (by simpa using hfuel) hs' (fun j => hopens' ▸ hopens j) (hforks'.trans hs)
      | symbol c =>
        have hc := hsym c List.mem_cons_self
        by_cases hpipe : c = 0x7c
        · subst hpipe
          rw [fitFrom_pipe hn, not_and] at hfit
          by_cases hfull : n = maxArgs
          · refine ⟨fun _ => false, fun lexFuel fuel s hfuel h _ hs => ?_⟩
            obtain ⟨k, rfl⟩ := hpred hfuel
            obtain ⟨s', -, -, -, hret⟩ := parsecmd_pipe k n h
            refine ⟨s', ?_⟩
            rw [hret, hs, if_neg Bool.false_ne_true, hfull]
          · obtain ⟨forks, hforks⟩ := ih ts 0 hshort hsym.tail (Nat.zero_le _) (hfit hfull)
            refine ⟨fun k => if k = 0 then true else forks (k - 1), fun lexFuel fuel s hfuel h hopens hs => ?_⟩
            obtain ⟨k, rfl⟩ := hpred hfuel
            obtain ⟨s', hs', hopens', hforks', hret⟩ := parsecmd_pipe k n h
            rw [hret, hs, if_pos (by rfl)]
            refine hforks lexFuel k s' (by simpa using hfuel) hs' (fun j => hopens' ▸ hopens j) ?_
            rw [hforks', hs]
            rfl
        · by_cases hred : IsRedirect c
          · cases ts with
            | nil => exact absurd (fitFrom_malformed hred fun w hw => by cases hw) hfit
            | cons u us =>
              cases u with
              | symbol d => exact absurd (fitFrom_malformed hred fun w hw => by cases hw) hfit
              | word w =>
                rw [fitFrom_redirect hred] at hfit
                rw [List.length_cons] at hshort
                obtain ⟨forks, hforks⟩ := ih us n (by omega) hsym.tail.tail hn hfit
                refine ⟨forks, fun lexFuel fuel s hfuel h hopens hs => ?_⟩
                obtain ⟨k, rfl⟩ := hpred hfuel
                rw [List.length_cons, List.length_cons] at hfuel
                obtain ⟨s', hs', hopens', hforks', hret⟩ := parsecmd_redirect k n h hred
                rw [hret, if_pos (by rfl), if_pos (hopens 0)]
                exact hforks lexFuel k s' (by omega) hs' (fun j => hopens' ▸ hopens (j + 1)) (hforks'.trans hs)
          · rw [fitFrom_symbol hred hpipe] at hfit
            obtain ⟨forks, hforks⟩ := ih ts n hshort hsym.tail hn hfit
            refine ⟨forks, fun lexFuel fuel s hfuel h hopens hs => ?_⟩
            obtain ⟨k, rfl⟩ := hpred hfuel
            obtain ⟨s', hs', hopens', hforks', hret⟩ := parsecmd_symbol k n h hc hred hpipe
            rw [hret]
            exact hforks lexFuel k s' (by simpa using hfuel) hs' (fun j => hopens' ▸ hopens j) (hforks'.trans hs)

/-! ## Main result -/

theorem tokens_length (r : List Byte) : (tokens r).length ≤ r.length := by
  induction r using tokens.induct with
  | case1 =>
    rw [tokens]
    exact Nat.le_refl 0
  | case2 b r hb ih =>
    rw [tokens, if_pos hb]
    exact Nat.le_succ_of_le ih
  | case3 b r hb hs ih =>
    rw [tokens, if_neg hb, if_pos hs]
    exact Nat.succ_le_succ ih
  | case4 b r hb hs ih =>
    rw [tokens, if_neg hb, if_neg hs]
    exact Nat.succ_le_succ (ih.trans (List.dropWhile_suffix _).length_le)

/-- The first call of `gettoken` in `runcmd`. -/
theorem runcmd_start {line : List Byte} {a : Nat} (hz : 0 ∉ line) (ha : a ≠ 0) (h : IsString s.lex.mem a line)
    (hfuel : line.length < fuel) :
    ∃ l, l.HasNext fuel (tokens line) ∧ runcmd fuel a s =
      (do
        let argc ← parsecmd fuel fuel 0
        finishArgs argc : ShM Unit) { s with lex := l } := by
  obtain ⟨x, hx, -, -, hscan⟩ := gettokenAt_spec ha h hz hfuel
  refine ⟨⟨s.lex.c, x.code, x.p1, x.p2, x.mem⟩, hscan, ?_⟩
  have hfirst : gettoken fuel a s.lex = some (0, none, ⟨s.lex.c, x.code, x.p1, x.p2, x.mem⟩) := by
    simp only [gettoken, ne_eq, ha, not_false_eq_true, if_true, Lexer.ahead, hx, Option.bind_eq_bind, Option.bind_some]
  rw [runcmd, get_bind, hfirst]
  rfl

/-- A line that does not fit has answers of `fork` with which `runcmd` leaves `argv`. -/
theorem ArgvSafe.fits {line : List Byte} (hz : 0 ∉ line) (hsafe : ArgvSafe line) :
    FitFrom 0 (pipeParts (tokens line)) := by
  have hlen := tokens_length line
  by_contra hfit
  obtain ⟨forks, hforks⟩ := parsecmd_full _ (tokens line) 0 (Nat.lt_succ_self _) (symbolsOnly_tokens line)
    (Nat.zero_le _) hfit
  let s : Shell := ⟨⟨0, 0, 0, 0, fun x => line.getD (x - 1) 0⟩, fun _ => none, fun _ => true, forks⟩
  have hline : IsString s.lex.mem 1 line := by
    intro i _
    show line.getD (1 + i - 1) 0 = _
    rw [Nat.add_sub_cancel_left]
  obtain ⟨m, hm⟩ := hsafe 1 s (by decide) hline
  obtain ⟨l, hl, hrun⟩ := runcmd_start hz (by decide) hline (show line.length < m + line.length + 1 by omega)
  obtain ⟨s', hret⟩ := hforks (m + line.length + 1) (m + line.length + 1) { s with lex := l } (by omega) hl
    (fun _ => rfl) rfl
  refine (hm (m + line.length + 1) (by omega)).1 ?_
  rw [hrun, bind_ret hret]
  exact bind_halt (assert_neg (Nat.lt_irrefl _))

/-- A line that fits is safe. -/
theorem argvSafe_of_fits {line : List Byte} (hz : 0 ∉ line) (hfit : FitFrom 0 (pipeParts (tokens line))) :
    ArgvSafe line := by
  have hlen := tokens_length line
  intro a s ha hline
  refine ⟨line.length, fun fuel hfuel => ?_⟩
  obtain ⟨l, hl, hrun⟩ := runcmd_start hz ha hline hfuel
  have hstays := parsecmd_stays fuel (tokens line) 0 { s with lex := l } (by omega) hl (symbolsOnly_tokens line)
    (Nat.zero_le _) hfit
  rw [hrun]
  cases hret : parsecmd fuel fuel 0 { s with lex := l } with
  | ret argc s' =>
    rw [hret] at hstays
    rw [bind_ret hret, finishArgs]
    split
    · exact ⟨fun h => (by cases h), fun h => by cases h⟩
    · rw [storeArg_ret hstays]
      exact ⟨fun h => (by cases h), fun h => by cases h⟩
  | err e s' => exact e.elim
  | halt p =>
    rw [hret] at hstays
    rw [bind_halt hret]
    exact ⟨fun h => hstays.1 (Outcome.halt.inj h), fun h => hstays.2 (Outcome.halt.inj h)⟩

/-- **A line is safe for `argv` exactly when none of its commands has `MAXARGS` arguments, up to the first command that
is malformed or has more.** -/
theorem argv_safe_iff (line : List Byte) (hz : 0 ∉ line) :
    ArgvSafe line ↔ ArgsFit (pipeParts (tokens line)) := by
  rw [← fitFrom_zero]
  exact ⟨ArgvSafe.fits hz, argvSafe_of_fits hz⟩

/-- `ls|wc `. -/
theorem argv_safe_iff_small : ArgvSafe [0x6c, 0x73, 0x7c, 0x77, 0x63, 0x20] := by
  refine (argv_safe_iff [0x6c, 0x73, 0x7c, 0x77, 0x63, 0x20] (by decide)).mpr ?_
  have htokens : tokens [0x6c, 0x73, 0x7c, 0x77, 0x63, 0x20] =
      [.word [0x6c, 0x73], .symbol 0x7c, .word [0x77, 0x63]] := by
    simp [tokens, strchr, whitespace, symbols, wordChar]
  rw [htokens]
  exact ⟨by decide, fun _ => ⟨by decide, fun _ => trivial⟩⟩

/-- `n` words of one letter. -/
def letters : Nat → List Byte
  | 0 => []
  | n + 1 => 0x61 :: 0x20 :: letters n

theorem tokens_letters (n : Nat) : tokens (letters n) = List.replicate n (.word [0x61]) := by
  induction n with
  | zero => rw [letters, tokens]; rfl
  | succ n ih =>
    have hstep : tokens (0x61 :: 0x20 :: letters n) = .word [0x61] :: tokens (0x20 :: letters n) := by
      rw [tokens, if_neg (by decide), if_neg (by decide), List.takeWhile_cons_of_neg (by decide),
        List.dropWhile_cons_of_neg (by decide)]
    have hspace : tokens (0x20 :: letters n) = tokens (letters n) := by
      rw [tokens, if_pos (by decide)]
    rw [letters, hstep, hspace, ih, List.replicate_succ]

theorem letters_length (n : Nat) : (letters n).length = 2 * n := by
  induction n with
  | zero => rfl
  | succ n ih =>
    rw [letters, List.length_cons, List.length_cons, ih]
    omega

theorem zero_notMem_letters (n : Nat) : 0 ∉ letters n := by
  induction n with
  | zero => exact List.not_mem_nil
  | succ n ih =>
    rw [letters, List.mem_cons, List.mem_cons]
    rintro (h | h | h)
    · exact absurd h (by decide)
    · exact absurd h (by decide)
    · exact ih h

theorem pipeParts_words (w : List Byte) (n : Nat) :
    pipeParts (List.replicate n (.word w)) = [List.replicate n (.word w)] := by
  induction n with
  | zero => rfl
  | succ n ih =>
    rw [List.replicate_succ, pipeParts, if_neg (by simp), ih]
    rfl

theorem argWords_words (w : List Byte) (n : Nat) : argWords (List.replicate n (.word w)) = some n := by
  induction n with
  | zero => rfl
  | succ n ih =>
    rw [List.replicate_succ, argWords_word, ih]
    rfl

/-- A line with 128 words makes `runcmd` store the null pointer behind the array. -/
theorem argv_overflows : (letters 128).length < 1024 ∧ ¬ArgvSafe (letters 128) := by
  have hlen : (letters 128).length < 1024 := by
    rw [letters_length]
    decide
  refine ⟨hlen, fun h => ?_⟩
  have hfit := (fitFrom_zero _).mp (h.fits (zero_notMem_letters 128))
  rw [tokens_letters, pipeParts_words] at hfit
  exact hfit.1 (argWords_words _ 128)

end Mos
