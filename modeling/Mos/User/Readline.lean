import Mathlib.Data.List.GetD
import Mathlib.Logic.Function.Basic
import Mos.Kern.State

/-!
# Editing a line

`readline` of `user/sh.c` reads keys into a buffer. At an erase key it moves the index back before it looks at the
buffer once more.
-/

namespace Mos

open Function

/-! ## `user/sh.c` -/

/-- Backspace, or delete. -/
def IsErase (k : Byte) : Prop := k = 0x08 ∨ k = 0x7f

/-- A carriage return, or a newline. -/
def IsEnd (k : Byte) : Prop := k = 0x0d ∨ k = 0x0a

instance (k : Byte) : Decidable (IsErase k) := inferInstanceAs (Decidable (_ ∨ _))
instance (k : Byte) : Decidable (IsEnd k) := inferInstanceAs (Decidable (_ ∨ _))

/-- The memory around `buf`, by the distance from it, and what is printed. -/
structure LineBuf where
  mem : Int → Byte
  echo : List Byte
  /-- Not part of the program: the indices that have been accessed. -/
  accesses : List Int

/-- `buf[i]` is looked at. -/
def LineBuf.look (b : LineBuf) (i : Int) : LineBuf := { b with accesses := b.accesses ++ [i] }

/-- `buf[i] = c`. -/
def LineBuf.store (b : LineBuf) (i : Int) (c : Byte) : LineBuf :=
  { b with mem := update b.mem i c, accesses := b.accesses ++ [i] }

/-- How `readline` ends. -/
inductive ReadEnd where
  /-- It returns at the end of a line. -/
  | line
  /-- The line did not fit. -/
  | tooLong
  /-- `exit()`, because there is no more input. -/
  | exit
deriving DecidableEq

/-- How `readline` ends, and the buffer. -/
structure ReadResult where
  how : ReadEnd
  buf : LineBuf

/-- The loop behind `line too long`. -/
def drainLine : List Byte → LineBuf → ReadResult
  | [], b => ⟨.tooLong, b.store 0 0⟩
  | k :: ks, b =>
    let b := (b.store 0 k).look 0
    if IsEnd (b.mem 0) then ⟨.tooLong, b.store 0 0⟩ else drainLine ks b

/-- What `readline` does at an erase key: the new index, and the buffer. -/
def eraseKey (i : Int) (b : LineBuf) : Int × LineBuf :=
  let b := b.look i
  if IsErase (b.mem i) then
    let i := if i > 0 then i - 2 else -1
    let b := b.look i
    (i, { b with echo := if b.mem i ≠ 0x08 then b.echo ++ [0x08] else b.echo })
  else (i, b)

/-- The loop of `readline` over the keys that are to come, and what follows it. An index is less than 2^31, since the
buffer lies below `UTOP`. -/
def readlineRun (n : Nat) : List Byte → Int → LineBuf → ReadResult
  | [], i, b => if i < n then ⟨.exit, b⟩ else drainLine [] b
  | k :: ks, i, b =>
    if i < n then
      let (i, b) := eraseKey i (b.store i k)
      let b := b.look i
      if IsEnd (b.mem i) then ⟨.line, b.store i 0⟩ else readlineRun n ks (i + 1) b
    else drainLine (k :: ks) b

/-- `readline(buf, n)`, where `keys` are the bytes that `read` will give. -/
def readline (n : Nat) (keys : List Byte) (b : LineBuf) : ReadResult := readlineRun n keys 0 b

/-! ## What editing means -/

/-- A key, applied to a line. -/
def editKey (line : List Byte) (k : Byte) : List Byte := if IsErase k then line.dropLast else line ++ [k]

/-- The keys up to the end of the line, applied in order. -/
def typed (line : List Byte) (keys : List Byte) : List Byte := (keys.takeWhile fun k => ¬IsEnd k).foldl editKey line

/-- Every erase key that comes while the line fits finds at least two characters; the line has `len` characters
before the keys. -/
def ErasesFit (n : Nat) : List Byte → Nat → Prop
  | [], _ => True
  | k :: ks, len => len < n →
    if IsErase k then 2 ≤ len ∧ ErasesFit n ks (len - 1) else IsEnd k ∨ ErasesFit n ks (len + 1)

/-- The buffer holds a string. -/
def LineBuf.Holds (b : LineBuf) (s : List Byte) : Prop := ∀ j < s.length + 1, b.mem (j : Int) = s.getD j 0

/-- All accesses were to the first `n` elements. -/
def LineBuf.Inside (b : LineBuf) (n : Nat) : Prop := ∀ a ∈ b.accesses, 0 ≤ a ∧ a < n

/-- `readline` is right for these keys, whatever was in memory. -/
def ReadsRight (n : Nat) (keys : List Byte) : Prop :=
  ∀ mem, (readline n keys ⟨mem, [], []⟩).buf.Inside n ∧
    ((readline n keys ⟨mem, [], []⟩).how = .line → (readline n keys ⟨mem, [], []⟩).buf.Holds (typed [] keys))

/-! ## Accesses -/

variable {n len : Nat} {b : LineBuf} {i : Int} {c k : Byte} {ks line : List Byte}

theorem LineBuf.Inside.look (h : b.Inside n) (h0 : 0 ≤ i) (hi : i < n) : (b.look i).Inside n := by
  intro a ha
  rcases List.mem_append.mp ha with ha | ha
  · exact h a ha
  · rw [List.mem_singleton.mp ha]
    exact ⟨h0, hi⟩

theorem LineBuf.Inside.store (h : b.Inside n) (h0 : 0 ≤ i) (hi : i < n) (c : Byte) : (b.store i c).Inside n :=
  LineBuf.Inside.look (b := b) h h0 hi

theorem drainLine_inside (hn : 0 < n) : ∀ (ks : List Byte) (b : LineBuf), b.Inside n → (drainLine ks b).buf.Inside n := by
  have h0 : (0 : Int) < n := by omega
  intro ks
  induction ks with
  | nil => exact fun b hb => hb.store le_rfl h0 0
  | cons k ks ih =>
    intro b hb
    have hb' := (hb.store le_rfl h0 k).look le_rfl h0
    rw [drainLine]
    split
    · exact hb'.store le_rfl h0 0
    · exact ih _ hb'

theorem drainLine_how : ∀ (ks : List Byte) (b : LineBuf), (drainLine ks b).how = .tooLong := by
  intro ks
  induction ks with
  | nil => exact fun _ => rfl
  | cons k ks ih =>
    intro b
    rw [drainLine]
    split
    · rfl
    · exact ih _

/-- An access is not forgotten. -/
theorem drainLine_accesses {a : Int} : ∀ (ks : List Byte) (b : LineBuf), a ∈ b.accesses →
    a ∈ (drainLine ks b).buf.accesses := by
  intro ks
  induction ks with
  | nil => exact fun b h => List.mem_append_left _ h
  | cons k ks ih =>
    intro b h
    have h' : a ∈ ((b.store 0 k).look 0).accesses := List.mem_append_left _ (List.mem_append_left _ h)
    rw [drainLine]
    split
    · exact List.mem_append_left _ h'
    · exact ih _ h'

theorem eraseKey_accesses {a : Int} (h : a ∈ b.accesses) : a ∈ (eraseKey i b).2.accesses := by
  have h' : a ∈ (b.look i).accesses := List.mem_append_left _ h
  unfold eraseKey
  dsimp only
  split
  · exact List.mem_append_left _ h'
  · exact h'

theorem readlineRun_accesses {a : Int} : ∀ (ks : List Byte) (i : Int) (b : LineBuf), a ∈ b.accesses →
    a ∈ (readlineRun n ks i b).buf.accesses := by
  intro ks
  induction ks with
  | nil =>
    intro i b h
    rw [readlineRun]
    split
    · exact h
    · exact drainLine_accesses [] b h
  | cons k ks ih =>
    intro i b h
    rw [readlineRun]
    split
    · have h' : a ∈ ((eraseKey i (b.store i k)).2.look (eraseKey i (b.store i k)).1).accesses :=
        List.mem_append_left _ (eraseKey_accesses (List.mem_append_left _ h))
      dsimp only
      split
      · exact List.mem_append_left _ h'
      · exact ih _ _ h'
    · exact drainLine_accesses _ b h

/-! ## One key -/

theorem IsErase.not_isEnd (h : IsErase k) : ¬IsEnd k := by
  rcases h with rfl | rfl <;> decide

/-- The buffer begins with the line that has been typed so far, and everything was in order. -/
structure Typing (n : Nat) (line : List Byte) (b : LineBuf) : Prop where
  short : line.length ≤ n
  chars : ∀ j < line.length, b.mem (j : Int) = line.getD j 0
  plain : ∀ c ∈ line, ¬IsErase c ∧ ¬IsEnd c
  inside : b.Inside n

/-- A key that has been stored, and the line in front of it. -/
theorem store_mem (h : Typing n line b) : (b.store line.length k).mem line.length = k ∧
    ∀ j < line.length, (b.store line.length k).mem (j : Int) = line.getD j 0 := by
  refine ⟨update_self _ _ _, fun j hj => ?_⟩
  rw [← h.chars j hj]
  exact update_of_ne (by omega) _ _

theorem eraseKey_keep (hk : ¬IsErase (b.mem i)) : eraseKey i b = (i, b.look i) := if_neg hk

theorem eraseKey_erase (hk : IsErase (b.mem i)) :
    (eraseKey i b).1 = (if i > 0 then i - 2 else -1) ∧ (eraseKey i b).2.mem = b.mem ∧
      (eraseKey i b).2.accesses = b.accesses ++ [i] ++ [if i > 0 then i - 2 else -1] := by
  have heq : eraseKey i b = (if i > 0 then i - 2 else -1, _) := if_pos hk
  rw [heq]
  exact ⟨rfl, rfl, rfl⟩

/-- An erase key takes the last character away, when there is one more in front of it. -/
theorem step_erase (ks : List Byte) (h : Typing n line b) (hlt : line.length < n) (hk : IsErase k) (h2 : 2 ≤ line.length) :
    ∃ b', Typing n line.dropLast b' ∧
      readlineRun n (k :: ks) line.length b = readlineRun n ks line.dropLast.length b' := by
  obtain ⟨hat, hfront⟩ := store_mem (k := k) h
  obtain ⟨hindex, hmem, haccesses⟩ := eraseKey_erase (b := b.store line.length k) (i := line.length) (by rwa [hat])
  rw [if_pos (by omega)] at hindex haccesses
  have hlast : (eraseKey line.length (b.store line.length k)).2.mem (line.length - 2) =
      line.getD (line.length - 2) 0 := by
    rw [hmem, show (line.length : Int) - 2 = ((line.length - 2 : Nat) : Int) by omega]
    exact hfront _ (by omega)
  have hplain : ¬IsEnd (line.getD (line.length - 2) 0) := by
    rw [List.getD_eq_getElem _ _ (by omega)]
    exact (h.plain _ (List.getElem_mem _)).2
  refine ⟨(eraseKey line.length (b.store line.length k)).2.look (line.length - 2), ⟨?_, fun j hj => ?_, fun c hc => ?_, ?_⟩, ?_⟩
  · rw [List.length_dropLast]
    omega
  · rw [List.length_dropLast] at hj
    show (eraseKey line.length (b.store line.length k)).2.mem (j : Int) = _
    rw [hmem, hfront j (by omega), List.getD_eq_getElem _ _ (by omega),
      List.getD_eq_getElem _ _ (by rw [List.length_dropLast]; omega), List.getElem_dropLast]
  · exact h.plain c (List.dropLast_subset line hc)
  · refine LineBuf.Inside.look ?_ (by omega) (by omega)
    unfold LineBuf.Inside
    rw [haccesses]
    exact ((h.inside.store (by omega) (by omega) k).look (i := (line.length : Int)) (by omega) (by omega)).look
      (i := (line.length : Int) - 2) (by omega) (by omega)
  · rw [readlineRun, if_pos (by omega)]
    dsimp only
    rw [hindex]
    have hnot : ¬IsEnd (((eraseKey line.length (b.store line.length k)).2.look (line.length - 2)).mem
        (line.length - 2)) := by
      rw [← hlast] at hplain
      exact hplain
    rw [if_neg hnot, List.length_dropLast]
    congr 1
    omega

/-- Another character is appended. -/
theorem step_char (ks : List Byte) (h : Typing n line b) (hlt : line.length < n) (hk : ¬IsErase k) (hend : ¬IsEnd k) :
    ∃ b', Typing n (line ++ [k]) b' ∧
      readlineRun n (k :: ks) line.length b = readlineRun n ks (line ++ [k]).length b' := by
  obtain ⟨hat, hfront⟩ := store_mem (k := k) h
  have hkeep := eraseKey_keep (b := b.store line.length k) (i := line.length) (by rwa [hat])
  refine ⟨((b.store line.length k).look line.length).look line.length, ⟨?_, fun j hj => ?_, fun c hc => ?_, ?_⟩, ?_⟩
  · rw [List.length_append]
    exact hlt
  · rw [List.length_append, List.length_singleton] at hj
    show (b.store line.length k).mem (j : Int) = _
    by_cases hj' : j < line.length
    · rw [hfront j hj', List.getD_append _ _ _ _ hj']
    · obtain rfl : j = line.length := by omega
      rw [hat, List.getD_append_right _ _ _ _ le_rfl, Nat.sub_self]
      rfl
  · rcases List.mem_append.mp hc with hc | hc
    · exact h.plain c hc
    · rw [List.mem_singleton.mp hc]
      exact ⟨hk, hend⟩
  · exact ((h.inside.store (by omega) (by omega) k).look (by omega) (by omega)).look (by omega) (by omega)
  · rw [readlineRun, if_pos (by omega), hkeep]
    have hnot : ¬IsEnd ((((b.store line.length k).look line.length).look line.length).mem line.length) := by
      rw [← hat] at hend
      exact hend
    dsimp only
    rw [if_neg hnot, List.length_append]
    rfl

/-- The end of the line. -/
theorem step_end (ks : List Byte) (h : Typing n line b) (hlt : line.length < n) (hend : IsEnd k) :
    ∃ b', b'.Inside n ∧ b'.Holds line ∧ readlineRun n (k :: ks) line.length b = ⟨.line, b'⟩ := by
  obtain ⟨hat, hfront⟩ := store_mem (k := k) h
  have hkeep := eraseKey_keep (b := b.store line.length k) (i := line.length) (by
    rw [hat]
    exact fun hk => hk.not_isEnd hend)
  refine ⟨(((b.store line.length k).look line.length).look line.length).store line.length 0, ?_, fun j hj => ?_, ?_⟩
  · exact (((h.inside.store (by omega) (by omega) k).look (by omega) (by omega)).look (by omega) (by omega)).store
      (by omega) (by omega) 0
  · show update (b.store line.length k).mem (line.length : Int) 0 (j : Int) = _
    by_cases hj' : j = line.length
    · rw [hj', update_self, List.getD_eq_default _ _ le_rfl]
    · rw [update_of_ne (by omega), hfront j (by omega)]
  · rw [readlineRun, if_pos (by omega), hkeep]
    have hyes : IsEnd ((((b.store line.length k).look line.length).look line.length).mem line.length) := by
      rw [← hat] at hend
      exact hend
    dsimp only
    rw [if_pos hyes]

/-! ## All keys -/

theorem typed_cons (hend : ¬IsEnd k) : typed line (k :: ks) = typed (editKey line k) ks := by
  unfold typed
  rw [List.takeWhile_cons_of_pos (by simpa using hend)]
  rfl

theorem typed_end (hend : IsEnd k) : typed line (k :: ks) = line := by
  unfold typed
  rw [List.takeWhile_cons_of_neg (by simpa using hend)]
  rfl

theorem readlineRun_right (hn : 0 < n) : ∀ (ks line : List Byte) (b : LineBuf), Typing n line b →
    ErasesFit n ks line.length → (readlineRun n ks line.length b).buf.Inside n ∧
      ((readlineRun n ks line.length b).how = .line → (readlineRun n ks line.length b).buf.Holds (typed line ks)) := by
  intro ks
  induction ks with
  | nil =>
    intro line b h _
    rw [readlineRun]
    split
    · exact ⟨h.inside, fun hhow => by cases hhow⟩
    · refine ⟨drainLine_inside hn [] b h.inside, fun hhow => ?_⟩
      rw [drainLine_how] at hhow
      cases hhow
  | cons k ks ih =>
    intro line b h hfit
    by_cases hlt : line.length < n
    · replace hfit := hfit hlt
      by_cases hk : IsErase k
      · rw [if_pos hk] at hfit
        obtain ⟨b', hb', hstep⟩ := step_erase ks h hlt hk hfit.1
        rw [hstep, typed_cons hk.not_isEnd, editKey, if_pos hk]
        exact ih _ b' hb' (by rw [List.length_dropLast]; exact hfit.2)
      · rw [if_neg hk] at hfit
        by_cases hend : IsEnd k
        · obtain ⟨b', hinside, hholds, hstep⟩ := step_end ks h hlt hend
          rw [hstep, typed_end hend]
          exact ⟨hinside, fun _ => hholds⟩
        · obtain ⟨b', hb', hstep⟩ := step_char ks h hlt hk hend
          rw [hstep, typed_cons hend, editKey, if_neg hk]
          exact ih _ b' hb' (by rw [List.length_append]; exact hfit.resolve_left hend)
    · rw [readlineRun, if_neg (by omega)]
      refine ⟨drainLine_inside hn _ b h.inside, fun hhow => ?_⟩
      rw [drainLine_how] at hhow
      cases hhow

theorem readlineRun_outside : ∀ (ks line : List Byte) (b : LineBuf), Typing n line b →
    ¬ErasesFit n ks line.length → -1 ∈ (readlineRun n ks line.length b).buf.accesses := by
  intro ks
  induction ks with
  | nil => exact fun line b _ hfit => absurd trivial hfit
  | cons k ks ih =>
    intro line b h hfit
    unfold ErasesFit at hfit
    rw [Classical.not_imp] at hfit
    obtain ⟨hlt, hfit⟩ := hfit
    by_cases hk : IsErase k
    · rw [if_pos hk] at hfit
      by_cases h2 : 2 ≤ line.length
      · obtain ⟨b', hb', hstep⟩ := step_erase ks h hlt hk h2
        rw [hstep]
        exact ih _ b' hb' (by rw [List.length_dropLast]; exact fun hrest => hfit ⟨h2, hrest⟩)
      · obtain ⟨hat, -⟩ := store_mem (k := k) h
        obtain ⟨hindex, -, haccesses⟩ := eraseKey_erase (b := b.store line.length k) (i := line.length) (by rwa [hat])
        have hback : (if (line.length : Int) > 0 then (line.length : Int) - 2 else -1) = -1 := by
          split <;> omega
        rw [hback] at hindex haccesses
        have hmem : -1 ∈ ((eraseKey line.length (b.store line.length k)).2.look (-1)).accesses :=
          List.mem_append_right _ List.mem_cons_self
        rw [readlineRun, if_pos (by omega)]
        dsimp only
        rw [hindex]
        split
        · exact List.mem_append_left _ hmem
        · exact readlineRun_accesses _ _ _ hmem
    · rw [if_neg hk, not_or] at hfit
      obtain ⟨b', hb', hstep⟩ := step_char ks h hlt hk hfit.1
      rw [hstep]
      exact ih _ b' hb' (by rw [List.length_append]; exact hfit.2)

/-! ## Main result -/

/-- **`readline` stays in its buffer and leaves the edited line there exactly when every erase key finds at least two
characters.** -/
theorem readline_right_iff (n : Nat) (hn : 0 < n) (keys : List Byte) : ReadsRight n keys ↔ ErasesFit n keys 0 := by
  have hstart : ∀ mem, Typing n [] ⟨mem, [], []⟩ := fun mem =>
    ⟨Nat.zero_le n, fun j hj => absurd hj (Nat.not_lt_zero j), fun c hc => absurd hc List.not_mem_nil,
      fun a ha => absurd ha List.not_mem_nil⟩
  constructor
  · intro hright
    by_contra hfit
    have hout := readlineRun_outside keys [] ⟨fun _ => 0, [], []⟩ (hstart _) hfit
    have := ((hright fun _ => 0).1 (-1) hout).1
    omega
  · exact fun hfit mem => readlineRun_right hn keys [] ⟨mem, [], []⟩ (hstart mem) hfit

/-- `a`, `b`, backspace and a newline. -/
theorem readline_right_iff_small : ReadsRight 1024 [0x61, 0x62, 0x08, 0x0a] :=
  (readline_right_iff 1024 (by decide) [0x61, 0x62, 0x08, 0x0a]).mpr (by simp [ErasesFit, IsErase, IsEnd])

/-- A backspace and a newline. -/
theorem readline_reads_before : ¬ReadsRight 1024 [0x08, 0x0a] := by
  intro h
  have hout : (-1 : Int) ∈ (readline 1024 [0x08, 0x0a] ⟨fun _ => 0, [], []⟩).buf.accesses := by decide
  have := ((h fun _ => 0).1 (-1) hout).1
  omega

end Mos
