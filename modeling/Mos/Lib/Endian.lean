import Mathlib.Logic.Function.Basic
import Mathlib.Tactic.Common

/-!
# Words in a memory of bytes

A memory is a function from addresses to bytes. A machine of either byte order reads and writes words of
32 bits in it.

`swapWords` turns round the bytes of some aligned words. What a machine has written there, a machine of the
other byte order reads after it.
-/

namespace Lib

/-- The order of the bytes of a word in memory. -/
inductive Endian where
  | little
  | big
deriving DecidableEq

namespace Endian

/-- The opposite order. -/
def other : Endian → Endian
  | little => big
  | big => little

/-- The place in memory of byte `k` of a word; byte 0 is the least significant one. -/
def place : Endian → Nat → Nat
  | little, k => k
  | big, k => 3 - k

variable {e : Endian} {k : Nat}

theorem place_lt (e : Endian) (hk : k < 4) : e.place k < 4 := by
  cases e with
  | little => exact hk
  | big => exact Nat.lt_of_le_of_lt (Nat.sub_le 3 k) (by decide)

theorem place_place (e : Endian) (hk : k < 4) : e.place (e.place k) = k := by
  cases e with
  | little => rfl
  | big =>
    show 3 - (3 - k) = k
    omega

/-- The two orders are each other's mirror image. -/
theorem place_other (e : Endian) (hk : k < 4) : e.other.place k = 3 - e.place k := by
  cases e with
  | little => rfl
  | big =>
    show k = 3 - (3 - k)
    omega

end Endian

/-! ## Words and their bytes -/

/-- Byte `k` of a word. -/
def byteAt (w : BitVec 32) (k : Nat) : BitVec 8 := w.extractLsb' (8 * k) 8

/-- The word with these bytes. -/
def ofBytes (b : Nat → BitVec 8) : BitVec 32 := b 3 ++ b 2 ++ b 1 ++ b 0

theorem getLsbD_ofBytes (b : Nat → BitVec 8) {i : Nat} (hi : i < 32) :
    (ofBytes b).getLsbD i = (b (i / 8)).getLsbD (i % 8) := by
  have hcases : i / 8 = 0 ∨ i / 8 = 1 ∨ i / 8 = 2 ∨ i / 8 = 3 := by omega
  unfold ofBytes
  simp only [BitVec.getLsbD_append]
  rcases hcases with h | h | h | h
  · rw [if_pos (by omega), h, Nat.mod_eq_of_lt (by omega)]
  · rw [if_neg (by omega), if_pos (by omega), h, show i - 8 = i % 8 by omega]
  · rw [if_neg (by omega), if_neg (by omega), if_pos (by omega), h, show i - 8 - 8 = i % 8 by omega]
  · rw [if_neg (by omega), if_neg (by omega), if_neg (by omega), h, show i - 8 - 8 - 8 = i % 8 by omega]

theorem ofBytes_byteAt (w : BitVec 32) : ofBytes (byteAt w) = w := by
  refine BitVec.eq_of_getLsbD_eq fun i hi => ?_
  rw [getLsbD_ofBytes _ hi, byteAt, BitVec.getLsbD_extractLsb', decide_eq_true (Nat.mod_lt _ (by decide)),
    Bool.true_and, Nat.div_add_mod]

theorem byteAt_ofBytes (b : Nat → BitVec 8) {k : Nat} (hk : k < 4) : byteAt (ofBytes b) k = b k := by
  refine BitVec.eq_of_getLsbD_eq fun i hi => ?_
  rw [byteAt, BitVec.getLsbD_extractLsb', decide_eq_true hi, Bool.true_and, getLsbD_ofBytes _ (by omega),
    show (8 * k + i) / 8 = k by omega, show (8 * k + i) % 8 = i by omega]

theorem ofBytes_congr {b c : Nat → BitVec 8} (h : ∀ k < 4, b k = c k) : ofBytes b = ofBytes c := by
  unfold ofBytes
  rw [h 0 (by decide), h 1 (by decide), h 2 (by decide), h 3 (by decide)]

/-! ## Memory -/

variable {e : Endian} {m m' : Nat → BitVec 8} {a b x : Nat} {w : BitVec 32}

/-- Reads the word at the address `a`. -/
def wordAt (e : Endian) (m : Nat → BitVec 8) (a : Nat) : BitVec 32 := ofBytes fun k => m (a + e.place k)

/-- Writes the word at the address `a`. -/
def setWordAt (e : Endian) (m : Nat → BitVec 8) (a : Nat) (w : BitVec 32) : Nat → BitVec 8 := fun x =>
  if a ≤ x ∧ x < a + 4 then byteAt w (e.place (x - a)) else m x

/-- The same four bytes, at two places. -/
theorem wordAt_eq_of_bytes (h : ∀ k < 4, m (a + k) = m' (b + k)) : wordAt e m a = wordAt e m' b :=
  ofBytes_congr fun _ hk => h _ (e.place_lt hk)

theorem wordAt_congr (h : ∀ x, a ≤ x → x < a + 4 → m x = m' x) : wordAt e m a = wordAt e m' a :=
  ofBytes_congr fun _ hk => h _ (Nat.le_add_right _ _) (Nat.add_lt_add_left (e.place_lt hk) a)

theorem setWordAt_of_ne (h : x < a ∨ a + 4 ≤ x) : setWordAt e m a w x = m x := if_neg (by omega)

theorem wordAt_setWordAt_self : wordAt e (setWordAt e m a w) a = w := by
  refine Eq.trans (ofBytes_congr fun k hk => ?_) (ofBytes_byteAt w)
  have hlt := e.place_lt hk
  rw [setWordAt, if_pos ⟨by omega, by omega⟩, Nat.add_sub_cancel_left, e.place_place hk]

theorem wordAt_setWordAt_of_ne (h : b + 4 ≤ a ∨ a + 4 ≤ b) :
    wordAt e (setWordAt e m a w) b = wordAt e m b :=
  wordAt_congr fun x h1 h2 => setWordAt_of_ne (by omega)

theorem wordAt_zero (h : ∀ x, a ≤ x → x < a + 4 → m x = 0) : wordAt e m a = 0 := by
  have hzero : ofBytes (fun _ => 0) = 0 := by decide
  refine Eq.trans (ofBytes_congr fun k hk => ?_) hzero
  exact h _ (Nat.le_add_right _ _) (Nat.add_lt_add_left (e.place_lt hk) a)

/-- A byte of a word as a machine of the order `e` reads it. -/
theorem byteAt_wordAt (h1 : a ≤ x) (h2 : x < a + 4) : byteAt (wordAt e m a) (e.place (x - a)) = m x := by
  have hlt : x - a < 4 := by omega
  rw [wordAt, byteAt_ofBytes _ (e.place_lt hlt), e.place_place hlt, Nat.add_sub_cancel' h1]

/-- A word that is written back does not change anything. -/
theorem setWordAt_wordAt : setWordAt e m a (wordAt e m a) = m := by
  funext x
  unfold setWordAt
  split
  · next h => exact byteAt_wordAt h.1 h.2
  · rfl

/-! ## Turning words round -/

variable {S T : Nat → Prop} [DecidablePred S] [DecidablePred T] {i : Nat}

/-- Turns round the bytes of the words at the addresses `4 * i` with `S i`. -/
def swapWords (S : Nat → Prop) [DecidablePred S] (m : Nat → BitVec 8) : Nat → BitVec 8 := fun x =>
  if S (x / 4) then m (4 * (x / 4) + (3 - x % 4)) else m x

theorem swapWords_of_not (h : ¬S (x / 4)) : swapWords S m x = m x := if_neg h

/-- The other machine reads what has been written. -/
theorem wordAt_swapWords (h : S i) : wordAt e.other (swapWords S m) (4 * i) = wordAt e m (4 * i) := by
  refine ofBytes_congr fun k hk => ?_
  have hlt := e.place_lt hk
  rw [e.place_other hk, swapWords, show (4 * i + (3 - e.place k)) / 4 = i by omega, if_pos h]
  congr 1
  omega

theorem swapWords_swapWords (S : Nat → Prop) [DecidablePred S] (m : Nat → BitVec 8) :
    swapWords S (swapWords S m) = m := by
  funext x
  unfold swapWords
  by_cases h : S (x / 4)
  · have hdiv : (4 * (x / 4) + (3 - x % 4)) / 4 = x / 4 := by omega
    rw [if_pos h, hdiv, if_pos h]
    congr 1
    omega
  · rw [if_neg h, if_neg h]

/-- Words that are turned round one after the other. -/
theorem swapWords_union (h : ∀ i, S i → ¬T i) :
    swapWords T (swapWords S m) = swapWords (fun i => S i ∨ T i) m := by
  funext x
  have hdiv : (4 * (x / 4) + (3 - x % 4)) / 4 = x / 4 := by omega
  unfold swapWords
  by_cases hS : S (x / 4)
  · rw [if_neg (h _ hS), if_pos hS, if_pos (.inl hS)]
  · by_cases hT : T (x / 4)
    · rw [if_pos hT, hdiv, if_neg hS, if_pos (.inr hT)]
    · rw [if_neg hT, if_neg hS, if_neg (not_or.mpr ⟨hS, hT⟩)]

theorem swapWords_congr (h : ∀ i, S i ↔ T i) : swapWords S m = swapWords T m := by
  funext x
  unfold swapWords
  exact if_congr (h _) rfl rfl

theorem swapWords_none (h : ∀ i, ¬S i) : swapWords S m = m := funext fun _ => if_neg (h _)

end Lib
