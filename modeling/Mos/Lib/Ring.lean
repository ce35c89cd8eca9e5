import Mathlib.Data.Nat.ModEq
import Mathlib.Data.List.Basic
import Mathlib.Logic.Function.Basic

/-!
# Rings with wrapping counters

A ring of `c` cells is filled and emptied at positions that only grow. The positions are kept in
machine words, which wrap around; the cell of a position is its remainder modulo `c`. The counter
that has been advanced `n` times from `p` is `wrapAdd p n`, and `n` itself is never stored anywhere:
it is the length of the list of all values that went in, or came out.

As long as two counters are fewer than `2 ^ w` steps apart, their difference and their comparison are
those of the numbers of steps (`toNat_wrapAdd_sub`, `wrapAdd_eq_iff`). `RingHolds` says that the ring
holds the values of a list from some position on.
-/

namespace Lib

section Counter

variable {w : Nat} (p : BitVec w)

/-- The counter `p` after `n` increments. -/
def wrapAdd (n : Nat) : BitVec w := p + BitVec.ofNat w n

@[simp] theorem wrapAdd_zero : wrapAdd p 0 = p := by
  simp [wrapAdd]

theorem wrapAdd_succ (n : Nat) : wrapAdd p (n + 1) = wrapAdd p n + 1 := by
  simp only [wrapAdd, BitVec.ofNat_add, BitVec.add_assoc]
  rfl

/-- The difference of two counters that are not too far apart. -/
theorem toNat_wrapAdd_sub {m n : Nat} (hle : m ≤ n) (hlt : n - m < 2 ^ w) :
    (wrapAdd p n - wrapAdd p m).toNat = n - m := by
  obtain ⟨d, rfl⟩ := Nat.exists_eq_add_of_le hle
  have hd : wrapAdd p (m + d) - wrapAdd p m = BitVec.ofNat w d := by
    rw [wrapAdd, wrapAdd, BitVec.ofNat_add, ← BitVec.add_assoc, BitVec.add_comm,
      BitVec.add_sub_cancel]
  rw [hd, BitVec.toNat_ofNat, Nat.mod_eq_of_lt (by omega)]
  omega

theorem wrapAdd_eq_iff {m n : Nat} (hle : m ≤ n) (hlt : n - m < 2 ^ w) :
    wrapAdd p m = wrapAdd p n ↔ m = n := by
  constructor
  · intro heq
    have hsub := toNat_wrapAdd_sub p hle hlt
    rw [heq, BitVec.sub_self, BitVec.toNat_zero] at hsub
    omega
  · rintro rfl
    rfl

/-- The cell of a position does not see the wrap-around when the ring's size divides `2 ^ w`. -/
theorem toNat_wrapAdd_mod {c : Nat} (hc : c ∣ 2 ^ w) (n : Nat) :
    (wrapAdd p n).toNat % c = (p.toNat + n) % c := by
  rw [wrapAdd, BitVec.toNat_add, BitVec.toNat_ofNat, Nat.mod_mod_of_dvd _ hc,
    Nat.add_mod, Nat.mod_mod_of_dvd _ hc, ← Nat.add_mod]

end Counter

section Ring

variable {α : Type} {c o lo : Nat} {buf : Nat → α} {xs : List α}

/-- The ring `buf` of `c` cells holds the values of `xs` from position `lo` on; position 0 is in the
cell of `o`. -/
def RingHolds (c o : Nat) (buf : Nat → α) (xs : List α) (lo : Nat) : Prop :=
  ∀ j, lo ≤ j → j < xs.length → xs[j]? = some (buf ((o + j) % c))

theorem ringHolds_of_length_le (h : xs.length ≤ lo) : RingHolds c o buf xs lo :=
  fun _ hlo hlt => by omega

theorem RingHolds.drop (h : RingHolds c o buf xs lo) {hi : Nat} (hle : lo ≤ hi) :
    RingHolds c o buf xs hi :=
  fun j hhi hlt => h j (by omega) hlt

/-- Two positions in a window of `c` have different cells. -/
theorem cell_ne {j n : Nat} (hjn : j < n) (hnear : n < j + c) : (o + j) % c ≠ (o + n) % c := by
  intro heq
  have hdvd := (Nat.modEq_iff_dvd' (by omega)).mp (show (o + j) ≡ (o + n) [MOD c] from heq)
  have := Nat.le_of_dvd (by omega) hdvd
  omega

/-- Writing the next cell does not touch the cells in use while the ring is not full. -/
theorem RingHolds.put (h : RingHolds c o buf xs lo) (hroom : xs.length < lo + c) (x : α) :
    RingHolds c o (Function.update buf ((o + xs.length) % c) x) xs lo := by
  intro j hlo hlt
  rw [Function.update_of_ne (cell_ne hlt (by omega))]
  exact h j hlo hlt

/-- A value in its cell becomes part of the ring when the position moves past it. -/
theorem RingHolds.push (h : RingHolds c o buf xs lo) {x : α}
    (hx : buf ((o + xs.length) % c) = x) : RingHolds c o buf (xs ++ [x]) lo := by
  intro j hlo hlt
  rw [List.length_append, List.length_singleton] at hlt
  rcases Nat.lt_or_ge j xs.length with hj | hj
  · rw [List.getElem?_append_left hj]
    exact h j hlo hj
  · obtain rfl : j = xs.length := by omega
    simp [hx]

end Ring

end Lib
