import Mos.Lib.Endian
import Mos.Fs.File

/-!
# The byte order of an image

`reverse_block` of `tools/fsformat.c` turns round the words of a block that the file server will read as numbers,
according to the type of the block.

`reverse` reads a word in the byte order of the host and always writes it in the order of a big-endian machine. So it
turns the word round on a little-endian host, and does nothing on a big-endian one.
-/

namespace Mos

open Lib Function

/-! ## `tools/fsformat.c` -/

/-- The types of blocks. -/
inductive BlockType where
  | free
  | boot
  | bmap
  | super
  | data
  | file
  | index
deriving DecidableEq

/-- `struct Block`. -/
structure Block where
  data : Nat → Byte
  type : BlockType

/-- `reverse(p)` for the word at the address `a`, on a host with the byte order `e`. -/
def reverse (e : Endian) (d : Nat → Byte) (a : Nat) : Nat → Byte :=
  let y := wordAt e d a
  update (update (update (update d (a + 3) (byteAt y 0)) (a + 2) (byteAt y 1)) (a + 1) (byteAt y 2)) a (byteAt y 3)

/-- `for (i = 0; i < n; ++i) reverse(u + i)` for the array `u` at the address `a`. -/
def reverseWords (e : Endian) (d : Nat → Byte) (a : Nat) : Nat → Nat → Byte
  | 0 => d
  | n + 1 => reverse e (reverseWords e d a n) (a + 4 * n)

/-- `f_size`, `f_type`, `f_direct` and `f_indirect` of the file at the address `f`. -/
def reverseFile (e : Endian) (d : Nat → Byte) (f : Nat) : Nat → Byte :=
  let d := reverse e d (f + 128)
  let d := reverse e d (f + 132)
  let d := reverseWords e d (f + 136) ndirect
  reverse e d (f + 176)

/-- The loop over the files of a block, from the file `i` on, for `n` more files. -/
def reverseFiles (e : Endian) (d : Nat → Byte) (i : Nat) : Nat → Nat → Byte
  | 0 => d
  | n + 1 => if d (256 * i) = 0 then d else reverseFiles e (reverseFile e d (256 * i)) (i + 1) n

/-- `reverse_block(b)`. -/
def reverseBlock (e : Endian) (b : Block) : Block :=
  match b.type with
  | .free | .boot => b
  | .super => { b with data := reverseFile e (reverse e (reverse e b.data 0) 4) 8 }
  | .file => { b with data := reverseFiles e b.data 0 file2blk }
  | .index | .bmap => { b with data := reverseWords e b.data 0 (by2blk / 4) }
  | .data => b

/-! ## One word -/

variable {e : Endian} {d : Nat → Byte} {a i n : Nat}

/-- `reverse` writes in the order of a big-endian machine. -/
theorem reverse_eq (e : Endian) (d : Nat → Byte) (a : Nat) :
    reverse e d a = setWordAt .big d a (wordAt e d a) := by
  funext x
  unfold reverse setWordAt Endian.place
  simp only [update_apply]
  by_cases h : a ≤ x ∧ x < a + 4
  · have hcases : x = a ∨ x = a + 1 ∨ x = a + 2 ∨ x = a + 3 := by omega
    rcases hcases with rfl | rfl | rfl | rfl <;> simp
  · rw [if_neg h, if_neg (by omega), if_neg (by omega), if_neg (by omega), if_neg (by omega)]

/-- On a big-endian host nothing happens. -/
theorem reverse_big (d : Nat → Byte) (a : Nat) : reverse .big d a = d := by
  rw [reverse_eq]
  exact setWordAt_wordAt

theorem reverse_little (d : Nat → Byte) (i : Nat) : reverse .little d (4 * i) = swapWords (· = i) d := by
  funext x
  rw [reverse_eq]
  unfold setWordAt swapWords
  by_cases h : x / 4 = i
  · have hrange : 4 * i ≤ x ∧ x < 4 * i + 4 := by omega
    have hk : 3 - (x - 4 * i) < 4 := by omega
    rw [if_pos hrange, if_pos h, wordAt]
    show byteAt (ofBytes fun k => d (4 * i + k)) (3 - (x - 4 * i)) = _
    rw [byteAt_ofBytes _ hk]
    congr 1
    omega
  · rw [if_neg (by omega), if_neg h]

/-! ## A block -/

theorem reverseWords_big (d : Nat → Byte) (a : Nat) : ∀ n, reverseWords .big d a n = d
  | 0 => rfl
  | n + 1 => by rw [reverseWords, reverseWords_big d a n, reverse_big]

theorem reverseFile_big (d : Nat → Byte) (f : Nat) : reverseFile .big d f = d := by
  simp only [reverseFile, reverse_big, reverseWords_big]

theorem reverseFiles_big (d : Nat → Byte) : ∀ n i, reverseFiles .big d i n = d
  | 0, _ => rfl
  | n + 1, i => by
    rw [reverseFiles, reverseFile_big, reverseFiles_big d n (i + 1)]
    exact ite_self d

/-- On a big-endian host `reverse_block` does nothing. -/
theorem reverseBlock_big (b : Block) : reverseBlock .big b = b := by
  obtain ⟨d, type⟩ := b
  cases type <;> simp only [reverseBlock, reverse_big, reverseWords_big, reverseFile_big, reverseFiles_big]

theorem reverseWords_little (d : Nat → Byte) (i : Nat) :
    ∀ n, reverseWords .little d (4 * i) n = swapWords (fun j => i ≤ j ∧ j < i + n) d := by
  intro n
  induction n with
  | zero => exact (swapWords_none fun j h => by omega).symm
  | succ n ih =>
    rw [reverseWords, ih, ← Nat.mul_add, reverse_little, swapWords_union fun j h => by omega]
    exact swapWords_congr fun j => by omega

/-- The words of a file that are turned round: 13 words behind its name. -/
theorem reverseFile_little (d : Nat → Byte) (i : Nat) :
    reverseFile .little d (4 * i) = swapWords (fun j => i + 32 ≤ j ∧ j ≤ i + 44) d := by
  have h128 : 4 * i + 128 = 4 * (i + 32) := by omega
  have h132 : 4 * i + 132 = 4 * (i + 33) := by omega
  have h136 : 4 * i + 136 = 4 * (i + 34) := by omega
  have h176 : 4 * i + 176 = 4 * (i + 44) := by omega
  have hdirect : ndirect = 10 := rfl
  simp only [reverseFile, h128, h132, h136, h176, reverse_little, reverseWords_little]
  rw [swapWords_union fun j h => by omega, swapWords_union fun j h => by omega, swapWords_union fun j h => by omega]
  exact swapWords_congr fun j => by omega

/-- The words that the loop over the files turns round: those of the files in front of the first free place. -/
def IsFileWord (d : Nat → Byte) (i n j : Nat) : Prop :=
  i ≤ j / 64 ∧ j / 64 < i + n ∧ (∀ k < j / 64 + 1, i ≤ k → d (256 * k) ≠ 0) ∧ 32 ≤ j % 64 ∧ j % 64 ≤ 44

instance (d : Nat → Byte) (i n : Nat) : DecidablePred (IsFileWord d i n) := fun _ =>
  inferInstanceAs (Decidable (_ ∧ _ ∧ _ ∧ _ ∧ _))

theorem reverseFiles_little (n : Nat) : ∀ (d : Nat → Byte) (i : Nat),
    reverseFiles .little d i n = swapWords (IsFileWord d i n) d := by
  induction n with
  | zero => exact fun d i => (swapWords_none fun _ ⟨h1, h2, _⟩ => by omega).symm
  | succ n ih =>
    intro d i
    rw [reverseFiles]
    split
    · next hfree => exact (swapWords_none fun j ⟨h1, _, h, _⟩ => h i (by omega) (Nat.le_refl i) hfree).symm
    · next hused =>
      have hword : 256 * i = 4 * (64 * i) := by omega
      rw [hword, reverseFile_little, ih]
      -- the names stay, so the loop goes on as on the block before
      have hname : ∀ k, swapWords (fun j => 64 * i + 32 ≤ j ∧ j ≤ 64 * i + 44) d (256 * k) = d (256 * k) :=
        fun k => swapWords_of_not (by omega)
      rw [swapWords_union ?_]
      · refine swapWords_congr fun j => ?_
        unfold IsFileWord
        simp only [hname]
        constructor
        · rintro (h | ⟨h1, h2, h3, h4⟩)
          · refine ⟨by omega, by omega, fun k hk hik => ?_, by omega, by omega⟩
            rwa [show k = i by omega]
          · refine ⟨by omega, by omega, fun k hk hik => ?_, h4⟩
            rcases Nat.eq_or_lt_of_le hik with rfl | hlt
            · exact hused
            · exact h3 k hk hlt
        · rintro ⟨h1, h2, h3, h4⟩
          by_cases hj : j / 64 = i
          · exact .inl (by omega)
          · exact .inr ⟨by omega, by omega, fun k hk hik => h3 k hk (by omega), h4⟩
      · rintro j ⟨h1, h2⟩ ⟨h3, -⟩
        omega

/-- Whether `reverse_block` turns round the word `j` of a block. -/
def Block.isNumber (b : Block) (j : Nat) : Bool :=
  match b.type with
  | .free | .boot | .data => false
  | .super => decide (j = 0 ∨ j = 1 ∨ (34 ≤ j ∧ j ≤ 46))
  | .file => decide (IsFileWord b.data 0 file2blk j)
  | .index | .bmap => decide (j < 1024)

/-- **On a little-endian host `reverse_block` turns round the numbers of a block.** -/
theorem reverseBlock_little (b : Block) :
    reverseBlock .little b = { b with data := swapWords (fun j => b.isNumber j = true) b.data } := by
  obtain ⟨d, type⟩ := b
  have hnone : d = swapWords (fun _ => false = true) d := (swapWords_none fun _ => Bool.false_ne_true).symm
  have hwords : reverseWords .little d 0 (by2blk / 4) = swapWords (fun j => decide (j < 1024) = true) d := by
    refine (reverseWords_little d 0 1024).trans (swapWords_congr fun j => ?_)
    rw [decide_eq_true_iff]
    omega
  cases type with
  | free => exact congrArg (Block.mk · _) hnone
  | boot => exact congrArg (Block.mk · _) hnone
  | data => exact congrArg (Block.mk · _) hnone
  | index => exact congrArg (Block.mk · _) hwords
  | bmap => exact congrArg (Block.mk · _) hwords
  | file =>
    refine congrArg (Block.mk · _) ((reverseFiles_little file2blk d 0).trans (swapWords_congr fun j => ?_))
    exact (decide_eq_true_iff).symm
  | super =>
    refine congrArg (Block.mk · _) ?_
    show reverseFile .little (reverse .little (reverse .little d (4 * 0)) (4 * 1)) (4 * 2) = _
    rw [reverse_little, reverse_little, reverseFile_little, swapWords_union fun j h => by omega,
      swapWords_union fun j h => by omega]
    refine swapWords_congr fun j => ?_
    show _ ↔ decide (j = 0 ∨ j = 1 ∨ (34 ≤ j ∧ j ≤ 46)) = true
    rw [decide_eq_true_iff]

/-- The numbers of a block stay where they are. -/
theorem isNumber_swapWords (b : Block) :
    ({ b with data := swapWords (fun j => b.isNumber j = true) b.data } : Block).isNumber = b.isNumber := by
  obtain ⟨d, type⟩ := b
  cases type with
  | file =>
    funext j
    have hname : ∀ k, swapWords (fun j => decide (IsFileWord d 0 file2blk j) = true) d (256 * k) = d (256 * k) := by
      refine fun k => swapWords_of_not fun h => ?_
      have := (of_decide_eq_true h).2.2.2.1
      omega
    show decide (IsFileWord (swapWords (fun j => decide (IsFileWord d 0 file2blk j) = true) d) 0 file2blk j) = _
    unfold IsFileWord at hname ⊢
    simp only [hname]
    rfl
  | _ => rfl

/-- **`reverse_block` twice is nothing.** -/
theorem reverseBlock_reverseBlock (e : Endian) (b : Block) : reverseBlock e (reverseBlock e b) = b := by
  cases e with
  | big => rw [reverseBlock_big, reverseBlock_big]
  | little =>
    rw [reverseBlock_little, reverseBlock_little, isNumber_swapWords]
    exact congrArg (Block.mk · _) (swapWords_swapWords _ _)

end Mos
