import Mos.Fs.BlockSpec
import Mos.Fs.File

/-!
# The bitmap as a set

The bits of the bitmap are a set of free blocks. `block_is_free` asks whether a block is in the set,
`free_block` adds a block, and `alloc_block_num` takes out the first one from block 3 on. Nothing is assumed
here about what the bits say, only that the super block and the bitmap are in memory.
-/

namespace Mos

open Lib Prog Function

variable {s t : Fs} {b c : Nat}

/-! ## One call -/

namespace Fs

theorem HasBitmap.of_eq (h : s.HasBitmap) (hsuper : t.super = s.super) (hbitmap : t.bitmap = s.bitmap)
    (hn : t.nblocks = s.nblocks) (hmapped : ∀ c, s.isMapped c = true → t.isMapped c = true) :
    t.HasBitmap := by
  have hd : t.firstData = s.firstData := by rw [firstData, hn]; rfl
  refine ⟨hsuper.trans h.super, hbitmap.trans h.bitmap, by rw [hn]; exact h.nblocks, fun c h₁ hc => ?_⟩
  exact hmapped c (h.mapped c h₁ (by omega))

theorem HasBitmap.take (h : s.HasBitmap) (hb : b < s.nblocks) : (s.take b).HasBitmap :=
  h.of_eq rfl rfl (nblocks_take h hb) fun c hc => by rw [isMapped_take, hc]; rfl

theorem HasBitmap.give (h : s.HasBitmap) (hb : b < s.nblocks) : (s.give b).HasBitmap :=
  h.of_eq rfl rfl (nblocks_setBits h hb) fun c hc => by
    unfold Fs.give
    rw [isMapped_setWord, hc]
    rfl

/-- Bits of other blocks do not change, also behind the end of the disk. -/
theorem freeBit_take (h : s.HasBitmap) (hb : b < s.nblocks) (hc : c ≠ b) :
    (s.take b).freeBit c = s.freeBit c := by
  rw [freeBit, look_take, ← freeBit, freeBit_setBits h hb]
  split
  next heq =>
    have hbit : decide (c % 32 = b % 32) = false := decide_eq_false (by omega)
    have h32 : c % 32 < 32 := Nat.mod_lt _ (by decide)
    rw [BitVec.getLsbD_and, BitVec.getLsbD_not, getLsbD_bitOf, ← heq, hbit]
    unfold freeBit
    simp [h32]
  next => rfl

/-- The part of the bitmap with the bit of `b` is on the disk as it is in memory. -/
theorem disk_take (s : Fs) (b : Nat) : (s.take b).disk (b / bit2blk + 2) = (s.take b).page (b / bit2blk + 2) := by
  unfold take
  rw [page_writeBack]
  exact update_self _ _ _

end Fs

/-- What the functions of the bitmap do to the set of free blocks. -/
structure FirstFitSet (s : Fs) : Prop where
  isFree : ∀ b, blockIsFree b s = .ret (decide (s.Free b)) s
  free : ∀ b, ∃ t, freeBlock b s = .ret () t ∧
    (∀ c, t.Free c ↔ s.Free c ∨ (c = b ∧ 0 < b ∧ b < s.nblocks)) ∧
    (b = 0 ∨ s.nblocks ≤ b → t = s)
  alloc : (allocBlockNum s = .err .noDisk s ∧ ∀ b, 3 ≤ b → ¬s.Free b) ∨
    ∃ b t, allocBlockNum s = .ret b t ∧ (3 ≤ b ∧ s.Free b) ∧ (∀ c, 3 ≤ c → c < b → ¬s.Free c) ∧
      (∀ c, t.Free c ↔ s.Free c ∧ c ≠ b) ∧ (∀ c, c ≠ b → t.freeBit c = s.freeBit c) ∧
      t.disk (b / bit2blk + 2) = t.page (b / bit2blk + 2)

theorem freeBlock_outside (h : s.HasBitmap) (hb : b = 0 ∨ s.nblocks ≤ b) :
    freeBlock b s = .ret () s := by
  rw [freeBlock, bind_ret (sNblocks_eq h), if_pos hb]
  rfl

theorem firstFitSet (h : s.HasBitmap) : FirstFitSet s where
  isFree := blockIsFree_eq h
  free b := by
    by_cases hb : b = 0 ∨ s.nblocks ≤ b
    · refine ⟨s, freeBlock_outside h hb, fun c => ?_, fun _ => rfl⟩
      constructor
      · exact .inl
      · rintro (hc | ⟨-, h0, hlt⟩)
        · exact hc
        · omega
    · push Not at hb
      refine ⟨s.give b, freeBlock_eq h hb.1 hb.2, fun c => ?_, fun hout => by omega⟩
      rw [Fs.free_give h hb.2, and_iff_left ⟨Nat.pos_of_ne_zero hb.1, hb.2⟩]
  alloc := by
    obtain hnone | ⟨b, h3, hfree, hbefore, hret⟩ := allocBlockNum_cases h
    · exact .inl hnone
    · exact .inr ⟨b, s.take b, hret, ⟨h3, hfree⟩, hbefore, Fs.free_take h hfree.1,
        fun c => Fs.freeBit_take h hfree.1, Fs.disk_take s b⟩

/-! ## Sequences of calls -/

/-- A call and what it has returned. -/
inductive BitmapEvent where
  | got (b : Nat)
  | full
  | freed (b : Nat)

/-- Calls of `alloc_block_num` and `free_block` one after the other. -/
inductive BitmapRun : Fs → List BitmapEvent → Fs → Prop where
  | nil (s : Fs) : BitmapRun s [] s
  | got {s t u : Fs} {b : Nat} {es : List BitmapEvent} :
      allocBlockNum s = .ret b t → BitmapRun t es u → BitmapRun s (.got b :: es) u
  | full {s t u : Fs} {e : Err} {es : List BitmapEvent} :
      allocBlockNum s = .err e t → BitmapRun t es u → BitmapRun s (.full :: es) u
  | freed {s t u : Fs} {b : Nat} {es : List BitmapEvent} :
      freeBlock b s = .ret () t → BitmapRun t es u → BitmapRun s (.freed b :: es) u

/-- What a call of `alloc_block_num` leaves behind. -/
theorem got_take (h : s.HasBitmap) (hret : allocBlockNum s = .ret b t) : s.Free b ∧ t = s.take b := by
  obtain ⟨herr, -⟩ | ⟨c, -, hfree, -, hret'⟩ := allocBlockNum_cases h
  · rw [hret] at herr
    cases herr
  · rw [hret] at hret'
    obtain ⟨rfl, rfl⟩ := Outcome.ret.inj hret'
    exact ⟨hfree, rfl⟩

theorem full_same {e : Err} (h : s.HasBitmap) (herr : allocBlockNum s = .err e t) : t = s := by
  obtain ⟨herr', -⟩ | ⟨c, -, -, -, hret⟩ := allocBlockNum_cases h
  · rw [herr] at herr'
    exact (Outcome.err.inj herr').2
  · rw [herr] at hret
    cases hret

/-- What a call of `free_block` leaves behind. -/
theorem freed_give (h : s.HasBitmap) (hret : freeBlock b s = .ret () t) :
    t.HasBitmap ∧ ∀ c, c ≠ b → (t.Free c ↔ s.Free c) := by
  by_cases hb : b = 0 ∨ s.nblocks ≤ b
  · rw [freeBlock_outside h hb] at hret
    obtain ⟨-, rfl⟩ := Outcome.ret.inj hret
    exact ⟨h, fun c _ => Iff.rfl⟩
  · push Not at hb
    rw [freeBlock_eq h hb.1 hb.2] at hret
    obtain ⟨-, rfl⟩ := Outcome.ret.inj hret
    refine ⟨h.give hb.2, fun c hc => ?_⟩
    rw [Fs.free_give h hb.2]
    simp [hc]

/-- A block that is not free is not handed out before it is freed. -/
theorem BitmapRun.freed_before {es : List BitmapEvent} {u : Fs} (hrun : BitmapRun s es u)
    (h : s.HasBitmap) (hb : ¬s.Free b) : ∀ l r, es = l ++ .got b :: r → .freed b ∈ l := by
  induction hrun with
  | nil s => intro l r heq; simp at heq
  | @got s t u c es hret _ ih =>
    intro l r heq
    obtain ⟨hfree, rfl⟩ := got_take h hret
    have hstep := ih (h.take hfree.1) fun hf => hb ((Fs.free_take h hfree.1 b).mp hf).1
    cases l with
    | nil =>
      obtain ⟨hc, -⟩ := List.cons.inj heq
      cases hc
      exact absurd hfree hb
    | cons e l =>
      obtain ⟨-, heq⟩ := List.cons.inj heq
      exact List.mem_cons_of_mem e (hstep l r heq)
  | @full s t u e es herr _ ih =>
    intro l r heq
    obtain rfl := full_same h herr
    cases l with
    | nil =>
      obtain ⟨hc, -⟩ := List.cons.inj heq
      cases hc
    | cons e l =>
      obtain ⟨-, heq⟩ := List.cons.inj heq
      exact List.mem_cons_of_mem e (ih h hb l r heq)
  | @freed s t u c es hret _ ih =>
    intro l r heq
    obtain ⟨ht, hsame⟩ := freed_give h hret
    cases l with
    | nil =>
      obtain ⟨hc, -⟩ := List.cons.inj heq
      cases hc
    | cons e l =>
      obtain ⟨rfl, hes⟩ := List.cons.inj heq
      by_cases hcb : c = b
      · rw [hcb]
        exact List.mem_cons_self
      · exact List.mem_cons_of_mem _ (ih ht (fun hf => hb ((hsame b (Ne.symm hcb)).mp hf)) l r hes)

/-- The bitmap stays in memory. -/
theorem BitmapRun.hasBitmap {es : List BitmapEvent} {u : Fs} (hrun : BitmapRun s es u)
    (h : s.HasBitmap) : u.HasBitmap := by
  induction hrun with
  | nil s => exact h
  | got hret _ ih =>
    obtain ⟨hfree, rfl⟩ := got_take h hret
    exact ih (h.take hfree.1)
  | full herr _ ih =>
    obtain rfl := full_same h herr
    exact ih h
  | freed hret _ ih => exact ih (freed_give h hret).1

/-- A run can be split. -/
theorem BitmapRun.split {es es' : List BitmapEvent} {u : Fs} (hrun : BitmapRun s (es ++ es') u) :
    ∃ t, BitmapRun s es t ∧ BitmapRun t es' u := by
  induction es generalizing s with
  | nil => exact ⟨s, .nil s, hrun⟩
  | cons e es ih =>
    cases hrun with
    | got hret hrest =>
      obtain ⟨t, h₁, h₂⟩ := ih hrest
      exact ⟨t, .got hret h₁, h₂⟩
    | full herr hrest =>
      obtain ⟨t, h₁, h₂⟩ := ih hrest
      exact ⟨t, .full herr h₁, h₂⟩
    | freed hret hrest =>
      obtain ⟨t, h₁, h₂⟩ := ih hrest
      exact ⟨t, .freed hret h₁, h₂⟩

/-- **The bitmap is a set of blocks from which the first one is taken.** After any sequence of calls each
call does to the set what it should, and between two times that a block is handed out it has been
freed. -/
theorem bitmap_firstFitSet (h : s.HasBitmap) {es : List BitmapEvent} (hrun : BitmapRun s es t) :
    FirstFitSet t ∧ ∀ b l m r, es = l ++ .got b :: m ++ .got b :: r → .freed b ∈ m := by
  refine ⟨firstFitSet (hrun.hasBitmap h), ?_⟩
  rintro b l m r rfl
  rw [List.append_assoc] at hrun
  obtain ⟨u, hfirst, hrest⟩ := hrun.split
  have hu := hfirst.hasBitmap h
  cases hrest with
  | got hret hrest =>
    obtain ⟨hfree, rfl⟩ := got_take hu hret
    exact hrest.freed_before (hu.take hfree.1)
      (fun hf => ((Fs.free_take hu hfree.1 b).mp hf).2 rfl) m r rfl

theorem smallFs_hasBitmap : smallFs.HasBitmap := by
  have hd : smallFs.firstData = 3 := by decide
  refine ⟨rfl, rfl, by decide, fun b h₁ hlt => ?_⟩
  rw [hd] at hlt
  obtain rfl | rfl : b = 1 ∨ b = 2 := by omega
  all_goals rfl

/-- Block 6 is handed out first. -/
theorem bitmap_firstFitSet_small : ∃ t, BitmapRun smallFs [.got 6] t ∧ FirstFitSet t := by
  have hfree : ∀ b < 8, smallFs.Free b ↔ 6 ≤ b := by decide
  obtain ⟨-, hnone⟩ | ⟨b, -, hb, hbefore, hret⟩ := allocBlockNum_cases smallFs_hasBitmap
  · exact absurd ((hfree 6 (by decide)).mpr (le_refl 6)) (hnone 6 (by decide))
  · have hn : smallFs.nblocks = 8 := by decide
    have hlt := hb.1
    have hle := (hfree b (by omega)).mp hb
    have hb6 : b = 6 := by
      by_contra hne
      exact hbefore 6 (by decide) (by omega) ((hfree 6 (by decide)).mpr (le_refl 6))
    subst hb6
    have hrun : BitmapRun smallFs [.got 6] (smallFs.take 6) := .got hret (.nil _)
    exact ⟨_, hrun, (bitmap_firstFitSet smallFs_hasBitmap hrun).1⟩

end Mos
