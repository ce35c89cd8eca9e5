import Mos.Fs.File

/-!
# The server with memory

The kernel may have no page for the server, and then the server may stop. If the kernel always has a page, no
function of the server stops for want of memory.
-/

namespace Mos

open Lib Prog Function

/-- The kernel has a page whenever it is asked. -/
def Fs.Supplied (s : Fs) : Prop := ∀ n, s.avail n = true

/-- The function does not stop for want of memory while the kernel has pages. -/
def Feeds {α : Type} (m : FsM α) : Prop := Within Fs.Supplied (· ≠ .noMemory) m

theorem Feeds.sat {α : Type} {m : FsM α} {s : Fs} {Q : α → Fs → Prop} {E : Err → Fs → Prop}
    (hm : Feeds m) (h : (m s).Sat Q E (fun q => q = .noMemory)) :
    (m s).Sat Q E (fun q => q = .noMemory ∧ ¬s.Supplied) := by
  cases hr : m s with
  | ret a t =>
    rw [hr] at h
    exact h
  | err e t =>
    rw [hr] at h
    exact h
  | halt q =>
    rw [hr] at h
    refine ⟨h, fun hs => ?_⟩
    have := hm s hs
    rw [hr] at this
    exact this h

/-! ## The block cache -/

theorem touch_feeds (b : Nat) : Feeds (touch b) := by
  intro s hs
  unfold touch
  rw [get_bind]
  split
  · exact hs
  · rw [bind_apply]
    simp only [askPage, hs 0]
    exact fun n => hs (n + 1)

theorem fsMemAlloc_feeds (b : Nat) : Feeds (fsMemAlloc b) := by
  intro s hs
  unfold fsMemAlloc
  rw [bind_apply]
  simp only [askPage, hs 0]
  exact fun n => hs (n + 1)

theorem load_feeds (a : Nat) : Feeds (load a) :=
  within_bind (touch_feeds _) fun _ => within_get fun _ _ => within_pure _

theorem store_feeds (a : Nat) (w : Word) : Feeds (store a w) :=
  within_bind (touch_feeds _) fun _ => within_modify fun _ h => h

theorem diskaddr_feeds (b : Nat) : Feeds (diskaddr b) :=
  within_ite (within_halt (by decide)) (within_pure _)

theorem blockIsMapped_feeds (b : Nat) : Feeds (blockIsMapped b) :=
  within_bind (diskaddr_feeds b) fun _ => within_get fun _ _ => within_pure _

theorem blockIsDirty_feeds (b : Nat) : Feeds (blockIsDirty b) :=
  within_bind (diskaddr_feeds b) fun _ => within_get fun _ _ => within_pure _

theorem dirtyBlock_feeds (b : Nat) : Feeds (dirtyBlock b) :=
  within_bind (diskaddr_feeds b) fun _ => within_get fun _ hs =>
    within_ite (within_fail _) (within_ite (within_pure _) (within_put hs))

theorem writeBlock_feeds (b : Nat) : Feeds (writeBlock b) :=
  within_bind (blockIsMapped_feeds b) fun _ =>
    within_ite (within_modify fun _ h => h) (within_halt (by decide))

theorem sNblocks_feeds : Feeds sNblocks := within_bind (load_feeds _) fun _ => within_pure _

theorem blockIsFree_feeds (b : Nat) : Feeds (blockIsFree b) :=
  within_get fun _ _ => within_ite (within_pure _) <|
    within_bind sNblocks_feeds fun _ => within_ite (within_pure _) <|
      within_bind (load_feeds _) fun _ => within_pure _

theorem readBlock_feeds (b : Nat) : Feeds (readBlock b) := by
  have hexists : Feeds (checkExists b) := within_get fun _ _ =>
    within_when (within_bind sNblocks_feeds fun _ => within_assert _ (by decide))
  have hused : Feeds (checkUsed b) := within_get fun _ _ =>
    within_when (within_bind (blockIsFree_feeds b) fun _ => within_assert _ (by decide))
  have hread : ∀ va, Feeds (ideReadBlock va) := fun va =>
    within_bind (touch_feeds va) fun _ => within_modify fun _ h => h
  exact within_bind hexists fun _ => within_bind hused fun _ => within_bind (diskaddr_feeds b) fun va =>
    within_bind (blockIsMapped_feeds va) fun _ => within_ite (within_pure _) <|
      within_bind (within_attempt (fsMemAlloc_feeds va)) fun _ => hread va

theorem mapBlock_feeds (b : Nat) : Feeds (mapBlock b) :=
  within_bind (blockIsMapped_feeds b) fun _ => within_ite (within_pure _) <|
    within_bind (diskaddr_feeds b) fun va => fsMemAlloc_feeds va

theorem freeBlock_feeds (b : Nat) : Feeds (freeBlock b) :=
  within_bind sNblocks_feeds fun _ => within_ite (within_pure _) <|
    within_bind (load_feeds _) fun _ => store_feeds _ _

theorem allocFrom_feeds (n : Nat) : ∀ b, Feeds (allocFrom b n) := by
  induction n with
  | zero => exact fun _ => within_fail _
  | succ n ih =>
    intro b
    refine within_bind sNblocks_feeds fun _ => within_ite ?_ (within_fail _)
    refine within_bind (load_feeds _) fun _ => within_ite ?_ (ih (b + 1))
    generalize b / bit2blk + 2 = c
    exact within_bind (store_feeds _ _) fun _ => within_bind (writeBlock_feeds c) fun _ => within_pure b

theorem allocBlock_feeds : Feeds allocBlock := by
  refine within_bind (within_bind sNblocks_feeds fun n => allocFrom_feeds n 3) fun b => ?_
  refine within_bind (within_attempt (mapBlock_feeds b)) fun r => ?_
  cases r with
  | ok _ => exact within_pure _
  | error e => exact within_bind (freeBlock_feeds b) fun _ => within_fail _

/-! ## The blocks of a file -/

theorem fillSlot_feeds (p : Nat) (alloc : Bool) : Feeds (fillSlot p alloc) :=
  within_bind (load_feeds p) fun _ => within_when <| within_ite (within_fail _) <|
    within_bind allocBlock_feeds fun _ => store_feeds _ _

theorem fileBlockWalk_feeds (f n : Nat) (alloc : Bool) : Feeds (fileBlockWalk f n alloc) :=
  within_ite (within_pure _) <| within_ite
    (within_bind (fillSlot_feeds _ alloc) fun _ => within_bind (load_feeds _) fun _ =>
      within_bind (readBlock_feeds _) fun _ => within_pure _)
    (within_fail _)

theorem fileMapBlock_feeds (f n : Nat) (alloc : Bool) : Feeds (fileMapBlock f n alloc) :=
  within_bind (fileBlockWalk_feeds f n alloc) fun p => within_bind (fillSlot_feeds p alloc) fun _ =>
    within_bind (load_feeds p) fun _ => within_pure _

theorem fileGetBlock_feeds (f n : Nat) : Feeds (fileGetBlock f n) :=
  within_bind (fileMapBlock_feeds f n true) fun b => within_bind (readBlock_feeds b) fun _ =>
    within_pure _

theorem clearSlot_feeds (p : Nat) : Feeds (clearSlot p) :=
  within_bind (load_feeds p) fun _ => within_when <| within_bind (freeBlock_feeds _) fun _ =>
    store_feeds _ _

theorem fileTruncate_feeds (f : Nat) (newsize : Word) : Feeds (fileTruncate f newsize) := by
  have hround : ∀ bno, Feeds (do let _ ← Prog.attempt (fileClearBlock f bno)) := fun bno =>
    within_bind (within_attempt (within_bind (fileBlockWalk_feeds f bno false) clearSlot_feeds))
      fun _ => within_pure _
  exact within_bind (load_feeds _) fun _ => within_bind (within_loop hround _ _) fun _ =>
    within_bind (within_when (clearSlot_feeds _)) fun _ => store_feeds _ _

theorem fileFlush_feeds (f : Nat) : Feeds (fileFlush f) := by
  refine within_bind (load_feeds _) fun size => within_loop (fun bno => ?_) _ _
  refine within_bind (within_attempt (fileMapBlock_feeds f bno false)) fun r => ?_
  cases r with
  | error _ => exact within_pure _
  | ok b => exact within_bind (blockIsDirty_feeds b) fun _ => within_when (writeBlock_feeds b)

theorem flushDir_feeds (f : Nat) : Feeds (flushDir f) :=
  within_bind (load_feeds _) fun _ => within_when (fileFlush_feeds _)

/-! ## Directories and paths -/

theorem findFile_feeds (b : Nat) (test : Fs → Nat → Bool) : Feeds (findFile b test) :=
  within_bind (touch_feeds b) fun _ => within_get fun _ _ => within_pure _

theorem dirLookup_feeds (d : Nat) (name : List Byte) : Feeds (dirLookup d name) := by
  have hloop : ∀ n i, Feeds (lookupFrom d name i n) := by
    intro n
    induction n with
    | zero => exact fun _ => within_fail _
    | succ n ih =>
      refine fun i => within_bind (fileGetBlock_feeds d i) fun b => ?_
      refine within_bind (findFile_feeds b _) fun r => ?_
      cases r with
      | some f =>
        exact within_bind (store_feeds _ _) fun _ =>
          within_bind (within_attempt (dirtyBlock_feeds b)) fun _ => within_pure _
      | none => exact ih (i + 1)
  exact within_bind (load_feeds _) fun _ => hloop _ 0

theorem allocFileFrom_feeds (d : Nat) : ∀ n i, Feeds (allocFileFrom d i n) := by
  intro n
  induction n with
  | zero => exact fun _ => within_pure _
  | succ n ih =>
    refine fun i => within_bind (fileGetBlock_feeds d i) fun b => ?_
    refine within_bind (findFile_feeds b _) fun r => ?_
    cases r with
    | some f => exact within_pure _
    | none => exact ih (i + 1)

theorem dirAllocFile_feeds (d : Nat) : Feeds (dirAllocFile d) := by
  refine within_bind (load_feeds _) fun _ => within_bind (allocFileFrom_feeds d _ 0) fun r => ?_
  cases r with
  | some f => exact within_pure _
  | none => exact within_bind (load_feeds _) fun _ => within_bind (store_feeds _ _) fun _ =>
      within_bind (fileGetBlock_feeds d _) fun _ => within_pure _

theorem walkPath_feeds (path : List Byte) : Feeds (walkPath path) := by
  have hloop : ∀ n dir f path, Feeds (walkFrom n dir f path) := by
    intro n
    induction n with
    | zero =>
      intro dir f path
      cases path with
      | nil => exact within_pure _
      | cons c cs => exact within_halt (by decide)
    | succ n ih =>
      intro dir f path
      cases path with
      | nil => exact within_pure _
      | cons c cs =>
        refine within_ite (within_fail _) (within_bind (load_feeds _) fun type => ?_)
        refine within_ite (within_fail _) (within_bind (within_attempt (dirLookup_feeds _ _)) fun r => ?_)
        cases r with
        | ok g => exact ih _ _ _
        | error e => exact within_ite (within_pure _) (within_fail _)
  exact hloop _ _ _ _

theorem fileCreate_feeds (path : List Byte) : Feeds (fileCreate path) := by
  refine within_bind (walkPath_feeds path) fun w => ?_
  cases w with
  | found _ _ => exact within_fail _
  | missing d name =>
    refine within_bind (within_attempt (dirAllocFile_feeds d)) fun r => ?_
    cases r with
    | error _ => exact within_fail _
    | ok f =>
      refine within_bind (touch_feeds _) fun _ => within_bind (within_modify fun s hs => ?_) fun _ =>
        within_pure _
      have hav : ∀ cs k (s : Fs), (s.strcpy f k cs).avail = s.avail := by
        intro cs
        induction cs with
        | nil => exact fun k s => rfl
        | cons c cs ih => exact fun k s => ih (k + 1) (s.setByte f k c)
      rwa [Fs.Supplied, hav]

theorem fileRemove_feeds (path : List Byte) : Feeds (fileRemove path) := by
  have hopen : Feeds (fileOpen path) := by
    refine within_bind (walkPath_feeds path) fun w => ?_
    cases w with
    | found _ _ => exact within_pure _
    | missing _ _ => exact within_fail _
  exact within_bind hopen fun f => within_bind (fileTruncate_feeds f 0) fun _ =>
    within_bind (touch_feeds _) fun _ => within_bind (within_modify fun _ h => h) fun _ =>
      within_bind (fileFlush_feeds f) fun _ => flushDir_feeds f

end Mos
