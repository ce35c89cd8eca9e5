import Mos.Fs.OpenTable
import Mos.Fs.File

/-!
# The requests of the native file server

`fs/serv.c` answers one request at a time. An open file is a slot of `opentab` with a file id, the
`struct File *` it was opened on and a `Filefd` page that the clients map. The functions here return the
page that the reply carries; a reply with an error code is an error.
-/

namespace Mos

open Lib Function

/-! ## The state of the server -/

/-- `O_MKDIR`. -/
def oMkdir : Word := 0x0800
/-- `O_CREAT`. -/
def oCreat : Word := 0x0100

/-- The file system, `opentab`, and the reference counts of the `Filefd` pages. -/
structure Serv where
  fs : Fs
  tab : OpenTab
  /-- `opentab[i].o_file`. -/
  oFile : Nat → Option Nat

/-- Why the server stops. Through a null `o_file` it touches an address that the kernel refuses. -/
inductive ServPanic where
  | fs (p : FsPanic)
  | tab (p : Fault)
  | null

/-- Functions of the server. -/
abbrev ServeM := Prog Serv Err ServPanic

/-- A function of `fs/fs.c`. -/
def onFs {α : Type} (m : FsM α) : ServeM α := Prog.zoom Serv.fs (fun t s => { s with fs := t }) .fs m

/-- A function on `opentab`. -/
def onTab {α : Type} (m : ServM α) : ServeM α :=
  Prog.zoom Serv.tab (fun t s => { s with tab := t }) .tab m

/-- One more client maps the `Filefd` page of slot `i`. -/
def Serv.share (s : Serv) (i : Nat) : Serv :=
  let va := (s.tab.opentab i).oFf
  { s with tab := { s.tab with pageref := update s.tab.pageref va (s.tab.pageref va + 1) } }

/-- The page that a reply carries. -/
inductive Shared where
  /-- The `Filefd` page of slot `i`. -/
  | filefd (i : Nat)
  /-- The page of block `b`. -/
  | block (b : Nat)

/-! ## The requests -/

/-- The file that `serve_open` opens or makes. -/
def openedFile (path : List Byte) (omode : Word) : FsM Nat :=
  if omode &&& oCreat = oCreat then fileCreate path
  else if omode &&& oMkdir = oMkdir then do
    let f ← fileCreate path
    store (fType f) ftypeDir
    return f
  else fileOpen path

/-- `serve_open(envid, rq)`. The file is copied to the `Filefd` page, and the client maps this page. -/
def serveOpen (mem : Bool) (path : List Byte) (omode : Word) : ServeM (Option Shared) := do
  let (i, _) ← onTab (openAlloc mem)
  let f ← onFs (openedFile path omode)
  Prog.modify fun s => { s with oFile := update s.oFile i (some f) }
  onFs (touch (f / 1024))
  Prog.modify fun s => s.share i
  return some (.filefd i)

/-- `pOpen->o_file` after `open_lookup`. -/
def lookupFile (envid fileid : Word) : ServeM (Option Nat) := do
  let i ← onTab (openLookup envid fileid)
  let s ← Prog.get
  return s.oFile i

/-- A function that reads the file first. -/
def withFile {α : Type} (m : Nat → FsM α) : Option Nat → ServeM α
  | some f => onFs (m f)
  | none => Prog.halt .null

/-- A function on a block of the file: its number is looked at first. -/
def withBlock {α : Type} (filebno : Nat) (m : Nat → FsM α) : Option Nat → ServeM α
  | some f => onFs (m f)
  | none => if nindirect ≤ filebno then Prog.fail .inval else Prog.halt .null

/-- `serve_map(envid, rq)`. -/
def serveMap (envid fileid offset : Word) : ServeM (Option Shared) := do
  let f ← lookupFile envid fileid
  let filebno := offset.toNat / by2blk
  let b ← withBlock filebno (fun f => fileGetBlock f filebno) f
  return some (.block b)

/-- `serve_set_size(envid, rq)`. -/
def serveSetSize (envid fileid size : Word) : ServeM (Option Shared) := do
  let f ← lookupFile envid fileid
  withFile (fun f => fileSetSize f size) f
  return none

/-- `serve_close(envid, rq)`. -/
def serveClose (envid fileid : Word) : ServeM (Option Shared) := do
  let f ← lookupFile envid fileid
  withFile fileClose f
  return none

/-- `serve_dirty(envid, rq)`. -/
def serveDirty (envid fileid offset : Word) : ServeM (Option Shared) := do
  let f ← lookupFile envid fileid
  withBlock (offset.toNat / by2blk) (fun f => fileDirty f offset) f
  return none

/-- `serve_remove(envid, rq)`. -/
def serveRemove (path : List Byte) : ServeM (Option Shared) := do
  onFs (fileRemove path)
  return none

/-- `serve_sync(envid)`. -/
def serveSync : ServeM (Option Shared) := do
  onFs fsSync
  return none

/-- The requests. -/
inductive Fsreq where
  | open (path : List Byte) (omode : Word)
  | map (fileid offset : Word)
  | setSize (fileid size : Word)
  | close (fileid : Word)
  | dirty (fileid offset : Word)
  | remove (path : List Byte)
  | sync

/-- The `switch` of `serve`. `mem` tells whether the kernel has a frame for a `Filefd` page. -/
def Fsreq.serve (mem : Bool) (envid : Word) : Fsreq → ServeM (Option Shared)
  | .open path omode => serveOpen mem path omode
  | .map fileid offset => serveMap envid fileid offset
  | .setSize fileid size => serveSetSize envid fileid size
  | .close fileid => serveClose envid fileid
  | .dirty fileid offset => serveDirty envid fileid offset
  | .remove path => serveRemove path
  | .sync => serveSync

/-- The server after `serve_init`, with a file system. -/
def Serv.start (fs : Fs) : Serv := { fs, tab := serveInit, oFile := fun _ => none }

/-! ## What a request keeps -/

theorem sat_onFs {α : Type} {m : FsM α} {s : Serv} {Q : α → Serv → Prop} {E : Err → Serv → Prop}
    {H : ServPanic → Prop} : (onFs m s).Sat Q E H ↔ (m s.fs).Sat (fun a t => Q a { s with fs := t })
      (fun e t => E e { s with fs := t }) (fun p => H (.fs p)) := Prog.sat_zoom

/-- The open files are the same. -/
def Serv.SameOpen (s t : Serv) : Prop := t.tab = s.tab ∧ t.oFile = s.oFile

theorem Serv.SameOpen.trans {s t u : Serv} (h : s.SameOpen t) (h' : t.SameOpen u) : s.SameOpen u :=
  ⟨h'.1.trans h.1, h'.2.trans h.2⟩

theorem keeps_onFs {α : Type} (m : FsM α) : Prog.Keeps Serv.SameOpen (onFs m) := by
  intro s
  rw [sat_onFs]
  cases m s.fs <;> simp [Serv.SameOpen]

theorem tabLookup_keeps (fileid : Word) : Prog.Keeps Eq (tabLookup fileid) := by
  refine Prog.keeps_bind (fun _ _ _ h h' => h.trans h') (Prog.keeps_assert (fun _ => rfl) _ _) ?_
  intro _
  refine Prog.keeps_get fun s => ?_
  dsimp only
  split
  · exact Prog.keeps_fail (fun _ => rfl) _
  · exact Prog.keeps_pure (fun _ => rfl) _

theorem lookupFile_keeps (envid fileid : Word) :
    Prog.Keeps Serv.SameOpen (lookupFile envid fileid) := by
  refine Prog.keeps_bind (fun _ _ _ h h' => h.trans h') ?_ fun i =>
    Prog.keeps_get fun s => Prog.keeps_pure (fun _ => ⟨rfl, rfl⟩) _
  intro s
  unfold onTab
  rw [Prog.sat_zoom]
  refine (tabLookup_keeps fileid s.tab).mono ?_ ?_ (fun _ h => h)
  · rintro _ _ rfl
    exact ⟨rfl, rfl⟩
  · rintro _ _ rfl
    exact ⟨rfl, rfl⟩

/-- Every request but `FSREQ_OPEN` leaves the table of open files. -/
theorem Fsreq.serve_keeps (mem : Bool) (envid : Word) (q : Fsreq)
    (hq : ∀ path omode, q ≠ .open path omode) : Prog.Keeps Serv.SameOpen (q.serve mem envid) := by
  have htrans : ∀ s t u : Serv, s.SameOpen t → t.SameOpen u → s.SameOpen u :=
    fun _ _ _ => Serv.SameOpen.trans
  have hpure : ∀ a : Option Shared, Prog.Keeps Serv.SameOpen (pure a : ServeM (Option Shared)) :=
    fun a => Prog.keeps_pure (fun _ => ⟨rfl, rfl⟩) a
  have hfile : ∀ (m : Nat → FsM Unit) f, Prog.Keeps Serv.SameOpen (withFile m f) := by
    intro m f
    cases f with
    | some f => exact keeps_onFs (m f)
    | none => exact Prog.keeps_halt _
  have hblock : ∀ {α : Type} n (m : Nat → FsM α) f, Prog.Keeps Serv.SameOpen (withBlock n m f) := by
    intro α n m f
    cases f with
    | some f => exact keeps_onFs (m f)
    | none =>
      rw [show withBlock n m none = if nindirect ≤ n then Prog.fail .inval else Prog.halt .null from rfl]
      split
      · exact Prog.keeps_fail (fun _ => ⟨rfl, rfl⟩) _
      · exact Prog.keeps_halt _
  cases q with
  | «open» path omode => exact absurd rfl (hq path omode)
  | map fileid offset =>
    exact Prog.keeps_bind htrans (lookupFile_keeps envid fileid) fun f =>
      Prog.keeps_bind htrans (hblock _ _ f) fun _ => hpure _
  | setSize fileid size =>
    exact Prog.keeps_bind htrans (lookupFile_keeps envid fileid) fun f =>
      Prog.keeps_bind htrans (hfile _ f) fun _ => hpure _
  | close fileid =>
    exact Prog.keeps_bind htrans (lookupFile_keeps envid fileid) fun f =>
      Prog.keeps_bind htrans (hfile _ f) fun _ => hpure _
  | dirty fileid offset =>
    exact Prog.keeps_bind htrans (lookupFile_keeps envid fileid) fun f =>
      Prog.keeps_bind htrans (hblock _ _ f) fun _ => hpure _
  | remove path => exact Prog.keeps_bind htrans (keeps_onFs _) fun _ => hpure _
  | sync => exact Prog.keeps_bind htrans (keeps_onFs _) fun _ => hpure _

/-- A touch does not return an error code. -/
theorem touch_returns (b : Nat) (s : Fs) :
    (touch b s).Sat (fun _ _ => True) (fun _ _ => False) (fun _ => True) := by
  rw [touch, Prog.get_bind]
  split
  · trivial
  · rw [Prog.sat_bind]
    unfold askPage
    rw [Outcome.sat_ret]
    split <;> trivial

/-- What `FSREQ_OPEN` does to the table: slot `i` gets the next id of that slot, and with it the file and a
client, or it stays without a client. -/
theorem serveOpen_table (mem : Bool) (path : List Byte) (omode : Word) (s : Serv) :
    (serveOpen mem path omode s).Sat
      (fun r t => ∃ i f tab, r = some (.filefd i) ∧
        openAlloc mem s.tab = .ret (i, (tab.opentab i).oFileid) tab ∧
        t.oFile = update s.oFile i (some f) ∧
        t.tab = { tab with pageref := update tab.pageref (tab.opentab i).oFf 2 })
      (fun _ t => t.oFile = s.oFile ∧ (t.tab = s.tab ∨
        ∃ i id, openAlloc mem s.tab = .ret (i, id) t.tab))
      (fun p => ∃ q, p = .fs q) := by
  have hspec := tabAllocFrom_spec mem maxopen 0 s.tab
  rw [serveOpen, Prog.sat_bind]
  unfold onTab
  rw [Prog.sat_zoom]
  refine (hspec.and (Outcome.sat_self _)).mono ?_ ?_ (fun _ h => h.1.elim)
  · rintro ⟨i, id⟩ tab ⟨⟨-, -, -, htab, href⟩, heq⟩
    have hid : id = (tab.opentab i).oFileid := by simp [htab]
    have hone : tab.pageref (tab.opentab i).oFf = 1 := by simp [href, htab]
    rw [Prog.sat_bind, sat_onFs]
    refine (Outcome.sat_self _).mono ?_ ?_ (fun p _ => ⟨p, rfl⟩)
    · intro f v _
      rw [Prog.modify_bind, Prog.sat_bind, sat_onFs]
      refine (touch_returns _ v).mono ?_ (fun _ _ h => h.elim) (fun p _ => ⟨p, rfl⟩)
      intro _ w _
      exact ⟨i, f, tab, rfl, hid ▸ heq, rfl, by simp [Serv.share, hone]⟩
    · intro e v _
      exact ⟨rfl, .inr ⟨i, id, heq⟩⟩
  · rintro e tab ⟨rfl, -⟩
    exact ⟨rfl, .inl rfl⟩

end Mos
