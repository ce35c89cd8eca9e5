import Mos.Fs.Serv
import Mos.Fs.OwnDir

/-!
# Open handles and removed files

A slot of `opentab` keeps the address of the `struct File` it was opened on. `FSREQ_REMOVE` empties the
`struct File` and does not look at the open files, and the next file that is created in the directory gets
the same `struct File`. The requests are recorded in a log here, so that one can say of a file id on which
file it was opened, when that file was removed, and which files have been created since.
-/

namespace Mos

open Lib Function

/-! ## Sessions -/

/-- `g` is a file in the directory `d`. -/
def Fs.Entry (s : Fs) (d g : Nat) : Prop :=
  s.IsDir d ∧ ∃ k, k ≠ .indirect ∧ s.held d k ≠ 0 ∧ (∃ j < file2blk, g = fileIn (s.held d k) j) ∧
    ¬s.Unused g

/-- The file `d` and, if it is a directory, everything that is in it. -/
def Fs.Within (s : Fs) (d : Nat) : Set Nat := {g | Relation.ReflTransGen s.Entry d g}

/-- What the requests have done. -/
inductive Event where
  /-- The file id `id` was handed out for the file `f`. -/
  | opened (id : Word) (f : Nat)
  | created (f : Nat)
  /-- The file `d` was removed, with all that was within it. -/
  | removed (d : Nat) (s : Fs)
  /-- The page of block `b` was given to a client. -/
  | mapped (b : Nat)

/-- The page of block `b` was given to a client. -/
def Event.maps (b : Nat) : Event → Bool
  | .mapped c => c = b
  | _ => false

/-- The server with the log of what the requests have done, the latest last. -/
structure Session where
  serv : Serv
  log : List Event

/-- The file that a path names. -/
def Serv.named (s : Serv) (path : List Byte) : Option Nat :=
  match fileOpen path s.fs with
  | .ret f _ => some f
  | _ => none

/-- `serve_open` makes the file. -/
def Creates (omode : Word) : Prop := omode &&& oCreat = oCreat ∨ omode &&& oMkdir = oMkdir

instance (omode : Word) : Decidable (Creates omode) := inferInstanceAs (Decidable (_ ∨ _))

/-- What the log gets when slot `i` is handed out. -/
def Serv.opening (t : Serv) (omode : Word) (i : Nat) : List Event :=
  match t.oFile i with
  | some f => (if Creates omode then [.created f] else []) ++ [.opened (t.tab.opentab i).oFileid f]
  | none => []

/-- What the log gets when a request has succeeded. -/
def Fsreq.events (q : Fsreq) (s : Serv) (r : Option Shared) (t : Serv) : List Event :=
  match q, r with
  | .open _ omode, some (.filefd i) => t.opening omode i
  | .map _ _, some (.block b) => [.mapped b]
  | .remove path, _ => (s.named path).toList.map fun f => .removed f s.fs
  | _, _ => []

/-- What can happen: a request of the client `envid`, or clients map and unmap a `Filefd` page that one of
them has, or a client writes to the page of a block that it got. -/
inductive Act where
  | serve (mem : Bool) (envid : Word) (q : Fsreq)
  | clients (i n : Nat)
  | write (b : Nat) (p : Page)

def Session.step (t : Session) : Act → Option Session
  | .serve mem envid q =>
    match q.serve mem envid t.serv with
    | .ret r u => some ⟨u, t.log ++ q.events t.serv r u⟩
    | .err _ u => some ⟨u, t.log⟩
    | .halt _ => none
  | .clients i n =>
    let va := (t.serv.tab.opentab i).oFf
    if i < maxopen ∧ 2 ≤ t.serv.tab.pageref va ∧ 1 ≤ n then
      some { t with serv := { t.serv with tab := { t.serv.tab with
        pageref := update t.serv.tab.pageref va n } } }
    else none
  | .write b p =>
    if t.log.any (Event.maps b) then
      some { t with serv := { t.serv with fs := t.serv.fs.setPage b p } }
    else none

/-- The server before the first request. -/
def Session.start (fs : Fs) : Session := ⟨.start fs, []⟩

/-- Runs in which every request is allowed where it is made. -/
inductive Session.Run (ok : Serv → Fsreq → Prop) (s : Session) : Session → Prop
  | refl : Session.Run ok s s
  | step {t u : Session} {a : Act} (hr : Session.Run ok s t)
      (hok : ∀ mem envid q, a = .serve mem envid q → ok t.serv q) (h : t.step a = some u) :
      Session.Run ok s u

/-! ## Files that a request leaves alone -/

/-- `s` and `t` differ in the words at `A` only. -/
structure Fs.SameBut (A : Set Nat) (s t : Fs) : Prop where
  super : t.super = s.super
  bitmap : t.bitmap = s.bitmap
  avail : t.avail = s.avail
  mapped : ∀ b, t.isMapped b = s.isMapped b
  dirty : ∀ b, t.isDirty b = s.isDirty b
  word : ∀ a ∉ A, t.word a = s.word a
  disk : ∀ a ∉ A, t.disk (a / 1024) (a % 1024) = s.disk (a / 1024) (a % 1024)

/-- The request neither reads nor changes the size, the block pointers and the data of the file `g`: with
other words in their place it has the same reply, and it leaves them as they are. An access outside of
`opentab` may do anything. -/
structure Serv.Spares (s : Serv) (mem : Bool) (envid : Word) (q : Fsreq) (g : Nat) : Prop where
  unread : ∀ v, Fs.SameBut (s.fs.wordsOf g) s.fs v →
    Outcome.Agree (fun t u => Fs.SameBut (s.fs.wordsOf g) t.fs u.fs ∧ t.SameOpen u)
      (q.serve mem envid s) (q.serve mem envid { s with fs := v })
  unchanged : ∀ t, (q.serve mem envid s).state? = some t →
    ∀ a ∈ s.fs.wordsOf g, t.fs.look a = s.fs.look a
  inside : ∀ p, q.serve mem envid s ≠ .halt (.tab p)

/-- The request is `FSREQ_MAP` or `FSREQ_SET_SIZE` with this file id. -/
def Fsreq.Uses (id : Word) : Fsreq → Prop
  | .map fileid _ => fileid = id
  | .setSize fileid _ => fileid = id
  | _ => False

/-- The ids of the slots are not used up, a file id leads into `opentab`, and a file is not removed while
the server would accept a file id for it or for a file within it. -/
def Fsreq.Safe (s : Serv) : Fsreq → Prop
  | .open _ _ => ∀ i < maxopen, (s.tab.opentab i).oFileid.toNat + maxfs * maxopen < 2 ^ 32
  | .map fileid _ => fileid.toNat % maxfs = 0
  | .setSize fileid _ => fileid.toNat % maxfs = 0
  | .close fileid => fileid.toNat % maxfs = 0
  | .dirty fileid _ => fileid.toNat % maxfs = 0
  | .remove path => ∀ d, s.named path = some d → ∀ envid id i g,
      openLookup envid id s.tab = .ret i s.tab → s.oFile i = some g → g ∉ s.fs.Within d
  | .sync => True

/-! ## The invariant -/

namespace Session

variable {t u : Session} {id : Word} {f d : Nat} {v : Fs}

/-- Slot 0, the only one that a lookup can find, accepts this id. -/
def Accepts (t : Session) (id : Word) : Prop :=
  (t.serv.tab.opentab 0).oFileid = id ∧ t.serv.tab.pageref (t.serv.tab.opentab 0).oFf ≠ 1

/-- An id is handed out once, and while it is accepted the file that it was handed out for has not been
removed. -/
structure Inv (t : Session) : Prop where
  ff : ∀ i, (t.serv.tab.opentab i).oFf = fileva + by2pg * BitVec.ofNat 32 i
  residue : ∀ i < maxopen, (t.serv.tab.opentab i).oFileid.toNat % 2048 = i
  idle : ∀ i < maxopen, t.serv.tab.pageref (t.serv.tab.opentab i).oFf = 0 →
    (t.serv.tab.opentab i).oFileid.toNat < 2048
  old : ∀ id f, .opened id f ∈ t.log → 2048 ≤ id.toNat ∧
    ∀ i < maxopen, id.toNat % 2048 = i → id.toNat ≤ (t.serv.tab.opentab i).oFileid.toNat
  kept : ∀ id f, .opened id f ∈ t.log → t.Accepts id → t.serv.oFile 0 = some f ∧
    ∀ d v, List.Sublist [.opened id f, .removed d v] t.log → f ∉ v.Within d

theorem inv_start (fs : Fs) : (start fs).Inv := by
  refine ⟨fun _ => rfl, fun i hi => ?_, fun i hi _ => ?_, fun _ _ h => ?_, fun _ _ h => ?_⟩
  · simp only [maxopen] at hi
    simp only [start, Serv.start, serveInit, tabInit, BitVec.toNat_ofNat]
    omega
  · simp only [maxopen] at hi
    simp only [start, Serv.start, serveInit, tabInit, BitVec.toNat_ofNat]
    omega
  · cases h
  · cases h

/-- The `Filefd` pages of two slots are different. -/
theorem Inv.ff_ne (h : t.Inv) {i j : Nat} (hi : i < maxopen) (hj : j < maxopen) (hne : j ≠ i) :
    (t.serv.tab.opentab j).oFf ≠ (t.serv.tab.opentab i).oFf := by
  rw [h.ff, h.ff]
  exact fun heq => hne (oFf_injective hj hi heq)

/-- What comes last in a log that has grown by one entry. -/
theorem sublist_snoc {a b c : Event} {l : List Event} (h : List.Sublist [a, b] (l ++ [c])) :
    List.Sublist [a, b] l ∨ b = c := by
  obtain ⟨l₁, l₂, heq, h₁, h₂⟩ := List.sublist_append_iff.mp h
  rcases List.sublist_singleton.mp h₂ with rfl | rfl
  · rw [List.append_nil] at heq
    exact .inl (heq ▸ h₁)
  · exact .inr (by simpa using congrArg List.getLast? heq)

theorem Inv.same (h : t.Inv) {s : Serv} (hs : t.serv.SameOpen s) : Inv ⟨s, t.log⟩ := by
  obtain ⟨htab, hfile⟩ := hs
  refine ⟨by rw [htab]; exact h.ff, by rw [htab]; exact h.residue, by rw [htab]; exact h.idle,
    by rw [htab]; exact h.old, fun id f hlog hacc => ?_⟩
  rw [Accepts, htab] at hacc
  rw [hfile]
  exact h.kept id f hlog hacc

/-- The log gets an entry that hands nothing out; if it removes a file, no id is accepted for it. -/
theorem Inv.record (h : t.Inv) {s : Serv} (hs : t.serv.SameOpen s) {e : Event}
    (he : ∀ id f, e ≠ .opened id f) (hd : ∀ d v, e = .removed d v → ∀ id f, .opened id f ∈ t.log →
      t.Accepts id → f ∉ v.Within d) : Inv ⟨s, t.log ++ [e]⟩ := by
  obtain ⟨htab, hfile⟩ := hs
  have hmem : ∀ {id f}, .opened id f ∈ t.log ++ [e] → .opened id f ∈ t.log := by
    intro id f hmem
    rcases List.mem_append.mp hmem with hmem | hmem
    · exact hmem
    · exact absurd (List.mem_singleton.mp hmem).symm (he id f)
  refine ⟨by rw [htab]; exact h.ff, by rw [htab]; exact h.residue, by rw [htab]; exact h.idle, ?_, ?_⟩
  · intro id f hlog
    rw [htab]
    exact h.old id f (hmem hlog)
  · intro id f hlog hacc
    have hacc' : t.Accepts id := by rwa [Accepts, htab] at hacc
    obtain ⟨hf, hrem⟩ := h.kept id f (hmem hlog) hacc'
    refine ⟨by rw [hfile]; exact hf, fun d v hsub => ?_⟩
    rcases sublist_snoc hsub with hsub | rfl
    · exact hrem d v hsub
    · exact hd d v rfl id f (hmem hlog) hacc'

/-- Slot `i` gets the next id of its own; the clients do not have its page yet. -/
theorem Inv.alloc (h : t.Inv) {mem : Bool} {i : Nat} {tab : OpenTab}
    (hok : ∀ i < maxopen, (t.serv.tab.opentab i).oFileid.toNat + maxfs * maxopen < 2 ^ 32)
    (halloc : openAlloc mem t.serv.tab = .ret (i, id) tab) (s : Fs) :
    Inv ⟨⟨s, tab, t.serv.oFile⟩, t.log⟩ ∧ i < maxopen ∧ id = (tab.opentab i).oFileid ∧
      tab.pageref (tab.opentab i).oFf = 1 ∧ 2048 ≤ id.toNat ∧
        ∀ id' f, .opened id' f ∈ t.log → id' ≠ id := by
  have hspec := tabAllocFrom_spec mem maxopen 0 t.serv.tab
  rw [show tabAllocFrom mem 0 maxopen t.serv.tab = .ret (i, id) tab from halloc] at hspec
  obtain ⟨hlt, -, hid, htab, href⟩ := hspec
  simp only [Nat.zero_add] at hlt hid htab href
  have hself : (tab.opentab i).oFileid = id := by simp [htab]
  have hother : ∀ j, j ≠ i → tab.opentab j = t.serv.tab.opentab j := by
    intro j hj
    rw [htab, update_of_ne hj]
  have hff : ∀ j, (tab.opentab j).oFf = (t.serv.tab.opentab j).oFf := by
    intro j
    by_cases hj : j = i
    · simp [htab, hj]
    · rw [hother j hj]
  have htoNat : id.toNat = (t.serv.tab.opentab i).oFileid.toNat + 2048 := by
    have := hok i hlt
    rw [hid]
    simp only [maxfs, maxopen, BitVec.toNat_add, BitVec.toNat_ofNat] at this ⊢
    omega
  have hres := h.residue i hlt
  have hone : tab.pageref (tab.opentab i).oFf = 1 := by rw [hff, href, update_self]
  have hrefs : ∀ j < maxopen, j ≠ i →
      tab.pageref (tab.opentab j).oFf = t.serv.tab.pageref (t.serv.tab.opentab j).oFf := by
    intro j hj hne
    rw [hff, href, update_of_ne (h.ff_ne hlt hj hne)]
  have hnew : ∀ id' f, .opened id' f ∈ t.log → id' ≠ id := by
    rintro id' f hlog rfl
    have := (h.old id' f hlog).2 i hlt (by omega)
    omega
  refine ⟨⟨fun j => (hff j).trans (h.ff j), ?_, ?_, ?_, ?_⟩, hlt, hself.symm, hone, by omega, hnew⟩
  · intro j hj
    by_cases hne : j = i
    · subst hne
      dsimp only
      rw [hself]
      omega
    · dsimp only
      rw [hother j hne]
      exact h.residue j hj
  · intro j hj hzero
    by_cases hne : j = i
    · subst hne
      dsimp only at hzero
      omega
    · dsimp only at hzero ⊢
      rw [hrefs j hj hne] at hzero
      rw [hother j hne]
      exact h.idle j hj hzero
  · intro id' f hlog
    obtain ⟨hge, hle⟩ := h.old id' f hlog
    refine ⟨hge, fun j hj hmod => ?_⟩
    have := hle j hj hmod
    by_cases hne : j = i
    · subst hne
      dsimp only
      rw [hself]
      omega
    · dsimp only
      rw [hother j hne]
      exact this
  · rintro id' f hlog ⟨hid', hacc⟩
    by_cases hne : 0 = i
    · subst hne
      exact absurd (hid'.symm.trans hself) (hnew id' f hlog)
    · dsimp only at hid' hacc
      rw [hrefs 0 (by decide) hne] at hacc
      rw [hother 0 hne] at hid'
      exact h.kept id' f hlog ⟨hid', hacc⟩

/-- The clients of slot `i` change, if there were any. -/
theorem Inv.clients (h : t.Inv) {i n : Nat} (hi : i < maxopen)
    (hmapped : 2 ≤ t.serv.tab.pageref (t.serv.tab.opentab i).oFf) (hn : 1 ≤ n) :
    Inv { t with serv := { t.serv with tab := { t.serv.tab with
      pageref := update t.serv.tab.pageref (t.serv.tab.opentab i).oFf n } } } := by
  refine ⟨h.ff, h.residue, ?_, h.old, ?_⟩
  · intro j hj hzero
    dsimp only at hzero
    by_cases hne : j = i
    · subst hne
      rw [update_self] at hzero
      omega
    · rw [update_of_ne (h.ff_ne hi hj hne)] at hzero
      exact h.idle j hj hzero
  · rintro id f hlog ⟨hid, hacc⟩
    refine h.kept id f hlog ⟨hid, ?_⟩
    by_cases hne : 0 = i
    · subst hne
      omega
    · dsimp only at hacc
      rwa [update_of_ne (h.ff_ne hi (by decide) hne)] at hacc

/-- Slot `i`, which has just been allocated, is handed out for the file `f`. -/
theorem Inv.hand (h : t.Inv) {i f : Nat} (hi : i < maxopen)
    (hone : t.serv.tab.pageref (t.serv.tab.opentab i).oFf = 1)
    (hnew : ∀ id f, .opened id f ∈ t.log → id ≠ (t.serv.tab.opentab i).oFileid)
    (hlow : 2048 ≤ (t.serv.tab.opentab i).oFileid.toNat) (s : Fs) :
    Inv ⟨⟨s, { t.serv.tab with pageref := update t.serv.tab.pageref (t.serv.tab.opentab i).oFf 2 },
      update t.serv.oFile i (some f)⟩, t.log ++ [.opened (t.serv.tab.opentab i).oFileid f]⟩ := by
  refine ⟨h.ff, h.residue, ?_, ?_, ?_⟩
  · intro j hj hzero
    dsimp only at hzero
    by_cases hne : j = i
    · subst hne
      rw [update_self] at hzero
      omega
    · rw [update_of_ne (h.ff_ne hi hj hne)] at hzero
      exact h.idle j hj hzero
  · intro id f' hlog
    rcases List.mem_append.mp hlog with hlog | hlog
    · exact h.old id f' hlog
    · obtain ⟨rfl, rfl⟩ : id = (t.serv.tab.opentab i).oFileid ∧ f' = f := by simpa using hlog
      refine ⟨hlow, fun j hj hmod => ?_⟩
      rw [h.residue i hi] at hmod
      rw [hmod]
  · rintro id f' hlog ⟨hid, hacc⟩
    rcases List.mem_append.mp hlog with hold | hlast
    · -- an id that was handed out before is another slot's
      have hne : 0 ≠ i := by
        rintro rfl
        exact hnew id f' hold hid.symm
      dsimp only at hid hacc
      rw [update_of_ne (h.ff_ne hi (by decide) hne)] at hacc
      obtain ⟨hf, hrem⟩ := h.kept id f' hold ⟨hid, hacc⟩
      refine ⟨by dsimp only; rw [update_of_ne hne]; exact hf, fun d v hsub => ?_⟩
      rcases sublist_snoc hsub with hsub | heq
      · exact hrem d v hsub
      · cases heq
    · obtain ⟨rfl, rfl⟩ : id = (t.serv.tab.opentab i).oFileid ∧ f' = f := by simpa using hlast
      have h0 : i = 0 := by
        have h₁ := h.residue 0 (by decide)
        have h₂ := h.residue i hi
        dsimp only at hid
        rw [hid] at h₁
        omega
      subst h0
      refine ⟨by simp, fun d v hsub => ?_⟩
      rcases sublist_snoc hsub with hsub | heq
      · exact absurd rfl (hnew _ f' (hsub.subset (by simp)))
      · cases heq

/-- `FSREQ_OPEN` hands out a new id, or it fails. -/
theorem Inv.serveOpen (h : t.Inv) (mem : Bool) (path : List Byte) (omode : Word)
    (hok : ∀ i < maxopen, (t.serv.tab.opentab i).oFileid.toNat + maxfs * maxopen < 2 ^ 32) :
    (serveOpen mem path omode t.serv).Sat
      (fun r u => Inv ⟨u, t.log ++ Fsreq.events (.open path omode) t.serv r u⟩)
      (fun _ u => Inv ⟨u, t.log⟩) (fun _ => True) := by
  refine (serveOpen_table mem path omode t.serv).mono ?_ ?_ (fun _ _ => trivial)
  · rintro _ ⟨s, _, _⟩ ⟨i, f, tab, rfl, halloc, hfile, htab⟩
    obtain rfl := hfile
    obtain rfl := htab
    obtain ⟨hinv, hi, -, hone, hlow, hnew⟩ := h.alloc hok halloc s
    simp only [Fsreq.events, Serv.opening, update_self]
    split
    · -- the new file is recorded first
      have hmade := hinv.record (e := .created f) ⟨rfl, rfl⟩ (by simp) (by simp)
      rw [← List.append_assoc]
      refine hmade.hand hi hone (fun id' f' hlog => hnew id' f' ?_) hlow s
      simpa using hlog
    · exact hinv.hand hi hone hnew hlow s
  · rintro _ ⟨s, tab, _⟩ ⟨rfl, htab⟩
    rcases htab with rfl | ⟨i, id, halloc⟩
    · exact h.same ⟨rfl, rfl⟩
    · exact (h.alloc hok halloc s).1

/-- What the log gets from a request that opens nothing. -/
theorem events_cases (q : Fsreq) (hq : ∀ path omode, q ≠ .open path omode) (s t : Serv)
    (r : Option Shared) : q.events s r t = [] ∨ (∃ b, q.events s r t = [.mapped b]) ∨
      ∃ path d, q = .remove path ∧ s.named path = some d ∧ q.events s r t = [.removed d s.fs] := by
  cases q with
  | «open» path omode => exact absurd rfl (hq path omode)
  | map fileid offset =>
    rcases r with _ | _ | b
    · exact .inl rfl
    · exact .inl rfl
    · exact .inr (.inl ⟨b, rfl⟩)
  | remove path =>
    cases hd : s.named path with
    | none => exact .inl (by simp [Fsreq.events, hd])
    | some d => exact .inr (.inr ⟨path, d, rfl, hd, by simp [Fsreq.events, hd]⟩)
  | setSize fileid size => exact .inl rfl
  | close fileid => exact .inl rfl
  | dirty fileid offset => exact .inl rfl
  | sync => exact .inl rfl

/-- An id that slot 0 accepts passes `open_lookup`. -/
theorem Inv.lookup (h : t.Inv) (hacc : t.Accepts id) (envid : Word) :
    openLookup envid id t.serv.tab = .ret 0 t.serv.tab := by
  obtain ⟨rfl, hacc⟩ := hacc
  have hres := h.residue 0 (by decide)
  rw [openLookup, tabLookup_even _ (by omega), if_neg]
  simpa using hacc

theorem Inv.step (h : t.Inv) {a : Act}
    (hok : ∀ mem envid q, a = .serve mem envid q → q.Safe t.serv) (hstep : t.step a = some u) :
    u.Inv := by
  cases a with
  | serve mem envid q =>
    have hsafe := hok mem envid q rfl
    have hsat : (q.serve mem envid t.serv).Sat (fun r s => Inv ⟨s, t.log ++ q.events t.serv r s⟩)
        (fun _ s => Inv ⟨s, t.log⟩) (fun _ => True) := by
      by_cases hq : ∃ path omode, q = .open path omode
      · obtain ⟨path, omode, rfl⟩ := hq
        exact h.serveOpen mem path omode hsafe
      · have hq : ∀ path omode, q ≠ .open path omode := fun path omode heq => hq ⟨path, omode, heq⟩
        refine (q.serve_keeps mem envid hq t.serv).mono ?_ (fun _ _ => h.same) (fun _ h => h)
        intro r s hs
        rcases events_cases q hq t.serv s r with hev | ⟨b, hev⟩ | ⟨path, d, rfl, hd, hev⟩
        · rw [hev, List.append_nil]
          exact h.same hs
        · rw [hev]
          exact h.record hs (by simp) (by simp)
        · rw [hev]
          refine h.record hs (by simp) ?_
          rintro _ _ heq id f hlog hacc
          obtain ⟨rfl, rfl⟩ := Event.removed.inj heq
          exact hsafe d hd envid id 0 f (h.lookup hacc envid) (h.kept id f hlog hacc).1
    rw [Session.step] at hstep
    cases hserve : q.serve mem envid t.serv with
    | ret r s =>
      rw [hserve] at hsat hstep
      cases hstep
      exact hsat
    | err e s =>
      rw [hserve] at hsat hstep
      cases hstep
      exact hsat
    | halt p =>
      rw [hserve] at hstep
      cases hstep
  | clients i n =>
    rw [Session.step] at hstep
    dsimp only at hstep
    split at hstep
    next hc =>
      cases hstep
      exact h.clients hc.1 hc.2.1 hc.2.2
    next => cases hstep
  | write b p =>
    rw [Session.step] at hstep
    split at hstep
    · cases hstep
      exact h.same ⟨rfl, rfl⟩
    · cases hstep

theorem Run.inv {fs : Fs} (hr : Run (fun s q => q.Safe s) (start fs) t) : t.Inv := by
  induction hr with
  | refl => exact inv_start fs
  | step _ hok h ih => exact ih.step hok h

end Session

/-- A request with an id that is not accepted fails before it looks at a file. -/
theorem Fsreq.Uses.refused {q : Fsreq} {id : Word} (hq : q.Uses id) {tab : OpenTab}
    (h : tabLookup id tab = .err .inval tab) (mem : Bool) (envid : Word) (s : Fs)
    (oFile : Nat → Option Nat) :
    q.serve mem envid ⟨s, tab, oFile⟩ = .err .inval ⟨s, tab, oFile⟩ := by
  have hlookup : lookupFile envid id ⟨s, tab, oFile⟩ = .err .inval ⟨s, tab, oFile⟩ := by
    rw [lookupFile]
    refine Prog.bind_err ?_
    unfold onTab openLookup Prog.zoom
    rw [h]
  cases q with
  | map fileid offset =>
    obtain rfl := hq
    exact Prog.bind_err hlookup
  | setSize fileid size =>
    obtain rfl := hq
    exact Prog.bind_err hlookup
  | _ => exact hq.elim

/-- **A handle never leads to a file that was created after its own file had been removed**, in every run
in which no file is removed while the server accepts a file id for it, no request carries an id that leads
out of `opentab`, and the ids do not run out. -/
theorem handle_keeps_file {fs : Fs} {t : Session}
    (hr : Session.Run (fun s q => q.Safe s) (.start fs) t) {id : Word} {f d g : Nat} {v : Fs}
    (hlog : List.Sublist [.opened id f, .removed d v, .created g] t.log) (hf : f ∈ v.Within d)
    {q : Fsreq} (hq : q.Uses id) (hsafe : q.Safe t.serv) (mem : Bool) (envid : Word) :
    t.serv.Spares mem envid q g := by
  have hinv := hr.inv
  have hsub : List.Sublist [.opened id f, .removed d v] t.log :=
    List.Sublist.trans (by simp) hlog
  have hacc : ¬t.Accepts id := fun hacc =>
    (hinv.kept id f (hlog.subset (by simp)) hacc).2 d v hsub hf
  have heven : id.toNat % 2 = 0 := by
    cases q with
    | map fileid offset => obtain rfl := hq; exact hsafe
    | setSize fileid size => obtain rfl := hq; exact hsafe
    | _ => exact hq.elim
  have hlookup : tabLookup id t.serv.tab = .err .inval t.serv.tab := by
    rw [tabLookup_even _ heven, if_pos]
    by_contra hcon
    exact hacc ⟨not_not.mp (not_or.mp hcon).2, (not_or.mp hcon).1⟩
  have hserve : ∀ s, q.serve mem envid ⟨s, t.serv.tab, t.serv.oFile⟩ =
      .err .inval ⟨s, t.serv.tab, t.serv.oFile⟩ := fun s => hq.refused hlookup mem envid s _
  have hself : q.serve mem envid t.serv = .err .inval t.serv := hserve t.serv.fs
  refine ⟨fun s hs => ?_, fun s hs a _ => ?_, fun p => ?_⟩
  · rw [hself, hserve s]
    exact ⟨rfl, hs, rfl, rfl⟩
  · rw [hself] at hs
    cases hs
    rfl
  · rw [hself]
    simp

/-! ## Runs on the small disk -/

/-- A test of `Fsreq.Safe` for states in which no client has the page of slot 0. -/
def Fsreq.safeb (s : Serv) : Fsreq → Bool
  | .open _ _ => (List.range maxopen).all fun i =>
      (s.tab.opentab i).oFileid.toNat + maxfs * maxopen < 2 ^ 32
  | .map fileid _ => fileid.toNat % maxfs = 0
  | .setSize fileid _ => fileid.toNat % maxfs = 0
  | .close fileid => fileid.toNat % maxfs = 0
  | .dirty fileid _ => fileid.toNat % maxfs = 0
  | .remove _ => s.tab.pageref (s.tab.opentab 0).oFf = 1
  | .sync => true

theorem Fsreq.safe_of_safeb {s : Serv} {q : Fsreq} (h : q.safeb s = true) : q.Safe s := by
  cases q with
  | «open» path omode =>
    intro i hi
    simpa using List.all_eq_true.mp h i (List.mem_range.mpr hi)
  | remove path =>
    intro d _ envid id i g hlookup
    have hone : s.tab.pageref (s.tab.opentab 0).oFf = 1 := of_decide_eq_true h
    rw [openLookup] at hlookup
    rcases Nat.mod_two_eq_zero_or_one id.toNat with heven | hodd
    · rw [tabLookup_even _ heven, if_pos (.inl hone)] at hlookup
      cases hlookup
    · rw [tabLookup_odd _ hodd] at hlookup
      cases hlookup
  | map fileid offset => simpa [safeb, Safe] using h
  | setSize fileid size => simpa [safeb, Safe] using h
  | close fileid => simpa [safeb, Safe] using h
  | dirty fileid offset => simpa [safeb, Safe] using h
  | sync => trivial

/-- The requests among the steps pass the test. -/
def Act.safeb (t : Session) : Act → Bool
  | .serve _ _ q => q.safeb t.serv
  | _ => true

theorem Session.Run.of_run {ok : Serv → Fsreq → Prop} (test : Session → Act → Bool)
    (htest : ∀ t mem envid q, test t (.serve mem envid q) = true → ok t.serv q) {as : List Act}
    {s t u : Session} (hr : Session.Run ok s t)
    (h : run (guarded (fun t a => test t a = true) Session.step) t as = some u) :
    Session.Run ok s u := by
  refine run_invariant ?_ hr h
  intro t a u hr hstep
  obtain ⟨hok, hstep⟩ := of_guarded hstep
  refine hr.step (fun mem envid q ha => htest t mem envid q ?_) hstep
  rwa [ha] at hok

/-- The path `/root1/n`. -/
def pathN : List Byte := [0x2f, 0x72, 0x6f, 0x6f, 0x74, 0x31, 0x2f, 0x6e]

/-- The log of a session that has opened and removed `f` and then created `f` again. -/
def Session.reused (t : Session) (id : Word) (f : Nat) : Bool :=
  match t.log with
  | [.opened id' f', .removed d _, .created g, .opened _ _] => id' = id ∧ f' = f ∧ d = f ∧ g = f
  | _ => false

theorem Session.sublist_of_reused {t : Session} {id : Word} {f : Nat} (h : t.reused id f = true) :
    ∃ v, List.Sublist [.opened id f, .removed f v, .created f] t.log := by
  unfold Session.reused at h
  split at h
  next id' f' d v g id'' f'' hlog =>
    obtain ⟨rfl, rfl, rfl, rfl⟩ := of_decide_eq_true h
    exact ⟨v, hlog ▸ by simp⟩
  next => cases h

/-- The client closes `a` before it is removed; the file `n` then gets the place of `a`. -/
theorem handle_keeps_file_closed : ∃ t v,
    Session.Run (fun s q => q.Safe s) (.start smallFs) t ∧
      List.Sublist [.opened 2048 (fileIn 3 0), .removed (fileIn 3 0) v, .created (fileIn 3 0)] t.log ∧
        fileIn 3 0 ∈ v.Within (fileIn 3 0) ∧
          t.serv.Spares true 0 (.map 2048 0) (fileIn 3 0) := by
  obtain ⟨t, hrun, htest⟩ := exists_of_run
    (guarded (fun t a => Act.safeb t a = true) Session.step) (.start smallFs)
    [.serve true 0 (.open pathA 0), .clients 0 1, .serve true 0 (.remove pathA),
      .serve true 0 (.open pathN oCreat)]
    (fun t => t.reused 2048 (fileIn 3 0)) (by decide +kernel)
  have hr : Session.Run (fun s q => q.Safe s) (.start smallFs) t :=
    Session.Run.of_run Act.safeb (fun _ _ _ _ h => Fsreq.safe_of_safeb h) .refl hrun
  obtain ⟨v, hlog⟩ := Session.sublist_of_reused htest
  have hv : fileIn 3 0 ∈ v.Within (fileIn 3 0) := Relation.ReflTransGen.refl
  have hq : (Fsreq.map 2048 0).Uses 2048 := rfl
  have hsafe : (Fsreq.map 2048 0).Safe t.serv := show 2048 % 2 = 0 by decide
  exact ⟨t, v, hr, hlog, hv, handle_keeps_file hr hlog hv hq hsafe true 0⟩

/-- The client still has `a` open when it is removed, and sets the size of `n`. -/
theorem handle_reaches_new_file : ∃ t v, smallFs.Consistent ∧
    Session.Run (fun _ _ => True) (.start smallFs) t ∧
      List.Sublist [.opened 2048 (fileIn 3 0), .removed (fileIn 3 0) v, .created (fileIn 3 0)] t.log ∧
        fileIn 3 0 ∈ v.Within (fileIn 3 0) ∧
          ¬t.serv.Spares true 0 (.setSize 2048 4096) (fileIn 3 0) := by
  obtain ⟨t, hrun, htest⟩ := exists_of_run (guarded (fun _ _ => true = true) Session.step) (.start smallFs)
    [.serve true 0 (.open pathA 0), .serve true 0 (.remove pathA), .serve true 0 (.open pathN oCreat)]
    (fun t => t.reused 2048 (fileIn 3 0) ∧ t.serv.fs.look (fSize (fileIn 3 0)) = 0 ∧
      (((Fsreq.setSize 2048 4096).serve true 0 t.serv).state?.any fun u =>
        u.fs.look (fSize (fileIn 3 0)) = 4096))
    (by decide +kernel)
  obtain ⟨hreused, hzero, hsize⟩ := of_decide_eq_true htest
  obtain ⟨v, hlog⟩ := Session.sublist_of_reused hreused
  have hr : Session.Run (fun _ _ => True) (.start smallFs) t :=
    Session.Run.of_run (fun _ _ => true) (fun _ _ _ _ _ => trivial) .refl hrun
  refine ⟨t, v, smallFs_own.consistent, hr, hlog, Relation.ReflTransGen.refl, fun hspares => ?_⟩
  cases hu : ((Fsreq.setSize 2048 4096).serve true 0 t.serv).state? with
  | none =>
    rw [hu] at hsize
    cases hsize
  | some u =>
    rw [hu] at hsize
    have hsize : u.fs.look (fSize (fileIn 3 0)) = 4096 := of_decide_eq_true hsize
    have heq := hspares.unchanged u hu (fSize (fileIn 3 0)) (.inl rfl)
    rw [hsize, hzero] at heq
    exact absurd heq (by decide)

end Mos
