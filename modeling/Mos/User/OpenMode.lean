import Mos.User.File

/-!
# The mode a file is opened with

`serve_open` and `fatserve_open` copy the whole mode of the request into the descriptor, with the bits of
`O_CREAT` and `O_MKDIR`. `read` and `write` compare the mode with `O_WRONLY` and with `O_RDONLY` under the
mask `O_ACCMODE`, and this mask has these two bits as well. So a file that is opened with `O_CREAT` or with
`O_MKDIR` can be read and written whatever its access bits are.
-/

namespace Mos

open Lib Prog Function

variable {s t : FileClient} {p q : Page} {i j k : Nat} {m size oldsize fileid buf n offset w : Word}

/-! ## Operations on a descriptor -/

/-- A call of the library for one descriptor. -/
inductive FileOp where
  | read (buf n : Word)
  | write (buf n : Word)
  | seek (offset : Word)
  | truncate (size : Word)

/-- What the call does. -/
def FileOp.exec (i : Nat) : FileOp → FileM Unit
  | .read buf n => do
    let _ ← fdRead i buf n
  | .write buf n => do
    let _ ← fdWrite i buf n
  | .seek offset => fdSeek i offset
  | .truncate size => ftruncate i size

/-- The client after a call that comes back, with or without an error. -/
def FileOp.step (i : Nat) (s : FileClient) (op : FileOp) : Option FileClient := (op.exec i s).state?

namespace FileClient

/-- Descriptor `i` is the one that had the page `p`: only its cursor and its size may have changed. -/
def Holds (s : FileClient) (i : Nat) (p : Page) : Prop :=
  ∃ q, s.OpenFd i q ∧ ∀ k, k ≠ 1 → k ≠ sizeAt p → q k = p k

theorem OpenFd.holds (h : s.OpenFd i p) : s.Holds i p := ⟨p, h, fun _ _ _ => rfl⟩

theorem Holds.congr (h : s.Holds i p) (hfd : t.fd = s.fd) : t.Holds i p := by
  obtain ⟨q, hq, hsame⟩ := h
  exact ⟨q, ⟨hq.lt, by rw [hfd]; exact hq.fd, hq.device, hq.disk⟩, hsame⟩

theorem Holds.setFd (h : s.Holds i p) (hk : k = 1 ∨ k = sizeAt p) (w : Word) :
    (s.setFd i k w).Holds i p := by
  obtain ⟨q, hq, hsame⟩ := h
  have hsize := sizeAt_cases p
  refine ⟨update q k w, ⟨hq.lt, fd_setFd hq.fd k w, ?_, ?_⟩, fun l h1 h2 => ?_⟩
  · rw [update_of_ne (by omega)]
    exact hq.device
  · rw [update_of_ne (by omega)]
    exact hq.disk
  · rw [update_of_ne (by rintro rfl; rcases hk with h | h <;> contradiction)]
    exact hsame l h1 h2

end FileClient

/-- The function keeps the descriptor. -/
def KeepsFd {α : Type} (m : FileM α) : Prop :=
  ∀ i p, Within (fun s : FileClient => s.Holds i p) (fun _ => True) m

theorem LeavesFds.keeps {α : Type} {m : FileM α} (h : LeavesFds m) : KeepsFd m := by
  intro i p s hs
  exact (h s.fd s rfl).mono (fun _ _ ht => hs.congr ht) (fun _ _ ht => hs.congr ht) (fun _ h => h.elim)

theorem fdLookup_keeps (fdnum : Nat) : KeepsFd (fdLookup fdnum) :=
  fun _ _ => within_get fun _ _ => within_ite (within_pure _) (within_fail _)

theorem devLookup_keeps (devId : Word) : KeepsFd (devLookup devId) :=
  fun _ _ => within_ite (within_pure _) (within_ite (within_halt trivial) (within_fail _))

theorem getInfoFromFd_keeps (p : Page) : KeepsFd (getInfoFromFd p) :=
  fun _ _ => within_ite (within_pure _) (within_ite (within_pure _) (within_halt trivial))

theorem unmapBody_keeps (fdnum j : Nat) : KeepsFd (unmapBody fdnum j) := by
  intro i p
  have hunmap : Within (fun s : FileClient => s.Holds i p) (fun _ => True) (unmapPage (dataVa fdnum j)) :=
    within_ite (within_fail _) (within_modify fun _ h => h.congr rfl)
  refine within_bind (within_attempt hunmap) fun r => ?_
  cases r with
  | ok _ => exact within_pure ()
  | error e => exact within_halt trivial

/-! ## What a call keeps -/

/-- `setInfoToFd` changes the size of the descriptor, and nothing else. -/
theorem setInfoToFd_keeps (i : Nat) (size : Word) (p : Page) :
    Within (fun s : FileClient => s.Holds i p) (fun _ => True) (setInfoToFd i size) := by
  intro s hs
  obtain ⟨q, hq, hsame⟩ := hs
  have hsize : sizeAt q = sizeAt p := by
    have hne : (3 : Nat) ≠ sizeAt p := by rcases sizeAt_cases p with h | h <;> omega
    unfold sizeAt
    rw [hsame 3 (by decide) hne]
  rw [hq.setInfo]
  exact FileClient.Holds.setFd ⟨q, hq, hsame⟩ (.inr hsize) _

theorem ftruncate_keeps (i : Nat) (size : Word) (p : Page) :
    Within (fun s : FileClient => s.Holds i p) (fun _ => True) (ftruncate i size) := by
  unfold ftruncate
  refine within_ite (within_fail _) (within_bind (fdLookup_keeps i i p) fun _ => ?_)
  refine within_get fun s _ => within_ite (within_fail _) ?_
  refine within_bind (getInfoFromFd_keeps _ i p) fun r => within_bind (setInfoToFd_keeps i size p) fun _ => ?_
  refine within_bind ((fsipcSetSize_leaves _ _).keeps i p) fun _ => ?_
  exact within_bind (within_loop (fun j => (mapBody_leaves i _ _ j).keeps i p) _ _) fun _ =>
    within_loop (fun j => unmapBody_keeps i j i p) _ _

theorem advance_keeps (i : Nat) (r : Word) (p : Page) :
    Within (fun s : FileClient => s.Holds i p) (fun _ => True) (advance i r) :=
  within_get fun _ hs => within_when (within_put (hs.setFd (.inl rfl) _))

theorem fdRead_keeps (i : Nat) (buf n : Word) (p : Page) :
    Within (fun s : FileClient => s.Holds i p) (fun _ => True) (fdRead i buf n) := by
  have hread (offset : Word) :
      Within (fun s : FileClient => s.Holds i p) (fun _ => True) (fileReadFd i buf n offset) :=
    within_get fun _ _ => within_bind (getInfoFromFd_keeps _ i p) fun _ =>
      within_ite (within_pure _) (within_pure _)
  refine within_bind (fdLookup_keeps i i p) fun _ => within_get fun s _ => ?_
  refine within_bind (devLookup_keeps _ i p) fun _ => within_ite (within_fail _) ?_
  exact within_bind (hread _) fun r => within_bind (advance_keeps i r.1 p) fun _ => within_pure r

theorem fdWrite_keeps (i : Nat) (buf n : Word) (p : Page) :
    Within (fun s : FileClient => s.Holds i p) (fun _ => True) (fdWrite i buf n) := by
  have hwrite (offset : Word) :
      Within (fun s : FileClient => s.Holds i p) (fun _ => True) (fileWriteFd i buf n offset) :=
    within_get fun _ _ => within_bind (getInfoFromFd_keeps _ i p) fun _ =>
      within_ite (within_fail _) <| within_bind (within_when (ftruncate_keeps i _ p)) fun _ =>
        within_pure _
  refine within_bind (fdLookup_keeps i i p) fun _ => within_get fun s _ => ?_
  refine within_bind (devLookup_keeps _ i p) fun _ => within_ite (within_fail _) ?_
  exact within_bind (hwrite _) fun r => within_bind (advance_keeps i r.1 p) fun _ => within_pure r

/-- One call keeps the descriptor. -/
theorem FileOp.exec_keeps (op : FileOp) (i : Nat) (p : Page) :
    Within (fun s : FileClient => s.Holds i p) (fun _ => True) (op.exec i) := by
  cases op with
  | read buf n => exact within_bind (fdRead_keeps i buf n p) fun _ => within_pure ()
  | write buf n => exact within_bind (fdWrite_keeps i buf n p) fun _ => within_pure ()
  | seek offset =>
    exact within_bind (fdLookup_keeps i i p) fun _ => within_modify fun _ h => h.setFd (.inl rfl) _
  | truncate size => exact ftruncate_keeps i size p

/-- **After any sequence of calls** the descriptor differs from the page that the server has filled in its
cursor and its size only. -/
theorem holds_run {ops : List FileOp} (h : s.Holds i p) (hrun : run (FileOp.step i) s ops = some t) :
    t.Holds i p := by
  have hstep : ∀ (u : FileClient) (op : FileOp) (v : FileClient), u.Holds i p →
      FileOp.step i u op = some v → v.Holds i p :=
    fun u op v hu hv => (op.exec_keeps i p u hu).of_state? hv
  exact run_invariant hstep h hrun

/-! ## The mode -/

/-- The mode is enforced: a file that is open for reading only cannot be written, and one that is open for
writing only cannot be read. -/
def FileClient.EnforcesMode (s : FileClient) (i : Nat) (m : Word) : Prop :=
  (m &&& 3 = oRdonly → ∀ buf n, fdWrite i buf n s = .err .inval s) ∧
    (m &&& 3 = oWronly → ∀ buf n, fdRead i buf n s = .err .inval s)

/-- A file server has filled the page of descriptor `i` for a file that is opened with the mode `m`. -/
def FileClient.OpenedWith (s : FileClient) (i : Nat) (m : Word) : Prop :=
  i < maxfd ∧ ∃ fileid f, s.fd i = some (serveOpenFd fileid m f) ∨ s.fd i = some (fatserveOpenFd fileid m f)

theorem OpenedWith.openFd (h : s.OpenedWith i m) : ∃ p, s.OpenFd i p ∧ p 2 = m := by
  obtain ⟨hi, fileid, f, hfd | hfd⟩ := h
  · exact ⟨_, ⟨hi, hfd, rfl, .inl rfl⟩, rfl⟩
  · exact ⟨_, ⟨hi, hfd, rfl, .inr rfl⟩, rfl⟩

theorem devLookup_file (h : s.OpenFd i p) (t : FileClient) : devLookup (p 0) t = .ret () t := by
  rw [devLookup, if_pos h.device]
  rfl

/-- Under the mask the mode is its access bits if it has no creation flags. -/
theorem and_accmode (h : m &&& (oCreat ||| oMkdir) = 0) : m &&& oAccmode = m &&& 3 := by
  have hmask : oAccmode = (oCreat ||| oMkdir) ||| 3 := by decide
  rw [hmask, BitVec.and_or_distrib_left, h]
  exact BitVec.zero_or

/-- With a creation flag it is none of the modes that `read` and `write` refuse. -/
theorem and_accmode_ne (h : m &&& (oCreat ||| oMkdir) ≠ 0) :
    m &&& oAccmode ≠ oRdonly ∧ m &&& oAccmode ≠ oWronly := by
  have hkeep : (m &&& oAccmode) &&& (oCreat ||| oMkdir) = m &&& (oCreat ||| oMkdir) := by
    rw [BitVec.and_assoc]
    rfl
  constructor
  · intro heq
    rw [heq] at hkeep
    exact h hkeep.symm
  · intro heq
    rw [heq] at hkeep
    exact h hkeep.symm

theorem fdWrite_refused (h : s.OpenFd i p) (hm : p 2 &&& oAccmode = oRdonly) (buf n : Word) :
    fdWrite i buf n s = .err .inval s := by
  rw [fdWrite, bind_ret h.lookup, get_bind, h.page, bind_ret (devLookup_file h s), if_pos hm]
  rfl

theorem fdRead_refused (h : s.OpenFd i p) (hm : p 2 &&& oAccmode = oWronly) (buf n : Word) :
    fdRead i buf n s = .err .inval s := by
  rw [fdRead, bind_ret h.lookup, get_bind, h.page, bind_ret (devLookup_file h s), if_pos hm]
  rfl

theorem fdWrite_passes (h : s.OpenFd i p) (hm : p 2 &&& oAccmode ≠ oRdonly) (buf n : Word) :
    fdWrite i buf n s = (do
      let r ← fileWriteFd i buf n (p 1)
      advance i r.1
      return r : FileM (Word × Copies)) s := by
  rw [fdWrite, bind_ret h.lookup, get_bind, h.page, bind_ret (devLookup_file h s), if_neg hm]

theorem fdRead_passes (h : s.OpenFd i p) (hm : p 2 &&& oAccmode ≠ oWronly) (buf n : Word) :
    fdRead i buf n s = (do
      let r ← fileReadFd i buf n (p 1)
      advance i r.1
      return r : FileM (Word × Copies)) s := by
  rw [fdRead, bind_ret h.lookup, get_bind, h.page, bind_ret (devLookup_file h s), if_neg hm]

theorem advance_returns (i : Nat) (r : Word) (s : FileClient) : ∃ t, advance i r s = .ret () t := by
  unfold advance
  rw [get_bind]
  by_cases h : 0 < r.toInt
  · rw [when_pos h]
    exact ⟨_, rfl⟩
  · rw [when_neg h]
    exact ⟨_, rfl⟩

/-- A write that is not refused for its mode, and that needs no more room, does not fail. -/
theorem fdWrite_returns (h : s.OpenFd i p) (hm : p 2 &&& oAccmode ≠ oRdonly)
    (hsize : (p 1 + n).toNat ≤ maxfilesize) (hroom : ¬p 1 + n > fileSize p) :
    fdWrite i buf n s ≠ .err .inval s := by
  have hwrite : fileWriteFd i buf n (p 1) s = .ret (n, userMemcpy (index2data i + p 1) buf n) s := by
    rw [fileWriteFd, get_bind, h.page, bind_ret (h.getInfo s)]
    simp only [if_neg (Nat.not_lt.mpr hsize), when_neg hroom]
    rfl
  obtain ⟨t, ht⟩ := advance_returns i n s
  rw [fdWrite_passes h hm, bind_ret hwrite, bind_ret ht]
  simp

theorem fdRead_returns (h : s.OpenFd i p) (hm : p 2 &&& oAccmode ≠ oWronly) :
    fdRead i buf n s ≠ .err .inval s := by
  obtain ⟨t, ht⟩ := advance_returns i (fileRead (fileSize p) n (p 1)) s
  rw [fdRead_passes h hm, bind_ret (fileReadFd_eq h _ _ _), bind_ret ht]
  simp

/-- Without creation flags the mode is enforced, whatever has been done with the descriptor. -/
theorem enforcesMode_holds (h : s.Holds i p) (hflags : p 2 &&& 3 = oRdonly ∨ p 2 &&& 3 = oWronly →
    p 2 &&& (oCreat ||| oMkdir) = 0) : s.EnforcesMode i (p 2) := by
  obtain ⟨q, hq, hsame⟩ := h
  have hne : (2 : Nat) ≠ sizeAt p := by rcases sizeAt_cases p with h | h <;> omega
  have hmode : q 2 = p 2 := hsame 2 (by decide) hne
  constructor
  · intro hm buf n
    exact fdWrite_refused hq (by rw [hmode, and_accmode (hflags (.inl hm)), hm]) buf n
  · intro hm buf n
    exact fdRead_refused hq (by rw [hmode, and_accmode (hflags (.inr hm)), hm]) buf n

/-- A file of one page, opened with the mode `m`. -/
def openedFd (m : Word) : Page := serveOpenFd 2048 m fun k => if k = 32 then 4096 else 0

/-- The client that has opened it. -/
def openedClient (m : Word) : FileClient :=
  { pageClient with fd := fun i => if i = 0 then some (openedFd m) else none }

theorem openedClient_openFd (m : Word) : (openedClient m).OpenFd 0 (openedFd m) :=
  ⟨by decide, rfl, rfl, .inl rfl⟩

/-- With a creation flag a file that is open for reading only can be written, and one that is open for writing
only can be read. -/
theorem not_enforcesMode (haccess : m &&& 3 = oRdonly ∨ m &&& 3 = oWronly)
    (hflags : m &&& (oCreat ||| oMkdir) ≠ 0) : ¬(openedClient m).EnforcesMode 0 m := by
  obtain ⟨hrd, hwr⟩ := and_accmode_ne hflags
  have hopen := openedClient_openFd m
  rintro ⟨hwrite, hread⟩
  rcases haccess with hm | hm
  · have hsize : fileSize (openedFd m) = 4096 := rfl
    have hfits : (0 + 1 : Word).toNat ≤ maxfilesize := by decide
    have hroom : ¬(0 + 1 : Word) > fileSize (openedFd m) := by
      rw [hsize]
      decide
    exact fdWrite_returns hopen hrd hfits hroom (hwrite hm utemp 1)
  · exact fdRead_returns hopen hwr (hread hm utemp 1)

/-- **The mode is enforced**, for every descriptor that is opened with the mode `m` and after every sequence of
calls on it, if and only if `m` has neither `O_CREAT` nor `O_MKDIR`, or gives both accesses. -/
theorem mode_enforced_iff (m : Word) :
    (∀ s i ops t, s.OpenedWith i m → run (FileOp.step i) s ops = some t → t.EnforcesMode i m) ↔
      (m &&& 3 = oRdonly ∨ m &&& 3 = oWronly → m &&& (oCreat ||| oMkdir) = 0) := by
  constructor
  · intro hall haccess
    by_contra hflags
    exact not_enforcesMode haccess hflags
      (hall (openedClient m) 0 [] _ ⟨by decide, 2048, _, .inl rfl⟩ rfl)
  · intro hflags s i ops t hopened hrun
    obtain ⟨p, hp, rfl⟩ := OpenedWith.openFd hopened
    exact enforcesMode_holds (holds_run hp.holds hrun) hflags

/-- A file that is opened with `O_WRONLY | O_CREAT` can be read. -/
theorem created_file_readable : ¬∀ m s i ops t, FileClient.OpenedWith s i m →
    run (FileOp.step i) s ops = some t → t.EnforcesMode i m := by
  intro hall
  have hrd : (0x0101 : Word) &&& 3 = oWronly := by decide
  have hfl : (0x0101 : Word) &&& (oCreat ||| oMkdir) ≠ 0 := by decide
  exact not_enforcesMode (.inr hrd) hfl
    (hall 0x0101 (openedClient 0x0101) 0 [] _ ⟨by decide, 2048, _, .inl rfl⟩ rfl)

end Mos
