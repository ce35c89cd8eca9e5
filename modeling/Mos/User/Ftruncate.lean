import Mos.User.FileStat

/-!
# `ftruncate` that fails

`ftruncate` stores the new size in the descriptor before it asks the server for it. When the server refuses the
size, or later a page, `ftruncate` returns the error; it may ask the server to take the old size back, but the
descriptor keeps the new one.
-/

namespace Mos

open Lib Prog Function

variable {s t : FileClient} {p : Page} {i j k n : Nat} {size oldsize fileid : Word}

/-- The pages of the window of descriptor `i` that are mapped are those of a file of `size` bytes. -/
def FileClient.WindowIs (s : FileClient) (i : Nat) (size : Word) : Prop :=
  ∀ j < 1024, s.pages (dataPage i j) = true ↔ j < roundPages size

/-- If `ftruncate` returns an error, the size in the descriptor, the size in the server's entry and the pages of
the window are what they were. -/
def FileClient.TruncateClean (s : FileClient) (i : Nat) (p : Page) (size : Word) : Prop :=
  (ftruncate i size s).Sat (fun _ _ => True)
    (fun _ t => fileSize (t.page i) = fileSize p ∧ t.served (p 4) = s.served (p 4) ∧
      t.WindowIs i (fileSize p))
    (fun _ => True)

/-- The server refuses the size: what is left has the new size in the descriptor, and is the same elsewhere. -/
theorem ftruncate_refused {e : Err} (h : s.OpenFd i p) (hsize : size.toNat ≤ maxfilesize)
    (hr : s.replies 0 = some e) : ftruncate i size s = .err e
      { s.setFd i (sizeAt p) size with replies := fun n => s.replies (n + 1) } := by
  have hr' : (s.setFd i (sizeAt p) size).replies 0 = some e := hr
  rw [ftruncate_eq h hsize, bind_err (fsipcSetSize_refused hr')]
  rfl

/-- If a request fails and the size was to change, the descriptor has the wrong size. -/
theorem not_truncateClean (h : s.OpenFd i p) (hsize : size.toNat ≤ maxfilesize) (hne : size ≠ fileSize p)
    (hg : ¬s.Granted (requests (fileSize p) size)) : ¬s.TruncateClean i p size := by
  intro hclean
  unfold FileClient.TruncateClean at hclean
  have hrun := ftruncate_sat h hsize
  cases hresult : ftruncate i size s with
  | ret a t =>
    rw [hresult] at hrun
    exact hg hrun.2
  | err e t =>
    rw [hresult] at hrun hclean
    have hpage : t.page i = Page.setSize p size := by
      unfold FileClient.page
      rw [hrun.1]
      rfl
    rw [Outcome.sat_err, hpage, fileSize_setSize] at hclean
    exact hne hclean.1
  | halt q =>
    rw [hresult] at hrun
    exact hg hrun.2

/-- A call that does not change the size makes one request. If it fails, nothing has changed. -/
theorem truncateClean_same (h : s.OpenFd i p) (hw : s.WindowIs i (fileSize p))
    (hsize : (fileSize p).toNat ≤ maxfilesize) (hg : ¬s.Granted (requests (fileSize p) (fileSize p))) :
    s.TruncateClean i p (fileSize p) := by
  unfold FileClient.TruncateClean
  cases hr : s.replies 0 with
  | none =>
    refine absurd (fun m hm => ?_) hg
    have hm0 : m = 0 := by
      unfold requests at hm
      omega
    rw [hm0]
    exact hr
  | some e =>
    have hfd : (s.setFd i (sizeAt p) (fileSize p)).fd i = some (Page.setSize p (fileSize p)) :=
      FileClient.fd_setFd h.fd _ _
    have hpage : FileClient.page { s.setFd i (sizeAt p) (fileSize p) with
        replies := fun n => s.replies (n + 1) } i = Page.setSize p (fileSize p) := by
      unfold FileClient.page
      rw [hfd]
      rfl
    rw [ftruncate_refused h hsize hr, Outcome.sat_err, hpage, fileSize_setSize]
    exact ⟨rfl, rfl, hw⟩

/-- **A failed `ftruncate` changes nothing** if and only if it is not asked to change the size, or no request
fails. -/
theorem truncate_clean_iff (h : s.OpenFd i p) (hw : s.WindowIs i (fileSize p))
    (hsize : size.toNat ≤ maxfilesize) :
    s.TruncateClean i p size ↔ size = fileSize p ∨ s.Granted (requests (fileSize p) size) := by
  by_cases hg : s.Granted (requests (fileSize p) size)
  · refine iff_of_true ?_ (.inr hg)
    exact (ftruncate_sat h hsize).mono (fun _ _ _ => trivial) (fun _ _ ht => absurd hg ht.2)
      (fun _ _ => trivial)
  · rw [or_iff_left hg]
    constructor
    · intro hclean
      by_contra hne
      exact not_truncateClean h hsize hne hg hclean
    · rintro rfl
      exact truncateClean_same h hw hsize hg

/-- The server of the file of one page has room for the size, and no block for the second page. -/
def fullClient : FileClient :=
  { pageClient with replies := fun n => if n = 1 then some .noDisk else none }

theorem fullClient_open : fullClient.OpenFd 0 pageFd := ⟨by decide, rfl, by decide, .inl (by decide)⟩

theorem fullClient_window : fullClient.WindowIs 0 (fileSize pageFd) := by
  have hsize : roundPages (fileSize pageFd) = 1 := by decide
  intro j hj
  rw [hsize, dataPage_eq (by decide) hj]
  show decide (0x60000 + 0 * 1024 + j = 0x60000) = true ↔ j < 1
  rw [decide_eq_true_eq]
  omega

theorem truncate_clean_iff_full : fullClient.TruncateClean 0 pageFd 8192 ↔
    8192 = fileSize pageFd ∨ fullClient.Granted (requests (fileSize pageFd) 8192) :=
  truncate_clean_iff fullClient_open fullClient_window (by decide)

/-- `ftruncate(0, 8192)` fails for want of a block, and the descriptor has the size 8192. -/
theorem failed_truncate_keeps_size : ¬∀ (s : FileClient) (i : Nat) (p : Page) (size : Word), s.OpenFd i p →
    s.WindowIs i (fileSize p) → size.toNat ≤ maxfilesize → s.TruncateClean i p size := by
  intro hall
  have hreq : requests (fileSize pageFd) 8192 = 2 := by decide
  have hne : (8192 : Word) ≠ fileSize pageFd := by decide
  refine not_truncateClean fullClient_open (by decide) hne ?_
    (hall fullClient 0 pageFd 8192 fullClient_open fullClient_window (by decide))
  rw [hreq]
  intro hg
  exact absurd (hg 1 (by decide)) (by decide)

end Mos
