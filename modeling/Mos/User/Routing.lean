import Mathlib.Data.List.GetD
import Mos.Lib.Prog
import Mos.Fs.OpenTable

/-!
# Which server a path belongs to

`fsipc_open` and `fsipc_remove` of `user/lib/fsipc.c` ask `getFsNumber` which file server a path belongs to. It
copies the path to a local array of 20 bytes to look at its first six, and for a path of no server it returns
an error code, which its callers use as an index of `envs`.

A path is the list of its bytes, without the zero byte at its end. The functions stop in this model where they
access something outside of an array.
-/

namespace Mos

open Lib Prog Function

/-! ## Strings in arrays -/

/-- `MAXPATHLEN`. -/
def maxpathlen : Nat := 1024

/-- A request with a path: `FSREQ_OPEN` or `FSREQ_REMOVE`. -/
inductive PathRequest where
  | opens (path : List Byte) (omode : Word)
  | removes (path : List Byte)

/-- What the library sends, and what it gets back. -/
structure Requests where
  /-- The requests and the servers they were sent to, by their indices in `envs`, the latest last. -/
  sent : List (Nat × PathRequest)
  /-- The value of the next reply. -/
  reply : Word
  /-- What is in the local variables of a function before they are set. -/
  stack : Nat → Byte

/-- An access outside of an array of `size` elements. -/
inductive OutOfArray where
  | at (size : Nat)
deriving DecidableEq

/-- Functions of `user/lib/fsipc.c`. -/
abbrev RouteM := Prog Requests Err OutOfArray

/-- `strcpy(dst + k, src)` into an array of `size` bytes: what is in the array afterwards. -/
def strcpyTo (size : Nat) (dst : Nat → Byte) (k : Nat) : List Byte → RouteM (Nat → Byte)
  | [] => do
    Prog.assert (k < size) (.at size)
    return update dst k 0
  | c :: cs => do
    Prog.assert (k < size) (.at size)
    strcpyTo size (update dst k c) (k + 1) cs

/-- `strcmp(a + k, str) == 0`. -/
def strcmpEq (a : Nat → Byte) (k : Nat) : List Byte → Bool
  | [] => a k = 0
  | c :: cs => a k = c && strcmpEq a (k + 1) cs

/-! ## `user/lib/fsipc.c` -/

/-- `"/root1"`. -/
def normalRoot : List Byte := [0x2f, 0x72, 0x6f, 0x6f, 0x74, 0x31]
/-- `"/root2"`. -/
def fat32Root : List Byte := [0x2f, 0x72, 0x6f, 0x6f, 0x74, 0x32]

/-- `getFsNumber(path)`, as the `u_int` that it is passed on as; the error code is `-E_NOT_FOUND`. -/
def getFsNumber (path : List Byte) : RouteM Word := do
  let s ← Prog.get
  let tmpName ← strcpyTo 20 s.stack 0 path
  let tmpName := update tmpName 6 0
  if strcmpEq tmpName 0 normalRoot then return BitVec.ofNat 32 normalFsNumber
  else if strcmpEq tmpName 0 fat32Root then return BitVec.ofNat 32 fat32FsNumber
  else return -10

/-- `fsipc(type, fsreq, dstva, perm, whichfs)`: the request goes to `envs[whichfs]`, one of the 1024 envs. -/
def fsipcTo (req : PathRequest) (whichfs : Word) : RouteM Word := do
  Prog.assert (whichfs.toNat < 1024) (.at 1024)
  Prog.modify fun s => { s with sent := s.sent ++ [(whichfs.toNat, req)] }
  let s ← Prog.get
  return s.reply

/-- `strcpy(req->req_path, path)`; what is in the request page before does not matter. -/
def copyPath (path : List Byte) : RouteM Unit := do
  let _ ← strcpyTo maxpathlen (fun _ => 0) 0 path

/-- `fsipc_open(path, omode, fd)`. -/
def fsipcOpen (path : List Byte) (omode : Word) : RouteM Word :=
  if path.length ≥ maxpathlen then Prog.fail .badPath
  else do
    copyPath path
    let whichfs ← getFsNumber path
    fsipcTo (.opens path omode) whichfs

/-- `fsipc_remove(path)`. -/
def fsipcRemove (path : List Byte) : RouteM Word :=
  if path.length = 0 ∨ path.length > maxpathlen then Prog.fail .badPath
  else do
    copyPath path
    let whichfs ← getFsNumber path
    fsipcTo (.removes path) whichfs

/-- The path is routed to an existing server or rejected: the request goes to `NORMAL_FS_NUMBER` exactly if the
path begins with `/root1`, to `FAT32_FS_NUMBER` exactly if it begins with `/root2`, and otherwise nothing is
sent and the function returns an error. No access is outside of an array. -/
def Routes (m : RouteM Word) (req : PathRequest) (path : List Byte) : Prop :=
  ∀ s : Requests, (m s).Sat
    (fun _ t => (t.sent = s.sent ++ [(normalFsNumber, req)] ∧ normalRoot <+: path) ∨
      (t.sent = s.sent ++ [(fat32FsNumber, req)] ∧ fat32Root <+: path))
    (fun _ t => t.sent = s.sent ∧ ¬normalRoot <+: path ∧ ¬fat32Root <+: path)
    (fun _ => False)

/-- The path begins with the name of a server's root directory. -/
def HasRoot (path : List Byte) : Prop := normalRoot <+: path ∨ fat32Root <+: path

variable {path name l : List Byte} {s : Requests} {size k n : Nat} {dst a : Nat → Byte} {omode : Word}
  {req : PathRequest}

/-! ## Copies and comparisons -/

/-- A string that fits is copied, and nothing before it changes. -/
theorem strcpyTo_fits : ∀ (path : List Byte) (dst : Nat → Byte) (k : Nat), k + path.length < size →
    ∃ d, strcpyTo size dst k path s = .ret d s ∧ (∀ j < k, d j = dst j) ∧
      ∀ j ≤ path.length, d (k + j) = path.getD j 0 := by
  intro path
  induction path with
  | nil =>
    intro dst k hk
    refine ⟨update dst k 0, ?_, fun j hj => update_of_ne (Nat.ne_of_lt hj) _ _, fun j hj => ?_⟩
    · rw [strcpyTo, bind_ret (assert_pos (by simpa using hk))]
      rfl
    · have hj0 : j = 0 := by simpa using hj
      rw [hj0]
      exact update_self _ _ _
  | cons c cs ih =>
    intro dst k hk
    rw [List.length_cons] at hk
    obtain ⟨d, hrun, hbefore, hcopied⟩ := ih (update dst k c) (k + 1) (by omega)
    refine ⟨d, ?_, fun j hj => ?_, fun j hj => ?_⟩
    · rw [strcpyTo, bind_ret (assert_pos (by omega))]
      exact hrun
    · rw [hbefore j (by omega), update_of_ne (Nat.ne_of_lt hj)]
    · cases j with
      | zero =>
        rw [Nat.add_zero, hbefore k (by omega)]
        exact update_self _ _ _
      | succ j =>
        rw [List.length_cons] at hj
        rw [Nat.add_comm j 1, ← Nat.add_assoc, hcopied j (by omega), Nat.add_comm 1 j]
        rfl

/-- A string that does not fit is written past the end of the array. -/
theorem strcpyTo_overflows : ∀ (path : List Byte) (dst : Nat → Byte) (k : Nat), size ≤ k + path.length →
    strcpyTo size dst k path s = .halt (.at size) := by
  intro path
  induction path with
  | nil =>
    intro dst k hk
    rw [strcpyTo, bind_halt (assert_neg (by simpa using hk))]
  | cons c cs ih =>
    intro dst k hk
    rw [List.length_cons] at hk
    rw [strcpyTo]
    by_cases hlt : k < size
    · rw [bind_ret (assert_pos hlt)]
      exact ih _ _ (by omega)
    · rw [bind_halt (assert_neg hlt)]

/-- A string is equal to `name` if its bytes are, with the zero byte at the end. -/
theorem strcmpEq_iff : ∀ (name : List Byte) (k : Nat),
    strcmpEq a k name = true ↔ ∀ j ≤ name.length, a (k + j) = name.getD j 0 := by
  intro name
  induction name with
  | nil =>
    intro k
    simp [strcmpEq]
  | cons c cs ih =>
    intro k
    rw [strcmpEq, Bool.and_eq_true, decide_eq_true_eq, ih]
    constructor
    · rintro ⟨hc, hcs⟩ j hj
      cases j with
      | zero => exact hc
      | succ j =>
        have := hcs j (by simpa using hj)
        rwa [Nat.add_assoc, Nat.add_comm 1 j] at this
    · intro hall
      refine ⟨hall 0 (Nat.zero_le _), fun j hj => ?_⟩
      have := hall (j + 1) (by simpa using hj)
      rwa [Nat.add_assoc, Nat.add_comm 1 j]

/-- A string without zero bytes is a prefix if the first bytes are its own. -/
theorem prefix_iff_getD : ∀ {name path : List Byte}, 0 ∉ name →
    (name <+: path ↔ ∀ j < name.length, path.getD j 0 = name.getD j 0) := by
  intro name
  induction name with
  | nil => simp
  | cons c cs ih =>
    intro path h0
    rw [List.mem_cons, not_or] at h0
    cases path with
    | nil =>
      refine iff_of_false (by simp) fun hall => h0.1 ?_
      simpa using hall 0 (by simp)
    | cons d ds =>
      rw [List.cons_prefix_cons, ih h0.2]
      constructor
      · rintro ⟨rfl, hall⟩ j hj
        cases j with
        | zero => rfl
        | succ j => exact hall j (by simpa using hj)
      · intro hall
        exact ⟨(hall 0 (by simp)).symm, fun j hj => hall (j + 1) (by simpa using hj)⟩

/-! ## The number of the server -/

/-- The first six bytes of the copy are compared, whatever was in the array before. -/
theorem strcmpEq_copy {d : Nat → Byte} (hn : name.length = 6) (h0 : 0 ∉ name)
    (hd : ∀ j ≤ path.length, d (0 + j) = path.getD j 0) :
    strcmpEq (update d 6 0) 0 name = true ↔ name <+: path := by
  have hcopy : ∀ j < 6, j ≤ path.length → update d 6 0 (0 + j) = path.getD j 0 := by
    intro j hj hle
    rw [update_of_ne (by omega)]
    exact hd j hle
  rw [strcmpEq_iff, prefix_iff_getD h0, hn]
  constructor
  · intro hall
    -- a path that ends before has a zero byte where `name` has none
    have hlen : 6 ≤ path.length := by
      by_contra hlt
      have hend := hall path.length (by omega)
      rw [hcopy path.length (by omega) (le_refl _), List.getD_eq_default _ _ (le_refl _),
        List.getD_eq_getElem _ _ (by omega)] at hend
      exact h0 (hend ▸ List.getElem_mem _)
    intro j hj
    rw [← hcopy j hj (by omega)]
    exact hall j (by omega)
  · intro hall j hj
    have hlen : name.length ≤ path.length := ((prefix_iff_getD h0).mpr (by rwa [hn])).length_le
    rcases Nat.lt_or_eq_of_le hj with hlt | rfl
    · rw [hcopy j hlt (by omega)]
      exact hall j hlt
    · rw [List.getD_eq_default _ _ (by omega)]
      exact update_self _ _ _

/-- `getFsNumber` of a path that fits into its array. -/
theorem getFsNumber_fits (h : path.length < 20) : getFsNumber path s = .ret
    (if normalRoot <+: path then BitVec.ofNat 32 normalFsNumber
      else if fat32Root <+: path then BitVec.ofNat 32 fat32FsNumber else -10) s := by
  have hfit : 0 + path.length < 20 := by omega
  obtain ⟨d, hrun, -, hd⟩ := strcpyTo_fits (s := s) path s.stack 0 hfit
  have h1 : strcmpEq (update d 6 0) 0 normalRoot = true ↔ normalRoot <+: path :=
    strcmpEq_copy rfl (by decide) hd
  have h2 : strcmpEq (update d 6 0) 0 fat32Root = true ↔ fat32Root <+: path :=
    strcmpEq_copy rfl (by decide) hd
  rw [getFsNumber, get_bind, bind_ret hrun]
  simp only [h1, h2]
  split
  · rfl
  · split <;> rfl

/-- A longer path overflows it. -/
theorem getFsNumber_overflows (h : 20 ≤ path.length) : getFsNumber path s = .halt (.at 20) := by
  rw [getFsNumber, get_bind, bind_halt (strcpyTo_overflows path s.stack 0 (by omega))]

theorem copyPath_fits (h : path.length < maxpathlen) : copyPath path s = .ret () s := by
  have hfit : 0 + path.length < maxpathlen := by omega
  obtain ⟨d, hrun, -⟩ := strcpyTo_fits (s := s) path (fun _ => 0) 0 hfit
  rw [copyPath, bind_ret hrun]
  rfl

theorem fsipcTo_server (h : n < 1024) : fsipcTo req (BitVec.ofNat 32 n) s =
    .ret s.reply { s with sent := s.sent ++ [(n, req)] } := by
  have hn : (BitVec.ofNat 32 n).toNat = n := by
    rw [BitVec.toNat_ofNat]
    omega
  rw [fsipcTo, hn, bind_ret (assert_pos h)]
  rfl

/-- The error code is no index of `envs`. -/
theorem fsipcTo_notFound : fsipcTo req (-10) s = .halt (.at 1024) := by
  rw [fsipcTo, bind_halt (assert_neg (by decide))]

/-! ## Routing -/

/-- What `fsipc_open` and `fsipc_remove` do with a path of admissible length. -/
def sendPath (req : PathRequest) (path : List Byte) : RouteM Word := do
  copyPath path
  let whichfs ← getFsNumber path
  fsipcTo req whichfs

theorem roots_apart (h1 : normalRoot <+: path) (h2 : fat32Root <+: path) : False := by
  have := (List.prefix_of_prefix_length_le h1 h2 (le_refl _)).eq_of_length rfl
  exact absurd this (by decide)

theorem sendPath_routes (hlen : path.length < maxpathlen) :
    Routes (sendPath req path) req path ↔ path.length < 20 ∧ HasRoot path := by
  constructor
  · intro hroutes
    have hrun := hroutes ⟨[], 0, fun _ => 0⟩
    rw [sendPath, bind_ret (copyPath_fits hlen)] at hrun
    have hshort : path.length < 20 := by
      by_contra hlong
      rw [bind_halt (getFsNumber_overflows (by omega))] at hrun
      exact hrun
    refine ⟨hshort, ?_⟩
    rw [bind_ret (getFsNumber_fits hshort)] at hrun
    by_contra hroot
    unfold HasRoot at hroot
    rw [not_or] at hroot
    rw [if_neg hroot.1, if_neg hroot.2, fsipcTo_notFound] at hrun
    exact hrun
  · rintro ⟨hshort, hroot⟩ s
    rw [sendPath, bind_ret (copyPath_fits hlen), bind_ret (getFsNumber_fits hshort)]
    rcases hroot with h1 | h2
    · rw [if_pos h1, fsipcTo_server (by decide)]
      exact .inl ⟨rfl, h1⟩
    · rw [if_neg fun h1 => roots_apart h1 h2, if_pos h2, fsipcTo_server (by decide)]
      exact .inr ⟨rfl, h2⟩

/-- **Paths are routed to an existing server or rejected** if and only if they are shorter than the array of
`getFsNumber` and begin with the name of a root directory; `fsipc_remove` also rejects the empty path. -/
theorem routes_iff (hlen : path.length < maxpathlen) (omode : Word) :
    (Routes (fsipcOpen path omode) (.opens path omode) path ↔ path.length < 20 ∧ HasRoot path) ∧
      (Routes (fsipcRemove path) (.removes path) path ↔
        path = [] ∨ (path.length < 20 ∧ HasRoot path)) := by
  constructor
  · have hopen : fsipcOpen path omode = sendPath (.opens path omode) path := if_neg (by omega)
    rw [hopen]
    exact sendPath_routes hlen
  · by_cases hnil : path = []
    · subst hnil
      exact iff_of_true (fun s => ⟨rfl, by decide, by decide⟩) (.inl rfl)
    · have hne : path.length ≠ 0 := fun h => hnil (List.length_eq_zero_iff.mp h)
      have hremove : fsipcRemove path = sendPath (.removes path) path := if_neg (by omega)
      rw [hremove, or_iff_right hnil]
      exact sendPath_routes hlen

/-- `/root1/a`. -/
def shortPath : List Byte := [0x2f, 0x72, 0x6f, 0x6f, 0x74, 0x31, 0x2f, 0x61]

theorem routes_iff_short :
    (Routes (fsipcOpen shortPath 0) (.opens shortPath 0) shortPath ↔
      shortPath.length < 20 ∧ HasRoot shortPath) ∧
    (Routes (fsipcRemove shortPath) (.removes shortPath) shortPath ↔
      shortPath = [] ∨ (shortPath.length < 20 ∧ HasRoot shortPath)) :=
  routes_iff (by decide) 0

/-- A path of 20 bytes is copied past the end of the array. -/
theorem long_path_overflows : ¬∀ (path : List Byte) (omode : Word), 0 ∉ path → path.length < maxpathlen →
    Routes (fsipcOpen path omode) (.opens path omode) path ∧
      Routes (fsipcRemove path) (.removes path) path := by
  intro hall
  have hpath : (normalRoot ++ List.replicate 14 (0x61 : Byte)).length < maxpathlen := by decide
  obtain ⟨hopen, -⟩ := hall (normalRoot ++ List.replicate 14 0x61) 0 (by decide) hpath
  have heq : fsipcOpen (normalRoot ++ List.replicate 14 0x61) 0 =
      sendPath (.opens (normalRoot ++ List.replicate 14 0x61) 0) (normalRoot ++ List.replicate 14 0x61) :=
    if_neg (by decide)
  rw [heq, sendPath_routes hpath] at hopen
  exact absurd hopen.1 (by decide)

end Mos
