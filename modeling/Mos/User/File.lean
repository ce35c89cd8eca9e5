import Mos.Fs.SetSize
import Mos.Kern.Syscall
import Mos.User.Fd

/-!
# Files in the library of the clients

`user/lib/file.c`, and `read`, `write`, `seek` and `fstat` of `user/lib/fd.c` for descriptors of files. The
page of a descriptor is filled by the file server and shared with it: a `struct Filefd` of the native server
or a `struct FatFileFd` of the FAT32 server, as `fd_disktype` says. The contents of the file are mapped at
`INDEX2DATA(i)`.

A read and a write are a `memcpy` each. What matters here is which addresses it copies between, so the
functions return them next to their result. Memory other than the pages of the descriptors is not
represented: buffers are somewhere else.
-/

namespace Mos

open Lib Prog Function

/-! ## `memcpy` -/

/-- The bytes that have been copied: where to, and where from. -/
abbrev Copies := List (Word × Word)

/-- `n` bytes from `src` on, copied to `dst`. -/
def span (dst src : Word) (n : Nat) : Copies :=
  (List.range n).map fun k => (dst + BitVec.ofNat 32 k, src + BitVec.ofNat 32 k)

/-- A loop `while (more(dst)) { *dst = *src; dst += width; src += width; }`: the bytes that it copies, and the
two pointers when it ends. An access outside of the user's addresses ends the env. -/
def copyWhile (more : Word → Bool) (width : Nat) : Nat → Word → Word → Copies × Option (Word × Word)
  | 0, dst, src => ([], some (dst, src))
  | fuel + 1, dst, src =>
    if more dst = false then ([], some (dst, src))
    else if dst < ulim ∧ src < ulim then
      let r := copyWhile more width fuel (dst + BitVec.ofNat 32 width) (src + BitVec.ofNat 32 width)
      (span dst src width ++ r.1, r.2)
    else ([], none)

/-- One loop after the other. -/
def copyThen (r : Copies × Option (Word × Word)) (next : Word → Word → Copies × Option (Word × Word)) :
    Copies × Option (Word × Word) :=
  match r.2 with
  | none => r
  | some (dst, src) =>
    let r' := next dst src
    (r.1 ++ r'.1, r'.2)

/-- `memcpy(dst, src, n)` of `lib/string.c`. No loop can make more than `ulim` rounds: it would leave the user's
addresses. -/
def userMemcpy (dst src n : Word) : Copies :=
  let max := dst + n
  let bytes (dst src : Word) := copyWhile (fun d => d < max) 1 (ulim.toNat + 1) dst src
  if src &&& 3 ≠ dst &&& 3 then (bytes dst src).1
  else
    let head := copyWhile (fun d => d &&& 3 ≠ 0 ∧ d < max) 1 (ulim.toNat + 1) dst src
    let words := copyThen head (copyWhile (fun d => d + 4 ≤ max) 4 (ulim.toNat + 1))
    (copyThen words bytes).1

section Memcpy

variable {more : Word → Bool} {width lim fuel k l : Nat} {dst src n a b : Word}
  {r : Copies × Option (Word × Word)}

theorem toNat_ulim : ulim.toNat = 2 ^ 31 := by decide

theorem toNat_add_ofNat (h : a.toNat + k < 2 ^ 32) : (a + BitVec.ofNat 32 k).toNat = a.toNat + k := by
  rw [BitVec.toNat_add, BitVec.toNat_ofNat]
  omega

theorem add_ofNat_add (a : Word) (k l : Nat) :
    a + BitVec.ofNat 32 k + BitVec.ofNat 32 l = a + BitVec.ofNat 32 (k + l) := by
  rw [BitVec.ofNat_add, BitVec.add_assoc]

theorem span_zero (dst src : Word) : span dst src 0 = [] := rfl

theorem span_append (dst src : Word) (k l : Nat) :
    span dst src k ++ span (dst + BitVec.ofNat 32 k) (src + BitVec.ofNat 32 k) l = span dst src (k + l) := by
  unfold span
  rw [List.range_add, List.map_append, List.map_map]
  simp only [add_ofNat_add, Function.comp_def]

theorem mem_span {c : Word × Word} : c ∈ span dst src k ↔
    ∃ j < k, c = (dst + BitVec.ofNat 32 j, src + BitVec.ofNat 32 j) := by
  unfold span
  simp only [List.mem_map, List.mem_range, eq_comm]

/-- What a loop of `memcpy` has done when it ends: `k` bytes are copied, none of them at the limit or behind
it, and the loop has come to its end or to an address that is not the user's. -/
structure Ran (more : Word → Bool) (lim : Nat) (dst src : Word) (r : Copies × Option (Word × Word)) (k : Nat) :
    Prop where
  copied : r.1 = span dst src k
  inside : k = 0 ∨ dst.toNat + k ≤ lim ∧ dst.toNat + k ≤ 2 ^ 31 ∧ src.toNat + k ≤ 2 ^ 31
  ended : (r.2 = some (dst + BitVec.ofNat 32 k, src + BitVec.ofNat 32 k) ∧
      more (dst + BitVec.ofNat 32 k) = false) ∨
    (r.2 = none ∧ (2 ^ 31 ≤ dst.toNat + k ∨ 2 ^ 31 ≤ src.toNat + k))

/-- A loop that does not begin, or whose first access is refused. -/
theorem Ran.nothing (h : more dst = true → ¬(dst < ulim ∧ src < ulim)) :
    Ran more lim dst src (copyWhile more width (fuel + 1) dst src) 0 := by
  have h0 (a : Word) : a + BitVec.ofNat 32 0 = a := BitVec.add_zero a
  rw [copyWhile]
  by_cases hm : more dst = false
  · rw [if_pos hm]
    exact ⟨rfl, .inl rfl, .inl ⟨by rw [h0, h0], by rw [h0]; exact hm⟩⟩
  · have hout := h (by simpa using hm)
    rw [if_neg hm, if_neg hout]
    refine ⟨rfl, .inl rfl, .inr ⟨rfl, ?_⟩⟩
    simp only [BitVec.lt_def, toNat_ulim] at hout
    omega

/-- The loop goes on as long as its condition holds. -/
theorem copyWhile_ran (hw : 0 < width) (hu : width ∣ 2 ^ 31)
    (hmore : ∀ d, more d = true → d.toNat < 2 ^ 31 → d.toNat + width ≤ lim) :
    ∀ fuel dst src, width ∣ dst.toNat → width ∣ src.toNat → 2 ^ 31 < dst.toNat + fuel → 0 < fuel →
      ∃ k, Ran more lim dst src (copyWhile more width fuel dst src) k ∧ width ∣ k := by
  intro fuel
  induction fuel with
  | zero => exact fun _ _ _ _ _ h => absurd h (Nat.lt_irrefl 0)
  | succ fuel ih =>
    intro dst src hd hs hfuel _
    by_cases hgo : more dst = true ∧ dst < ulim ∧ src < ulim
    · obtain ⟨hm, hdu, hsu⟩ := hgo
      have hdu' : dst.toNat < 2 ^ 31 := hdu
      have hsu' : src.toNat < 2 ^ 31 := hsu
      -- the accesses are aligned, so a whole one is below `ulim`
      have hd4 : dst.toNat + width ≤ 2 ^ 31 := by
        have := Nat.le_of_dvd (Nat.sub_pos_of_lt hdu') (Nat.dvd_sub hu hd)
        omega
      have hs4 : src.toNat + width ≤ 2 ^ 31 := by
        have := Nat.le_of_dvd (Nat.sub_pos_of_lt hsu') (Nat.dvd_sub hu hs)
        omega
      have hdw := toNat_add_ofNat (a := dst) (k := width) (by omega)
      have hsw := toNat_add_ofNat (a := src) (k := width) (by omega)
      obtain ⟨k, hk, hdvd⟩ := ih (dst + BitVec.ofNat 32 width) (src + BitVec.ofNat 32 width)
        (by rw [hdw]; exact Nat.dvd_add hd (dvd_refl _)) (by rw [hsw]; exact Nat.dvd_add hs (dvd_refl _))
        (by omega) (by omega)
      have hlim := hmore dst hm hdu'
      refine ⟨width + k, ⟨?_, .inr ?_, ?_⟩, Nat.dvd_add (dvd_refl _) hdvd⟩
      · rw [copyWhile, if_neg (by simp [hm]), if_pos ⟨hdu, hsu⟩, ← span_append]
        exact congrArg _ hk.copied
      · rcases hk.inside with rfl | ⟨h1, h2, h3⟩
        · omega
        · omega
      · rw [copyWhile, if_neg (by simp [hm]), if_pos ⟨hdu, hsu⟩, ← add_ofNat_add, ← add_ofNat_add,
          ← Nat.add_assoc, ← Nat.add_assoc, ← hdw, ← hsw]
        exact hk.ended
    · refine ⟨0, Ran.nothing fun hm hin => hgo ⟨hm, hin⟩, dvd_zero _⟩

theorem Ran.toNat_end (h : Ran more lim dst src r k) :
    (dst + BitVec.ofNat 32 k).toNat = dst.toNat + k ∧ (src + BitVec.ofNat 32 k).toNat = src.toNat + k := by
  have hd := dst.isLt
  have hs := src.isLt
  rcases h.inside with rfl | ⟨h1, h2, h3⟩
  · exact ⟨toNat_add_ofNat (by omega), toNat_add_ofNat (by omega)⟩
  · exact ⟨toNat_add_ofNat (by omega), toNat_add_ofNat (by omega)⟩

/-- The next loop goes on where the one before it has ended. -/
theorem Ran.andThen {more' : Word → Bool} {next : Word → Word → Copies × Option (Word × Word)}
    (h : Ran more lim dst src r k)
    (hnext : more (dst + BitVec.ofNat 32 k) = false → ∃ l, Ran more' lim (dst + BitVec.ofNat 32 k)
      (src + BitVec.ofNat 32 k) (next (dst + BitVec.ofNat 32 k) (src + BitVec.ofNat 32 k)) l) :
    ∃ m, k ≤ m ∧ Ran more' lim dst src (copyThen r next) m := by
  obtain ⟨hdk, hsk⟩ := h.toNat_end
  unfold copyThen
  rcases h.ended with ⟨hr, hm⟩ | ⟨hr, hout⟩
  · obtain ⟨l, hl⟩ := hnext hm
    rw [hr]
    refine ⟨k + l, Nat.le_add_right k l, ?_, ?_, ?_⟩
    · rw [← span_append, ← h.copied, ← hl.copied]
    · have h1 := h.inside
      have h2 := hl.inside
      omega
    · have h2 := hl.ended
      rw [add_ofNat_add, add_ofNat_add, hdk, hsk, Nat.add_assoc, Nat.add_assoc] at h2
      exact h2
  · rw [hr]
    exact ⟨k, le_refl k, h.copied, h.inside, .inr ⟨hr, hout⟩⟩

theorem and_three (a : Word) : (a &&& 3).toNat = a.toNat % 4 := by
  rw [BitVec.toNat_and, show (3 : Word).toNat = 2 ^ 2 - 1 from rfl, Nat.and_two_pow_sub_one_eq_mod]

theorem and_three_eq_zero (a : Word) : a &&& 3 = 0 ↔ 4 ∣ a.toNat := by
  rw [← BitVec.toNat_inj, and_three, Nat.dvd_iff_mod_eq_zero]
  rfl

/-- The loop over the bytes. -/
theorem ran_bytes (max dst src : Word) : ∃ k, Ran (fun d => d < max) max.toNat dst src
    (copyWhile (fun d => d < max) 1 (ulim.toNat + 1) dst src) k := by
  have hmore : ∀ d : Word, decide (d < max) = true → d.toNat < 2 ^ 31 → d.toNat + 1 ≤ max.toNat :=
    fun d hd _ => of_decide_eq_true hd
  obtain ⟨k, hk, -⟩ := copyWhile_ran (by decide) (one_dvd _) hmore (ulim.toNat + 1) dst src (one_dvd _)
    (one_dvd _) (by rw [toNat_ulim]; omega) (Nat.succ_pos _)
  exact ⟨k, hk⟩

/-- The loop over the words, after the loop that aligns the pointers. -/
theorem ran_words {max : Word} (hsame : src &&& 3 = dst &&& 3) (hend : dst &&& 3 = 0 ∨ max ≤ dst) :
    ∃ k, Ran (fun d => d + 4 ≤ max) max.toNat dst src
      (copyWhile (fun d => d + 4 ≤ max) 4 (ulim.toNat + 1) dst src) k := by
  have hmore : ∀ d : Word, decide (d + 4 ≤ max) = true → d.toNat < 2 ^ 31 → d.toNat + 4 ≤ max.toNat := by
    intro d hd hlt
    have hle : (d + 4).toNat ≤ max.toNat := of_decide_eq_true hd
    rwa [BitVec.toNat_add, show (4 : Word).toNat = 4 from rfl, Nat.mod_eq_of_lt (by omega)] at hle
  rcases hend with hzero | hmax
  · have hd := (and_three_eq_zero dst).mp hzero
    have hs := (and_three_eq_zero src).mp (hsame.trans hzero)
    obtain ⟨k, hk, -⟩ := copyWhile_ran (by decide) (by decide) hmore (ulim.toNat + 1) dst src hd hs
      (by rw [toNat_ulim]; omega) (Nat.succ_pos _)
    exact ⟨k, hk⟩
  · refine ⟨0, Ran.nothing fun hm hin => ?_⟩
    have hlt : dst.toNat < 2 ^ 31 := hin.1
    have hle := hmore dst hm hlt
    have hge : max.toNat ≤ dst.toNat := hmax
    omega

/-- All loops of `memcpy`, one after the other. -/
theorem userMemcpy_ran (dst src n : Word) : ∃ r k, userMemcpy dst src n = r.1 ∧
    Ran (fun d => d < dst + n) (dst + n).toNat dst src r k := by
  unfold userMemcpy
  by_cases hsame : src &&& 3 ≠ dst &&& 3
  · obtain ⟨k, hk⟩ := ran_bytes (dst + n) dst src
    rw [if_pos hsame]
    exact ⟨_, k, rfl, hk⟩
  · rw [if_neg hsame]
    rw [not_not] at hsame
    have hmore : ∀ d : Word, decide (d &&& 3 ≠ 0 ∧ d < dst + n) = true → d.toNat < 2 ^ 31 →
        d.toNat + 1 ≤ (dst + n).toNat := fun d hd _ => (of_decide_eq_true hd).2
    obtain ⟨k, hk, -⟩ := copyWhile_ran (by decide) (one_dvd _) hmore (ulim.toNat + 1) dst src (one_dvd _)
      (one_dvd _) (by rw [toNat_ulim]; omega) (Nat.succ_pos _)
    obtain ⟨hdk, hsk⟩ := hk.toNat_end
    obtain ⟨l, -, hl⟩ := hk.andThen fun hend => by
      apply ran_words
      · rw [← BitVec.toNat_inj, and_three, and_three] at hsame ⊢
        omega
      · by_cases hz : (dst + BitVec.ofNat 32 k) &&& 3 = 0
        · exact .inl hz
        · refine .inr ?_
          have hnot := of_decide_eq_false hend
          exact BitVec.not_lt.mp fun hlt => hnot ⟨hz, hlt⟩
    obtain ⟨m, -, hm⟩ := hl.andThen fun _ => ran_bytes (dst + n) _ _
    exact ⟨_, m, rfl, hm⟩

/-- **What `memcpy` copies**: it copies the first `k` bytes, and these are all `n`, unless an access leaves the
user's addresses or the end of the destination wraps around. Then nothing is copied. -/
theorem userMemcpy_span (dst src n : Word) : ∃ k, userMemcpy dst src n = span dst src k ∧
    (k ≤ n.toNat ∧ (k = 0 ∨ src.toNat + k ≤ 2 ^ 31)) ∧ (2 ^ 32 ≤ dst.toNat + n.toNat → k = 0) ∧
    (dst.toNat + n.toNat < 2 ^ 32 → k = n.toNat ∨ 2 ^ 31 ≤ dst.toNat + k ∨ 2 ^ 31 ≤ src.toNat + k) := by
  obtain ⟨r, k, heq, hk⟩ := userMemcpy_ran dst src n
  have hsum : (dst + n).toNat = (dst.toNat + n.toNat) % 2 ^ 32 := BitVec.toNat_add dst n
  have hd := dst.isLt
  have hn := n.isLt
  have hin := hk.inside
  refine ⟨k, heq.trans hk.copied, by omega, fun hwrap => by omega, fun hfit => ?_⟩
  rcases hk.ended with ⟨-, hend⟩ | ⟨-, hout⟩
  · have hge : (dst + n).toNat ≤ (dst + BitVec.ofNat 32 k).toNat :=
      BitVec.not_lt.mp (of_decide_eq_false hend)
    rw [hk.toNat_end.1] at hge
    omega
  · exact .inr hout

end Memcpy

/-! ## The page of a descriptor -/

/-- `NORMAL_DISK`. -/
def normalDisk : Word := 0
/-- `FAT32_DISK`. -/
def fat32Disk : Word := 1
/-- `O_ACCMODE`. -/
def oAccmode : Word := 0x0903

/-- What a file server writes into the page, which is full of zeros: `struct Fd`, `f_fileid`, and the first
`len` words of the directory entry `f`. -/
def filefd (disktype fileid omode : Word) (len : Nat) (f : Nat → Word) : Page := fun i =>
  if i = 0 then devfile
  else if i = 2 then omode
  else if i = 3 then disktype
  else if i = 4 then fileid
  else if 5 ≤ i ∧ i < 5 + len then f (i - 5)
  else 0

/-- The page that `serve_open` fills: a `struct Filefd`. -/
def serveOpenFd (fileid omode : Word) (f : Nat → Word) : Page := filefd normalDisk fileid omode 64 f

/-- The page that `fatserve_open` fills: a `struct FatFileFd`. -/
def fatserveOpenFd (fileid omode : Word) (f : Nat → Word) : Page := filefd fat32Disk fileid omode 16 f

/-! ## The client -/

/-- What the library works on. -/
structure FileClient where
  /-- The pages at `INDEX2FD(i)`, where they are mapped. -/
  fd : Nat → Option Page
  /-- The virtual pages at which files are mapped. -/
  pages : Nat → Bool
  /-- How the file servers will answer the next request, the one after it, …: `none` if they do what they are
  asked for. -/
  replies : Nat → Option Err
  /-- The size in the directory entry of the server, for every file id. -/
  served : Word → Word
  /-- The size that the server of a file gives to it when it is asked for a size. -/
  grants : Word → Word → Word

/-- Why a function of the library does not return: its calls of `user_panic`. The functions of the other
devices are not modelled here. -/
inductive FileHalt where
  | disktype
  | unmap
  | otherDevice
deriving DecidableEq

/-- Functions of the library. -/
abbrev FileM := Prog FileClient Err FileHalt

namespace FileClient

/-- The page of descriptor `i`. -/
def page (s : FileClient) (i : Nat) : Page := (s.fd i).getD fun _ => 0

/-- Writes a word of the page of descriptor `i`. -/
def setFd (s : FileClient) (i k : Nat) (w : Word) : FileClient :=
  { s with fd := update s.fd i ((s.fd i).map fun p => update p k w) }

end FileClient

/-- `fsipc` with a request that has no other answer than its value. -/
def fsipc : FileM Unit := fun s =>
  match s.replies 0 with
  | none => .ret () { s with replies := fun n => s.replies (n + 1) }
  | some e => .err e { s with replies := fun n => s.replies (n + 1) }

/-- `fsipc_map(fileid, offset, dstva)`: the page of the reply is mapped. -/
def fsipcMap (_fileid _offset dstva : Word) : FileM Unit := do
  fsipc
  Prog.modify fun s => { s with pages := update s.pages (ppn dstva) true }

/-- `fsipc_set_size(fileid, size)`. -/
def fsipcSetSize (fileid size : Word) : FileM Unit := do
  fsipc
  Prog.modify fun s => { s with served := update s.served fileid (s.grants fileid size) }

/-- `syscall_mem_unmap(0, va)`. -/
def unmapPage (va : Word) : FileM Unit :=
  if isIllegalVa va = true then Prog.fail .inval
  else Prog.modify fun s => { s with pages := update s.pages (ppn va) false }

/-- `fd_lookup(fdnum, &fd)`, for numbers that are not negative. -/
def fdLookup (fdnum : Nat) : FileM Unit := do
  let s ← Prog.get
  if fdnum < maxfd ∧ (s.fd fdnum).isSome = true then pure () else Prog.fail .inval

/-- `dev_lookup(dev_id, &dev)`, for the device of files. -/
def devLookup (devId : Word) : FileM Unit :=
  if devId = devfile then pure ()
  else if devId = devcons ∨ devId = devpipe then Prog.halt .otherDevice
  else Prog.fail .inval

/-! ## `user/lib/file.c` -/

/-- `getInfoFromFileFd(fd, &fileid)`: the size, and the file id. -/
def getInfoFromFileFd (p : Page) : Word × Word := (p 37, p 4)

/-- `getInfoFromFatFileFd(fd, &fileid)`. -/
def getInfoFromFatFileFd (p : Page) : Word × Word := (p 12, p 4)

/-- `getInfoFromFd(fd, &fileid)`. -/
def getInfoFromFd (p : Page) : FileM (Word × Word) :=
  if p 3 = normalDisk then pure (getInfoFromFileFd p)
  else if p 3 = fat32Disk then pure (getInfoFromFatFileFd p)
  else Prog.halt .disktype

/-- `setInfoToFd(fd, &size, 0)` for descriptor `i`. -/
def setInfoToFd (i : Nat) (size : Word) : FileM Unit := do
  let s ← Prog.get
  if s.page i 3 = normalDisk then Prog.put (s.setFd i 37 size)
  else if s.page i 3 = fat32Disk then Prog.put (s.setFd i 12 size)
  else Prog.halt .disktype

/-- `ROUND(size, BY2PG)`, in pages. -/
def roundPages (size : Word) : Nat := roundUp size.toNat by2blk / by2blk

/-- `va + i` for page `j` of the data of descriptor `fdnum`. -/
def dataVa (fdnum j : Nat) : Word := index2data fdnum + BitVec.ofNat 32 j * by2pg

/-- The body of the first loop of `ftruncate`: one more page is mapped, and if that fails the server is asked
to take the old size back. -/
def mapBody (fdnum : Nat) (fileid oldsize : Word) (j : Nat) : FileM Unit := do
  match ← Prog.attempt (fsipcMap fileid (BitVec.ofNat 32 j * by2pg) (dataVa fdnum j)) with
  | .ok _ => pure ()
  | .error e => do
    let _ ← Prog.attempt (fsipcSetSize fileid oldsize)
    Prog.fail e

/-- The body of the second loop of `ftruncate`. -/
def unmapBody (fdnum j : Nat) : FileM Unit := do
  match ← Prog.attempt (unmapPage (dataVa fdnum j)) with
  | .ok _ => pure ()
  | .error _ => Prog.halt .unmap

/-- `ftruncate(fdnum, size)`. -/
def ftruncate (fdnum : Nat) (size : Word) : FileM Unit := do
  if size.toNat > maxfilesize then Prog.fail .noDisk
  else
    fdLookup fdnum
    let s ← Prog.get
    if s.page fdnum 0 ≠ devfile then Prog.fail .inval
    else
      let (oldsize, fileid) ← getInfoFromFd (s.page fdnum)
      setInfoToFd fdnum size
      fsipcSetSize fileid size
      Prog.loop (mapBody fdnum fileid oldsize) (roundPages oldsize) (roundPages size - roundPages oldsize)
      Prog.loop (unmapBody fdnum) (roundPages size) (roundPages oldsize - roundPages size)

/-- `file_read(fd, buf, n, offset)` for descriptor `i`: what it returns, and what it copies. -/
def fileReadFd (i : Nat) (buf n offset : Word) : FileM (Word × Copies) := do
  let s ← Prog.get
  let (size, _) ← getInfoFromFd (s.page i)
  if offset > size then return (0, [])
  else
    let n := if offset + n > size then size - offset else n
    return (n, userMemcpy buf (index2data i + offset) n)

/-- `file_write(fd, buf, n, offset)` for descriptor `i`. -/
def fileWriteFd (i : Nat) (buf n offset : Word) : FileM (Word × Copies) := do
  let s ← Prog.get
  let (size, _) ← getInfoFromFd (s.page i)
  let tot := offset + n
  if tot.toNat > maxfilesize then Prog.fail .noDisk
  else
    Prog.when (tot > size) (ftruncate i tot)
    return (n, userMemcpy (index2data i + offset) buf n)

/-! ## `user/lib/fd.c` -/

/-- `if (r > 0) fd->fd_offset += r`. -/
def advance (i : Nat) (r : Word) : FileM Unit := do
  let s ← Prog.get
  Prog.when (0 < r.toInt) (Prog.put (s.setFd i 1 (s.page i 1 + r)))

/-- `read(fdnum, buf, n)`. -/
def fdRead (fdnum : Nat) (buf n : Word) : FileM (Word × Copies) := do
  fdLookup fdnum
  let s ← Prog.get
  let p := s.page fdnum
  devLookup (p 0)
  if p 2 &&& oAccmode = oWronly then Prog.fail .inval
  else
    let r ← fileReadFd fdnum buf n (p 1)
    advance fdnum r.1
    return r

/-- `write(fdnum, buf, n)`. -/
def fdWrite (fdnum : Nat) (buf n : Word) : FileM (Word × Copies) := do
  fdLookup fdnum
  let s ← Prog.get
  let p := s.page fdnum
  devLookup (p 0)
  if p 2 &&& oAccmode = oRdonly then Prog.fail .inval
  else
    let r ← fileWriteFd fdnum buf n (p 1)
    advance fdnum r.1
    return r

/-- `seek(fdnum, offset)`. -/
def fdSeek (fdnum : Nat) (offset : Word) : FileM Unit := do
  fdLookup fdnum
  Prog.modify fun s => s.setFd fdnum 1 offset

/-! ## What the functions do to the descriptor -/

variable {s t u : FileClient} {p : Page} {i j k : Nat} {size oldsize fileid buf n offset w : Word}

/-- The word of the page in which the size is: `f_size` or `DIR_FileSize`. -/
def sizeAt (p : Page) : Nat := if p 3 = normalDisk then 37 else 12

/-- The size of the file, as the library sees it. -/
def fileSize (p : Page) : Word := p (sizeAt p)

/-- Descriptor `i` is in use for a file of one of the two servers. -/
structure FileClient.OpenFd (s : FileClient) (i : Nat) (p : Page) : Prop where
  lt : i < maxfd
  fd : s.fd i = some p
  device : p 0 = devfile
  disk : p 3 = normalDisk ∨ p 3 = fat32Disk

namespace FileClient.OpenFd

theorem page (h : s.OpenFd i p) : s.page i = p := by
  unfold FileClient.page
  rw [h.fd]
  rfl

theorem lookup (h : s.OpenFd i p) : fdLookup i s = .ret () s := by
  rw [fdLookup, get_bind, if_pos ⟨h.lt, by rw [h.fd]; rfl⟩]
  rfl

theorem getInfo (h : s.OpenFd i p) (t : FileClient) :
    getInfoFromFd p t = .ret (fileSize p, p 4) t := by
  unfold getInfoFromFd fileSize sizeAt
  rcases h.disk with hd | hd
  · rw [if_pos hd, if_pos hd]
    rfl
  · have hne : p 3 ≠ normalDisk := by rw [hd]; decide
    rw [if_neg hne, if_neg hne, if_pos hd]
    rfl

theorem setInfo (h : s.OpenFd i p) (size : Word) :
    setInfoToFd i size s = .ret () (s.setFd i (sizeAt p) size) := by
  unfold setInfoToFd sizeAt
  rw [get_bind, h.page]
  rcases h.disk with hd | hd
  · rw [if_pos hd, if_pos hd]
    rfl
  · have hne : p 3 ≠ normalDisk := by rw [hd]; decide
    rw [if_neg hne, if_neg hne, if_pos hd]
    rfl

end FileClient.OpenFd

theorem sizeAt_cases (p : Page) : sizeAt p = 37 ∨ sizeAt p = 12 := by
  unfold sizeAt
  split
  · exact .inl rfl
  · exact .inr rfl

/-- A new size in the page. -/
def Page.setSize (p : Page) (size : Word) : Page := update p (sizeAt p) size

theorem sizeAt_setSize (p : Page) (size : Word) : sizeAt (Page.setSize p size) = sizeAt p := by
  have hne : (3 : Nat) ≠ sizeAt p := by rcases sizeAt_cases p with h | h <;> omega
  unfold Page.setSize
  rw [sizeAt, update_of_ne hne, ← sizeAt]

theorem fileSize_setSize (p : Page) (size : Word) : fileSize (Page.setSize p size) = size := by
  rw [fileSize, sizeAt_setSize]
  exact update_self _ _ _

theorem FileClient.fd_setFd (h : s.fd i = some p) (k : Nat) (w : Word) :
    (s.setFd i k w).fd i = some (update p k w) := by
  unfold FileClient.setFd
  simp [h]

/-! ## Requests -/

theorem fsipc_granted (h : s.replies 0 = none) :
    fsipc s = .ret () { s with replies := fun n => s.replies (n + 1) } := by
  unfold fsipc
  rw [h]

theorem fsipc_refused {e : Err} (h : s.replies 0 = some e) :
    fsipc s = .err e { s with replies := fun n => s.replies (n + 1) } := by
  unfold fsipc
  rw [h]

theorem fsipcMap_granted (h : s.replies 0 = none) (va : Word) : fsipcMap fileid offset va s = .ret ()
    { s with replies := fun n => s.replies (n + 1), pages := update s.pages (ppn va) true } := by
  rw [fsipcMap, bind_ret (fsipc_granted h)]
  rfl

theorem fsipcMap_refused {e : Err} (h : s.replies 0 = some e) (va : Word) :
    fsipcMap fileid offset va s = .err e { s with replies := fun n => s.replies (n + 1) } := by
  rw [fsipcMap, bind_err (fsipc_refused h)]

theorem fsipcSetSize_granted (h : s.replies 0 = none) : fsipcSetSize fileid size s = .ret ()
    { s with
      replies := fun n => s.replies (n + 1)
      served := update s.served fileid (s.grants fileid size) } := by
  rw [fsipcSetSize, bind_ret (fsipc_granted h)]
  rfl

theorem fsipcSetSize_refused {e : Err} (h : s.replies 0 = some e) :
    fsipcSetSize fileid size s = .err e { s with replies := fun n => s.replies (n + 1) } := by
  rw [fsipcSetSize, bind_err (fsipc_refused h)]

/-- A function that leaves the descriptors alone and comes back. -/
def LeavesFds {α : Type} (m : FileM α) : Prop :=
  ∀ fd, Within (fun s : FileClient => s.fd = fd) (fun _ => False) m

theorem fsipc_leaves : LeavesFds fsipc := by
  intro fd s hs
  cases hr : s.replies 0 with
  | none =>
    rw [fsipc_granted hr]
    exact hs
  | some e =>
    rw [fsipc_refused hr]
    exact hs

theorem fsipcMap_leaves (fileid offset va : Word) : LeavesFds (fsipcMap fileid offset va) :=
  fun fd => within_bind (fsipc_leaves fd) fun _ => within_modify fun _ h => h

theorem fsipcSetSize_leaves (fileid size : Word) : LeavesFds (fsipcSetSize fileid size) :=
  fun fd => within_bind (fsipc_leaves fd) fun _ => within_modify fun _ h => h

theorem mapBody_leaves (fdnum : Nat) (fileid oldsize : Word) (j : Nat) :
    LeavesFds (mapBody fdnum fileid oldsize j) := by
  intro fd
  refine within_bind (within_attempt (fsipcMap_leaves _ _ _ fd)) fun r => ?_
  cases r with
  | ok _ => exact within_pure ()
  | error e => exact within_bind (within_attempt (fsipcSetSize_leaves _ _ fd)) fun _ => within_fail e

/-- The next `n` requests are granted. -/
def FileClient.Granted (s : FileClient) (n : Nat) : Prop := ∀ m < n, s.replies m = none

/-- One page is mapped, if the request is granted. -/
theorem mapBody_granted (h : s.replies 0 = none) : mapBody i fileid oldsize j s = .ret ()
    { s with
      replies := fun n => s.replies (n + 1)
      pages := update s.pages (ppn (dataVa i j)) true } := by
  rw [mapBody, bind_ret (attempt_ret (fsipcMap_granted h _))]
  rfl

theorem mapBody_refused {e : Err} (h : s.replies 0 = some e) :
    (mapBody i fileid oldsize j s).Sat (fun _ _ => False) (fun _ t => t.fd = s.fd) (fun _ => False) := by
  rw [mapBody, bind_ret (attempt_err (fsipcMap_refused h _))]
  refine sat_call ((within_attempt (fsipcSetSize_leaves fileid oldsize s.fd)) _ rfl) (fun _ t ht => ht)
    (fun _ _ h => h) (fun _ h => h)

/-- The first loop of `ftruncate`, when all requests are granted. -/
theorem mapLoop_granted (n : Nat) : ∀ j s, s.Granted n → (Prog.loop (mapBody i fileid oldsize) j n s).Sat
    (fun _ t => t.fd = s.fd) (fun _ _ => False) (fun _ => False) := by
  induction n with
  | zero => exact fun _ _ _ => rfl
  | succ n ih =>
    intro j s h
    rw [Prog.loop, bind_ret (mapBody_granted (h 0 (Nat.succ_pos n)))]
    exact ih (j + 1) _ fun m hm => h (m + 1) (Nat.succ_lt_succ hm)

/-- The first loop of `ftruncate`, when a request is refused. -/
theorem mapLoop_refused (n : Nat) : ∀ j s, ¬s.Granted n → (Prog.loop (mapBody i fileid oldsize) j n s).Sat
    (fun _ _ => False) (fun _ t => t.fd = s.fd) (fun _ => False) := by
  induction n with
  | zero => exact fun _ _ h => absurd (fun _ hm => absurd hm (Nat.not_lt_zero _)) h
  | succ n ih =>
    intro j s h
    rw [Prog.loop]
    cases hr : s.replies 0 with
    | some e => exact sat_call (mapBody_refused hr) (fun _ _ h => h.elim) (fun _ _ h => h) (fun _ h => h)
    | none =>
      rw [bind_ret (mapBody_granted hr)]
      refine ih (j + 1) _ fun hall => h fun m hm => ?_
      cases m with
      | zero => exact hr
      | succ m => exact hall m (by omega)

/-- The second loop of `ftruncate`: no page fails with an error. -/
theorem unmapLoop_sat (n : Nat) : ∀ j s, (Prog.loop (unmapBody i) j n s).Sat
    (fun _ t => t.fd = s.fd) (fun _ _ => False) (fun _ => 0 < n) := by
  induction n with
  | zero => exact fun _ _ => rfl
  | succ n ih =>
    intro j s
    rw [Prog.loop, unmapBody]
    unfold unmapPage
    by_cases hva : isIllegalVa (dataVa i j) = true
    · rw [if_pos hva]
      exact Nat.succ_pos n
    · rw [if_neg hva]
      exact (ih (j + 1) _).mono (fun _ _ h => h) (fun _ _ h => h) (fun _ _ => Nat.succ_pos n)

/-! ## `ftruncate` -/

/-- The requests that `ftruncate` makes when it is asked to change the size from `oldsize` to `size`. -/
def requests (oldsize size : Word) : Nat := 1 + (roundPages size - roundPages oldsize)

/-- What `ftruncate` does once it has changed the size in the descriptor. -/
theorem ftruncate_eq (h : s.OpenFd i p) (hsize : size.toNat ≤ maxfilesize) : ftruncate i size s = (do
    fsipcSetSize (p 4) size
    Prog.loop (mapBody i (p 4) (fileSize p)) (roundPages (fileSize p))
      (roundPages size - roundPages (fileSize p))
    Prog.loop (unmapBody i) (roundPages size) (roundPages (fileSize p) - roundPages size) : FileM Unit)
      (s.setFd i (sizeAt p) size) := by
  rw [ftruncate, if_neg (by omega), bind_ret h.lookup, get_bind, h.page, if_neg (by simp [h.device]),
    bind_ret (h.getInfo s)]
  exact bind_ret (h.setInfo size)

theorem roundPages_mono (hle : oldsize.toNat ≤ size.toNat) (hsize : size.toNat ≤ maxfilesize) :
    roundPages oldsize ≤ roundPages size := by
  unfold roundPages roundUp by2blk
  unfold maxfilesize nindirect by2blk at hsize
  omega

/-- What `ftruncate` does: it returns an error if and only if a request is refused, and in any case the descriptor
has the new size. It can stop only where it unmaps pages. -/
theorem ftruncate_sat (h : s.OpenFd i p) (hsize : size.toNat ≤ maxfilesize) : (ftruncate i size s).Sat
    (fun _ t => t.fd i = some (Page.setSize p size) ∧ s.Granted (requests (fileSize p) size))
    (fun _ t => t.fd i = some (Page.setSize p size) ∧ ¬s.Granted (requests (fileSize p) size))
    (fun _ => roundPages size < roundPages (fileSize p) ∧ s.Granted (requests (fileSize p) size)) := by
  have hfd : (s.setFd i (sizeAt p) size).fd i = some (Page.setSize p size) := FileClient.fd_setFd h.fd _ _
  rw [ftruncate_eq h hsize]
  cases hr : s.replies 0 with
  | some e =>
    have hr' : (s.setFd i (sizeAt p) size).replies 0 = some e := hr
    rw [bind_err (fsipcSetSize_refused hr')]
    refine ⟨hfd, fun hall => ?_⟩
    rw [hall 0 (by unfold requests; omega)] at hr
    cases hr
  | none =>
    have hr' : (s.setFd i (sizeAt p) size).replies 0 = none := hr
    rw [bind_ret (fsipcSetSize_granted hr')]
    have hgranted : s.Granted (requests (fileSize p) size) ↔
        FileClient.Granted { s.setFd i (sizeAt p) size with
          replies := fun n => s.replies (n + 1)
          served := update s.served (p 4) (s.grants (p 4) size) }
          (roundPages size - roundPages (fileSize p)) := by
      constructor
      · exact fun hall m hm => hall (m + 1) (by unfold requests; omega)
      · intro hall m hm
        cases m with
        | zero => exact hr
        | succ m => exact hall m (by unfold requests at hm; omega)
    by_cases hall : s.Granted (requests (fileSize p) size)
    · refine sat_call (mapLoop_granted _ _ _ (hgranted.mp hall)) ?_ (fun _ _ h => h.elim) (fun _ h => h.elim)
      intro _ t ht
      refine (unmapLoop_sat _ _ t).mono (fun _ u hu => ?_) (fun _ _ h => h.elim)
        (fun _ h => ⟨by omega, hall⟩)
      exact ⟨(congrFun hu i).trans ((congrFun ht i).trans hfd), hall⟩
    · refine sat_call (mapLoop_refused _ _ _ fun h => hall (hgranted.mpr h)) (fun _ _ h => h.elim) ?_
        (fun _ h => h.elim)
      exact fun _ t ht => ⟨(congrFun ht i).trans hfd, hall⟩

/-! ## The window -/

/-- A read of a file of `size` bytes stays inside the file: it copies only bytes at positions below `size`, and
returns no more than there are from `offset` on. -/
def ReadInside (i : Nat) (size offset : Word) (r : Word × Copies) : Prop :=
  (∀ c ∈ r.2, ∃ pos < size.toNat, c.2 = index2data i + BitVec.ofNat 32 pos) ∧
    r.1.toInt ≤ ((size.toNat - offset.toNat : Nat) : Int)

/-- A write stays inside the window of its descriptor: it copies only to positions below `MAXFILESIZE`, and
below the size for which there is room afterwards. -/
def WriteInside (i : Nat) (size : Word) (r : Word × Copies) : Prop :=
  ∀ c ∈ r.2, ∃ pos < maxfilesize, c.1 = index2data i + BitVec.ofNat 32 pos ∧ pos < size.toNat

/-- `file_read` stays inside the file. -/
def FileClient.ReadsInside (s : FileClient) (i : Nat) (p : Page) (buf n offset : Word) : Prop :=
  (fileReadFd i buf n offset s).Sat (fun r t => t = s ∧ ReadInside i (fileSize p) offset r)
    (fun _ _ => False) (fun _ => False)

/-- `file_write` returns an error, or stays inside the window. -/
def FileClient.WritesInside (s : FileClient) (i : Nat) (buf n offset : Word) : Prop :=
  (fileWriteFd i buf n offset s).Sat (fun r t => WriteInside i (fileSize (t.page i)) r)
    (fun _ _ => True) (fun _ => False)

/-- Where `file_read` copies past the end of the file: `offset + n` wraps around, and the buffer lies so low
that its end does not. -/
def ReadOverrun (size buf n offset : Word) : Prop :=
  offset.toNat ≤ size.toNat ∧ 2 ^ 32 ≤ offset.toNat + n.toNat ∧ buf.toNat + n.toNat < 2 ^ 32

/-- Where `file_write` copies to addresses below the window: `offset + n` wraps around to a size that the file
has or can get, and the address of the first byte wraps around as well. -/
def FileClient.WriteOverrun (s : FileClient) (i : Nat) (size buf n offset : Word) : Prop :=
  2 ^ 32 ≤ offset.toNat + n.toNat ∧ 2 ^ 32 ≤ (index2data i).toNat + offset.toNat ∧ buf < ulim ∧
    (offset + n).toNat ≤ maxfilesize ∧
    ((offset + n).toNat ≤ size.toNat ∨ s.Granted (requests size (offset + n)))

theorem fileReadFd_eq (h : s.OpenFd i p) (buf n offset : Word) : fileReadFd i buf n offset s =
    .ret (fileRead (fileSize p) n offset, if offset > fileSize p then []
      else userMemcpy buf (index2data i + offset) (fileRead (fileSize p) n offset)) s := by
  rw [fileReadFd, get_bind, h.page, bind_ret (h.getInfo s)]
  unfold fileRead
  by_cases ho : offset > fileSize p
  · simp only [if_pos ho]
    rfl
  · simp only [if_neg ho]
    rfl

theorem add_ofNat_inj {a : Word} (h : a + BitVec.ofNat 32 j = a + BitVec.ofNat 32 k) (hj : j < 2 ^ 32)
    (hk : k < 2 ^ 32) : j = k := by
  have heq := congrArg BitVec.toNat ((BitVec.add_right_inj a).mp h)
  rwa [BitVec.toNat_ofNat, BitVec.toNat_ofNat, Nat.mod_eq_of_lt hj, Nat.mod_eq_of_lt hk] at heq

/-- Byte `j` from position `offset` on. -/
theorem add_offset (a offset : Word) (j : Nat) :
    a + offset + BitVec.ofNat 32 j = a + BitVec.ofNat 32 (offset.toNat + j) := by
  rw [← add_ofNat_add, BitVec.ofNat_toNat, BitVec.setWidth_eq]

theorem maxfilesize_eq : maxfilesize = 4194304 := by decide

/-- The windows of the descriptors are among the user's addresses. -/
theorem window_bounds (hi : i < maxfd) :
    0x60000000 ≤ (index2data i).toNat ∧ (index2data i).toNat ≤ 0x67c00000 := by
  rw [toNat_index2data hi]
  unfold maxfd at hi
  omega

theorem fileRead_wraps (hwrap : 2 ^ 32 ≤ offset.toNat + n.toNat) (hle : offset.toNat ≤ size.toNat) :
    fileRead size n offset = n := by
  have hn := n.isLt
  have hadd : (offset + n).toNat = offset.toNat + n.toNat - 2 ^ 32 := by
    rw [BitVec.toNat_add]
    omega
  unfold fileRead
  rw [if_neg (by rw [gt_iff_lt, BitVec.lt_def]; omega),
    if_neg (by rw [gt_iff_lt, BitVec.lt_def, hadd]; omega)]

theorem fileRead_fits (hfit : offset.toNat + n.toNat < 2 ^ 32) (hle : offset.toNat ≤ size.toNat) :
    (fileRead size n offset).toNat = min n.toNat (size.toNat - offset.toNat) := by
  have hadd : (offset + n).toNat = offset.toNat + n.toNat := by
    rw [BitVec.toNat_add]
    omega
  unfold fileRead
  rw [if_neg (by rw [gt_iff_lt, BitVec.lt_def]; omega)]
  by_cases h : offset + n > size
  · have h' : size.toNat < (offset + n).toNat := h
    rw [if_pos h, BitVec.toNat_sub]
    omega
  · have h' : ¬size.toNat < (offset + n).toNat := h
    rw [if_neg h]
    omega

/-- Without a wrap-around a read stays inside the file. -/
theorem readInside_fits (hsize : size.toNat ≤ maxfilesize) (hle : offset.toNat ≤ size.toNat)
    (hfit : offset.toNat + n.toNat < 2 ^ 32) : ReadInside i size offset
      (fileRead size n offset, userMemcpy buf (index2data i + offset) (fileRead size n offset)) := by
  have hr := fileRead_fits hfit hle
  rw [maxfilesize_eq] at hsize
  constructor
  · intro c hc
    obtain ⟨k, hspan, hk, -, -⟩ := userMemcpy_span buf (index2data i + offset) (fileRead size n offset)
    rw [hspan, mem_span] at hc
    obtain ⟨j, hj, rfl⟩ := hc
    exact ⟨offset.toNat + j, by omega, add_offset _ _ _⟩
  · show (fileRead size n offset).toInt ≤ _
    rw [BitVec.toInt_eq_toNat_of_lt (by omega)]
    omega

/-- In an overrun the byte behind the end of the file is copied. -/
theorem readInside_overruns (hi : i < maxfd) (hsize : size.toNat ≤ maxfilesize)
    (hover : ReadOverrun size buf n offset) : ¬ReadInside i size offset
      (n, userMemcpy buf (index2data i + offset) n) := by
  rintro ⟨hin, -⟩
  obtain ⟨hle, hwrap, hbuf⟩ := hover
  obtain ⟨-, hwin⟩ := window_bounds hi
  rw [maxfilesize_eq] at hsize
  have hn := n.isLt
  obtain ⟨k, hspan, -, -, hk⟩ := userMemcpy_span buf (index2data i + offset) n
  have hsrc : (index2data i + offset).toNat = (index2data i).toNat + offset.toNat := by
    rw [BitVec.toNat_add]
    omega
  have hlt : size.toNat - offset.toNat < k := by
    rw [hsrc] at hk
    have := hk hbuf
    omega
  obtain ⟨pos, hpos, heq⟩ := hin _ (by rw [hspan]; exact mem_span.mpr ⟨_, hlt, rfl⟩)
  rw [add_offset] at heq
  have := add_ofNat_inj heq (by omega) (by omega)
  omega

/-- A read that wraps around copies nothing if the end of its buffer wraps around as well. -/
theorem readInside_wraps (hsize : size.toNat ≤ maxfilesize) (hle : offset.toNat ≤ size.toNat)
    (hwrap : 2 ^ 32 ≤ offset.toNat + n.toNat) (hbuf : 2 ^ 32 ≤ buf.toNat + n.toNat) :
    ReadInside i size offset (n, userMemcpy buf (index2data i + offset) n) := by
  obtain ⟨k, hspan, -, hk, -⟩ := userMemcpy_span buf (index2data i + offset) n
  rw [maxfilesize_eq] at hsize
  constructor
  · intro c hc
    rw [hspan, hk hbuf, span_zero] at hc
    exact absurd hc List.not_mem_nil
  · have hneg : n.toInt < 0 := by
      rw [BitVec.toInt_eq_toNat_cond, if_neg (by omega)]
      omega
    show n.toInt ≤ _
    omega

/-- **`file_read` stays inside the file** except in an overrun. -/
theorem readsInside_iff (h : s.OpenFd i p) (hsize : (fileSize p).toNat ≤ maxfilesize) (buf n offset : Word) :
    s.ReadsInside i p buf n offset ↔ ¬ReadOverrun (fileSize p) buf n offset := by
  unfold FileClient.ReadsInside
  rw [fileReadFd_eq h, Outcome.sat_ret, and_iff_right rfl]
  by_cases ho : offset > fileSize p
  · have ho' : (fileSize p).toNat < offset.toNat := ho
    have hzero : fileRead (fileSize p) n offset = 0 := if_pos ho
    rw [if_pos ho, hzero]
    refine iff_of_true ⟨fun c hc => absurd hc List.not_mem_nil, ?_⟩ fun hover => ?_
    · rw [show (0 : Word).toInt = 0 from rfl]
      omega
    · have := hover.1
      omega
  · have hle : offset.toNat ≤ (fileSize p).toNat := BitVec.not_lt.mp ho
    rw [if_neg ho]
    by_cases hwrap : 2 ^ 32 ≤ offset.toNat + n.toNat
    · rw [fileRead_wraps hwrap hle]
      by_cases hbuf : buf.toNat + n.toNat < 2 ^ 32
      · exact iff_of_false (readInside_overruns h.lt hsize ⟨hle, hwrap, hbuf⟩) fun hnot =>
          hnot ⟨hle, hwrap, hbuf⟩
      · exact iff_of_true (readInside_wraps hsize hle hwrap (by omega)) fun hover => hbuf hover.2.2
    · exact iff_of_true (readInside_fits hsize hle (by omega)) fun hover => hwrap hover.2.1

/-- What a write copies stays inside the window, except where both the size and the address of the first byte
wrap around. -/
theorem writeInside_iff (hi : i < maxfd) (hsize : size.toNat ≤ maxfilesize)
    (htot : (offset + n).toNat ≤ size.toNat) :
    WriteInside i size (n, userMemcpy (index2data i + offset) buf n) ↔
      ¬(2 ^ 32 ≤ offset.toNat + n.toNat ∧ 2 ^ 32 ≤ (index2data i).toNat + offset.toNat ∧ buf < ulim) := by
  obtain ⟨hwin, hwin'⟩ := window_bounds hi
  obtain ⟨k, hspan, ⟨hk, hsrc⟩, hnone, hall⟩ := userMemcpy_span (index2data i + offset) buf n
  have hdst : (index2data i + offset).toNat = ((index2data i).toNat + offset.toNat) % 2 ^ 32 :=
    BitVec.toNat_add _ _
  have hsum : (offset + n).toNat = (offset.toNat + n.toNat) % 2 ^ 32 := BitVec.toNat_add _ _
  have ho := offset.isLt
  have hn := n.isLt
  rw [maxfilesize_eq] at hsize
  unfold WriteInside
  rw [maxfilesize_eq]
  simp only [hspan, mem_span]
  by_cases hwrap : 2 ^ 32 ≤ offset.toNat + n.toNat
  · by_cases hover : 2 ^ 32 ≤ (index2data i).toNat + offset.toNat ∧ buf.toNat < 2 ^ 31
    · refine iff_of_false (fun hin => ?_) fun hnot => hnot ⟨hwrap, hover.1, hover.2⟩
      -- the first byte goes to an address below the window
      have hpos : 0 < k := by omega
      obtain ⟨pos, hlt, heq, -⟩ := hin _ ⟨0, hpos, rfl⟩
      have heq' := (add_offset _ _ _).symm.trans heq
      have := add_ofNat_inj heq' (by omega) (by omega)
      omega
    · refine iff_of_true (fun c hc => ?_) fun hnot => hover ⟨hnot.2.1, hnot.2.2⟩
      obtain ⟨j, hj, -⟩ := hc
      omega
  · refine iff_of_true (fun c hc => ?_) fun hover => hwrap hover.1
    obtain ⟨j, hj, rfl⟩ := hc
    exact ⟨offset.toNat + j, by omega, add_offset _ _ _, by omega⟩

/-- **`file_write` stays inside the window** except in an overrun. -/
theorem writesInside_iff (h : s.OpenFd i p) (hsize : (fileSize p).toNat ≤ maxfilesize)
    (buf n offset : Word) :
    s.WritesInside i buf n offset ↔ ¬s.WriteOverrun i (fileSize p) buf n offset := by
  unfold FileClient.WritesInside FileClient.WriteOverrun
  rw [fileWriteFd, get_bind, h.page, bind_ret (h.getInfo s)]
  by_cases htot : (offset + n).toNat > maxfilesize
  · simp only [if_pos htot]
    exact iff_of_true trivial fun hover => absurd hover.2.2.2.1 (by omega)
  · simp only [if_neg htot]
    by_cases hgrow : offset + n > fileSize p
    · have hgrow' : (fileSize p).toNat < (offset + n).toNat := hgrow
      rw [when_pos hgrow]
      have hlim : (offset + n).toNat ≤ maxfilesize := by omega
      have hmono : roundPages (fileSize p) ≤ roundPages (offset + n) := roundPages_mono (by omega) hlim
      have hrun := ftruncate_sat h hlim
      rw [sat_bind]
      cases hr : ftruncate i (offset + n) s with
      | ret a t =>
        rw [hr] at hrun
        have hpage : fileSize (t.page i) = offset + n := by
          unfold FileClient.page
          rw [hrun.1]
          exact fileSize_setSize p _
        show WriteInside i (fileSize (t.page i)) _ ↔ _
        rw [hpage, writeInside_iff h.lt (by omega) (le_refl _)]
        refine not_congr ⟨fun hover => ⟨hover.1, hover.2.1, hover.2.2, by omega, .inr hrun.2⟩, ?_⟩
        exact fun hover => ⟨hover.1, hover.2.1, hover.2.2.1⟩
      | err e t =>
        rw [hr] at hrun
        refine iff_of_true trivial fun hover => ?_
        rcases hover.2.2.2.2 with hle | hgranted
        · omega
        · exact hrun.2 hgranted
      | halt q =>
        rw [hr] at hrun
        exact absurd hrun.1 (Nat.not_lt.mpr hmono)
    · have hle : (offset + n).toNat ≤ (fileSize p).toNat := BitVec.not_lt.mp hgrow
      rw [when_neg hgrow]
      show WriteInside i (fileSize (s.page i)) _ ↔ _
      rw [h.page, writeInside_iff h.lt hsize hle]
      refine not_congr ⟨fun hover => ⟨hover.1, hover.2.1, hover.2.2, by omega, .inl hle⟩, ?_⟩
      exact fun hover => ⟨hover.1, hover.2.1, hover.2.2.1⟩

/-- **Reads stay inside the file and writes inside the window** of the descriptor, wherever the cursor is, except
in the two kinds of overrun. -/
theorem window_kept_iff (h : s.OpenFd i p) (hsize : (fileSize p).toNat ≤ maxfilesize)
    (buf n offset : Word) :
    (s.ReadsInside i p buf n offset ↔ ¬ReadOverrun (fileSize p) buf n offset) ∧
      (s.WritesInside i buf n offset ↔ ¬s.WriteOverrun i (fileSize p) buf n offset) :=
  ⟨readsInside_iff h hsize buf n offset, writesInside_iff h hsize buf n offset⟩

/-- A file of one page, open for reading and writing. -/
def pageFd : Page := serveOpenFd 2048 2 fun k => if k = 32 then 4096 else 0

/-- A client that has opened the file, and whose requests are granted. -/
def pageClient : FileClient where
  fd i := if i = 0 then some pageFd else none
  pages n := n = 0x60000
  replies _ := none
  served _ := 4096
  grants _ size := size

theorem pageClient_open : pageClient.OpenFd 0 pageFd := ⟨by decide, rfl, by decide, .inl (by decide)⟩

theorem window_kept_iff_page :
    (pageClient.ReadsInside 0 pageFd utemp 16 4090 ↔ ¬ReadOverrun (fileSize pageFd) utemp 16 4090) ∧
      (pageClient.WritesInside 0 utemp 16 4090 ↔ ¬pageClient.WriteOverrun 0 (fileSize pageFd) utemp 16 4090) :=
  window_kept_iff pageClient_open (by decide) utemp 16 4090

/-- `seek(0, -4096)`, and then a write of 8192 bytes: it begins below the window of descriptor 0. -/
theorem write_leaves_window : ¬∀ (s : FileClient) (i : Nat) (p : Page), s.OpenFd i p →
    (fileSize p).toNat ≤ maxfilesize → ∀ buf n offset,
      s.ReadsInside i p buf n offset ∧ s.WritesInside i buf n offset := by
  intro hall
  have hsize : fileSize pageFd = 4096 := by decide
  have hle : (fileSize pageFd).toNat ≤ maxfilesize := by decide
  obtain ⟨-, hwrite⟩ := hall pageClient 0 pageFd pageClient_open hle utemp 8192 (-4096)
  rw [writesInside_iff pageClient_open hle, FileClient.WriteOverrun] at hwrite
  have hend : (-4096 + 8192 : Word) = 4096 := by decide
  rw [hsize, hend] at hwrite
  exact hwrite ⟨by decide, by decide, by decide, by decide, .inl (le_refl _)⟩

end Mos
