import Mos.Fs.FatDir
import Mos.User.OpenMode

/-!
# `fstat`

A `struct Filefd` and a `struct FatFileFd` have the directory entry at the same place, and different fields in
it. `getInfoFromFd` and `setInfoToFd` take the layout of the disk that the file is on; `getStatFromFd` takes
the other one. The name begins at the same byte in both, but the size and the directory flag that `fstat`
reports are other bytes of the page: of the name, for a file of the native server, and zeros behind the entry,
for a file of the FAT32 server.
-/

namespace Mos

open Lib Prog Function

variable {s t : FileClient} {p q : Page} {i j k : Nat} {m size fileid w : Word} {f : Nat → Word}

/-! ## `getStatFromFd` -/

/-- Byte `k` of a page or of a directory entry. -/
def pageByte (p : Nat → Word) (k : Nat) : Byte := byteOf (p (k / 4)) (k % 4)

/-- The string that begins at byte `k` of the page. -/
def cString (p : Page) (k : Nat) : List Byte :=
  ((List.range (4096 - k)).map fun j => pageByte p (k + j)).takeWhile (· ≠ 0)

/-- `struct Stat`, without `st_dev`. -/
structure Stat where
  stName : List Byte
  stSize : Word
  stIsdir : Bool

/-- `getStatFromFd(fd, st)`. -/
def getStatFromFd (p : Page) : FileM Stat :=
  if p 3 = normalDisk then
    -- `struct FatFileFd`: `DIR_FileSize` and `DIR_Attr`
    pure ⟨cString p 20, p 12, pageByte p 31 = attrDirectory⟩
  else if p 3 = fat32Disk then
    -- `struct Filefd`: `f_size` and `f_type`
    pure ⟨cString p 20, p 37, p 38 = ftypeDir⟩
  else Prog.halt .disktype

/-- `fstat(fdnum, stat)`, with `file_stat`. -/
def fdFstat (fdnum : Nat) : FileM Stat := do
  fdLookup fdnum
  let s ← Prog.get
  devLookup (s.page fdnum 0)
  getStatFromFd (s.page fdnum)

/-! ## The served entry -/

/-- The two disks. -/
inductive Disk where
  | normal
  | fat32

/-- The page that the server of the disk fills. -/
def Disk.openFd (fileid m : Word) (f : Nat → Word) : Disk → Page
  | .normal => serveOpenFd fileid m f
  | .fat32 => fatserveOpenFd fileid m f

/-- The size of the name field. -/
def Disk.nameLen : Disk → Nat
  | .normal => 128
  | .fat32 => 11

/-- The name in the entry: its name field up to the first zero byte. -/
def Disk.entryName (d : Disk) (f : Nat → Word) : List Byte :=
  ((List.range d.nameLen).map (pageByte f)).takeWhile (· ≠ 0)

/-- The directory flag of the entry: `f_type == FTYPE_DIR`, or `DIR_Attr == ATTR_DIRECTORY`. -/
def Disk.IsDir (f : Nat → Word) : Disk → Prop
  | .normal => f 33 = ftypeDir
  | .fat32 => pageByte f 11 = attrDirectory

/-- `fstat` tells the truth about the entry `f`: the size that `file_read` uses, the directory flag and the
name. -/
def FileClient.StatTrue (s : FileClient) (i : Nat) (d : Disk) (f : Nat → Word) : Prop :=
  ∃ st, fdFstat i s = .ret st s ∧ st.stSize = fileSize (s.page i) ∧
    (st.stIsdir = true ↔ d.IsDir f) ∧ st.stName = d.entryName f

/-- Where the fields that `fstat` reads happen to say the same, and the name has an end. -/
def Disk.Coincides (f : Nat → Word) (q : Page) : Disk → Prop
  | .normal => f 7 = fileSize q ∧ (pageByte f 11 = attrDirectory ↔ f 33 = ftypeDir) ∧
      ∃ k ≤ 128, pageByte q (20 + k) = 0
  | .fat32 => fileSize q = 0 ∧ pageByte f 11 ≠ attrDirectory ∧ ∃ k ≤ 11, pageByte q (20 + k) = 0

/-! ## Strings -/

/-- A string that ends within its field, or right behind it, is the field up to its end. -/
theorem takeWhile_field {g g' : Nat → Byte} {n N : Nat} (hn : n < N) (hg : ∀ k < n, g k = g' k) :
    ((List.range N).map g).takeWhile (· ≠ 0) = ((List.range n).map g').takeWhile (· ≠ 0) ↔
      ∃ k ≤ n, g k = 0 := by
  have hmap : (List.range n).map g' = (List.range n).map g :=
    List.map_congr_left fun k hk => (hg k (List.mem_range.mp hk)).symm
  obtain ⟨r, rfl⟩ : ∃ r, N = n + (r + 1) := ⟨N - (n + 1), by omega⟩
  rw [hmap, List.range_add, List.map_append, List.map_map, List.range_succ_eq_map, List.map_cons]
  by_cases hall : ∀ a ∈ (List.range n).map g, decide (a ≠ 0) = true
  · have hne : ∀ k < n, g k ≠ 0 := fun k hk =>
      of_decide_eq_true (hall _ (List.mem_map.mpr ⟨k, List.mem_range.mpr hk, rfl⟩))
    rw [List.takeWhile_append_of_pos hall, List.takeWhile_eq_self_iff.mpr hall]
    by_cases hzero : g n = 0
    · refine iff_of_true ?_ ⟨n, le_refl n, hzero⟩
      rw [List.takeWhile_cons_of_neg (by simpa using hzero), List.append_nil]
    · refine iff_of_false (fun heq => ?_) ?_
      · rw [List.takeWhile_cons_of_pos (by simpa using hzero)] at heq
        exact absurd (List.append_right_eq_self.mp heq) (List.cons_ne_nil _ _)
      · rintro ⟨k, hk, hzk⟩
        rcases Nat.lt_or_eq_of_le hk with hlt | rfl
        · exact hne k hlt hzk
        · exact hzero hzk
  · refine iff_of_true ?_ ?_
    · rw [List.takeWhile_append, if_neg]
      intro hlen
      have hself := (List.takeWhile_prefix fun a : Byte => decide (a ≠ 0)).eq_of_length hlen
      exact hall (List.takeWhile_eq_self_iff.mp hself)
    · push Not at hall
      obtain ⟨a, ha, hz⟩ := hall
      obtain ⟨k, hk, rfl⟩ := List.mem_map.mp ha
      exact ⟨k, (List.mem_range.mp hk).le, by simpa using hz⟩

/-! ## What `fstat` reports -/

theorem filefd_entry {disktype : Word} {len : Nat} (hj : j < len) :
    filefd disktype fileid m len f (5 + j) = f j := by
  unfold filefd
  rw [if_neg (by omega), if_neg (by omega), if_neg (by omega), if_neg (by omega), if_pos (by omega),
    Nat.add_sub_cancel_left]

theorem filefd_rest {disktype : Word} {len : Nat} (hk : 5 + len ≤ k) :
    filefd disktype fileid m len f k = 0 := by
  unfold filefd
  rw [if_neg (by omega), if_neg (by omega), if_neg (by omega), if_neg (by omega), if_neg (by omega)]

/-- A byte of the entry, in the page of the descriptor. -/
theorem pageByte_entry (h : q (5 + k / 4) = f (k / 4)) : pageByte q (20 + k) = pageByte f k := by
  have hword : (20 + k) / 4 = 5 + k / 4 := by omega
  have hbyte : (20 + k) % 4 = k % 4 := by omega
  rw [pageByte, pageByte, hword, hbyte, h]

theorem fdFstat_eq (h : s.OpenFd i q) : fdFstat i s = getStatFromFd q s := by
  rw [fdFstat, bind_ret h.lookup, get_bind, h.page, bind_ret (devLookup_file h s)]

/-- The name that `fstat` reports. -/
theorem name_true_iff (d : Disk) {n : Nat} (hn : d.nameLen = n)
    (hbytes : ∀ k < n, pageByte q (20 + k) = pageByte f k) :
    cString q 20 = d.entryName f ↔ ∃ k ≤ n, pageByte q (20 + k) = 0 := by
  have hlt : n < 4096 - 20 := by
    subst hn
    cases d <;> decide
  unfold cString Disk.entryName
  rw [hn]
  exact takeWhile_field hlt hbytes

/-- `fstat` for a file of the native server. -/
theorem statTrue_normal (h : s.OpenFd i q)
    (hsame : ∀ k, k ≠ 1 → k ≠ 37 → q k = serveOpenFd fileid m f k) :
    s.StatTrue i .normal f ↔ Disk.Coincides f q .normal := by
  have hentry : ∀ j < 32, q (5 + j) = f j := by
    intro j hj
    rw [hsame _ (by omega) (by omega)]
    exact filefd_entry (by omega)
  have hdisk : q 3 = normalDisk := hsame 3 (by decide) (by decide)
  have hbytes : ∀ k < 128, pageByte q (20 + k) = pageByte f k :=
    fun k hk => pageByte_entry (hentry _ (by omega))
  have hstat : fdFstat i s = .ret ⟨cString q 20, f 7, pageByte f 11 = attrDirectory⟩ s := by
    rw [fdFstat_eq h, getStatFromFd, if_pos hdisk, ← hbytes 11 (by decide), ← hentry 7 (by decide)]
    rfl
  have hname := name_true_iff .normal (n := 128) rfl hbytes
  have hdir : (decide (pageByte f 11 = attrDirectory) = true ↔ Disk.IsDir f .normal) ↔
      (pageByte f 11 = attrDirectory ↔ f 33 = ftypeDir) := by rw [decide_eq_true_eq, Disk.IsDir]
  rw [FileClient.StatTrue, Disk.Coincides, hstat, h.page, ← hname, ← hdir]
  constructor
  · rintro ⟨st, hst, hall⟩
    obtain ⟨rfl, -⟩ := Outcome.ret.inj hst
    dsimp only at hall
    exact hall
  · intro hall
    refine ⟨_, rfl, ?_⟩
    dsimp only
    exact hall

/-- `fstat` for a file of the FAT32 server. -/
theorem statTrue_fat32 (h : s.OpenFd i q)
    (hsame : ∀ k, k ≠ 1 → k ≠ 12 → q k = fatserveOpenFd fileid m f k) :
    s.StatTrue i .fat32 f ↔ Disk.Coincides f q .fat32 := by
  have hentry : ∀ j < 3, q (5 + j) = f j := by
    intro j hj
    rw [hsame _ (by omega) (by omega)]
    exact filefd_entry (by omega)
  have hdisk : q 3 = fat32Disk := hsame 3 (by decide) (by decide)
  have hzero : ∀ k, k = 37 ∨ k = 38 → q k = 0 := by
    intro k hk
    rw [hsame k (by omega) (by omega)]
    exact filefd_rest (by omega)
  have hbytes : ∀ k < 11, pageByte q (20 + k) = pageByte f k :=
    fun k hk => pageByte_entry (hentry _ (by omega))
  have hne : q 3 ≠ normalDisk := by
    rw [hdisk]
    decide
  have hstat : fdFstat i s = .ret ⟨cString q 20, 0, false⟩ s := by
    rw [fdFstat_eq h, getStatFromFd, if_neg hne, if_pos hdisk, hzero 37 (.inl rfl), hzero 38 (.inr rfl)]
    rfl
  have hname := name_true_iff .fat32 (n := 11) rfl hbytes
  have hdir : (false = true ↔ Disk.IsDir f .fat32) ↔ pageByte f 11 ≠ attrDirectory := by
    rw [Disk.IsDir]
    simp
  rw [FileClient.StatTrue, Disk.Coincides, hstat, h.page, ← hname, ← hdir, eq_comm (a := fileSize q)]
  constructor
  · rintro ⟨st, hst, hall⟩
    obtain ⟨rfl, -⟩ := Outcome.ret.inj hst
    dsimp only at hall
    exact hall
  · intro hall
    refine ⟨_, rfl, ?_⟩
    dsimp only
    exact hall

/-- **`fstat` tells the truth** about a file of either disk, after any sequence of calls on its descriptor, if and
only if the fields of the other layout coincide with those of its own. -/
theorem stat_true_iff (d : Disk) {ops : List FileOp} (hi : i < maxfd)
    (hopen : s.fd i = some (d.openFd fileid m f)) (hrun : run (FileOp.step i) s ops = some t) :
    t.StatTrue i d f ↔ d.Coincides f (t.page i) := by
  cases d with
  | normal =>
    have h : s.OpenFd i (serveOpenFd fileid m f) := ⟨hi, hopen, rfl, .inl rfl⟩
    obtain ⟨q, hq, hsame⟩ := holds_run h.holds hrun
    rw [hq.page]
    exact statTrue_normal hq hsame
  | fat32 =>
    have h : s.OpenFd i (fatserveOpenFd fileid m f) := ⟨hi, hopen, rfl, .inr rfl⟩
    obtain ⟨q, hq, hsame⟩ := holds_run h.holds hrun
    rw [hq.page]
    exact statTrue_fat32 hq hsame

/-- The entry of the regular file `a` of 16 bytes. -/
def fileEntry : Nat → Word := fun k => if k = 0 then 0x61 else if k = 32 then 16 else 0

/-- The client that has opened it for reading and writing. -/
def statClient : FileClient :=
  { pageClient with fd := fun i => if i = 0 then some (serveOpenFd 2048 2 fileEntry) else none }

theorem stat_true_iff_file : statClient.StatTrue 0 .normal fileEntry ↔
    Disk.Coincides fileEntry (statClient.page 0) .normal :=
  have hopen : statClient.fd 0 = some (Disk.normal.openFd 2048 2 fileEntry) := rfl
  have hrun : run (FileOp.step 0) statClient [] = some statClient := rfl
  stat_true_iff .normal (by decide) hopen hrun

/-- The size of the file `a` is 16, and `fstat` says 0. -/
theorem stat_lies : ¬∀ (d : Disk) (s t : FileClient) (i : Nat) (fileid m : Word) (f : Nat → Word)
    (ops : List FileOp), i < maxfd → s.fd i = some (d.openFd fileid m f) →
      run (FileOp.step i) s ops = some t → t.StatTrue i d f := by
  intro hall
  have htrue := hall .normal statClient statClient 0 2048 2 fileEntry [] (by decide) rfl rfl
  have hopen : statClient.OpenFd 0 (serveOpenFd 2048 2 fileEntry) := ⟨by decide, rfl, rfl, .inl rfl⟩
  rw [statTrue_normal hopen fun _ _ _ => rfl] at htrue
  exact absurd htrue.1 (by decide)

end Mos
