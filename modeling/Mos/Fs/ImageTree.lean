import Mos.Fs.ImageMount

/-!
# The server shows the tree of the host

The files and directories that `fsformat` was given are found by the server under their paths, with their types, sizes
and contents; a path that leads nowhere on the host leads nowhere in the server.
-/

namespace Mos

open Lib Prog Function

namespace Builder

variable {s t : Builder} {u v w : Fs} {p q : FileLoc} {b f i k : Nat} {args : List HostFile} {name : List Byte}

/-! ## What the server shows -/

/-- The server has the files of the builder's variables `s`. -/
structure Serving (s : Builder) (v : Fs) : Prop where
  treed : s.Treed .little
  own : v.Own (dirSet s) (indexSet s)
  complete : v.Complete (dirSet s)
  fields : ∀ q, s.IsFile q → ∀ k < 64, k ≠ 45 → v.look (addr q + k) = s.fieldOf .little q (4 * k)
  links : ∀ q, s.IsFile q → ∀ k < nindirect, v.block (addr q) k = s.link .little q k
  data : ∀ b, s.type b = .data → ∀ i < 1024, v.look (1024 * b + i) = s.word .little (.block b) (4 * i)

theorem Mounts.serving (hv : Mounts s t v) (h : Image .little args s t) : Serving s v := by
  have ho := hv.own h
  have hlink : ∀ q, s.IsFile q → ∀ k < nindirect, v.block (addr q) k = s.link .little q k := by
    intro q hq k hk
    unfold Fs.block
    split
    · next hdirect => exact hv.num_direct h hq hdirect
    · next hdirect =>
      rw [show fIndirect (addr q) = addr q + 44 from rfl, hv.num_indirect h hq]
      by_cases h0 : s.indirect .little q = 0
      · rw [if_neg (by simp [h0]), link, if_neg hdirect, h0, Builder.word, wordAt_zero fun x _ _ => h.image.formed.laid.zero x]
        rfl
      · rw [if_pos ⟨hk, h0⟩, hv.num_entry h hq h0 hk, if_neg hdirect]
  refine ⟨h.treed, ho, ?_, fun q hq k hk _ => hv.field h hq hk, hlink, fun b hb i hi => ?_⟩
  · intro f hf hd n hn
    obtain ⟨q, hq, rfl⟩ := mem_files.mp hf
    have hdir : s.fieldOf .little q typeField = ftypeDir := (hv.field h hq (k := 33) (by decide)).symm.trans hd
    rw [Fs.nblocksOf, show fSize (addr q) = addr q + 32 from rfl, hv.field h hq (by decide)] at hn
    obtain ⟨hlt, hne⟩ := h.image.formed.linked.dirs q hq hdir n hn
    rw [hlink q hq n hlt]
    exact hne
  · have hb0 : b ≠ 0 := by
      rintro rfl
      rw [h.image.formed.laid.boot] at hb
      cases hb
    exact hv.word hb0 (h.image.block_of_type (by rw [hb]; decide) (by rw [hb]; decide)) hi

namespace Serving

theorem mem (hq : s.IsFile q) : addr q ∈ Fs.files (dirSet s) := mem_files.mpr ⟨q, hq, rfl⟩

theorem isDir_iff (h : Serving s v) (hq : s.IsFile q) :
    v.IsDir (addr q) ↔ s.fieldOf .little q typeField = ftypeDir := by
  unfold Fs.IsDir
  rw [show fType (addr q) = addr q + 33 from rfl, h.fields q hq 33 (by decide) (by decide)]
  rfl

/-- Lookups do not change what the server shows. -/
theorem alters (h : Serving s v) (ha : v.Alters (Fs.ups (dirSet s)) w) : Serving s w := by
  refine ⟨h.treed, h.own.alters h.own.inert_ups ha, h.complete.alters h.own ha, fun q hq k hk hne => ?_, fun q hq k hk => ?_,
    fun b hb i hi => ?_⟩
  · rw [ha.look _ (h.own.notMem_ups (mem hq) hk hne)]
    exact h.fields q hq k hk hne
  · rw [h.own.block_congr (fun a hslot => ha.look a fun hups => h.own.inert_ups.2.1 a hups hslot) (mem hq)]
    exact h.links q hq k hk
  · rw [ha.look _ ?_]
    · exact h.data b hb i hi
    · rintro ⟨g, hg, heq⟩
      obtain ⟨r, hr, rfl⟩ := mem_files.mp hg
      have hblk := Fs.file_words (mem hr) (show 45 < 64 by decide)
      rw [show addr r + 45 = fDir (addr r) from rfl, ← heq, show (1024 * b + i) / 1024 = b by omega] at hblk
      rcases h.own.file_block (mem hr) with hroot | ⟨hD, -, -⟩
      · have h1 : b = 1 := by
          rw [hroot] at hblk
          exact hblk
        rw [h1, h.treed.formed.laid.super] at hb
        cases hb
      · rw [← hblk] at hD
        have hD : s.type b = .file := hD
        rw [hb] at hD
        cases hD

end Serving

/-! ## Names -/

/-- The server reads the names of the builder. -/
theorem Serving.nameByte (h : Serving s v) (hq : s.IsFile q) (hk : k < 128) :
    v.nameByte (addr q) k = s.mem q.region (q.off + k) := by
  have hdiv : 4 * (k / 4) + k % 4 = k := Nat.div_add_mod k 4
  rw [Fs.nameByte, h.fields q hq (k / 4) (by omega) (by omega)]
  show byteAt (wordAt .little (s.mem q.region) (q.off + 4 * (k / 4))) (k % 4) = _
  have hbyte := byteAt_wordAt (e := .little) (m := s.mem q.region) (a := q.off + 4 * (k / 4)) (x := q.off + k)
    (by omega) (by omega)
  rw [← hbyte]
  congr 1
  show k % 4 = q.off + k - (q.off + 4 * (k / 4))
  omega

/-- Two names without zeros that agree up to the end of one are the same. -/
theorem getD_inj : ∀ {l m : List Byte}, 0 ∉ l → 0 ∉ m → (∀ k < m.length + 1, l.getD k 0 = m.getD k 0) → l = m := by
  intro l
  induction l with
  | nil =>
    intro m _ hm h
    cases m with
    | nil => rfl
    | cons c m =>
      have h0 := h 0 (Nat.succ_pos _)
      exact absurd (List.mem_cons.mpr (.inl h0)) hm
  | cons c l ih =>
    intro m hl hm h
    cases m with
    | nil =>
      have h0 := h 0 (Nat.succ_pos _)
      exact absurd (List.mem_cons.mpr (.inl h0.symm)) hl
    | cons c' m =>
      have h0 : c = c' := h 0 (Nat.succ_pos _)
      rw [h0, ih (fun h => hl (List.mem_cons_of_mem _ h)) (fun h => hm (List.mem_cons_of_mem _ h)) fun k hk =>
        h (k + 1) (Nat.succ_lt_succ hk)]

/-- A file has a name exactly if it got it. -/
theorem Serving.hasName_iff (h : Serving s v) (hq : s.IsFile q) {given : List Byte} (hgiven : s.NameIs q given)
    (h0 : 0 ∉ given) (hname : 0 ∉ name) (hlen : name.length < maxnamelen) :
    v.HasName (addr q) name ↔ given = name := by
  have hbyte : ∀ k < name.length + 1, v.nameByte (addr q) k = given.getD k 0 := by
    intro k hk
    have hlt : k < 128 := Nat.lt_of_lt_of_le hk hlen
    rw [h.nameByte hq hlt, hgiven k hlt]
  constructor
  · exact fun hhas => getD_inj h0 hname fun k hk => (hbyte k hk).symm.trans (hhas k hk)
  · rintro rfl
    exact hbyte

/-- A file without a name is not found. -/
theorem Serving.named_of_hasName (h : Serving s v) (hq : s.IsFile q) (hne : name ≠ []) (hname : 0 ∉ name)
    (hhas : v.HasName (addr q) name) : s.Named q := by
  have h0 := hhas 0 (Nat.succ_pos _)
  rw [h.nameByte hq (by decide), Nat.add_zero] at h0
  rw [Named, h0]
  cases name with
  | nil => exact absurd rfl hne
  | cons c cs => exact fun hc => hname (List.mem_cons.mpr (.inl hc.symm))

/-! ## Directories -/

/-- The entries that the server goes through are the places of the builder's directory. -/
theorem Serving.entries_eq (h : Serving s v) (hd : s.IsDir .little p) :
    v.entries (addr p) = (s.slots .little p).map addr := by
  have hn : v.nblocksOf (addr p) = s.nblocksOf .little p := by
    rw [Fs.nblocksOf, show fSize (addr p) = addr p + 32 from rfl, h.fields p hd.1 32 (by decide) (by decide)]
    rfl
  rw [Fs.entries, Fs.entriesFrom, hn, ← List.range_eq_range', slots, List.map_flatMap]
  refine List.flatMap_congr fun k hk => ?_
  obtain ⟨hlt, -, -⟩ := h.treed.formed.dirLink hd (List.mem_range.mp hk)
  rw [h.links p hd.1 k hlt, slotsIn, List.map_map]
  exact List.map_congr_left fun i _ => (addr_slot _ i).symm

/-- `dir_lookup` searches the files of the directory. -/
theorem Serving.find_eq (h : Serving s v) (hd : s.IsDir .little p) (hne : name ≠ []) (hname : 0 ∉ name) :
    v.find (addr p) name = ((s.entries .little p).find? fun q => v.HasName (addr q) name).map addr := by
  rw [Fs.find, h.entries_eq hd, List.find?_map, entries, List.find?_filter]
  congr 1
  refine List.find?_congr fun q hq => ?_
  have hfile := h.treed.formed.isFile_of_mem hd hq
  simp only [Function.comp_apply, decide_eq_true_eq]
  exact decide_eq_decide.mpr ⟨fun hhas => ⟨h.named_of_hasName hfile hne hname hhas, hhas⟩, fun hboth => hboth.2⟩

end Builder

namespace HostFile

/-- The name of a file in the image. -/
def name? : HostFile → Option (List Byte)
  | .file name _ _ => some name.bytes
  | .dir name _ => some (name.bytes.take (maxnamelen - 1))
  | .closed => none

/-- The first entry of a directory with a name. -/
def child? : HostFile → List Byte → Option HostFile
  | .dir _ entries, name => entries.find? fun a => a.name? = some name
  | _, _ => none

/-- Where a path leads to on the host. -/
def walk : HostFile → List (List Byte) → Except Err HostFile
  | a, [] => .ok a
  | a, name :: names =>
    if name.length ≥ maxnamelen then .error .badPath
    else
      match a.child? name with
      | some b => b.walk names
      | none => .error .notFound

end HostFile

namespace Builder

/-- The file `q` is the copy of a file or a directory of the host. -/
def IsCopy (s : Builder) (q : FileLoc) : HostFile → Prop
  | .file name size reads => s.IsFile q ∧ CopyOf .little s name.bytes size reads q
  | .dir _ entries => s.IsDir .little q ∧ ShowsAll .little s (fun _ => True) entries (s.entries .little q)
  | .closed => False

theorem IsCopy.isFile {s : Builder} {q : FileLoc} {a : HostFile} (h : IsCopy s q a) : s.IsFile q := by
  cases a with
  | file name size reads => exact h.1
  | dir name entries => exact h.1.1
  | closed => exact h.elim

/-- A file that `fsformat` makes of one of the host. -/
theorem Shows.cases {a : HostFile} {qs : List FileLoc} (h : Shows .little s (fun _ => True) a qs) :
    qs = [] ∧ a.name? = none ∨
      ∃ q given, qs = [q] ∧ a.name? = some given ∧ 0 ∉ given ∧ s.NameIs q given ∧ s.IsCopy q a := by
  cases a with
  | file name size reads =>
    rw [Shows] at h
    obtain ⟨q, rfl, -, hq, -, hcopy⟩ := h
    exact .inr ⟨q, _, rfl, rfl, name.noNul, hcopy.name, hq, hcopy⟩
  | dir name entries =>
    rw [Shows] at h
    obtain ⟨q, rfl, -, hd, hname, hall⟩ := h
    exact .inr ⟨q, _, rfl, rfl, fun h0 => name.noNul (List.mem_of_mem_take h0), hname, hd, hall⟩
  | closed =>
    rw [Shows] at h
    exact .inl ⟨h, rfl⟩

/-- A name is found among the copies exactly if it is found on the host. -/
theorem Serving.find_copy (h : Serving s v) (hname : 0 ∉ name) (hlen : name.length < maxnamelen) :
    ∀ as qs, ShowsAll .little s (fun _ => True) as qs →
      (∃ a q, (as.find? fun a => a.name? = some name) = some a ∧
        (qs.find? fun q => v.HasName (addr q) name) = some q ∧ IsCopy s q a) ∨
      (as.find? fun a => a.name? = some name) = none ∧ (qs.find? fun q => v.HasName (addr q) name) = none := by
  intro as
  induction as with
  | nil =>
    intro qs hqs
    rw [ShowsAll] at hqs
    rw [hqs]
    exact .inr ⟨rfl, rfl⟩
  | cons a as ih =>
    intro qs hqs
    rw [ShowsAll] at hqs
    obtain ⟨xs, ys, rfl, ha, has⟩ := hqs
    rcases ha.cases with ⟨rfl, hnone⟩ | ⟨q, given, rfl, hgiven, h0, hq, hcopy⟩
    · rw [List.find?_cons_of_neg (by simp [hnone])]
      exact ih ys has
    · have hiff := h.hasName_iff hcopy.isFile hq h0 hname hlen
      rw [List.singleton_append]
      by_cases heq : given = name
      · rw [List.find?_cons_of_pos (by simp [hgiven, heq]),
          List.find?_cons_of_pos (by simpa using hiff.mpr heq)]
        exact .inl ⟨a, q, rfl, rfl, hcopy⟩
      · rw [List.find?_cons_of_neg (by simp [hgiven, heq]),
          List.find?_cons_of_neg (by simpa using fun hhas => heq (hiff.mp hhas))]
        exact ih ys has

/-! ## Paths -/

/-- A walk through the server ends where the walk through the host does. -/
inductive Leads (s : Builder) : Except Err HostFile → Except Err Walk → Prop where
  | found {a : HostFile} {q : FileLoc} {dir : Option Nat} (h : IsCopy s q a) : Leads s (.ok a) (.ok (.found dir (addr q)))
  | missing {dir : Nat} {name : List Byte} : Leads s (.error .notFound) (.ok (.missing dir name))
  | error {e : Err} : Leads s (.error e) (.error e)

/-- **A walk through the server is a walk through the host.** -/
theorem Serving.resolve (h : Serving s v) : ∀ names, (∀ n ∈ names, n ≠ [] ∧ 0 ∉ n) → ∀ (a : HostFile) q o,
    IsCopy s q a → Leads s (a.walk names) (Mos.resolve v.IsDir v.find o (addr q) names) := by
  intro names
  induction names with
  | nil => exact fun _ a q o hq => .found hq
  | cons name names ih =>
    intro hnames a q o hq
    obtain ⟨hne, hnul⟩ := hnames name List.mem_cons_self
    have hrest := fun n hn => hnames n (List.mem_cons_of_mem _ hn)
    rw [HostFile.walk, Mos.resolve]
    by_cases hlen : name.length ≥ maxnamelen
    · rw [if_pos hlen, if_pos hlen]
      exact .error
    · rw [if_neg hlen, if_neg hlen]
      cases a with
      | file given size reads =>
        have hreg : ¬v.IsDir (addr q) := by
          rw [h.isDir_iff hq.1, hq.2.type]
          decide
        rw [if_pos hreg]
        exact .error
      | closed => exact hq.elim
      | dir given entries =>
        rw [if_neg (not_not_intro ((h.isDir_iff hq.1.1).mpr hq.1.2.2)), h.find_eq hq.1 hne hnul, HostFile.child?]
        rcases h.find_copy hnul (Nat.lt_of_not_le hlen) entries _ hq.2 with ⟨b, r, hb, hr, hcopy⟩ | ⟨hb, hr⟩
        · rw [hb, hr]
          exact ih hrest b r (some (addr q)) hcopy
        · rw [hb, hr]
          dsimp only [Option.map_none]
          split
          · exact .missing
          · exact .error

/-! ## What a client gets -/

/-- The file `f` of the server has the type, the size and the contents of a file of the host. -/
def Serves (v : Fs) (f : Nat) : HostFile → Prop
  | .file _ size reads => v.look (fType f) = ftypeReg ∧ v.look (fSize f) = size ∧
      ∀ i (hi : i < reads.length), (fileGetBlock f i v).Sat
        (fun b w => ∀ j < 1024, w.word (1024 * b + j) = wordAt .little (fun x => reads[i].bytes.getD x 0) (4 * j))
        (fun _ _ => False) (fun p => p = .noMemory)
  | .dir _ _ => v.look (fType f) = ftypeDir
  | .closed => False

theorem Serving.serves {a : HostFile} (h : Serving s v) (hq : IsCopy s q a) (hm : v.isMapped (addr q / 1024) = true) :
    Serves v (addr q) a := by
  cases a with
  | closed => exact hq
  | dir name entries => exact (h.isDir_iff hq.1.1).mpr hq.1.2.2
  | file name size reads =>
    obtain ⟨hfile, hcopy⟩ := hq
    refine ⟨(h.fields q hfile 33 (by decide) (by decide)).trans hcopy.type,
      (h.fields q hfile 32 (by decide) (by decide)).trans hcopy.size, fun i hi => ?_⟩
    obtain ⟨htype, hmem⟩ := hcopy.blocks i hi
    have hlink := h.links q hfile i (hi.trans_le hcopy.length)
    have hne : v.block (addr q) i ≠ 0 := by
      rw [hlink]
      intro h0
      rw [h0, h.treed.formed.laid.boot] at htype
      cases htype
    refine (fileGetBlock_present h.own (Serving.mem hfile) hm hne).mono ?_ (fun _ _ h => h) (fun _ h => h)
    rintro b w ⟨rfl, hsees, hmapped⟩ j hj
    have hblk : (1024 * v.block (addr q) i + j) / 1024 = v.block (addr q) i := by omega
    rw [← Fs.look_of_mapped (by rw [hblk]; exact hmapped), hsees.look, hlink, h.data _ htype j hj]
    exact wordAt_congr fun x _ _ => hmem x

/-- **`file_open` finds what the path leads to on the host**, and changes nothing that the server shows. -/
theorem Serving.fileOpen {a : HostFile} {top : List Byte} (h : Serving s v) (h6 : top.length = 6)
    (rest : List Byte) :
    (fileOpen (top ++ rest) v).Sat
      (fun f u => Serving s u ∧ (0 ∉ rest → IsCopy s root a →
        ∃ b, a.walk (pieces slash rest) = .ok b ∧ Serves u f b))
      (fun e u => Serving s u ∧ (0 ∉ rest → IsCopy s root a → a.walk (pieces slash rest) = .error e))
      (fun p => p = .noMemory) := by
  have hnames : 0 ∉ rest → ∀ n ∈ pieces slash rest, n ≠ [] ∧ 0 ∉ n := fun hnul n hn =>
    ⟨(mem_pieces hn).1, fun h0 => hnul ((mem_pieces hn).2.2 0 h0)⟩
  have hleads : 0 ∉ rest → IsCopy s root a → Leads s (a.walk (pieces slash rest)) (v.resolve (pieces slash rest)) :=
    fun hnul hroot => h.resolve (pieces slash rest) (hnames hnul) a root none hroot
  rw [Mos.fileOpen]
  refine sat_call (walkPath_resolve h.own h.complete h6 rest) ?_ ?_ (fun _ h => h)
  · rintro w u ⟨halters, hres, hw⟩
    have hu := h.alters halters
    rw [hres] at hleads
    cases w with
    | found o f =>
      refine ⟨hu, fun hnul hroot => ?_⟩
      generalize a.walk (pieces slash rest) = r at hleads
      obtain ⟨b, q, rfl, rfl, hq⟩ : ∃ b q, r = .ok b ∧ f = addr q ∧ IsCopy s q b := by
        cases hleads hnul hroot with
        | found hq => exact ⟨_, _, rfl, rfl, hq⟩
      exact ⟨b, rfl, hu.serves hq hw.2⟩
    | missing d name =>
      refine ⟨hu, fun hnul hroot => ?_⟩
      generalize a.walk (pieces slash rest) = r at hleads
      cases hleads hnul hroot
      rfl
  · rintro e u ⟨halters, hres⟩
    rw [hres] at hleads
    refine ⟨h.alters halters, fun hnul hroot => ?_⟩
    generalize a.walk (pieces slash rest) = r at hleads
    cases hleads hnul hroot
    rfl

/-- Some files are opened, one after the other. -/
def openAll : List (List Byte) → FsM Unit
  | [] => pure ()
  | path :: paths => do
    let _ ← Prog.attempt (Mos.fileOpen path)
    openAll paths

theorem Serving.openAll : ∀ paths {v : Fs}, Serving s v → (∀ p ∈ paths, 6 ≤ p.length) →
    (Builder.openAll paths v).Sat (fun _ u => Serving s u) (fun _ _ => False) (fun p => p = .noMemory) := by
  intro paths
  induction paths with
  | nil => exact fun h _ => h
  | cons path paths ih =>
    intro v h h6
    have hlen := h6 path List.mem_cons_self
    have htop : (path.take 6).length = 6 := by
      rw [List.length_take]
      omega
    have hopen := h.fileOpen (a := .closed) htop (path.drop 6)
    rw [List.take_append_drop] at hopen
    rw [Builder.openAll, sat_bind, sat_attempt]
    refine hopen.mono ?_ ?_ (fun _ h => h)
    · rintro f u ⟨hu, -⟩
      exact ih hu fun p hp => h6 p (List.mem_cons_of_mem _ hp)
    · rintro e u ⟨hu, -⟩
      exact ih hu fun p hp => h6 p (List.mem_cons_of_mem _ hp)

theorem fileOpen_feeds (path : List Byte) : Feeds (Mos.fileOpen path) := by
  unfold Mos.fileOpen
  refine within_bind (walkPath_feeds path) fun w => ?_
  cases w with
  | found o f => exact within_pure _
  | missing d name => exact within_fail _

theorem openAll_feeds : ∀ paths, Feeds (Builder.openAll paths) := by
  intro paths
  induction paths with
  | nil => exact within_pure _
  | cons path paths ih => exact within_bind (within_attempt (fileOpen_feeds path)) fun _ => ih

/-! ## Main result -/

/-- The root directory, as it would be on the host. -/
def rootDir (args : List HostFile) : HostFile := .dir ⟨rootName, by decide, by decide⟩ args

/-- **Builder and server agree.** A server that mounts the image that a little-endian `fsformat` made of the tree
`args` comes through `fs_init`, and whatever is opened after that, every path leads to the same file as on the host, or
fails with the same error. -/
theorem fsformat_fsInit_fileOpen (args : List HostFile) (t : Builder) (h : fsformat .little args zeroed = .ret () t)
    (avail : Nat → Bool) (paths : List (List Byte)) (hpaths : ∀ p ∈ paths, 6 ≤ p.length) (top rest : List Byte)
    (h6 : top.length = 6) (hnul : 0 ∉ rest) :
    ((do
      fsInit
      openAll paths
      Mos.fileOpen (top ++ rest) : FsM Nat) (unmounted t.words avail)).Sat
      (fun f u => ∃ a, (rootDir args).walk (pieces slash rest) = .ok a ∧ Serves u f a)
      (fun e _ => (rootDir args).walk (pieces slash rest) = .error e)
      (fun p => p = .noMemory ∧ ¬∀ k, avail k = true) := by
  obtain ⟨s, himage⟩ := Image.of_ret h
  have hroot : IsCopy s root (rootDir args) := ⟨himage.dir, himage.shows⟩
  refine Feeds.sat (s := unmounted t.words avail) (within_bind fsInit_feeds fun _ =>
    within_bind (openAll_feeds paths) fun _ => fileOpen_feeds _) ?_
  refine sat_call (fsInit_mounts himage avail) ?_ (fun _ _ h => h.elim) (fun _ h => h.1)
  rintro _ v hv
  refine sat_call ((hv.serving himage).openAll paths hpaths) ?_ (fun _ _ h => h.elim) (fun _ h => h)
  rintro _ u hu
  exact (hu.fileOpen h6 rest).mono (fun f w hw => hw.2 hnul hroot) (fun e w hw => hw.2 hnul hroot) (fun _ h => h)

/-- The file `a` of a small tree, after the directory `b` was opened. -/
theorem fsformat_fsInit_fileOpen_small : ∃ t, fsformat .little smallArgs zeroed = .ret () t ∧
    ((do
      fsInit
      openAll [rootName ++ [slash, 0x62]]
      Mos.fileOpen (rootName ++ [slash, 0x61]) : FsM Nat) (unmounted t.words fun _ => true)).Sat
      (fun f u => ∃ a, (rootDir smallArgs).walk (pieces slash [slash, 0x61]) = .ok a ∧ Serves u f a)
      (fun e _ => (rootDir smallArgs).walk (pieces slash [slash, 0x61]) = .error e)
      (fun p => p = .noMemory ∧ ¬∀ _k : Nat, true = true) := by
  have hret : (fsformat .little smallArgs zeroed).ret?.isSome = true := by decide +kernel
  obtain ⟨t, ht⟩ := Option.isSome_iff_exists.mp hret
  rw [Outcome.ret?_eq_some] at ht
  exact ⟨t, ht, fsformat_fsInit_fileOpen smallArgs t ht (fun _ => true) [rootName ++ [slash, 0x62]] (by decide)
    rootName [slash, 0x61] (by decide) (by decide)⟩

end Builder

end Mos
