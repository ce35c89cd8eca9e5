import Mos.Fs.Walks
import Mathlib.Data.List.GetD

/-!
# The tree of the native file system

In a tidy file system the blocks of the files are their own, directories are complete, and no directory has two
files of one name. Then every file has one path. A file gets a name, or loses it, without consequences for
the paths of other files: that is `Fs.Named`, read in one direction for `file_create` and in the other for
`file_remove`.
-/

namespace Mos

open Lib Prog Function

variable {s t u : Fs} {d d' f g i j k n : Nat} {D X : Set Nat} {name name' : List Byte}
  {names names' : List (List Byte)} {o o' : Option Nat}

/-! ## Names -/

/-- A name that a file may have. -/
structure IsName (name : List Byte) : Prop where
  ne : name ≠ []
  zero : 0 ∉ name
  short : name.length < maxnamelen

/-- The pieces of a string are names, if they are short. -/
theorem isName_of_piece {path : List Byte} (hz : 0 ∉ path) (h : name ∈ pieces slash path)
    (hlen : name.length < maxnamelen) : IsName name :=
  ⟨(mem_pieces h).1, fun h0 => hz ((mem_pieces h).2.2 0 h0), hlen⟩

/-- A string has only one end. -/
theorem name_unique {b : Nat → Byte} (h : ∀ k < name.length + 1, b k = name.getD k 0)
    (h' : ∀ k < name'.length + 1, b k = name'.getD k 0) (hz : 0 ∉ name) (hz' : 0 ∉ name') : name = name' := by
  have hle : ∀ {p q : List Byte}, (∀ k < p.length + 1, b k = p.getD k 0) →
      (∀ k < q.length + 1, b k = q.getD k 0) → 0 ∉ q → q.length ≤ p.length := by
    intro p q hp hq hzq
    by_contra hlt
    have h1 := hp p.length (by omega)
    have h2 := hq p.length (by omega)
    rw [h1, List.getD_eq_default _ _ (le_refl _), List.getD_eq_getElem _ _ (by omega)] at h2
    exact hzq (by rw [h2]; exact List.getElem_mem _)
  have hlen : name.length = name'.length := le_antisymm (hle h' h hz) (hle h h' hz')
  refine List.ext_getElem hlen fun i hi hi' => ?_
  have h1 := h i (by omega)
  have h2 := h' i (by omega)
  rw [List.getD_eq_getElem _ _ hi] at h1
  rw [List.getD_eq_getElem _ _ hi'] at h2
  rw [← h1, h2]

namespace Fs

theorem HasName.not_unused (h : s.HasName f name) (hn : IsName name) : ¬s.Unused f := by
  intro hu
  obtain ⟨hne, hz, -⟩ := hn
  cases name with
  | nil => exact hne rfl
  | cons c cs =>
    have h0 := h 0 (by simp)
    have hfirst : s.nameByte f 0 = 0 := hu
    rw [hfirst, List.getD_cons_zero] at h0
    exact hz (by rw [h0]; exact List.mem_cons_self)

/-- A file has only one name. -/
theorem HasName.unique (h : s.HasName f name) (h' : s.HasName f name') (hz : 0 ∉ name)
    (hz' : 0 ∉ name') : name = name' := name_unique h h' hz hz'

end Fs

/-! ## One name more -/

section Resolve

variable {isDir : Nat → Prop} [DecidablePred isDir] {find : Nat → List Byte → Option Nat}

/-- Where a path ends with its last name, looked up in the directory `d`. -/
def Walk.last (d : Nat) (name : List Byte) : Option Nat → Walk
  | some g => .found (some d) g
  | none => .missing d name

theorem resolve_singleton {w : Walk} : resolve isDir find o d [name] = .ok w ↔
    name.length < maxnamelen ∧ isDir d ∧ w = Walk.last d name (find d name) := by
  unfold resolve
  by_cases hlen : name.length ≥ maxnamelen
  · rw [if_pos hlen]
    constructor
    · intro h
      cases h
    · rintro ⟨h, -⟩
      omega
  rw [if_neg hlen]
  by_cases hd : isDir d
  · rw [if_neg (not_not.mpr hd)]
    have hlt : name.length < maxnamelen := by omega
    cases find d name with
    | none => simp [Walk.last, hlt, hd, eq_comm]
    | some g => simp [Walk.last, resolve, hlt, hd, eq_comm]
  · rw [if_pos hd]
    constructor
    · intro h
      cases h
    · rintro ⟨-, h, -⟩
      exact absurd h hd

theorem resolve_append (names : List (List Byte)) (name : List Byte) : ∀ (o : Option Nat) (f : Nat),
    resolve isDir find o f (names ++ [name]) =
      match resolve isDir find o f names with
      | .ok (.found o' d) => resolve isDir find o' d [name]
      | .ok (.missing _ _) => .error .notFound
      | .error e => .error e := by
  induction names with
  | nil => exact fun o f => rfl
  | cons c cs ih =>
    intro o f
    rw [List.cons_append, resolve, resolve]
    split
    · rfl
    split
    · rfl
    cases find f c with
    | some g => exact ih (some f) g
    | none =>
      rw [if_neg (by simp)]
      by_cases hcs : cs = []
      · rw [if_pos hcs]
      · rw [if_neg hcs]

/-- The last name of a path is looked up where the names before it lead to. -/
theorem resolve_concat {w : Walk} : resolve isDir find o f (names ++ [name]) = .ok w ↔
    name.length < maxnamelen ∧ ∃ p d, resolve isDir find o f names = .ok (.found p d) ∧ isDir d ∧
      w = Walk.last d name (find d name) := by
  rw [resolve_append]
  cases resolve isDir find o f names with
  | error e => simp
  | ok v =>
    cases v with
    | missing d m => simp
    | found p d =>
      rw [show (match (.ok (.found p d) : Except Err Walk) with
        | .ok (.found o' d) => resolve isDir find o' d [name]
        | .ok (.missing _ _) => .error .notFound
        | .error e => .error e) = resolve isDir find p d [name] from rfl, resolve_singleton]
      constructor
      · rintro ⟨hlen, hd, hw⟩
        exact ⟨hlen, p, d, rfl, hd, hw⟩
      · rintro ⟨hlen, p', d', heq, hd, hw⟩
        cases heq
        exact ⟨hlen, hd, hw⟩

theorem Walk.last_eq_found {r : Option Nat} : Walk.last d name r = .found o g ↔ r = some g ∧ o = some d := by
  cases r with
  | none => simp [Walk.last]
  | some g' => simp [Walk.last, and_comm, eq_comm]

theorem Walk.last_eq_missing {r : Option Nat} :
    Walk.last d name r = .missing d' name' ↔ r = none ∧ d' = d ∧ name' = name := by
  cases r with
  | none => simp [Walk.last, eq_comm]
  | some g' => simp [Walk.last]

end Resolve

/-! ## Tidy file systems -/

namespace Fs

/-- The blocks of the files are their own and none is past the size of its file, directories are complete, and
no two files of a directory have the same name. -/
structure Tidy (s : Fs) (D X : Set Nat) : Prop where
  own : s.Own D X
  complete : s.Complete D
  root : s.IsDir sRoot
  beyond : ∀ f ∈ files D, ∀ n, s.nblocksOf f + 1 ≤ n → s.block f n = 0
  distinct : ∀ d ∈ files D, s.IsDir d → ∀ f ∈ s.entries d, ∀ g ∈ s.entries d, ∀ name, IsName name →
    s.HasName f name → s.HasName g name → f = g

theorem resolve_nil : s.resolve [] = .ok (.found none sRoot) := rfl

namespace Tidy

theorem entry_file (h : s.Tidy D X) (hd : d ∈ files D) (hdir : s.IsDir d) (hf : f ∈ s.entries d) :
    f ∈ files D :=
  mem_files_of_entry h.own h.complete hd hdir hf

/-- Under distinct names, the search finds the file with the name. -/
theorem find_iff (h : s.Tidy D X) (hd : d ∈ files D) (hdir : s.IsDir d) (hn : IsName name) :
    s.find d name = some f ↔ f ∈ s.entries d ∧ s.HasName f name := by
  constructor
  · exact find_spec
  · rintro ⟨hf, hname⟩
    cases hr : s.find d name with
    | none =>
      unfold find at hr
      rw [List.find?_eq_none] at hr
      exact absurd (by simpa using hname) (hr f hf)
    | some g =>
      obtain ⟨hg, hname'⟩ := find_spec hr
      rw [h.distinct d hd hdir f hf g hg name hn hname hname']

theorem find_none_iff (hn : s.find d name = none) (hf : f ∈ s.entries d) : ¬s.HasName f name := by
  unfold find at hn
  rw [List.find?_eq_none] at hn
  simpa using hn f hf

/-- What a path leads to is a file. -/
theorem resolve_file (h : s.Tidy D X) : ∀ {names : List (List Byte)} {o : Option Nat} {f : Nat},
    s.resolve names = .ok (.found o f) → f ∈ files D := by
  intro names
  induction names using List.reverseRecOn with
  | nil =>
    intro o f hr
    cases hr
    exact .inl rfl
  | append_singleton names name ih =>
    intro o f hr
    obtain ⟨-, p, d, hp, hdir, hw⟩ := resolve_concat.mp hr
    obtain ⟨hfind, -⟩ := Walk.last_eq_found.mp hw.symm
    exact h.entry_file (ih hp) hdir (find_spec hfind).1

/-- A file is in one directory only. -/
theorem dir_unique (h : s.Tidy D X) (hd : d ∈ files D) (hdir : s.IsDir d) (hd' : d' ∈ files D)
    (hdir' : s.IsDir d') (hf : f ∈ s.entries d) (hf' : f ∈ s.entries d') : d = d' := by
  obtain ⟨n, hn, j, hj, rfl⟩ := mem_entries.mp hf
  obtain ⟨m, hm, k, hk, heq⟩ := mem_entries.mp hf'
  have h0 := h.complete d hd hdir n hn
  have h0' := h.complete d' hd' hdir' m hm
  have hblock : s.block d n = s.block d' m := by
    rw [← fileIn_div (b := s.block d n) hj, ← fileIn_div (b := s.block d' m) hk, heq]
  obtain ⟨p, hp, hpn⟩ := exists_pointer_of_block h0
  obtain ⟨q, hq, hqn⟩ := exists_pointer_of_block h0'
  obtain rfl := h.own.holds.unique p (h.own.pointer_mem_slots hd hp) q (h.own.pointer_mem_slots hd' hq)
    (by rwa [hpn]) (by rw [hpn, hqn, hblock])
  exact h.own.pointer_file hd hd' hp hq

theorem entry_ne_root (hf : f ∈ s.entries d) : f ≠ sRoot := by
  obtain ⟨n, hn, j, hj, rfl⟩ := mem_entries.mp hf
  unfold fileIn sRoot
  omega

/-- **A file has one path.** -/
theorem path_unique (h : s.Tidy D X) : ∀ {names names' : List (List Byte)} {o o' : Option Nat} {f : Nat},
    (∀ n ∈ names, n ≠ [] ∧ 0 ∉ n) → (∀ n ∈ names', n ≠ [] ∧ 0 ∉ n) →
      s.resolve names = .ok (.found o f) → s.resolve names' = .ok (.found o' f) → names = names' := by
  intro names
  induction names using List.reverseRecOn with
  | nil =>
    intro names' o o' f _ _ hr hr'
    cases hr
    cases names' using List.reverseRecOn with
    | nil => rfl
    | append_singleton ms m =>
      obtain ⟨-, p, d, hp, hdir, hw⟩ := resolve_concat.mp hr'
      exact absurd rfl (entry_ne_root (find_spec (Walk.last_eq_found.mp hw.symm).1).1)
  | append_singleton ns n ih =>
    intro names' o o' f hz hz' hr hr'
    obtain ⟨hlen, p, d, hp, hdir, hw⟩ := resolve_concat.mp hr
    obtain ⟨hfind, -⟩ := Walk.last_eq_found.mp hw.symm
    cases names' using List.reverseRecOn with
    | nil =>
      cases hr'
      exact absurd rfl (entry_ne_root (find_spec hfind).1)
    | append_singleton ms m =>
      obtain ⟨hlen', p', d', hp', hdir', hw'⟩ := resolve_concat.mp hr'
      obtain ⟨hfind', -⟩ := Walk.last_eq_found.mp hw'.symm
      obtain ⟨hf, hname⟩ := find_spec hfind
      obtain ⟨hf', hname'⟩ := find_spec hfind'
      obtain rfl := h.dir_unique (h.resolve_file hp) hdir (h.resolve_file hp') hdir' hf hf'
      have hnm := hname.unique hname' (hz n (by simp)).2 (hz' m (by simp)).2
      rw [ih (fun x hx => hz x (by simp [hx])) (fun x hx => hz' x (by simp [hx])) hp hp', hnm]

end Tidy

/-- The same, said of the files that can be reached. -/
structure Tree (s : Fs) : Prop where
  consistent : s.Consistent
  complete : ∀ d, s.IsFile d → s.IsDir d → ∀ n < s.nblocksOf d, s.block d n ≠ 0
  root : s.IsDir sRoot
  beyond : ∀ f, s.IsFile f → ∀ n, s.nblocksOf f + 1 ≤ n → s.block f n = 0
  distinct : ∀ d, s.IsFile d → s.IsDir d → ∀ f ∈ s.entries d, ∀ g ∈ s.entries d, ∀ name, IsName name →
    s.HasName f name → s.HasName g name → f = g

theorem Tree.tidy (h : s.Tree) : s.Tidy s.dirBlocks s.indexBlocks where
  own := h.consistent.own
  complete d hd := h.complete d (mem_files_dirBlocks.mp hd)
  root := h.root
  beyond f hf := h.beyond f (mem_files_dirBlocks.mp hf)
  distinct d hd := h.distinct d (mem_files_dirBlocks.mp hd)

theorem Tidy.tree (h : s.Tidy D X) : s.Tree where
  consistent := h.own.consistent
  complete d hd := h.complete d (h.own.isFile hd)
  root := h.root
  beyond f hf := h.beyond f (h.own.isFile hf)
  distinct d hd := h.distinct d (h.own.isFile hd)

/-! ## Walking changes nothing -/

theorem Tidy.alters (h : s.Tidy D X) (ha : s.Alters (ups D) t) : t.Tidy D X where
  own := h.own.alters h.own.inert_ups ha
  complete := h.complete.alters h.own ha
  root := (h.own.isDir_alters ha (.inl rfl)).mpr h.root
  beyond f hf n hn := by
    rw [h.own.nblocksOf_alters ha hf] at hn
    rw [h.own.block_congr (fun a hslot => ha.look a fun hups => h.own.inert_ups.2.1 a hups hslot) hf]
    exact h.beyond f hf n hn
  distinct d hd hdir f hf g hg name hn hfn hgn := by
    have hdir := (h.own.isDir_alters ha hd).mp hdir
    rw [h.own.entries_alters ha hd] at hf hg
    rw [h.own.nameByte_alters ha (h.entry_file hd hdir hf) hn.short] at hfn
    rw [h.own.nameByte_alters ha (h.entry_file hd hdir hg) hn.short] at hgn
    exact h.distinct d hd hdir f hf g hg name hn hfn hgn

/-- Every path goes on to stand for the same. -/
theorem Tidy.resolve_alters (h : s.Tidy D X) (ha : s.Alters (ups D) t) (names : List (List Byte)) :
    t.resolve names = s.resolve names := by
  suffices hall : ∀ names o f, f ∈ files D →
      Mos.resolve t.IsDir t.find o f names = Mos.resolve s.IsDir s.find o f names from
    hall names none sRoot (.inl rfl)
  intro names
  induction names with
  | nil => exact fun _ _ _ => rfl
  | cons name names ih =>
    intro o f hf
    rw [Mos.resolve, Mos.resolve]
    by_cases hlen : name.length ≥ maxnamelen
    · rw [if_pos hlen, if_pos hlen]
    rw [if_neg hlen, if_neg hlen]
    by_cases hdir : s.IsDir f
    · rw [if_neg (not_not.mpr ((h.own.isDir_alters ha hf).mpr hdir)), if_neg (not_not.mpr hdir),
        h.own.find_alters h.complete ha hf hdir (by omega)]
      cases hr : s.find f name with
      | some g => exact ih (some f) g (h.entry_file hf hdir (find_spec hr).1)
      | none => rfl
    · rw [if_pos hdir, if_pos fun ht => hdir ((h.own.isDir_alters ha hf).mp ht)]

/-! ## A file gets or loses its name -/

/-- The file `f` has no name in `a`; `b` is the same tree, but `f` may have a name there. -/
structure Named (a : Fs) (D : Set Nat) (f : Nat) (b : Fs) : Prop where
  dirs : ∀ d ∈ files D, b.IsDir d ↔ a.IsDir d
  sizes : ∀ d ∈ files D, a.IsDir d → b.nblocksOf d = a.nblocksOf d
  blocks : ∀ d ∈ files D, a.IsDir d → ∀ n, b.block d n = a.block d n
  names : ∀ g ∈ files D, g ≠ f → ∀ name, name.length < maxnamelen → (b.HasName g name ↔ a.HasName g name)
  unused : a.Unused f

namespace Named

variable {a b : Fs} {Y : Set Nat}

theorem entries (h : a.Named D f b) (hd : d ∈ files D) (hdir : a.IsDir d) :
    b.entries d = a.entries d := by
  unfold Fs.entries entriesFrom
  simp only [h.sizes d hd hdir, h.blocks d hd hdir]

/-- What is found without the name of `f` is found with it. -/
theorem find_some (h : a.Named D f b) (ha : a.Tidy D X) (hb : b.Tidy D Y) (hd : d ∈ files D)
    (hdir : a.IsDir d) (hn : IsName name) (hg : a.find d name = some g) : b.find d name = some g := by
  obtain ⟨hmem, hname⟩ := find_spec hg
  have hne : g ≠ f := by
    rintro rfl
    exact hname.not_unused hn h.unused
  rw [hb.find_iff hd ((h.dirs d hd).mpr hdir) hn, h.entries hd hdir,
    h.names g (ha.entry_file hd hdir hmem) hne name hn.short]
  exact ⟨hmem, hname⟩

/-- What is found with the name of `f`, but is not `f`, is found without it. -/
theorem find_some_of_ne (h : a.Named D f b) (ha : a.Tidy D X) (hd : d ∈ files D)
    (hdir : a.IsDir d) (hn : IsName name) (hg : b.find d name = some g) (hne : g ≠ f) :
    a.find d name = some g := by
  obtain ⟨hmem, hname⟩ := find_spec hg
  rw [h.entries hd hdir] at hmem
  rw [h.names g (ha.entry_file hd hdir hmem) hne name hn.short] at hname
  exact (ha.find_iff hd hdir hn).mpr ⟨hmem, hname⟩

/-- Paths lead to the same files when `f` gets a name. -/
theorem resolve_found (h : a.Named D f b) (ha : a.Tidy D X) (hb : b.Tidy D Y) :
    ∀ {names : List (List Byte)} {o : Option Nat} {g : Nat}, (∀ n ∈ names, n ≠ [] ∧ 0 ∉ n) →
      a.resolve names = .ok (.found o g) → b.resolve names = .ok (.found o g) := by
  intro names
  induction names using List.reverseRecOn with
  | nil => exact fun _ hr => hr
  | append_singleton names name ih =>
    intro o g hz hr
    obtain ⟨hlen, p, d, hp, hdir, hw⟩ := resolve_concat.mp hr
    obtain ⟨hfind, rfl⟩ := Walk.last_eq_found.mp hw.symm
    have hn : IsName name := ⟨(hz name (by simp)).1, (hz name (by simp)).2, hlen⟩
    have hd := ha.resolve_file hp
    refine resolve_concat.mpr ⟨hlen, p, d, ih (fun x hx => hz x (by simp [hx])) hp,
      (h.dirs d hd).mpr hdir, ?_⟩
    rw [h.find_some ha hb hd hdir hn hfind]
    rfl

/-- Paths lead to the same files when `f` loses its name, but not to `f`, which was no directory. -/
theorem resolve_found_of_ne (h : a.Named D f b) (ha : a.Tidy D X) (hb : b.Tidy D Y) (hreg : ¬b.IsDir f) :
    ∀ {names : List (List Byte)} {o : Option Nat} {g : Nat}, (∀ n ∈ names, n ≠ [] ∧ 0 ∉ n) →
      b.resolve names = .ok (.found o g) → g ≠ f → a.resolve names = .ok (.found o g) := by
  intro names
  induction names using List.reverseRecOn with
  | nil => exact fun _ hr _ => hr
  | append_singleton names name ih =>
    intro o g hz hr hne
    obtain ⟨hlen, p, d, hp, hdir, hw⟩ := resolve_concat.mp hr
    obtain ⟨hfind, rfl⟩ := Walk.last_eq_found.mp hw.symm
    have hn : IsName name := ⟨(hz name (by simp)).1, (hz name (by simp)).2, hlen⟩
    have hd := hb.resolve_file hp
    have hdf : d ≠ f := by
      rintro rfl
      exact hreg hdir
    have hdir' := (h.dirs d hd).mp hdir
    refine resolve_concat.mpr ⟨hlen, p, d, ih (fun x hx => hz x (by simp [hx])) hp hdf, hdir', ?_⟩
    rw [h.find_some_of_ne ha hd hdir' hn hfind hne]
    rfl

/-- If `f` loses its name, names stay distinct. -/
theorem distinct_of_lost (h : a.Named D f b) (hb : b.Tidy D Y) : ∀ d ∈ files D, a.IsDir d →
    ∀ g ∈ a.entries d, ∀ g' ∈ a.entries d, ∀ name, IsName name → a.HasName g name →
      a.HasName g' name → g = g' := by
  intro d hd hdir g hg g' hg' name hn hname hname'
  have hdir' := (h.dirs d hd).mpr hdir
  have hkept : ∀ x ∈ a.entries d, a.HasName x name → b.HasName x name := by
    intro x hx hxn
    have hne : x ≠ f := by
      rintro rfl
      exact hxn.not_unused hn h.unused
    rw [← h.entries hd hdir] at hx
    exact (h.names x (hb.entry_file hd hdir' hx) hne name hn.short).mpr hxn
  rw [← h.entries hd hdir] at hg hg'
  refine hb.distinct d hd hdir' g hg g' hg' name hn (hkept g ?_ hname) (hkept g' ?_ hname')
  · rwa [← h.entries hd hdir]
  · rwa [← h.entries hd hdir]

/-- If `f` gets a name that no other file of its directory has, names stay distinct. -/
theorem distinct_of_got (h : a.Named D f b) (ha : a.Tidy D X) (hz : 0 ∉ name) (hname : b.HasName f name)
    (hfree : ∀ d ∈ files D, a.IsDir d → f ∈ a.entries d → a.find d name = none) :
    ∀ d ∈ files D, b.IsDir d → ∀ g ∈ b.entries d, ∀ g' ∈ b.entries d, ∀ name', IsName name' →
      b.HasName g name' → b.HasName g' name' → g = g' := by
  intro d hd hdir g hg g' hg' name' hn hgn hgn'
  have hdir' := (h.dirs d hd).mp hdir
  rw [h.entries hd hdir'] at hg hg'
  -- another file with the name of `f` would have been found before
  have hother : f ∈ a.entries d → b.HasName f name' → ∀ x ∈ a.entries d, b.HasName x name' → x = f := by
    intro hf hfn x hx hxn
    by_contra hne
    obtain rfl := hfn.unique hname hn.zero hz
    rw [h.names x (ha.entry_file hd hdir' hx) hne name' hn.short] at hxn
    exact Tidy.find_none_iff (hfree d hd hdir' hf) hx hxn
  by_cases hgf : g = f
  · subst hgf
    exact (hother hg hgn g' hg' hgn').symm
  by_cases hgf' : g' = f
  · subst hgf'
    exact hother hg' hgn' g hg hgn
  rw [h.names g (ha.entry_file hd hdir' hg) hgf name' hn.short] at hgn
  rw [h.names g' (ha.entry_file hd hdir' hg') hgf' name' hn.short] at hgn'
  exact ha.distinct d hd hdir' g hg g' hg' name' hn hgn hgn'

end Named

end Fs

end Mos
