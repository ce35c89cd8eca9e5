import Mos.Fs.Removal
import Mos.Fs.Creation

/-!
# Creating and removing files

`file_create` takes the first entry without a name, in the same blocks that `dir_lookup` has just searched in
vain; so the new name is the only one of its kind. `file_remove` may remove directories, too: what was in them
cannot be reached any more. Either way the tree stays tidy, and no directory ever holds a name twice.
-/

namespace Mos

open Lib Prog Function

variable {s t u v : Fs} {a b c d f g i j k n : Nat} {D X : Set Nat} {root rest name : List Byte}
  {names : List (List Byte)} {o : Option Nat}

namespace Fs

/-! ## Removing any file -/

/-- The numbers in the slots of other files are as before. -/
theorem Wiped.held (h : s.Wiped f t) (ho : s.Own D X) (hf : f ∈ files D) (hg : g ∈ files D) (hne : g ≠ f)
    (k : Slot) : t.held g k = s.held g k :=
  held_congr_slotsOf (h.slot ho hf hg hne) k

/-- What can be reached could be reached before. -/
theorem Wiped.isFile (h : s.Wiped f t) (hs : s.Consistent) (hf : s.IsFile f) (hg : t.IsFile g) :
    s.IsFile g := by
  induction hg with
  | root => exact .root
  | @entry d j k hd hdir hk hb hj ih =>
    have hne : d ≠ f := by
      rintro rfl
      exact hb (h.gone k)
    have hd' := mem_files_dirBlocks.mpr ih
    have hf' := mem_files_dirBlocks.mpr hf
    have heq := h.held hs.own hf' hd' hne k
    rw [heq] at hb ⊢
    exact .entry ih ((h.isDir hs.own hf' hd').mp hdir) hk hb hj

/-- The file system stays consistent, also if the file was a directory. -/
theorem Wiped.consistent (h : s.Wiped f t) (hs : s.Consistent) (hf : s.IsFile f) (hm : t.Mounted) :
    t.Consistent := by
  have hf' := mem_files_dirBlocks.mpr hf
  have hheld : ∀ g k, t.IsFile g → t.held g k ≠ 0 → s.IsFile g ∧ g ≠ f ∧ t.held g k = s.held g k := by
    intro g k hg h0
    have hg := h.isFile hs hf hg
    have hne : g ≠ f := by
      rintro rfl
      exact h0 (h.gone k)
    exact ⟨hg, hne, h.held hs.own hf' (mem_files_dirBlocks.mpr hg) hne k⟩
  refine ⟨hm, ?_, ?_⟩
  · intro g k hg h0
    obtain ⟨hg, hne, heq⟩ := hheld g k hg h0
    rw [heq] at h0 ⊢
    obtain ⟨h1, h2, h3⟩ := hs.used g k hg h0
    refine ⟨?_, by rw [h.nblocks]; exact h2, ?_⟩
    · unfold firstData at h1 ⊢
      rwa [h.nblocks]
    · intro hfree
      rcases (h.free _).mp hfree with hfree | ⟨-, ⟨n, hn⟩ | hn⟩
      · exact h3 hfree
      · have hslot := hasSlot_of_block (hn ▸ h0)
        rw [← held_ofBlock hslot] at hn
        exact hne (hs.unique g k f (.ofBlock n) hg hf h0 hn.symm).1
      · exact hne (hs.unique g k f .indirect hg hf h0 hn.symm).1
  · intro g k g' k' hg hg' h0 heq
    obtain ⟨hg, -, hk⟩ := hheld g k hg h0
    obtain ⟨hg', -, hk'⟩ := hheld g' k' hg' (heq ▸ h0)
    rw [hk] at h0 heq
    rw [hk'] at heq
    exact hs.unique g k g' k' hg hg' h0 heq

/-- The tree stays tidy, also if the file was a directory. -/
theorem Wiped.tree (h : s.Wiped f t) (hs : s.Tree) (hf : s.IsFile f) (hm : t.Mounted)
    (hu : t.Unused f) : t.Tree := by
  have ho := hs.consistent.own
  have hf' := mem_files_dirBlocks.mpr hf
  have hsize : t.nblocksOf f = 0 := by
    unfold Fs.nblocksOf
    rw [h.size]
    rfl
  have hreach : ∀ {g}, t.IsFile g → s.IsFile g ∧ g ∈ files s.dirBlocks := fun hg =>
    ⟨h.isFile hs.consistent hf hg, mem_files_dirBlocks.mpr (h.isFile hs.consistent hf hg)⟩
  have hentries : ∀ {d}, d ∈ files s.dirBlocks → d ≠ f → t.entries d = s.entries d := by
    intro d hd hne
    unfold entries entriesFrom
    simp only [h.nblocksOf ho hf' hd hne, h.block ho hf' hd hne]
  refine ⟨h.consistent hs.consistent hf hm, ?_, (h.isDir ho hf' (.inl rfl)).mpr hs.root, ?_, ?_⟩
  · intro d hd hdir n hn
    obtain ⟨hd, hd'⟩ := hreach hd
    by_cases hne : d = f
    · rw [hne, hsize] at hn
      omega
    · rw [h.nblocksOf ho hf' hd' hne] at hn
      rw [h.block ho hf' hd' hne]
      exact hs.complete d hd ((h.isDir ho hf' hd').mp hdir) n hn
  · intro g hg n hn
    obtain ⟨hg, hg'⟩ := hreach hg
    by_cases hne : g = f
    · rw [hne]
      exact h.cleared n
    · rw [h.nblocksOf ho hf' hg' hne] at hn
      rw [h.block ho hf' hg' hne]
      exact hs.beyond g hg n hn
  · intro d hd hdir g hg g' hg' name hn hgn hgn'
    obtain ⟨hd, hd'⟩ := hreach hd
    have hne : d ≠ f := by
      rintro rfl
      obtain ⟨n, hn, -⟩ := mem_entries.mp hg
      omega
    have hdir := (h.isDir ho hf' hd').mp hdir
    rw [hentries hd' hne] at hg hg'
    have hkept : ∀ x ∈ s.entries d, t.HasName x name → s.HasName x name := by
      intro x hx hxn
      have hxf : x ≠ f := by
        rintro rfl
        exact hxn.not_unused hn hu
      have hx' := hs.tidy.entry_file hd' hdir hx
      exact (HasName.congr (fun i hi => h.word ho hf' hx' hxf (by omega)) hn.short).mp hxn
    exact hs.distinct d hd hdir g hg g' hg' name hn (hkept g hg hgn) (hkept g' hg' hgn')

/-- The files on the way to `f` can still be reached when `f` is truncated. -/
theorem Wiped.reach (h : s.Wiped f t) (hs : s.Tree) (hf : s.IsFile f) (hz : ∀ n ∈ names, n ≠ [] ∧ 0 ∉ n)
    (hp : s.resolve names = .ok (.found o f)) : ∀ ms, ms <+: names → ∀ o' g,
      s.resolve ms = .ok (.found o' g) → t.IsFile g := by
  intro ms
  induction ms using List.reverseRecOn with
  | nil =>
    intro _ o' g hg
    cases hg
    exact .root
  | append_singleton ns n ih =>
    intro hpre o' g hg
    have hpre' : ns <+: names := (List.prefix_append ns [n]).trans hpre
    obtain ⟨-, p, d, hd, hdir, hw⟩ := resolve_concat.mp hg
    obtain ⟨hfind, -⟩ := Walk.last_eq_found.mp hw.symm
    have hd' := hs.tidy.resolve_file hd
    have hf' := mem_files_dirBlocks.mpr hf
    have hne : d ≠ f := by
      rintro rfl
      have heq := hs.tidy.path_unique (fun x hx => hz x (hpre'.subset hx)) hz hd hp
      have := hpre.length_le
      rw [← heq, List.length_append] at this
      simp at this
    obtain ⟨hmem, -⟩ := find_spec hfind
    obtain ⟨m, hm, j, hj, rfl⟩ := mem_entries.mp hmem
    have h0 := hs.complete d (mem_files_dirBlocks.mp hd') hdir m hm
    have hslot := hasSlot_of_block h0
    have hk : (Slot.ofBlock m) ≠ .indirect := by
      unfold Slot.ofBlock
      split <;> simp
    have hheld : t.held d (.ofBlock m) = s.block d m := by
      rw [h.held hs.consistent.own hf' hd' hne, held_ofBlock hslot]
    rw [← hheld] at h0 ⊢
    exact .entry (ih hpre' p d hd) ((h.isDir hs.consistent.own hf' hd').mpr hdir) hk h0 hj

end Fs

/-- `file_remove` of any file but the root directory truncates it to nothing and takes its name away. -/
theorem fileRemove_wiped (hs : s.Tree) (h6 : root.length = 6) (hz : 0 ∉ rest)
    (hne : pieces slash rest ≠ []) :
    (fileRemove (root ++ rest) s).Sat
      (fun _ t => ∃ d f u, s.resolve (pieces slash rest) = .ok (.found (some d) f) ∧
        s.Visits s.dirBlocks u ∧ u.Wiped f t ∧ t.Mounted ∧ t.Unused f)
      (fun _ t => s.Visits s.dirBlocks t) (fun q => q = .noMemory) := by
  have hts := hs.tidy
  have hnames : ∀ n ∈ pieces slash rest, n ≠ [] ∧ 0 ∉ n := fun n hn =>
    ⟨(mem_pieces hn).1, fun h0 => hz ((mem_pieces hn).2.2 0 h0)⟩
  rw [fileRemove]
  refine sat_call (fileOpen_linked hts h6) ?_ (fun _ _ h => h.1) (fun _ h => h)
  rintro f u ⟨hvis, ⟨hf, hm⟩, o, hps, hlink⟩
  have halt := hvis.alters
  have hu := (hts.alters halt).tree
  have hsu := hts.alters halt
  have hp := hps
  rw [← hts.resolve_alters halt] at hp
  have hfu := Fs.mem_files_dirBlocks.mp (hu.tidy.resolve_file hp)
  refine sat_call ((fileTruncate_truncated (hsu.sound hf hm) 0)) ?_ (fun _ _ h => h.elim) (fun _ h => h.1)
  intro _ v htrunc
  have hwiped := htrunc.wiped
  have hv := (hwiped.consistent hu.consistent hfu htrunc.mounted).own
  have hreach := hwiped.reach hu hfu hnames hp
  have hfv := Fs.mem_files_dirBlocks.mpr (hreach _ (List.prefix_refl _) o f hp)
  have hmv := htrunc.mapped _ hm
  -- the directory of `f` is still there, and `f_dir` points at it
  obtain ⟨d, rfl, hup⟩ : ∃ d, o = some d ∧ v.UpOk v.dirBlocks f := by
    cases hl : pieces slash rest using List.reverseRecOn with
    | nil => exact absurd hl hne
    | append_singleton ns n =>
      rw [hl] at hp hreach
      obtain ⟨-, p, d, hd, -, hw⟩ := resolve_concat.mp hp
      obtain ⟨-, rfl⟩ := Walk.last_eq_found.mp hw.symm
      obtain ⟨hptr, hdD, hmd⟩ := hlink
      refine ⟨d, rfl, .inr ?_⟩
      rw [fDir, hwiped.word_of hsu.own hf hf (i := 45) (by decide) (.inr (by decide)), ← fDir, hptr,
        ptrFile_filePtr (hsu.own.file_lt hdD)]
      exact ⟨Fs.mem_files_dirBlocks.mpr (hreach ns (List.prefix_append _ _) p d hd), htrunc.mapped _ hmd⟩
  have hbyte := Fs.alters_setByte hfv hmv (hv.file_not_free hfv) (k := 0) (by decide) 0
  have hname := hbyte.evolved hv (hv.inert_name hfv) fun d hd => hv.dir_notMem_name hfv hd
  rw [bind_ret (touch_mapped hmv), modify_bind]
  refine sat_call (fileFlush_sat hname.own hfv (hname.mapped _ hmv)) ?_ (fun _ _ h => h.elim)
    (fun _ h => h)
  intro _ x hx
  have hx' := hname.trans_same (hx.evolved hname.own ∅) (Set.empty_subset _)
  refine (flushDir_sat hx'.own hfv (hx'.mapped _ hmv) (hup.evolved hx' hfv)).mono ?_
    (fun _ _ h => h.elim) (fun _ h => h)
  intro _ t ht
  obtain ⟨hwiped, hunused⟩ := hwiped.unname hv hfv hmv (hx.trans ht)
  exact ⟨d, f, u, hps, hvis, hwiped, (hx'.own.sees ht).mounted, hunused⟩

/-- What happens below a directory does not matter any more: the tree that is left is tidy. -/
theorem fileRemove_tree (hs : s.Tree) (h6 : root.length = 6) (hz : 0 ∉ rest)
    (hne : pieces slash rest ≠ []) :
    (fileRemove (root ++ rest) s).Sat (fun _ t => t.Tree) (fun _ t => t.Tree) (fun q => q = .noMemory) := by
  have hts := hs.tidy
  refine (fileRemove_wiped hs h6 hz hne).mono ?_ (fun _ _ h => (hts.alters h.alters).tree) (fun _ h => h)
  rintro - t ⟨d, f, u, hp, hvis, hwiped, hm, hunused⟩
  have hu := (hts.alters hvis.alters).tree
  rw [← hts.resolve_alters hvis.alters] at hp
  exact hwiped.tree hu (Fs.mem_files_dirBlocks.mp (hu.tidy.resolve_file hp)) hm hunused

/-! ## Creating a file -/

namespace Fs

/-- The unused entry `e` has got the last name of the path `names`, and nothing else has got a name. -/
structure Created (s : Fs) (names : List (List Byte)) (e : Nat) (t : Fs) : Prop where
  tree : t.Tree
  fresh : s.Unused e
  found : ∃ d, t.resolve names = .ok (.found (some d) e)
  others : ∀ names', (∀ n ∈ names', n ≠ [] ∧ 0 ∉ n) → ∀ o g,
    s.resolve names' = .ok (.found o g) → t.resolve names' = .ok (.found o g)
  names : ∀ g, s.IsFile g → g ≠ e → ∀ name, name.length < maxnamelen →
    (t.HasName g name ↔ s.HasName g name)

theorem Tree.created (hs : s.Tree) (hz : ∀ n ∈ names, n ≠ [] ∧ 0 ∉ n)
    (hp : s.resolve names = .ok (.missing d name)) (halt : s.Alters (ups s.dirBlocks) u)
    (hu : u.Tidy s.dirBlocks s.indexBlocks) (ht : t.Tidy s.dirBlocks s.indexBlocks) (hf : f ∈ s.entries d)
    (hunused : s.Unused f) (hnamed : u.Named s.dirBlocks f t) (hname : t.HasName f name) :
    s.Created names f t := by
  have hts := hs.tidy
  have hothers : ∀ names', (∀ n ∈ names', n ≠ [] ∧ 0 ∉ n) → ∀ o g,
      s.resolve names' = .ok (.found o g) → t.resolve names' = .ok (.found o g) := by
    intro names' hz' o g hg
    rw [← hts.resolve_alters halt] at hg
    exact hnamed.resolve_found hu ht hz' hg
  refine ⟨ht.tree, hunused, ?_, hothers, ?_⟩
  · cases names using List.reverseRecOn with
    | nil => cases hp
    | append_singleton ns n =>
      obtain ⟨hlen, p, d', hd, hdir, hw⟩ := resolve_concat.mp hp
      obtain ⟨-, rfl, rfl⟩ := Walk.last_eq_missing.mp hw.symm
      have hd' := hts.resolve_file hd
      have hdiru := (hts.own.isDir_alters halt hd').mpr hdir
      have hn : IsName name := ⟨(hz name (by simp)).1, (hz name (by simp)).2, hlen⟩
      have hfind : t.find d name = some f := by
        rw [ht.find_iff hd' ((hnamed.dirs d hd').mpr hdiru) hn, hnamed.entries hd' hdiru,
          hts.own.entries_alters halt hd']
        exact ⟨hf, hname⟩
      refine ⟨d, resolve_concat.mpr ⟨hlen, p, d, ?_, (hnamed.dirs d hd').mpr hdiru, ?_⟩⟩
      · exact hothers ns (fun x hx => hz x (by simp [hx])) p d hd
      · rw [hfind]
        rfl
  · intro g hg hne name' hlen
    have hg := mem_files_dirBlocks.mpr hg
    rw [hnamed.names g hg hne name' hlen, hts.own.nameByte_alters halt hg hlen]

end Fs

/-! ## Histories -/

/-- Creating files where there is room for them, and removing any file but the root directory. -/
def FsOp.Tame (s : Fs) : FsOp → Prop
  | .create path => 6 ≤ path.length ∧ 0 ∉ path.drop 6 ∧
      ∀ d name, s.resolve (pieces slash (path.drop 6)) = .ok (.missing d name) →
        ∃ f ∈ s.entries d, s.Unused f
  | .remove path => 6 ≤ path.length ∧ 0 ∉ path.drop 6 ∧ pieces slash (path.drop 6) ≠ []
  | _ => False

/-- Sequences of such operations; some of them may fail. -/
inductive FsHistory (s : Fs) : Fs → Prop
  | refl : FsHistory s s
  | step {t u : Fs} {op : FsOp} (hr : FsHistory s t) (hc : op.Tame t) (h : op.step t = some u) :
      FsHistory s u

theorem FsOp.tree_step {op : FsOp} (hs : s.Tree) (hc : op.Tame s) (h : op.step s = some t) :
    t.Tree := by
  have hsat : (op.exec s).Sat (fun _ t => t.Tree) (fun _ t => t.Tree) (fun q => q = .noMemory) := by
    cases op with
    | create path =>
      obtain ⟨h6, hz, hroom⟩ := hc
      have hcreate := fileCreate_named hs.tidy (List.length_take_of_le h6) hz hroom
      rw [List.take_append_drop] at hcreate
      refine sat_call hcreate ?_ (fun _ _ h => (hs.tidy.alters h.1).tree) (fun _ h => h)
      rintro e t ⟨d, name, u, -, -, -, ht, -⟩
      exact ht.tree
    | remove path =>
      obtain ⟨h6, hz, hne⟩ := hc
      have hremove := fileRemove_tree hs (List.length_take_of_le h6) hz hne
      rwa [List.take_append_drop] at hremove
    | openFile path => exact hc.elim
    | getBlock f n data => exact hc.elim
    | setSize f newsize => exact hc.elim
    | dirty f offset => exact hc.elim
  exact hsat.of_state? h

/-- The tree stays tidy: no directory ever has two files of one name. -/
theorem FsHistory.tree (hs : s.Tree) (hr : FsHistory s t) : t.Tree := by
  induction hr with
  | refl => exact hs
  | step _ hc h ih => exact FsOp.tree_step ih hc h

/-- In every directory the names are distinct. -/
def Fs.Distinct (s : Fs) : Prop := ∀ d, s.IsFile d → s.IsDir d → ∀ f ∈ s.entries d, ∀ g ∈ s.entries d,
  ∀ name, IsName name → s.HasName f name → s.HasName g name → f = g

/-- **Creating a file adds exactly one name.** The path leads to the parent directory, and this has an unused
entry. If the path leads to a file, `file_create` fails and no name changes. Otherwise the path leads to the
new file afterwards, and so does `walk_path`; every path that led to a file leads to the same one. After any
sequence of creates and removes no directory has two files of one name. -/
theorem create_adds_one_name (hs : s.Tree) :
    (∀ root rest : List Byte, ∀ o d, root.length = 6 → 0 ∉ rest →
      (∀ n ∈ pieces slash rest, n.length < maxnamelen) →
      s.resolve (pieces slash rest).dropLast = .ok (.found o d) → s.IsDir d →
      (∃ f ∈ s.entries d, s.Unused f) →
        (∃ p g, s.resolve (pieces slash rest) = .ok (.found p g)) ∧
          (fileCreate (root ++ rest) s).Sat (fun _ _ => False)
            (fun e t => e = .fileExists ∧ ∀ g, s.IsFile g → ∀ name, name.length < maxnamelen →
              (t.HasName g name ↔ s.HasName g name))
            (fun q => q = .noMemory ∧ ¬s.Supplied) ∨
        (∀ p g, s.resolve (pieces slash rest) ≠ .ok (.found p g)) ∧
          (fileCreate (root ++ rest) s).Sat
            (fun e t => s.Created (pieces slash rest) e t ∧
              (walkPath (root ++ rest) t).Sat (fun w _ => ∃ d, w = .found (some d) e) (fun _ _ => False)
                (fun q => q = .noMemory ∧ ¬t.Supplied))
            (fun _ _ => False) (fun q => q = .noMemory ∧ ¬s.Supplied)) ∧
      ∀ t, FsHistory s t → t.Distinct := by
  refine ⟨?_, fun t ht => (ht.tree hs).distinct⟩
  intro root rest o d h6 hz hlen hparent hdir hroom
  have hts := hs.tidy
  have hnames : ∀ n ∈ pieces slash rest, n ≠ [] ∧ 0 ∉ n := fun n hn =>
    ⟨(mem_pieces hn).1, fun h0 => hz ((mem_pieces hn).2.2 0 h0)⟩
  -- the path leads to a file, or its last name is missing in the parent directory
  have hcases : (∃ p g, s.resolve (pieces slash rest) = .ok (.found p g)) ∨
      ∃ name, s.resolve (pieces slash rest) = .ok (.missing d name) := by
    cases hl : pieces slash rest using List.reverseRecOn with
    | nil => exact .inl ⟨none, sRoot, rfl⟩
    | append_singleton ns n =>
      rw [hl, List.dropLast_concat] at hparent
      have hres : s.resolve (ns ++ [n]) = .ok (Walk.last d n (s.find d n)) :=
        resolve_concat.mpr ⟨hlen n (by simp [hl]), o, d, hparent, hdir, rfl⟩
      cases hr : s.find d n with
      | some g => exact .inl ⟨some d, g, by rw [hres, hr]; rfl⟩
      | none => exact .inr ⟨n, by rw [hres, hr]; rfl⟩
  have hcreate := fileCreate_named hts h6 hz (fun d' name hmiss => by
    rcases hcases with ⟨p, g, hfound⟩ | ⟨n, hmiss'⟩
    · rw [hfound] at hmiss
      cases hmiss
    · rw [hmiss'] at hmiss
      cases hmiss
      exact hroom)
  rcases hcases with ⟨p, g, hfound⟩ | ⟨n, hmiss⟩
  · refine .inl ⟨⟨p, g, hfound⟩, (fileCreate_feeds _).sat (hcreate.mono ?_ ?_ (fun _ h => h))⟩
    · rintro e t ⟨d', name, u, hmiss, -⟩
      rw [hfound] at hmiss
      cases hmiss
    · rintro e t ⟨halt, ⟨rfl, -⟩ | herr⟩
      · exact ⟨rfl, fun g hg name hn => hts.own.nameByte_alters halt (Fs.mem_files_dirBlocks.mpr hg) hn⟩
      · rw [hfound] at herr
        cases herr
  · have hno : ∀ p g, s.resolve (pieces slash rest) ≠ .ok (.found p g) := by
      intro p g h
      rw [hmiss] at h
      cases h
    refine .inr ⟨hno, (fileCreate_feeds _).sat (hcreate.mono ?_ ?_ (fun _ h => h))⟩
    · rintro e t ⟨d', name, u, hmiss', halt, hu, ht, hf, hunused, hnamed, hname⟩
      have hc := hs.created hnames hmiss' halt hu ht hf hunused hnamed hname
      obtain ⟨d'', hfound⟩ := hc.found
      refine ⟨hc, (walkPath_feeds _).sat ((walkPath_resolve ht.own ht.complete h6 rest).mono ?_ ?_
        (fun _ h => h))⟩
      · rintro w v ⟨-, hres, -⟩
        rw [hfound] at hres
        cases hres
        exact ⟨d'', rfl⟩
      · rintro r v ⟨-, hres⟩
        rw [hfound] at hres
        cases hres
    · rintro e t ⟨-, ⟨-, p, g, hfound⟩ | herr⟩
      · exact hno p g hfound
      · rw [hmiss] at herr
        cases herr

/-- The path `/root1/d`. -/
def pathD : List Byte := [0x2f, 0x72, 0x6f, 0x6f, 0x74, 0x31, 0x2f, 0x64]

theorem create_adds_one_name_small : smallFs.Tree ∧
    (∀ p g, smallFs.resolve (pieces slash (pathD.drop 6)) ≠ .ok (.found p g)) ∧
      (fileCreate (pathD.take 6 ++ pathD.drop 6) smallFs).Sat
        (fun e t => smallFs.Created (pieces slash (pathD.drop 6)) e t) (fun _ _ => False)
        (fun q => q = .noMemory ∧ ¬smallFs.Supplied) := by
  have hs := smallFs_tidy.tree
  have hmiss : ∀ p g, smallFs.resolve (pieces slash (pathD.drop 6)) ≠ .ok (.found p g) := by
    intro p g h
    rw [show smallFs.resolve (pieces slash (pathD.drop 6)) = .ok (.missing sRoot [0x64]) from rfl] at h
    cases h
  refine ⟨hs, hmiss, ?_⟩
  rcases (create_adds_one_name hs).1 (pathD.take 6) (pathD.drop 6) none sRoot rfl (by decide) (by decide)
    rfl rfl ⟨fileIn 3 3, by decide, by decide⟩ with ⟨⟨p, g, h⟩, -⟩ | ⟨-, h⟩
  · exact absurd h (hmiss p g)
  · exact h.mono (fun _ _ h => h.1) (fun _ _ h => h) (fun _ h => h)

/-- The disk with the missing block. The first free block was once that of a file; its page is still in the
cache, and it begins with the name `a`. -/
def staleFs : Fs :=
  let page := update (smallDisk 6) 0 0x61
  { holeFs with disk := update holeFs.disk 6 page, cache := update holeFs.cache 6 (some ⟨page, false⟩) }

theorem staleFs_look (a : Nat) (h6 : a / 1024 ≠ 6) : staleFs.look a = holeFs.look a := by
  have hc : staleFs.cache (a / 1024) = holeFs.cache (a / 1024) := update_of_ne h6 _ _
  have hd : staleFs.disk (a / 1024) = holeFs.disk (a / 1024) := update_of_ne h6 _ _
  unfold Fs.look Fs.isMapped Fs.word Fs.page
  rw [hc, hd]

theorem staleFs_consistent : staleFs.Own {3} ∅ ∧ staleFs.NoExcess := by
  have hfile : ∀ f ∈ Fs.files {3}, f + 44 < 6144 := by
    rintro f (rfl | ⟨b, rfl, j, hj, rfl⟩)
    · decide
    · unfold fileIn
      unfold file2blk at hj
      omega
  have hW : ∀ w ∈ {w | w = 1058 ∨ w / 1024 = 6}, w / 1024 ≠ 2 ∧ w ≠ 1025 ∧ ∀ f ∈ Fs.files {3},
      w < f + 33 ∨ f + 44 < w := by
    rintro w (rfl | hw)
    · exact ⟨by decide, by decide, rootSize_apart⟩
    · refine ⟨by omega, by omega, fun f hf => ?_⟩
      have := hfile f hf
      omega
  have hlook : ∀ a ∉ {w | w = 1058 ∨ w / 1024 = 6}, staleFs.look a = smallFs.look a := by
    intro a ha
    rw [staleFs_look a fun h => ha (.inr h), holeFs_look a fun h => ha (.inl h)]
  have hmapped : ∀ b, smallFs.isMapped b = true → staleFs.isMapped b = true := by
    intro b hb
    by_cases h6 : b = 6
    · subst h6
      rfl
    · have hc : staleFs.cache b = holeFs.cache b := update_of_ne h6 _ _
      have := holeFs_mapped b hb
      unfold Fs.isMapped at this ⊢
      rwa [hc]
  have ho := Fs.Own.of_small hW hlook hmapped rfl rfl
  refine ⟨ho, .of_small ho (fun a ha => hlook a fun hw => ?_) ?_⟩
  · have hout := (hW a hw).2.2
    rcases ha with ⟨f, hf, i, hi, rfl⟩ | ⟨x, hx, -⟩
    · have := hout f hf
      omega
    · exact hx.elim
  · rintro f (rfl | ⟨b, rfl, j, hj, rfl⟩)
    · decide
    · unfold Fs.nblocksOf
      rw [hlook]
      have := hfile _ (.inr ⟨3, rfl, j, hj, rfl⟩)
      unfold fileIn at this
      unfold fSize fileIn
      rintro (h | h) <;> omega

theorem staleFs_distinct : staleFs.Distinct := by
  intro d hd hdir f hf g hg name hn hfn hgn
  obtain rfl : d = sRoot := by
    have hall : ∀ j < file2blk, ¬staleFs.IsDir (fileIn 3 j) := by decide
    rcases staleFs_consistent.1.isFile hd with rfl | ⟨b, rfl, j, hj, rfl⟩
    · rfl
    · exact absurd hdir (hall j hj)
  have hnamed : (staleFs.entries sRoot).filter (fun f => ¬staleFs.Unused f) =
      [fileIn 3 0, fileIn 3 1, fileIn 3 2] := by decide
  have hmem : ∀ x ∈ staleFs.entries sRoot, staleFs.HasName x name →
      x ∈ [fileIn 3 0, fileIn 3 1, fileIn 3 2] ∧ staleFs.nameByte x 0 = name.getD 0 0 := by
    intro x hx hxn
    rw [← hnamed, List.mem_filter]
    exact ⟨⟨hx, by simpa using hxn.not_unused hn⟩, hxn 0 (by simp)⟩
  obtain ⟨hf, hfb⟩ := hmem f hf hfn
  obtain ⟨hg, hgb⟩ := hmem g hg hgn
  have hfirst : ∀ x ∈ [fileIn 3 0, fileIn 3 1, fileIn 3 2], ∀ y ∈ [fileIn 3 0, fileIn 3 1, fileIn 3 2],
      staleFs.nameByte x 0 = staleFs.nameByte y 0 → x = y := by decide
  exact hfirst f hf g hg (by rw [hfb, hgb])

/-- In a directory with a hole, the search for the new name brings an old block in, and with it a second file
of the name `a`. -/
theorem create_needs_complete_directories : staleFs.Consistent ∧ staleFs.NoExcess ∧ staleFs.Distinct ∧
    staleFs.resolve (pieces slash (pathD.drop 6)).dropLast = .ok (.found none sRoot) ∧
      staleFs.IsDir sRoot ∧ fileIn (staleFs.block sRoot 0) 3 ∈ staleFs.entries sRoot ∧
        staleFs.block sRoot 0 ≠ 0 ∧ staleFs.Unused (fileIn (staleFs.block sRoot 0) 3) ∧
          (∀ p g, staleFs.resolve (pieces slash (pathD.drop 6)) ≠ .ok (.found p g)) ∧
            ∃ e t, fileCreate pathD staleFs = .ret e t ∧ ¬t.Distinct := by
  refine ⟨staleFs_consistent.1.consistent, staleFs_consistent.2, staleFs_distinct, rfl, rfl, by decide,
    by decide, by decide, ?_, ?_⟩
  · intro p g h
    rw [show staleFs.resolve (pieces slash (pathD.drop 6)) = .ok (.missing sRoot [0x64]) from rfl] at h
    cases h
  · have hrun : ((fileCreate pathD staleFs).retAnd fun _ t =>
        decide (t.IsDir sRoot ∧ fileIn 3 0 ∈ t.entries sRoot ∧ fileIn 6 0 ∈ t.entries sRoot ∧
          t.HasName (fileIn 3 0) [0x61] ∧ t.HasName (fileIn 6 0) [0x61])) = true := by decide +kernel
    obtain ⟨e, t, h, hrun⟩ := Outcome.retAnd_eq_true.mp hrun
    obtain ⟨hdir, h3, h6, hn3, hn6⟩ := of_decide_eq_true hrun
    refine ⟨e, t, h, fun hd => ?_⟩
    have := hd sRoot .root hdir _ h3 _ h6 [0x61] ⟨by decide, by decide, by decide⟩ hn3 hn6
    exact absurd this (by decide)

end Mos
