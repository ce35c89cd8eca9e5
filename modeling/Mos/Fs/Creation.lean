import Mos.Fs.Tree
import Mos.Fs.Supply

/-!
# Creating a file

`dir_alloc_file` takes the first entry without a name. It searches the same blocks, in the same order, as
`dir_lookup` has just searched in vain; so the name that `file_create` writes there is the only one of its
kind in the directory.
-/

namespace Mos

open Lib Prog Function

variable {s t u : Fs} {a b d f g i j k n : Nat} {D X : Set Nat} {root rest name : List Byte}

namespace Fs

/-! ## Writing a name -/

instance (s : Fs) (f : Nat) : Decidable (s.Unused f) := inferInstanceAs (Decidable (_ = _))

theorem nameByte_strcpy (hf : f ∈ files D) : ∀ (cs : List Byte) k (s : Fs), s.Own D X →
    s.isMapped (f / 1024) = true → k + cs.length < 128 → ∀ i,
      (s.strcpy f k cs).nameByte f i =
        if k ≤ i ∧ i ≤ k + cs.length then cs.getD (i - k) 0 else s.nameByte f i := by
  intro cs
  induction cs with
  | nil =>
    intro k s ho hm hk i
    rw [strcpy, nameByte_setByte hf hm (by simpa using hk)]
    by_cases hik : i = k
    · rw [if_pos hik, if_pos (by simp [hik])]
      rfl
    · rw [if_neg hik, if_neg (by simp only [List.length_nil]; omega)]
  | cons c cs ih =>
    intro k s ho hm hk i
    rw [List.length_cons] at hk ⊢
    have halt := alters_setByte hf hm (ho.file_not_free hf) (k := k) (by omega) c
    rw [strcpy, ih (k + 1) _ (ho.alters (ho.inert_name hf) halt) (halt.mapped _ hm) (by omega),
      nameByte_setByte hf hm (by omega)]
    rcases Nat.lt_trichotomy i k with hlt | rfl | hgt
    · rw [if_neg (by omega), if_neg (by omega), if_neg (by omega)]
    · rw [if_neg (by omega), if_pos rfl, if_pos (by omega), Nat.sub_self, List.getD_cons_zero]
    · by_cases hle : i ≤ k + cs.length + 1
      · obtain ⟨m, rfl⟩ : ∃ m, i = k + 1 + m := ⟨i - (k + 1), by omega⟩
        rw [if_pos (by omega), if_pos (by omega), show k + 1 + m - (k + 1) = m by omega,
          show k + 1 + m - k = m + 1 by omega, List.getD_cons_succ]
      · rw [if_neg (by omega), if_neg (by omega), if_neg (by omega)]

/-- `strcpy` gives a file its name. -/
theorem hasName_strcpy (ho : s.Own D X) (hf : f ∈ files D) (hm : s.isMapped (f / 1024) = true)
    (hlen : name.length < maxnamelen) : (s.strcpy f 0 name).HasName f name := by
  intro k hk
  unfold maxnamelen at hlen
  rw [nameByte_strcpy hf name 0 s ho hm (by omega), if_pos (by omega), Nat.sub_zero]

/-- The other words of the files are not in the name of `f`. -/
theorem Own.notMem_name (ho : s.Own D X) (hf : f ∈ files D) (hg : g ∈ files D) (hi : i < 64)
    (h : g ≠ f ∨ 32 ≤ i) : g + i ∉ nameWords f := by
  rintro ⟨k, hk, heq⟩
  obtain ⟨rfl, rfl⟩ := ho.file_word_inj hg hf hi (by omega) heq
  omega

section NewName

variable (ho : s.Own D X) (hf : f ∈ files D) (h : s.Alters (nameWords f) t)

include ho hf h

theorem nblocksOf_newName (hg : g ∈ files D) : t.nblocksOf g = s.nblocksOf g := by
  unfold nblocksOf fSize
  rw [h.look _ (ho.notMem_name hf hg (by decide) (.inr (by decide)))]

theorem isDir_newName (hg : g ∈ files D) : t.IsDir g ↔ s.IsDir g :=
  IsDir.congr (h.look _ ((ho.inert_name hf).2.2 g hg))

theorem block_newName (hg : g ∈ files D) (n : Nat) : t.block g n = s.block g n :=
  ho.block_congr (fun a ha => h.look a fun hname => (ho.inert_name hf).2.1 a hname ha) hg n

/-- Only the name of `f` has changed. -/
theorem named_newName (hu : s.Unused f) : s.Named D f t where
  dirs _ hd := isDir_newName ho hf h hd
  sizes _ hd _ := nblocksOf_newName ho hf h hd
  blocks _ hd _ n := block_newName ho hf h hd n
  names g hg hne _ hlen := HasName.congr
    (fun i hi => h.look _ (ho.notMem_name hf hg (by omega) (.inl hne))) hlen
  unused := hu

end NewName

/-- The tree stays tidy if the directory has no file of that name. -/
theorem Tidy.newName (hs : s.Tidy D X) (hd : d ∈ files D) (hdir : s.IsDir d) (hf : f ∈ s.entries d)
    (h : s.Alters (nameWords f) t) (hu : s.Unused f) (hz : 0 ∉ name) (hname : t.HasName f name)
    (hfind : s.find d name = none) : t.Tidy D X := by
  have ho := hs.own
  have hf' := hs.entry_file hd hdir hf
  refine ⟨ho.alters (ho.inert_name hf') h, ?_, (isDir_newName ho hf' h (.inl rfl)).mpr hs.root, ?_, ?_⟩
  · intro e he hedir n hn
    rw [nblocksOf_newName ho hf' h he] at hn
    rw [block_newName ho hf' h he]
    exact hs.complete e he ((isDir_newName ho hf' h he).mp hedir) n hn
  · intro e he n hn
    rw [nblocksOf_newName ho hf' h he] at hn
    rw [block_newName ho hf' h he]
    exact hs.beyond e he n hn
  · refine (named_newName ho hf' h hu).distinct_of_got hs hz hname ?_
    intro e he hedir hfe
    rw [hs.dir_unique he hedir hd hdir hfe hf]
    exact hfind

end Fs

/-! ## Looking for an unused entry -/

/-- The search of `dir_alloc_file` through one block. -/
theorem find?_unused (hm : s.isMapped b = true) :
    ((List.range file2blk).find? fun j => s.byte (fileIn b j) 0 = 0).map (fileIn b) =
      ((List.range file2blk).map (fileIn b)).find? fun f => s.Unused f := by
  rw [List.find?_map]
  congr 1
  refine List.find?_congr fun j hj => ?_
  have hj := List.mem_range.mp hj
  rw [byte_zero s (by rwa [fileIn_div hj])]
  rfl

theorem Fs.Sees.find?_unused (h : s.Sees t) (l : List Nat) :
    (l.find? fun f => t.Unused f) = l.find? fun f => s.Unused f :=
  List.find?_congr fun _ _ => decide_eq_decide.mpr h.unused

theorem allocFileFrom_find (d : Nat) : ∀ n i (s : Fs), s.Own D X → d ∈ Fs.files D →
    s.isMapped (d / 1024) = true → (∀ k, i ≤ k → k < i + n → s.block d k ≠ 0) →
      (allocFileFrom d i n s).Sat
        (fun o t => s.Sees t ∧ ((s.entriesFrom d i n).find? fun f => s.Unused f) = o ∧
          ∀ f, o = some f → t.isMapped (f / 1024) = true)
        (fun _ _ => False) (fun q => q = .noMemory) := by
  intro n
  induction n with
  | zero =>
    intro i s _ _ _ _
    exact ⟨Fs.Sees.refl s, rfl, nofun⟩
  | succ n ih =>
    intro i s ho hd hm hblocks
    have h0 := hblocks i (le_refl i) (by omega)
    rw [allocFileFrom]
    refine sat_call (fileGetBlock_present ho hd hm h0) ?_ (fun _ _ h => h.elim) (fun _ h => h)
    rintro b t ⟨rfl, hsees, hmb⟩
    have hfirst := find?_unused hmb
    rw [hsees.find?_unused] at hfirst
    rw [bind_ret (findFile_mapped hmb _), hfirst, Fs.entriesFrom_succ, List.find?_append]
    cases hr : ((List.range file2blk).map (fileIn (s.block d i))).find? fun f => s.Unused f with
    | some f =>
      obtain ⟨j, hj, rfl⟩ := List.mem_map.mp (List.mem_of_find?_eq_some hr)
      refine ⟨hsees, rfl, ?_⟩
      rintro _ ⟨rfl⟩
      rwa [fileIn_div (List.mem_range.mp hj)]
    | none =>
      have hb : ∀ k, t.block d k = s.block d k := hsees.block d
      have hrest := ih (i + 1) t (ho.sees hsees) hd (hsees.mapped _ hm)
        (fun k h1 h2 => by rw [hb]; exact hblocks k (by omega) (by omega))
      have hentries : t.entriesFrom d (i + 1) n = s.entriesFrom d (i + 1) n := by
        unfold Fs.entriesFrom
        simp only [hb]
      rw [hentries, hsees.find?_unused] at hrest
      refine hrest.mono ?_ (fun _ _ h => h) (fun _ h => h)
      rintro o u ⟨hu, hfound, hmf⟩
      exact ⟨hsees.trans hu, by simpa using hfound, hmf⟩

/-- `dir_alloc_file` in a complete directory with an unused entry: it gives out the first one. -/
theorem dirAllocFile_find (ho : s.Own D X) (hc : s.Complete D) (hd : d ∈ Fs.files D) (hdir : s.IsDir d)
    (hm : s.isMapped (d / 1024) = true) (hroom : ∃ f ∈ s.entries d, s.Unused f) :
    (dirAllocFile d s).Sat
      (fun f t => s.Sees t ∧ f ∈ s.entries d ∧ s.Unused f ∧ t.isMapped (f / 1024) = true)
      (fun _ _ => False) (fun q => q = .noMemory) := by
  have hms : s.isMapped (fSize d / 1024) = true := by
    rw [fSize, Fs.file_words hd (by decide)]
    exact hm
  rw [dirAllocFile, bind_ret (load_look hms)]
  refine sat_call (allocFileFrom_find d _ 0 s ho hd hm fun k _ hk =>
    hc d hd hdir k (by unfold Fs.nblocksOf; omega)) ?_ (fun _ _ h => h) (fun _ h => h)
  rintro o t ⟨hsees, hfound, hmf⟩
  cases o with
  | some f =>
    exact ⟨hsees, List.mem_of_find?_eq_some hfound, by simpa using List.find?_some hfound, hmf f rfl⟩
  | none =>
    obtain ⟨f, hf, hu⟩ := hroom
    rw [List.find?_eq_none] at hfound
    exact absurd (by simpa using hu) (hfound f hf)

/-! ## `file_create` -/

/-- `file_create` in a tidy tree. A path that leads to a file, or nowhere, gives an error; then nothing but
`f_dir` fields has changed. Otherwise an unused entry of the directory has got the name. -/
theorem fileCreate_named (hs : s.Tidy D X) (h6 : root.length = 6) (hz : 0 ∉ rest)
    (hroom : ∀ d name, s.resolve (pieces slash rest) = .ok (.missing d name) →
      ∃ f ∈ s.entries d, s.Unused f) :
    (fileCreate (root ++ rest) s).Sat
      (fun e t => ∃ d name u, s.resolve (pieces slash rest) = .ok (.missing d name) ∧
        s.Alters (Fs.ups D) u ∧ u.Tidy D X ∧ t.Tidy D X ∧ e ∈ s.entries d ∧ s.Unused e ∧ u.Named D e t ∧
          t.HasName e name)
      (fun r t => s.Alters (Fs.ups D) t ∧
        (r = .fileExists ∧ (∃ o f, s.resolve (pieces slash rest) = .ok (.found o f)) ∨
          s.resolve (pieces slash rest) = .error r))
      (fun q => q = .noMemory) := by
  have ho := hs.own
  rw [fileCreate]
  refine sat_call (walkPath_resolve ho hs.complete h6 rest) ?_ ?_ (fun _ h => h)
  · rintro w u ⟨halt, hres, hend⟩
    have hsu := hs.alters halt
    cases w with
    | found o f => exact ⟨halt, .inl ⟨rfl, o, f, hres⟩⟩
    | missing d name =>
      obtain ⟨⟨hd, hm⟩, hdir, hfind, hlen⟩ := hend
      have hname : 0 ∉ name := by
        cases hl : pieces slash rest using List.reverseRecOn with
        | nil =>
          rw [hl] at hres
          cases hres
        | append_singleton ns n =>
          rw [hl] at hres
          obtain ⟨-, -, d', -, -, hw⟩ := resolve_concat.mp hres
          obtain ⟨-, -, rfl⟩ := Walk.last_eq_missing.mp hw.symm
          exact fun h0 => hz ((mem_pieces (hl ▸ List.mem_append_right ns (List.mem_singleton_self _))).2.2 0 h0)
      have hdiru := (ho.isDir_alters halt hd).mpr hdir
      have hroomu : ∃ f ∈ u.entries d, u.Unused f := by
        obtain ⟨f, hf, hu⟩ := hroom d name hres
        have hfD := hs.entry_file hd hdir hf
        refine ⟨f, by rwa [ho.entries_alters halt hd], ?_⟩
        rwa [Fs.Unused, halt.look f (ho.notMem_ups (i := 0) hfD (by decide) (by decide))]
      dsimp only
      rw [sat_bind, sat_attempt]
      refine (dirAllocFile_find hsu.own hsu.complete hd hdiru hm hroomu).mono ?_ (fun _ _ h => h.elim)
        (fun _ h => h)
      rintro f v ⟨hv, hf, hu, hmf⟩
      have hsv := hsu.alters (hv.alters _)
      have hfD := hsu.entry_file hd hdiru hf
      have hunused : s.Unused f := by
        rwa [Fs.Unused, halt.look f (ho.notMem_ups (i := 0) hfD (by decide) (by decide))] at hu
      dsimp only
      rw [bind_ret (touch_mapped hmf), modify_bind]
      have hcopy := strcpy_alters hfD name 0 v hsv.own hmf (by unfold maxnamelen at hlen; omega)
      have hgot := Fs.hasName_strcpy hsv.own hfD hmf hlen
      have huv := hv.unused.mpr hu
      have hnamed := Fs.named_newName hsv.own hfD hcopy huv
      have htidy : (v.strcpy f 0 name).Tidy D X := by
        refine hsv.newName hd (by rwa [Fs.IsDir, hv.look]) ?_ hcopy huv hname hgot ?_
        · rwa [hsu.own.entries_alters (hv.alters _) hd]
        · rw [hsu.own.find_alters hsu.complete (hv.alters _) hd hdiru hlen,
            ho.find_alters hs.complete halt hd hdir hlen]
          exact hfind
      refine ⟨d, name, v, hres, halt.trans (hv.alters _) ho.inert_ups.1, hsv, htidy, ?_, hunused, hnamed,
        hgot⟩
      rwa [ho.entries_alters halt hd] at hf
  · rintro r t ⟨halt, hres⟩
    exact ⟨halt, .inr hres⟩

end Mos
