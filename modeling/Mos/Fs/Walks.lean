import Mos.Fs.Names
import Mos.Lib.Pieces
import Mathlib.Data.List.DropRight

/-!
# Paths

`walk_path` and `fatwalk_path` scan a path byte by byte. Both scan it in the same way (`scan`), and what they
do is to go through the names of the path from left to right (`descend`): `scan_eq_descend`. How they look a
name up is their own affair. If the lookup is a function of the directory and the name, then so is the result
(`resolve`).
-/

namespace Mos

open Lib Prog Function

/-! ## Going through names -/

section Descend

variable {σ π : Type}

/-- The names of a path one after the other, starting at a file: every name but the last one must be there. -/
def descend (isDir : Nat → Prog σ Err π Bool) (lookup : Nat → List Byte → Prog σ Err π Nat) :
    Option Nat → Nat → List (List Byte) → Prog σ Err π Walk
  | dir, file, [] => return .found dir file
  | _, file, name :: names =>
    if name.length ≥ maxnamelen then Prog.fail .badPath
    else do
      if (← isDir file) = false then Prog.fail .notFound
      else
        match ← Prog.attempt (lookup file name) with
        | .ok f => descend isDir lookup (some file) f names
        | .error e => if e = .notFound ∧ names = [] then return .missing file name else Prog.fail e

/-- The same for directories that do not change. -/
def resolve (isDir : Nat → Prop) [DecidablePred isDir] (find : Nat → List Byte → Option Nat) :
    Option Nat → Nat → List (List Byte) → Except Err Walk
  | dir, file, [] => .ok (.found dir file)
  | _, file, name :: names =>
    if name.length ≥ maxnamelen then .error .badPath
    else if ¬isDir file then .error .notFound
    else
      match find file name with
      | some f => resolve isDir find (some file) f names
      | none => if names = [] then .ok (.missing file name) else .error .notFound

/-- The loop of `walk_path` and of `fatwalk_path`. Every round takes at least one byte off the path. -/
def scan (isDir : Nat → Prog σ Err π Bool) (lookup : Nat → List Byte → Prog σ Err π Nat) (stop : π) :
    Nat → Option Nat → Nat → List Byte → Prog σ Err π Walk
  | _, dir, file, [] => return .found dir file
  | 0, _, _, _ :: _ => Prog.halt stop
  | n + 1, _, file, c :: cs =>
    let name := (c :: cs).takeWhile (· ≠ slash)
    let path := skipSlash ((c :: cs).dropWhile (· ≠ slash))
    if name.length ≥ maxnamelen then Prog.fail .badPath
    else do
      if (← isDir file) = false then Prog.fail .notFound
      else
        match ← Prog.attempt (lookup file name) with
        | .ok f => scan isDir lookup stop n (some file) f path
        | .error e => if e = .notFound ∧ path = [] then return .missing file name else Prog.fail e

theorem skipSlash_skipSlash (path : List Byte) : skipSlash (skipSlash path) = skipSlash path := by
  unfold skipSlash
  exact List.dropWhile_idempotent _ _

/-- **The scanner goes through the pieces of the path**, if it does not begin with a slash. -/
theorem scan_eq_descend (isDir : Nat → Prog σ Err π Bool)
    (lookup : Nat → List Byte → Prog σ Err π Nat) (stop : π) :
    ∀ n dir file path, path.length ≤ n → skipSlash path = path →
      scan isDir lookup stop n dir file path = descend isDir lookup dir file (pieces slash path) := by
  intro n
  induction n with
  | zero =>
    intro dir file path hn _
    obtain rfl := List.length_eq_zero_iff.mp (Nat.le_zero.mp hn)
    rfl
  | succ n ih =>
    intro dir file path hn hskip
    cases path with
    | nil => rfl
    | cons c cs =>
      have hc : c ≠ slash := by
        have := head_of_dropWhile hskip
        simpa using this
      have hlt := rest_lt c cs
      have hrest := skipSlash_skipSlash ((c :: cs).dropWhile (· ≠ slash))
      have hnil : skipSlash ((c :: cs).dropWhile (· ≠ slash)) = [] ↔
          pieces slash ((c :: cs).dropWhile (· ≠ slash)) = [] := pieces_eq_nil_iff.symm
      have hpieces : pieces slash (skipSlash ((c :: cs).dropWhile (· ≠ slash))) =
          pieces slash ((c :: cs).dropWhile (· ≠ slash)) := pieces_dropWhile _
      have hnext := fun f => ih (some file) f _ (by omega) hrest
      rw [pieces_cons hc, scan, descend]
      simp only [hnext, hpieces, hnil]

variable {isDir : Nat → Prog σ Err π Bool} {lookup : Nat → List Byte → Prog σ Err π Nat}
  {dirOk : Nat → Prop} [DecidablePred dirOk] {find : Nat → List Byte → Option Nat}

variable (dirOk find) in
/-- If the lookup always finds what `find` says, then the result is what `resolve` says. `I` holds all the
time, `J` of the files that are met, and `N` of the names. -/
theorem descend_resolve (I : σ → Prop) (J : Nat → σ → Prop) (N : List Byte → Prop) {H : π → Prop}
    (hdir : ∀ f s, I s → J f s →
      (isDir f s).Sat (fun b t => t = s ∧ (b = true ↔ dirOk f)) (fun _ _ => False) H)
    (hlookup : ∀ f name s, I s → J f s → dirOk f → N name → name.length < maxnamelen →
      (lookup f name s).Sat (fun g t => I t ∧ J g t ∧ find f name = some g)
        (fun e t => I t ∧ J f t ∧ e = .notFound ∧ find f name = none) H) :
    ∀ names dir f s, (∀ n ∈ names, N n) → I s → J f s →
      (descend isDir lookup dir f names s).Sat
        (fun w t => I t ∧ resolve dirOk find dir f names = .ok w ∧
          match w with
          | .found _ g => J g t
          | .missing d name => J d t ∧ dirOk d ∧ find d name = none ∧ N name ∧ name.length < maxnamelen)
        (fun e t => I t ∧ resolve dirOk find dir f names = .error e) H := by
  intro names
  induction names with
  | nil => exact fun dir f s _ hI hJ => ⟨hI, rfl, hJ⟩
  | cons name names ih =>
    intro dir f s hN hI hJ
    have hname := hN name List.mem_cons_self
    unfold descend resolve
    by_cases hlen : name.length ≥ maxnamelen
    · rw [if_pos hlen, if_pos hlen]
      exact ⟨hI, rfl⟩
    · rw [if_neg hlen, if_neg hlen]
      refine sat_call (hdir f s hI hJ) ?_ (fun _ _ h => h.elim) (fun _ h => h)
      rintro b t ⟨rfl, hb⟩
      by_cases hd : dirOk f
      · rw [if_neg (by simp [hb.mpr hd]), if_neg (not_not.mpr hd), sat_bind, sat_attempt]
        refine (hlookup f name t hI hJ hd hname (by omega)).mono ?_ ?_ (fun _ h => h)
        · rintro g u ⟨hu, hg, hfind⟩
          rw [hfind]
          exact ih (some f) g u (fun n hn => hN n (List.mem_cons_of_mem _ hn)) hu hg
        · rintro e u ⟨hu, hf, rfl, hfind⟩
          rw [hfind]
          by_cases hlast : names = []
          · simp only [hlast, and_self, if_true]
            exact ⟨hu, rfl, hf, hd, hfind, hname, by omega⟩
          · simp only [hlast, and_false, if_false]
            exact ⟨hu, rfl⟩
      · have hb' : b = false := by
          rw [← Bool.not_eq_true, hb]
          exact hd
        rw [if_pos hb', if_pos hd]
        exact ⟨hI, rfl⟩

variable (dirOk find) in
/-- For a path that leads to a file it is enough that the lookup finds what `find` finds. -/
theorem descend_found (I : σ → Prop) (J : Nat → σ → Prop) (N : List Byte → Prop) {H : π → Prop}
    (hdir : ∀ f s, I s → J f s → dirOk f →
      (isDir f s).Sat (fun b t => b = true ∧ t = s) (fun _ _ => False) H)
    (hlookup : ∀ f name g s, I s → J f s → dirOk f → N name → name.length < maxnamelen →
      find f name = some g → (lookup f name s).Sat (fun g' t => g' = g ∧ I t ∧ J g t) (fun _ _ => False) H) :
    ∀ names dir f o g s, (∀ n ∈ names, N n) → I s → J f s →
      resolve dirOk find dir f names = .ok (.found o g) →
      (descend isDir lookup dir f names s).Sat (fun w t => w = .found o g ∧ I t ∧ J g t)
        (fun _ _ => False) H := by
  intro names
  induction names with
  | nil =>
    intro dir f o g s _ hI hJ hr
    obtain ⟨rfl, rfl⟩ := Walk.found.inj (Except.ok.inj hr)
    exact ⟨rfl, hI, hJ⟩
  | cons name names ih =>
    intro dir f o g s hN hI hJ hr
    unfold resolve at hr
    unfold descend
    by_cases hlen : name.length ≥ maxnamelen
    · rw [if_pos hlen] at hr
      cases hr
    · rw [if_neg hlen] at hr ⊢
      by_cases hd : dirOk f
      · rw [if_neg (not_not.mpr hd)] at hr
        refine sat_call (hdir f s hI hJ hd) ?_ (fun _ _ h => h.elim) (fun _ h => h)
        rintro _ _ ⟨rfl, rfl⟩
        rw [if_neg (by decide), sat_bind, sat_attempt]
        cases hfind : find f name with
        | none =>
          rw [hfind] at hr
          dsimp only at hr
          split at hr <;> cases hr
        | some x =>
          rw [hfind] at hr
          refine (hlookup f name x _ hI hJ hd (hN name List.mem_cons_self) (by omega) hfind).mono ?_
            (fun _ _ h => h.elim) (fun _ h => h)
          rintro _ u ⟨rfl, hu, hx⟩
          exact ih (some f) _ o g u (fun n hn => hN n (List.mem_cons_of_mem _ hn)) hu hx hr
      · rw [if_pos hd] at hr
        cases hr

/-- If the first names lead to a file, the walk goes on from there. -/
theorem sat_descend_append {Q : Walk → σ → Prop} {E : Err → σ → Prop} {H : π → Prop} {o : Option Nat}
    {g : Nat} {names' : List (List Byte)} : ∀ names dir f s,
      (descend isDir lookup dir f names s).Sat
        (fun w t => w = .found o g ∧ (descend isDir lookup o g names' t).Sat Q E H) (fun _ _ => False) H →
      (descend isDir lookup dir f (names ++ names') s).Sat Q E H := by
  intro names
  induction names with
  | nil =>
    rintro dir f s ⟨hw, h⟩
    obtain ⟨rfl, rfl⟩ := Walk.found.inj hw
    exact h
  | cons name names ih =>
    intro dir f s h
    rw [List.cons_append]
    rw [descend] at h ⊢
    by_cases hlen : name.length ≥ maxnamelen
    · rw [if_pos hlen] at h
      exact h.elim
    · rw [if_neg hlen] at h ⊢
      rw [sat_bind] at h ⊢
      refine h.mono ?_ (fun _ _ h => h.elim) (fun _ h => h)
      intro b t h
      by_cases hb : b = false
      · rw [if_pos hb] at h
        exact h.elim
      · rw [if_neg hb, sat_bind, sat_attempt] at h ⊢
        refine h.mono (fun x u h => ih (some f) x u h) ?_ (fun _ h => h)
        intro e u h
        dsimp only at h
        split at h
        · exact absurd h.1 (by simp)
        · exact h.elim

/-- Where more is found, paths still lead to the files that they led to. `P` holds of the files that are
met. -/
theorem resolve_mono (dirOk' : Nat → Prop) [DecidablePred dirOk'] (find' : Nat → List Byte → Option Nat)
    (P : Nat → Prop) (N : List Byte → Prop) {g : Nat} {p : Option Nat}
    (hdir : ∀ d, P d → dirOk d → dirOk' d)
    (hfind : ∀ d name f, P d → dirOk d → N name → find d name = some f → find' d name = some f ∧ P f) :
    ∀ names o d, P d → (∀ n ∈ names, N n) → resolve dirOk find o d names = .ok (.found p g) →
      resolve dirOk' find' o d names = .ok (.found p g) := by
  intro names
  induction names with
  | nil => exact fun _ _ _ _ h => h
  | cons name names ih =>
    intro o d hd hN hr
    rw [resolve] at hr ⊢
    by_cases hlen : name.length ≥ maxnamelen
    · rw [if_pos hlen] at hr
      cases hr
    · rw [if_neg hlen] at hr ⊢
      by_cases hok : dirOk d
      · rw [if_neg (not_not.mpr hok)] at hr
        rw [if_neg (not_not.mpr (hdir d hd hok))]
        cases hf : find d name with
        | none =>
          rw [hf] at hr
          dsimp only at hr
          split at hr <;> cases hr
        | some f =>
          obtain ⟨hf', hP⟩ := hfind d name f hd hok (hN name List.mem_cons_self) hf
          rw [hf] at hr
          rw [hf']
          exact ih (some d) f hP (fun n hn => hN n (List.mem_cons_of_mem _ hn)) hr
      · rw [if_pos hok] at hr
        cases hr

variable (find) in
/-- Where the last name of a path is missing. -/
theorem resolve_missing (P : Nat → Prop) (N : List Byte → Prop) {d' : Nat} {name' : List Byte}
    (hfind : ∀ d name f, P d → dirOk d → N name → find d name = some f → P f) :
    ∀ names o d, P d → (∀ n ∈ names, N n) → resolve dirOk find o d names = .ok (.missing d' name') →
      P d' ∧ dirOk d' ∧ find d' name' = none ∧ N name' := by
  intro names
  induction names with
  | nil =>
    intro o d _ _ hr
    cases Except.ok.inj hr
  | cons name names ih =>
    intro o d hd hN hr
    rw [resolve] at hr
    by_cases hlen : name.length ≥ maxnamelen
    · rw [if_pos hlen] at hr
      cases hr
    · rw [if_neg hlen] at hr
      by_cases hok : dirOk d
      · rw [if_neg (not_not.mpr hok)] at hr
        cases hf : find d name with
        | none =>
          rw [hf] at hr
          dsimp only at hr
          split at hr
          · obtain ⟨rfl, rfl⟩ := Walk.missing.inj (Except.ok.inj hr)
            exact ⟨hd, hok, hf, hN name List.mem_cons_self⟩
          · cases hr
        | some f =>
          rw [hf] at hr
          exact ih (some d) f (hfind d name f hd hok (hN name List.mem_cons_self) hf)
            (fun n hn => hN n (List.mem_cons_of_mem _ hn)) hr
      · rw [if_pos hok] at hr
        cases hr

end Descend

/-! ## The native file system -/

variable {s t u : Fs} {d f g : Nat} {D X : Set Nat} {path root rest name : List Byte}

/-- `dir->f_type == FTYPE_DIR`. -/
def fileIsDir (f : Nat) : FsM Bool := do
  let type ← load (fType f)
  return type = ftypeDir

theorem walkFrom_eq_scan : ∀ n dir f path,
    walkFrom n dir f path = scan fileIsDir dirLookup .assertion n dir f path := by
  intro n
  induction n with
  | zero =>
    intro dir f path
    cases path <;> rfl
  | succ n ih =>
    intro dir f path
    cases path with
    | nil => rfl
    | cons c cs =>
      rw [walkFrom, scan]
      simp only [← ih]
      split
      · rfl
      · funext s
        rw [bind_apply, bind_apply, fileIsDir, bind_apply]
        cases load (fType f) s with
        | ret type t =>
          have hdec : (decide (type = ftypeDir) = false) = (type ≠ ftypeDir) :=
            propext decide_eq_false_iff_not
          -- both sides are the same program, matched on separately
          simp only [pure_apply, hdec] <;> rfl
        | err e t => rfl
        | halt q => rfl

/-- The pieces of a path behind the name of the root directory. -/
theorem walkPath_eq_descend (h : root.length = 6) :
    walkPath (root ++ rest) = descend fileIsDir dirLookup none sRoot (pieces slash rest) := by
  have hdrop : (root ++ rest).drop 6 = rest := by rw [← h, List.drop_left]
  unfold walkPath
  rw [hdrop, walkFrom_eq_scan, scan_eq_descend _ _ _ _ _ _ _ (le_refl _) (skipSlash_skipSlash rest)]
  congr 1
  exact pieces_dropWhile rest

namespace Fs

/-- What a path stands for. -/
def resolve (s : Fs) (names : List (List Byte)) : Except Err Walk :=
  Mos.resolve s.IsDir s.find none sRoot names

theorem Own.nameByte_alters (ho : s.Own D X) (h : s.Alters (ups D) t) (hf : f ∈ files D)
    (hlen : name.length < maxnamelen) : t.HasName f name ↔ s.HasName f name :=
  HasName.congr (fun i hi => h.look _ (ho.notMem_ups hf (by omega) (by omega))) hlen

theorem Own.entries_alters (ho : s.Own D X) (h : s.Alters (ups D) t) (hd : d ∈ files D) :
    t.entries d = s.entries d := by
  have hb := ho.block_congr (fun a ha => h.look a fun hups => ho.inert_ups.2.1 a hups ha) hd
  unfold entries entriesFrom
  rw [ho.nblocksOf_alters h hd]
  simp only [hb]

theorem Own.isDir_alters (ho : s.Own D X) (h : s.Alters (ups D) t) (hd : d ∈ files D) :
    t.IsDir d ↔ s.IsDir d :=
  IsDir.congr (h.look _ (ho.inert_ups.2.2 d hd))

theorem Own.find_alters (ho : s.Own D X) (hc : s.Complete D) (h : s.Alters (ups D) t) (hd : d ∈ files D)
    (hdir : s.IsDir d) (hlen : name.length < maxnamelen) : t.find d name = s.find d name := by
  unfold find
  rw [ho.entries_alters h hd]
  refine List.find?_congr fun f hf => decide_eq_decide.mpr ?_
  exact ho.nameByte_alters h (mem_files_of_entry ho hc hd hdir hf) hlen

theorem Complete.alters (ho : s.Own D X) (hc : s.Complete D) (h : s.Alters (ups D) t) :
    t.Complete D := by
  intro d hd hdir n hn
  rw [ho.nblocksOf_alters h hd] at hn
  rw [ho.block_congr (fun a ha => h.look a fun hups => ho.inert_ups.2.1 a hups ha) hd]
  exact hc d hd ((ho.isDir_alters h hd).mp hdir) n hn

/-- `f` is a file in the cache. -/
def Held (D : Set Nat) (f : Nat) (s : Fs) : Prop := f ∈ files D ∧ s.isMapped (f / 1024) = true

end Fs

theorem fileIsDir_spec (hf : Fs.Held D f s) :
    fileIsDir f s = .ret (decide (s.IsDir f)) s := by
  have hm : s.isMapped (fType f / 1024) = true := by
    rw [fType, Fs.file_words hf.1 (by decide)]
    exact hf.2
  rw [fileIsDir, bind_ret (load_look hm)]
  rfl

namespace Fs

/-- Only `f_dir` fields have changed: some of the entries point at their directories now. -/
structure Visits (s : Fs) (D : Set Nat) (t : Fs) : Prop where
  alters : s.Alters (ups D) t
  up : ∀ f ∈ files D, t.look (fDir f) = s.look (fDir f) ∨
    ∃ d ∈ files D, s.IsDir d ∧ f ∈ s.entries d ∧ t.look (fDir f) = filePtr d

theorem Sees.visits (h : s.Sees t) (D : Set Nat) : s.Visits D t :=
  ⟨h.alters _, fun _ _ => .inl (h.look _)⟩

theorem Visits.trans_sees (ho : s.Own D X) (h : s.Visits D t) (h' : t.Sees u) : s.Visits D u where
  alters := h.alters.trans (h'.alters _) ho.inert_ups.1
  up f hf := by
    rw [h'.look]
    exact h.up f hf

/-- A file in a directory is found, and pointed at the directory. -/
theorem Visits.found (ho : s.Own D X) (hc : s.Complete D) (h : s.Visits D t) (h' : t.Alters {fDir g} u)
    (hd : d ∈ files D) (hdir : s.IsDir d) (hg : g ∈ s.entries d) (hup : u.look (fDir g) = filePtr d) :
    s.Visits D u where
  alters := by
    have hg := mem_files_of_entry ho hc hd hdir hg
    exact h.alters.trans (h'.mono (Set.singleton_subset_iff.mpr ⟨g, hg, rfl⟩)) ho.inert_ups.1
  up f hf := by
    by_cases hfg : f = g
    · subst hfg
      exact .inr ⟨d, hd, hdir, hg, hup⟩
    · have hne : fDir f ∉ ({fDir g} : Set Nat) := fun heq => hfg (by
        have := Set.mem_singleton_iff.mp heq
        unfold fDir at this
        omega)
      rw [h'.look _ hne]
      exact h.up f hf

end Fs

/-- `walk_path` in a consistent, complete tree: the result is what the path stands for, and the files on the way
have been pointed at their directories. -/
theorem walkPath_visits (ho : s.Own D X) (hc : s.Complete D) (h : root.length = 6) (rest : List Byte) :
    (walkPath (root ++ rest) s).Sat
      (fun w t => s.Visits D t ∧ s.resolve (pieces slash rest) = .ok w ∧
        match w with
        | .found _ g => Fs.Held D g t
        | .missing d name => Fs.Held D d t ∧ s.IsDir d ∧ s.find d name = none ∧ name.length < maxnamelen)
      (fun e t => s.Visits D t ∧ s.resolve (pieces slash rest) = .error e)
      (fun q => q = .noMemory) := by
  rw [walkPath_eq_descend h]
  refine (descend_resolve s.IsDir s.find (s.Visits D) (Fs.Held D)
    (fun _ => True) ?_ ?_ _ none sRoot s (fun _ _ => trivial) ((Fs.Sees.refl s).visits D)
    ⟨.inl rfl, ho.mounted.hasBitmap.mapped_super⟩).mono ?_ (fun _ _ h => h) (fun _ h => h)
  · intro f t hI hJ
    rw [fileIsDir_spec hJ]
    refine ⟨rfl, ?_⟩
    rw [decide_eq_true_eq]
    exact ho.isDir_alters hI.alters hJ.1
  · intro f name t hI hJ hdir _ hlen
    have halt := hI.alters
    have hot := ho.alters ho.inert_ups halt
    refine (dirLookup_find hot (hc.alters ho halt) hJ.1 ((ho.isDir_alters halt hJ.1).mpr hdir) hJ.2 hlen).mono
      ?_ ?_ (fun _ h => h)
    · rintro g u ⟨hu, hfind, hm, hup⟩
      rw [ho.find_alters hc halt hJ.1 hdir hlen] at hfind
      have hg := (Fs.find_spec hfind).1
      exact ⟨hI.found ho hc hu hJ.1 hdir hg hup, ⟨Fs.mem_files_of_entry ho hc hJ.1 hdir hg, hm⟩, hfind⟩
    · rintro e u ⟨rfl, hu, hfind⟩
      rw [ho.find_alters hc halt hJ.1 hdir hlen] at hfind
      exact ⟨hI.trans_sees ho hu, ⟨hJ.1, hu.mapped _ hJ.2⟩, rfl, hfind⟩
  · rintro w t ⟨hI, hr, hw⟩
    refine ⟨hI, hr, ?_⟩
    cases w with
    | found o g => exact hw
    | missing d name => exact ⟨hw.1, hw.2.1, hw.2.2.1, hw.2.2.2.2⟩

/-- Nothing but `f_dir` fields has changed. -/
theorem walkPath_resolve (ho : s.Own D X) (hc : s.Complete D) (h : root.length = 6) (rest : List Byte) :
    (walkPath (root ++ rest) s).Sat
      (fun w t => s.Alters (Fs.ups D) t ∧ s.resolve (pieces slash rest) = .ok w ∧
        match w with
        | .found _ g => Fs.Held D g t
        | .missing d name => Fs.Held D d t ∧ s.IsDir d ∧ s.find d name = none ∧ name.length < maxnamelen)
      (fun e t => s.Alters (Fs.ups D) t ∧ s.resolve (pieces slash rest) = .error e)
      (fun q => q = .noMemory) :=
  (walkPath_visits ho hc h rest).mono (fun _ _ h => ⟨h.1.alters, h.2⟩) (fun _ _ h => ⟨h.1.alters, h.2⟩)
    (fun _ h => h)

end Mos
