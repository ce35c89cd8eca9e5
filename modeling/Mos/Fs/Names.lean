import Mos.Fs.OwnDir
import Mathlib.Data.List.Find
import Mathlib.Tactic.IntervalCases

/-!
# The names in a directory

A directory is complete if it has all the blocks that its size promises. Then `dir_lookup` allocates nothing,
and its loops are a search through the list of the directory's entries: `dirLookup_find`. All that it changes
is `f_dir` of the file it finds.
-/

namespace Mos

open Lib Prog Function

variable {s t u : Fs} {a b d f g i j k n : Nat} {w : Word} {D X : Set Nat} {name : List Byte}

/-! ## Bytes of a word -/

theorem getLsbD_byte (k : Nat) : (0xff#32).getLsbD k = decide (k < 8) := by
  by_cases h : k < 32
  · interval_cases k <;> rfl
  · rw [BitVec.getLsbD_of_ge _ _ (by omega)]
    simp
    omega

/-- A store to byte `i` of a word changes this byte only. -/
theorem extract_setByte (w : Word) (c : Byte) (hi : i < 4) (hj : j < 4) :
    (w &&& ~~~(0xff#32 <<< (8 * i)) ||| c.setWidth 32 <<< (8 * i)).extractLsb' (8 * j) 8 =
      if j = i then c else w.extractLsb' (8 * j) 8 := by
  have hbits : ∀ b, (w &&& ~~~(0xff#32 <<< (8 * i)) ||| c.setWidth 32 <<< (8 * i)).getLsbD b =
      (w.getLsbD b && (decide (b < 32) && !(decide (b < 32) && !decide (b < 8 * i) &&
        decide (b - 8 * i < 8))) || (decide (b < 32) && !decide (b < 8 * i) &&
          (decide (b - 8 * i < 32) && c.getLsbD (b - 8 * i)))) := by
    intro b
    simp only [BitVec.getLsbD_or, BitVec.getLsbD_and, BitVec.getLsbD_not, BitVec.getLsbD_shiftLeft,
      getLsbD_byte, BitVec.getLsbD_setWidth]
  by_cases h : j = i
  · subst h
    rw [if_pos rfl]
    ext b hb
    rw [BitVec.getElem_extractLsb', hbits]
    have h1 : 8 * j + b < 32 := by omega
    have h2 : ¬8 * j + b < 8 * j := by omega
    have h3 : 8 * j + b - 8 * j = b := by omega
    have h4 : b < 32 := by omega
    simp [h1, h2, h3, h4, hb]
  · rw [if_neg h]
    ext b hb
    rw [BitVec.getElem_extractLsb', BitVec.getElem_extractLsb', hbits]
    have h1 : 8 * j + b < 32 := by omega
    rcases Nat.lt_or_gt_of_ne h with hlt | hgt
    · have h2 : 8 * j + b < 8 * i := by omega
      simp [h1, h2]
    · have h2 : ¬8 * j + b < 8 * i := by omega
      have h3 : ¬8 * j + b - 8 * i < 8 := by omega
      have h4 : c.getLsbD (8 * j + b - 8 * i) = false := BitVec.getLsbD_of_ge _ _ (by omega)
      simp [h1, h2, h3, h4]

namespace Fs

/-! ## Names -/

/-- Byte `k` of `f_name`. -/
def nameByte (s : Fs) (f k : Nat) : Byte := (s.look (f + k / 4)).extractLsb' (8 * (k % 4)) 8

/-- `f_name` is `name`, and a zero follows. -/
def HasName (s : Fs) (f : Nat) (name : List Byte) : Prop :=
  ∀ k < name.length + 1, s.nameByte f k = name.getD k 0

instance (s : Fs) (f : Nat) (name : List Byte) : Decidable (s.HasName f name) :=
  inferInstanceAs (Decidable (∀ k < name.length + 1, s.nameByte f k = name.getD k 0))

/-- The files of the blocks `i`, …, `i + n - 1` of a directory, in the order of the blocks. -/
def entriesFrom (s : Fs) (d i n : Nat) : List Nat :=
  (List.range' i n).flatMap fun n => (List.range file2blk).map (fileIn (s.block d n))

/-- The files of a directory. -/
def entries (s : Fs) (d : Nat) : List Nat := s.entriesFrom d 0 (s.nblocksOf d)

/-- The first file of a directory with a name. -/
def find (s : Fs) (d : Nat) (name : List Byte) : Option Nat :=
  (s.entries d).find? fun f => s.HasName f name

/-- The directories among the files in `D` have all the blocks that their sizes promise. -/
def Complete (s : Fs) (D : Set Nat) : Prop :=
  ∀ d ∈ files D, s.IsDir d → ∀ n < s.nblocksOf d, s.block d n ≠ 0

theorem Complete.gapless (h : s.Complete D) : s.Gapless D := fun d hd hdir n hn _ => h d hd hdir n hn

theorem entriesFrom_succ (s : Fs) (d i n : Nat) :
    s.entriesFrom d i (n + 1) =
      (List.range file2blk).map (fileIn (s.block d i)) ++ s.entriesFrom d (i + 1) n := rfl

theorem mem_entries : f ∈ s.entries d ↔
    ∃ n < s.nblocksOf d, ∃ j < file2blk, f = fileIn (s.block d n) j := by
  unfold entries entriesFrom
  rw [List.mem_flatMap]
  constructor
  · rintro ⟨n, hn, hf⟩
    obtain ⟨j, hj, rfl⟩ := List.mem_map.mp hf
    rw [List.mem_range'_1] at hn
    exact ⟨n, by omega, j, List.mem_range.mp hj, rfl⟩
  · rintro ⟨n, hn, j, hj, rfl⟩
    exact ⟨n, by rw [List.mem_range'_1]; omega, List.mem_map.mpr ⟨j, List.mem_range.mpr hj, rfl⟩⟩

theorem mem_files_of_entry (ho : s.Own D X) (hc : s.Complete D) (hd : d ∈ files D) (hdir : s.IsDir d)
    (hf : f ∈ s.entries d) : f ∈ files D := by
  obtain ⟨n, hn, j, hj, rfl⟩ := mem_entries.mp hf
  exact .inr ⟨_, ho.block_mem_dirs hd hdir (hc d hd hdir n hn), j, hj, rfl⟩

theorem find_spec (h : s.find d name = some f) : f ∈ s.entries d ∧ s.HasName f name :=
  ⟨List.mem_of_find?_eq_some h, by simpa using List.find?_some h⟩

theorem nameByte_eq (hf : f ∈ files D) (hm : s.isMapped (f / 1024) = true) (hk : k < 128) :
    s.byte f k = s.nameByte f k := by
  unfold byte nameByte
  rw [look_of_mapped]
  rwa [file_words hf (by omega)]

theorem nameByte_setByte (hf : f ∈ files D) (hm : s.isMapped (f / 1024) = true) (hk : k < 128) (c : Byte)
    (i : Nat) : (s.setByte f k c).nameByte f i = if i = k then c else s.nameByte f i := by
  have hblk : s.isMapped ((f + k / 4) / 1024) = true := by rwa [file_words hf (by omega)]
  unfold nameByte setByte
  rw [look_setWord hblk]
  by_cases hw : f + i / 4 = f + k / 4
  · rw [if_pos hw, extract_setByte _ _ (Nat.mod_lt _ (by decide)) (Nat.mod_lt _ (by decide)), hw,
      look_of_mapped hblk]
    by_cases hik : i = k
    · rw [if_pos hik, if_pos (by rw [hik])]
    · rw [if_neg hik, if_neg (by omega)]
  · rw [if_neg hw, if_neg]
    rintro rfl
    exact hw rfl

/-- `strcmp` compares the name. -/
theorem strEq_iff (hf : f ∈ files D) (hm : s.isMapped (f / 1024) = true) :
    ∀ cs k, k + cs.length < 128 →
      (s.strEq f k cs = true ↔ ∀ i < cs.length + 1, s.nameByte f (k + i) = cs.getD i 0) := by
  intro cs
  induction cs with
  | nil =>
    intro k hk
    rw [strEq, nameByte_eq hf hm (by simpa using hk), decide_eq_true_eq]
    constructor
    · intro h i hi
      obtain rfl : i = 0 := by simpa using hi
      exact h
    · intro h
      exact h 0 (by simp)
  | cons c cs ih =>
    intro k hk
    rw [List.length_cons] at hk
    rw [strEq, Bool.and_eq_true, decide_eq_true_eq, nameByte_eq hf hm (by omega), ih (k + 1) (by omega)]
    constructor
    · rintro ⟨h0, h⟩ i hi
      cases i with
      | zero => exact h0
      | succ i =>
        rw [List.getD_cons_succ, ← h i (by simpa using hi), Nat.add_assoc, Nat.add_comm 1 i]
    · intro h
      refine ⟨h 0 (by simp), fun i hi => ?_⟩
      have := h (i + 1) (by simpa using hi)
      rwa [List.getD_cons_succ, Nat.add_comm i 1, ← Nat.add_assoc] at this

theorem hasName_iff_strEq (hf : f ∈ files D) (hm : s.isMapped (f / 1024) = true)
    (hlen : name.length < maxnamelen) : s.strEq f 0 name = true ↔ s.HasName f name := by
  rw [strEq_iff hf hm name 0 (by unfold maxnamelen at hlen; omega)]
  simp only [Nat.zero_add]
  exact Iff.rfl

theorem HasName.congr (h : ∀ i < 32, t.look (f + i) = s.look (f + i)) (hlen : name.length < maxnamelen) :
    t.HasName f name ↔ s.HasName f name := by
  refine forall_congr' fun k => forall_congr' fun hk => ?_
  unfold maxnamelen at hlen
  rw [nameByte, nameByte, h _ (by omega)]

end Fs

/-! ## The search -/

/-- `file_get_block` of a block that is there. -/
theorem fileGetBlock_present (ho : s.Own D X) (hd : d ∈ Fs.files D) (hm : s.isMapped (d / 1024) = true)
    (h0 : s.block d n ≠ 0) :
    (fileGetBlock d n s).Sat (fun b t => b = s.block d n ∧ s.Sees t ∧ t.isMapped b = true)
      (fun _ _ => False) (fun q => q = .noMemory) := by
  refine (fileGetBlock_sat ho hd hm n fun _ h => absurd h h0).mono ?_ (fun _ _ h => h0 h.2.1)
    (fun _ h => h)
  rintro b t ⟨⟨u, hreach, hsees⟩, -, hmb, -⟩
  obtain ⟨hu, heq⟩ := hreach.of_block h0
  exact ⟨heq, hu.trans hsees, hmb⟩

/-- The inner loop of `dir_lookup` is the search through one block. -/
theorem find?_block (hb : ∀ j < file2blk, fileIn b j ∈ Fs.files D) (hm : s.isMapped b = true)
    (hlen : name.length < maxnamelen) :
    ((List.range file2blk).find? fun j => s.strEq (fileIn b j) 0 name).map (fileIn b) =
      ((List.range file2blk).map (fileIn b)).find? fun f => s.HasName f name := by
  rw [List.find?_map]
  congr 1
  refine List.find?_congr fun j hj => ?_
  have hj := List.mem_range.mp hj
  have hmj : s.isMapped (fileIn b j / 1024) = true := by rwa [fileIn_div hj]
  rw [Bool.eq_iff_iff, Fs.hasName_iff_strEq (hb j hj) hmj hlen]
  simp

theorem Fs.Sees.find? (h : s.Sees t) (l : List Nat) :
    (l.find? fun f => t.HasName f name) = l.find? fun f => s.HasName f name :=
  List.find?_congr fun f _ => decide_eq_decide.mpr (by unfold Fs.HasName Fs.nameByte; simp only [h.look])

theorem lookupFrom_find (d : Nat) (hlen : name.length < maxnamelen) :
    ∀ n i (s : Fs), s.Own D X → s.Gapless D → d ∈ Fs.files D → s.IsDir d →
      s.isMapped (d / 1024) = true → (∀ k, i ≤ k → k < i + n → s.block d k ≠ 0) →
      (lookupFrom d name i n s).Sat
        (fun f t => s.Alters {fDir f} t ∧
          ((s.entriesFrom d i n).find? fun f => s.HasName f name) = some f ∧
            t.isMapped (f / 1024) = true ∧ t.look (fDir f) = filePtr d)
        (fun e t => e = .notFound ∧ s.Sees t ∧
          ((s.entriesFrom d i n).find? fun f => s.HasName f name) = none)
        (fun q => q = .noMemory) := by
  intro n
  induction n with
  | zero =>
    intro i s _ _ _ _ _ _
    exact ⟨rfl, Fs.Sees.refl s, rfl⟩
  | succ n ih =>
    intro i s ho hg hd hdir hm hblocks
    have h0 := hblocks i (le_refl i) (by omega)
    have hbD := ho.block_mem_dirs hd hdir h0
    have hfiles : ∀ j < file2blk, fileIn (s.block d i) j ∈ Fs.files D := fun j hj =>
      .inr ⟨_, hbD, j, hj, rfl⟩
    rw [lookupFrom]
    refine sat_call (fileGetBlock_present ho hd hm h0) ?_ (fun _ _ h => h.elim) (fun _ h => h)
    rintro b t ⟨rfl, hsees, hmb⟩
    have hot := ho.sees hsees
    have hfirst := find?_block hfiles hmb hlen
    rw [hsees.find?] at hfirst
    rw [bind_ret (findFile_mapped hmb _), hfirst, Fs.entriesFrom_succ, List.find?_append]
    cases hr : ((List.range file2blk).map (fileIn (s.block d i))).find? fun f => s.HasName f name with
    | some f =>
      obtain ⟨j, hj, rfl⟩ := List.mem_map.mp (List.mem_of_find?_eq_some hr)
      have hj := List.mem_range.mp hj
      refine (foundFile_sat hot hbD hj hmb hd (hsees.mapped _ hm)).mono ?_ (fun _ _ h => h.elim)
        (fun _ h => h)
      rintro f u ⟨rfl, -, halt, hup⟩
      refine ⟨hsees.trans_alters halt, rfl, ?_, hup⟩
      rw [fileIn_div hj]
      exact halt.mapped _ hmb
    | none =>
      have hb : ∀ k, t.block d k = s.block d k := hsees.block d
      have hentries : t.entriesFrom d (i + 1) n = s.entriesFrom d (i + 1) n := by
        unfold Fs.entriesFrom
        simp only [hb]
      have hrest := ih (i + 1) t hot (hg.alters ho (hsees.alters _)) hd (by rwa [Fs.IsDir, hsees.look])
        (hsees.mapped _ hm) (fun k h1 h2 => by rw [hb]; exact hblocks k (by omega) (by omega))
      rw [hentries] at hrest
      simp only [hsees.find?] at hrest
      refine hrest.mono ?_ ?_ (fun _ h => h)
      · rintro f u ⟨hu, hfound, hmf, hup⟩
        exact ⟨hsees.trans_alters hu, by simpa using hfound, hmf, hup⟩
      · rintro e u ⟨rfl, hu, hnone⟩
        exact ⟨rfl, hsees.trans hu, by simpa using hnone⟩

/-- `dir_lookup` in a complete directory finds the first file with the name, and only fails with
`-E_NOT_FOUND` if there is none. -/
theorem dirLookup_find (ho : s.Own D X) (hc : s.Complete D) (hd : d ∈ Fs.files D) (hdir : s.IsDir d)
    (hm : s.isMapped (d / 1024) = true) (hlen : name.length < maxnamelen) :
    (dirLookup d name s).Sat
      (fun f t => s.Alters {fDir f} t ∧ s.find d name = some f ∧ t.isMapped (f / 1024) = true ∧
        t.look (fDir f) = filePtr d)
      (fun e t => e = .notFound ∧ s.Sees t ∧ s.find d name = none) (fun q => q = .noMemory) := by
  have hms : s.isMapped (fSize d / 1024) = true := by
    rw [fSize, Fs.file_words hd (by decide)]
    exact hm
  rw [dirLookup, bind_ret (load_look hms)]
  exact lookupFrom_find d hlen _ 0 s ho hc.gapless hd hdir hm fun k _ hk =>
    hc d hd hdir k (by unfold Fs.nblocksOf; omega)

end Mos
