import Mos.Fs.BuilderSpec

/-!
# Whole runs of the builder

`create_file` finds the first unused place of a directory, and `write_file` and `write_directory` fill it. So every
tree of files and directories leaves the invariant as it is.
-/

namespace Mos

open Lib Prog Function

namespace Builder

variable {e : Endian} {s t u : Builder} {p q : FileLoc} {b j k n : Nat} {w : Word}

/-! ## `create_file` -/

/-- The blocks of a directory are blocks of files. -/
theorem directoryBlock_sat (h : s.Formed e) (hd : s.IsDir e p) (hk : k < (s.fieldOf e p sizeField).toNat / by2blk) :
    (directoryBlock e p k s).Sat (fun b t => t = s ∧ s.type b = .file) (fun _ _ => True) (fun _ => True) := by
  obtain ⟨hp, -, hdir⟩ := hd
  obtain ⟨hlt, hne⟩ := h.linked.dirs p hp hdir k hk
  have htype : s.type (s.link e p k) = .file := by
    rw [(h.linked.links p hp k hlt).resolve_left hne, kind, if_pos hdir]
  rw [link] at htype
  unfold directoryBlock
  split
  · next hdirect =>
    rw [if_pos hdirect] at htype
    exact (inDisk_sat s _).mono (fun b t h => ⟨h.2, h.1 ▸ htype⟩) (fun _ _ h => h) (fun _ h => h)
  · next hdirect =>
    rw [if_neg hdirect] at htype
    show Outcome.Sat ((do
      let b ← inDisk (s.fieldOf e p indirectField)
      Prog.assert (k < nindirect) .wild
      let s ← Prog.get
      inDisk (s.word e (.block b) (4 * k)) : BuilderM Nat) s) _ _ _
    refine sat_call (inDisk_sat s (s.fieldOf e p indirectField)) ?_ (fun _ _ h => h) (fun _ h => h)
    rintro c t ⟨hc, ht⟩
    rw [hc, ht, bind_ret (assert_pos hlt)]
    exact (inDisk_sat s _).mono (fun b t h => ⟨h.2, h.1 ▸ htype⟩) (fun _ _ h => h) (fun _ h => h)

theorem unusedFrom_some {d : Nat → Byte} {m : Nat} : ∀ {n j}, unusedFrom d j n = some m →
    j ≤ m ∧ m < j + n ∧ d (256 * m) = 0 ∧ ∀ i, j ≤ i → i < m → d (256 * i) ≠ 0 := by
  intro n
  induction n with
  | zero => exact fun h => nomatch h
  | succ n ih =>
    intro j h
    rw [unusedFrom] at h
    split at h
    · next hzero =>
      obtain rfl := Option.some.inj h
      exact ⟨Nat.le_refl j, by omega, hzero, fun i h1 h2 => by omega⟩
    · next hused =>
      obtain ⟨h1, h2, h3, h4⟩ := ih h
      refine ⟨by omega, by omega, h3, fun i hi hm => ?_⟩
      by_cases hij : i = j
      · rw [hij]
        exact hused
      · exact h4 i (by omega) hm

theorem findUnused_sat (h : s.Formed e) (hd : s.IsDir e p) : ∀ n k,
    k + n = (s.fieldOf e p sizeField).toNat / by2blk →
    (findUnused e p k n s).Sat (fun o t => t = s ∧ ∀ f, o = some f → s.Vacant f) (fun _ _ => True)
      (fun _ => True) := by
  intro n
  induction n with
  | zero => exact fun k _ => ⟨rfl, fun f hf => nomatch hf⟩
  | succ n ih =>
    intro k hk
    rw [findUnused]
    refine sat_call (directoryBlock_sat h hd (by omega)) ?_ (fun _ _ h => h) (fun _ h => h)
    rintro b t ⟨ht, hb⟩
    rw [ht, get_bind]
    cases hfind : unusedFrom (s.mem (.block b)) 0 file2blk with
    | none => exact ih (k + 1) (by omega)
    | some j =>
      obtain ⟨-, hj, hzero, hprev⟩ := unusedFrom_some hfind
      refine ⟨rfl, fun f hf => ?_⟩
      obtain rfl := Option.some.inj hf
      exact ⟨b, j, rfl, hb, by omega, not_not_intro hzero, fun i hi => hprev i (Nat.zero_le i) hi⟩

/-- **`create_file` returns the first unused place of a block of files.** -/
theorem createFile_sat (h : s.Formed e) (hd : s.IsDir e p) :
    (createFile e p s).Sat (fun f t => t.Formed e ∧ Grown e s t ∧ t.Vacant f) (fun _ _ => True)
      (fun _ => True) := by
  have hsize : field e p sizeField s = .ret (s.fieldOf e p sizeField) s := rfl
  rw [createFile, bind_ret hsize]
  refine sat_call (findUnused_sat h hd _ 0 (Nat.zero_add _)) ?_ (fun _ _ h => h) (fun _ h => h)
  rintro o t ⟨ht, hvacant⟩
  rw [ht]
  cases o with
  | some f => exact ⟨h, Grown.refl e s, hvacant f rfl⟩
  | none => exact sat_call (makeLinkBlock_sat h hd) (fun _ _ h => h) (fun _ _ h => h) (fun _ h => h)

/-! ## A new name -/

/-- A file that has just got its name. -/
structure Fresh (e : Endian) (s : Builder) (f : FileLoc) : Prop where
  isFile : s.IsFile f
  named : s.Named f
  type : s.fieldOf e f typeField = 0
  size : s.fieldOf e f sizeField = 0
  links : ∀ k, s.link e f k = 0

/-- A place gets a name that is not empty. -/
theorem Formed.setName (h : s.Formed e) (hv : s.Vacant p) {bytes : List Byte} (hlen : bytes.length ≤ 128)
    (hfirst : bytes.getD 0 0 ≠ 0) :
    (s.setBytes p.region p.off bytes).Formed e ∧ Grown e s (s.setBytes p.region p.off bytes) ∧
      (s.setBytes p.region p.off bytes).Fresh e p := by
  obtain ⟨b, j, rfl, hb, hj, hunnamed, hprev⟩ := hv
  generalize hp : slot b j = p at *
  have hfile : s.IsFile p := hp ▸ isFile_slot hb hj
  have hpatch := setBytes_patch s p bytes
  have hhi : bytes.length ≤ 256 := hlen.trans (by decide)
  have hzero : ∀ x < 256, s.mem p.region (p.off + x) = 0 := by
    rw [← hp] at hunnamed ⊢
    exact h.laid.blank b j hb hj hunnamed
  obtain ⟨hfields, hindirect, hlinks⟩ := h.laid.blank_file hzero
  have hname : (s.setBytes p.region p.off bytes).Named p := by
    show update s.mem p.region _ p.region p.off ≠ 0
    have hpos : 0 < bytes.length := by
      rcases Nat.eq_zero_or_pos bytes.length with h0 | hpos
      · rw [List.length_eq_zero_iff.mp h0] at hfirst
        exact absurd rfl hfirst
      · exact hpos
    rw [update_self, if_pos ⟨Nat.le_refl _, Nat.lt_add_of_pos_right hpos⟩, Nat.sub_self]
    exact hfirst
  have horder : s.InOrder p := by
    intro c i heq i' hi'
    rw [← hp] at heq
    obtain ⟨rfl, rfl⟩ := slot_inj heq
    exact hprev i' hi'
  have hfield : ∀ off, 128 ≤ off → (s.setBytes p.region p.off bytes).fieldOf e p off = s.fieldOf e p off :=
    fun off hoff => hpatch.fieldOf_self (.inr (hlen.trans hoff))
  have hlink : ∀ k, (s.setBytes p.region p.off bytes).link e p k = 0 := fun k =>
    (hpatch.link_self h hfile (hlen.trans (by decide)) k).trans (hlinks k)
  have htype : (s.setBytes p.region p.off bytes).fieldOf e p typeField = 0 :=
    (hfield _ (by decide)).trans (hfields _ (by decide))
  refine ⟨⟨?_, ?_⟩, ⟨fun c _ => by rw [hpatch.type], fun q hq => ?_⟩, hpatch.isFile.mpr hfile, hname, htype, ?_, hlink⟩
  · exact h.laid.patch hpatch hhi hfile hname horder
  · refine h.linked_patch hpatch hhi hfile (.inl ?_) (fun k _ => .inl (hlink k)) fun hdir => ?_
    · rw [indirect, hfield _ (by decide), ← indirect]
    · rw [htype] at hdir
      exact absurd hdir (by decide)
  · have hne : q ≠ p := fun heq => hunnamed (heq ▸ hq.2.1)
    refine ⟨hpatch.isFile.mpr hq.1, (hpatch.named hhi hfile hq.1 hne).mpr hq.2.1, ?_⟩
    exact (hpatch.fieldOf_other hhi hfile hq.1 hne (by decide)).trans hq.2.2
  · exact (hfield _ (by decide)).trans (hfields _ (by decide))

theorem HostName.first_ne (name : HostName) : ∃ c cs, name.bytes = c :: cs ∧ c ≠ 0 := by
  obtain ⟨bytes, hne, hnul⟩ := name
  cases bytes with
  | nil => exact absurd rfl hne
  | cons c cs => exact ⟨c, cs, rfl, fun h => hnul (h ▸ List.mem_cons_self)⟩

theorem copyName_sat (h : s.Formed e) (hv : s.Vacant p) (name : HostName) :
    (copyName p name.bytes s).Sat (fun _ t => t.Formed e ∧ Grown e s t ∧ t.Fresh e p) (fun _ _ => True)
      (fun _ => True) := by
  refine sat_bind.mpr (sat_assert.mpr ?_)
  split
  · next hlen =>
    obtain ⟨c, cs, hbytes, hc⟩ := HostName.first_ne name
    refine h.setName hv ?_ ?_
    · rw [List.length_append]
      exact hlen
    · rw [hbytes]
      exact hc
  · trivial

theorem copyPrefix_sat (h : s.Formed e) (hv : s.Vacant p) (name : HostName) :
    (copyPrefix p name.bytes s).Sat (fun _ t => t.Formed e ∧ Grown e s t ∧ t.Fresh e p) (fun _ _ => True)
      (fun _ => True) := by
  obtain ⟨c, cs, hbytes, hc⟩ := HostName.first_ne name
  refine h.setName hv ?_ ?_
  · rw [List.takeD_length]
    decide
  · rw [hbytes]
    exact hc

/-! ## `write_file` and `write_directory` -/

theorem readBlocks_sat (cs : List Chunk) : ∀ {s : Builder} {k : Nat}, s.Formed e → s.IsFile p → s.Named p →
    s.kind e p = .data →
    (readBlocks e p k cs s).Sat (fun _ t => t.Formed e ∧ Grown e s t) (fun _ _ => True) (fun _ => True) := by
  induction cs with
  | nil => exact fun h _ _ _ => ⟨h, Grown.refl e _⟩
  | cons c cs ih =>
    intro s k h hp hname hkind
    rw [readBlocks, get_bind]
    refine sat_bind.mpr (sat_assert.mpr ?_)
    split
    case isFalse => trivial
    case isTrue hn =>
    rw [put_bind]
    refine sat_call (nextBlock_sat _ .data) ?_ (fun _ _ h => h) (fun _ h => h)
    rintro _ u ⟨-, rfl, hu⟩
    -- the bytes come first, and then the block gets its type
    obtain ⟨m, hm⟩ : ∃ m, u = s.grown .data m := by
      refine ⟨(s.setBytes (.block s.nextbno) 0 c.bytes).mem (.block s.nextbno), hu.trans ?_⟩
      exact congrArg (Builder.mk · (update s.type s.nextbno .data) (s.nextbno + 1)) (update_idem _ _ _)
    have hformed : u.Formed e := hm ▸ h.grown hn (.inl rfl)
    have hsu : Steady e s u := hm ▸ h.laid.steady_grown
    have htype : u.type s.nextbno = .data := hm ▸ update_self _ _ _
    have hpu := hsu.isFile hp
    have hnameu := (hsu.named p hp).mpr hname
    have hkindu := (hsu.kind hp).trans hkind
    refine sat_call (saveBlockLink_sat hformed hpu hnameu (htype.trans hkindu.symm)) ?_ (fun _ _ h => h) (fun _ h => h)
    rintro _ v ⟨-, hv⟩
    refine (ih hv.formed (hv.steady.isFile hpu) ((hv.steady.named p hpu).mpr hnameu)
      ((hv.steady.kind hpu).trans hkindu)).mono ?_ (fun _ _ h => h) (fun _ h => h)
    rintro _ t ⟨ht, hgrown⟩
    exact ⟨ht, (hsu.trans hv.steady).grown.trans hgrown⟩

theorem writeFile_sat (h : s.Formed e) (hd : s.IsDir e p) (name : HostName) (size : Word) (reads : List Chunk) :
    (writeFile e p name size reads s).Sat (fun _ t => t.Formed e ∧ Grown e s t) (fun _ _ => True)
      (fun _ => True) := by
  refine sat_call (createFile_sat h hd) ?_ (fun _ _ h => h) (fun _ h => h)
  rintro f t ⟨ht, hst, hvacant⟩
  refine sat_call (copyName_sat ht hvacant name) ?_ (fun _ _ h => h) (fun _ h => h)
  rintro _ u ⟨hu, htu, hfresh⟩
  have hreg : ¬u.fieldOf e f typeField = ftypeDir := by
    rw [hfresh.type]
    decide
  obtain ⟨hv, huv, hlinks⟩ := hu.setSize (w := size) hfresh.isFile hfresh.named fun hdir => absurd hdir hreg
  show Outcome.Sat ((do
    setField e f typeField ftypeReg
    readBlocks e f 0 reads : BuilderM Unit) (u.setWord e f.region (f.off + sizeField) size)) _ _ _
  generalize u.setWord e f.region (f.off + sizeField) size = v at *
  have hfv := huv.isFile hfresh.isFile
  have hregv : ¬v.fieldOf e f typeField = ftypeDir := by
    rw [huv.ftype f hfresh.isFile]
    exact hreg
  obtain ⟨hx, hvx, hname⟩ := hv.setType (w := ftypeReg) hfv ((huv.named f hfresh.isFile).mpr hfresh.named)
    (fun k => (hlinks k).trans (hfresh.links k)) (fun hdir => absurd hdir hregv) fun hdir => absurd hdir (by decide)
  have hkind : (v.setWord e f.region (f.off + typeField) ftypeReg).kind e f = .data := by
    rw [kind, fieldOf_setField_self, if_neg (by decide)]
  refine (readBlocks_sat reads hx (isFile_mono hvx.type hfv) hname hkind).mono ?_ (fun _ _ h => h) (fun _ h => h)
  rintro _ y ⟨hy, hxy⟩
  exact ⟨hy, hst.trans (htu.trans (huv.grown.trans (hvx.trans hxy)))⟩

theorem writeDirectory_sat (h : s.Formed e) (hd : s.IsDir e p) (name : HostName) {entries : FileLoc → BuilderM Unit}
    (hentries : ∀ t f, t.Formed e → t.IsDir e f →
      (entries f t).Sat (fun _ u => u.Formed e ∧ Grown e t u) (fun _ _ => True) (fun _ => True)) :
    (writeDirectory e p name entries s).Sat (fun _ t => t.Formed e ∧ Grown e s t) (fun _ _ => True)
      (fun _ => True) := by
  refine sat_call (createFile_sat h hd) ?_ (fun _ _ h => h) (fun _ h => h)
  rintro f t ⟨ht, hst, hvacant⟩
  refine sat_call (copyPrefix_sat ht hvacant name) ?_ (fun _ _ h => h) (fun _ h => h)
  rintro _ u ⟨hu, htu, hfresh⟩
  rw [get_bind]
  refine sat_bind.mpr (sat_assert.mpr ?_)
  split
  case isFalse => trivial
  case isTrue =>
  obtain ⟨hv, huv, hname⟩ := hu.setType (w := ftypeDir) hfresh.isFile hfresh.named hfresh.links (fun _ => rfl) (by
    rw [hfresh.size]
    exact fun _ => rfl)
  refine (hentries _ f hv ⟨isFile_mono huv.type hfresh.isFile, hname, fieldOf_setField_self⟩).mono ?_
    (fun _ _ h => h) (fun _ h => h)
  rintro _ y ⟨hy, hvy⟩
  exact ⟨hy, hst.trans (htu.trans (huv.trans hvy))⟩

mutual

/-- One file or directory keeps the invariant. -/
theorem writeEntry_sat : ∀ (a : HostFile) {s : Builder} {p : FileLoc}, s.Formed e → s.IsDir e p →
    (writeEntry e a p s).Sat (fun _ t => t.Formed e ∧ Grown e s t) (fun _ _ => True) (fun _ => True)
  | .file name size reads, _, _, h, hd => by
    rw [writeEntry]
    exact writeFile_sat h hd name size reads
  | .dir name entries, _, _, h, hd => by
    rw [writeEntry]
    exact writeDirectory_sat h hd name fun _ _ ht hf => writeEntries_sat entries ht hf
  | .closed, _, _, h, _ => by
    rw [writeEntry]
    exact ⟨h, Grown.refl e _⟩

/-- **Every list of files and directories keeps the invariant.** -/
theorem writeEntries_sat : ∀ (as : List HostFile) {s : Builder} {p : FileLoc}, s.Formed e → s.IsDir e p →
    (writeEntries e as p s).Sat (fun _ t => t.Formed e ∧ Grown e s t) (fun _ _ => True) (fun _ => True)
  | [], _, _, h, _ => by
    rw [writeEntries]
    exact ⟨h, Grown.refl e _⟩
  | a :: as, s, _, h, hd => by
    rw [writeEntries]
    refine sat_call (writeEntry_sat a h hd) ?_ (fun _ _ h => h) (fun _ h => h)
    rintro _ t ⟨ht, hst⟩
    refine (writeEntries_sat as ht (hst.dirs _ hd)).mono ?_ (fun _ _ h => h) (fun _ h => h)
    rintro _ u ⟨hu, htu⟩
    exact ⟨hu, hst.trans htu⟩

end

end Builder

end Mos
