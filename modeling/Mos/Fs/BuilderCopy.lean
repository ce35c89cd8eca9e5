import Mos.Fs.BuilderCreate

/-!
# The image is a copy

`fsformat` is given files and directories of the host. In the image that it writes, the root directory has an entry for
each of them, in their order, with the name, the type, the size and the contents of the file; and so for the entries of
every directory, all the way down.
-/

namespace Mos

open Lib Prog Function

namespace Builder

variable {e : Endian} {s t u v : Builder} {p q f : FileLoc} {b j k n : Nat} {w : Word} {N N' : FileLoc → Prop}

/-! ## What a copy is -/

/-- The name of a file: these bytes, and zeros behind them. -/
def NameIs (s : Builder) (q : FileLoc) (name : List Byte) : Prop :=
  ∀ x < maxnamelen, s.mem q.region (q.off + x) = name.getD x 0

/-- The file `q` has the contents of a file of the host, one block for each answer of `read`, filled up with zeros. -/
structure CopyOf (e : Endian) (s : Builder) (name : List Byte) (size : Word) (reads : List Chunk) (q : FileLoc) :
    Prop where
  fits : name.length < maxnamelen
  name : s.NameIs q name
  type : s.fieldOf e q typeField = ftypeReg
  size : s.fieldOf e q sizeField = size
  length : reads.length ≤ nindirect
  blocks : ∀ k (hk : k < reads.length), s.type (s.link e q k) = .data ∧
    ∀ x, s.mem (.block (s.link e q k)) x = reads[k].bytes.getD x 0
  rest : ∀ k, reads.length ≤ k → s.link e q k = 0

mutual

/-- The files `qs` are what `fsformat` makes of an entry of the host: one file, or none for a directory that does not
open. All files of the copy satisfy `N`. -/
def Shows (e : Endian) (s : Builder) (N : FileLoc → Prop) : HostFile → List FileLoc → Prop
  | .file name size reads, qs => ∃ q, qs = [q] ∧ N q ∧ s.IsFile q ∧ s.Named q ∧ CopyOf e s name.bytes size reads q
  | .dir name entries, qs => ∃ q, qs = [q] ∧ N q ∧ s.IsDir e q ∧ s.NameIs q (name.bytes.take (maxnamelen - 1)) ∧
      ShowsAll e s N entries (s.entries e q)
  | .closed, qs => qs = []

/-- The files `qs` are what `fsformat` makes of a list of entries. -/
def ShowsAll (e : Endian) (s : Builder) (N : FileLoc → Prop) : List HostFile → List FileLoc → Prop
  | [], qs => qs = []
  | a :: as, qs => ∃ xs ys, qs = xs ++ ys ∧ Shows e s N a xs ∧ ShowsAll e s N as ys

end

theorem NameIs.congr {name : List Byte} (h : s.NameIs q name)
    (hbytes : ∀ x < 128, t.mem q.region (q.off + x) = s.mem q.region (q.off + x)) : t.NameIs q name :=
  fun x hx => (hbytes x hx).trans (h x hx)

theorem CopyOf.keeps {A : FileLoc → Prop} {name : List Byte} {reads : List Chunk} (h : CopyOf e s name w reads q)
    (hext : Keeps e A s t) (hq : s.IsFile q) (hA : ¬A q) : CopyOf e t name w reads q where
  name := h.name.congr fun x hx => hext.bytes q hq hA x (by omega)
  fits := h.fits
  type := (hext.fieldOf hq hA (by decide)).trans h.type
  size := (hext.fieldOf hq hA (by decide)).trans h.size
  length := h.length
  blocks k hk := by
    obtain ⟨htype, hmem⟩ := h.blocks k hk
    rw [hext.link hq hA, hext.type _ (by rw [htype]; decide), hext.data _ htype]
    exact ⟨htype, hmem⟩
  rest k hk := (hext.link hq hA k).trans (h.rest k hk)

/-! ## What one entry adds -/

/-- The files that change when the directory `p` gets more entries: the directory, and its places without a name. -/
def Alt (e : Endian) (s : Builder) (p q : FileLoc) : Prop := q = p ∨ q ∈ s.slots e p ∧ ¬s.Named q

/-- A file that is not there yet. -/
def New (s : Builder) (q : FileLoc) : Prop := ¬(s.IsFile q ∧ s.Named q)

/-- The directory `p` has got the files `qs`. -/
structure Adds (e : Endian) (p : FileLoc) (qs : List FileLoc) (s t : Builder) : Prop where
  treed : t.Treed e
  ext : Ext e (Alt e s p) s t
  dir : t.IsDir e p
  head : ∀ x < 128, t.mem p.region (p.off + x) = s.mem p.region (p.off + x)
  old : ∀ q ∈ t.slots e p, s.IsFile q → q ∈ s.slots e p
  entries : t.entries e p = s.entries e p ++ qs

theorem Adds.refl (h : s.Treed e) (hd : s.IsDir e p) : Adds e p [] s s :=
  ⟨h, .refl e _ s, hd, fun _ _ => rfl, fun _ hq _ => hq, (List.append_nil _).symm⟩

theorem Adds.trans {xs ys : List FileLoc} (h : Adds e p xs s t) (h' : Adds e p ys t u) : Adds e p (xs ++ ys) s u where
  treed := h'.treed
  ext := by
    refine h.ext.trans h'.ext (fun _ _ h => h) fun q hq hA hB => ?_
    rcases hB with rfl | ⟨hslot, hname⟩
    · exact .inl rfl
    · exact .inr ⟨h.old q hslot hq, fun hs => hname ((h.ext.named hq hA).mpr hs)⟩
  dir := h'.dir
  head x hx := (h'.head x hx).trans (h.head x hx)
  old q hq hs := h.old q (h'.old q hq (h.ext.isFile hs)) hs
  entries := by rw [h'.entries, h.entries, List.append_assoc]

theorem Alt.named (h : Alt e s p q) (hname : s.Named q) : q = p := h.resolve_right fun h => h.2 hname

/-- Files that had a name keep it. -/
theorem Adds.named {qs : List FileLoc} (h : Adds e p qs s t) (hq : s.IsFile q) (hname : s.Named q) : t.Named q := by
  by_cases hA : Alt e s p q
  · rw [hA.named hname]
    exact h.dir.2.1
  · exact (h.ext.named hq hA).mpr hname

theorem New.mono {qs : List FileLoc} (h : Adds e p qs s t) (hq : t.New q) : s.New q :=
  fun hs => hq ⟨h.ext.isFile hs.1, h.named hs.1 hs.2⟩

mutual

theorem Shows.mono (h : ∀ q, N q → N' q) : ∀ a qs, Shows e s N a qs → Shows e s N' a qs
  | .file name size reads, qs => by
    rw [Shows, Shows]
    rintro ⟨q, hqs, hN, hq⟩
    exact ⟨q, hqs, h q hN, hq⟩
  | .dir name entries, qs => by
    rw [Shows, Shows]
    rintro ⟨q, hqs, hN, hd, hname, hall⟩
    exact ⟨q, hqs, h q hN, hd, hname, ShowsAll.mono h entries _ hall⟩
  | .closed, qs => by
    rw [Shows, Shows]
    exact id

theorem ShowsAll.mono (h : ∀ q, N q → N' q) : ∀ as qs, ShowsAll e s N as qs → ShowsAll e s N' as qs
  | [], qs => by
    rw [ShowsAll, ShowsAll]
    exact id
  | a :: as, qs => by
    rw [ShowsAll, ShowsAll]
    rintro ⟨xs, ys, hqs, ha, has⟩
    exact ⟨xs, ys, hqs, Shows.mono h a xs ha, ShowsAll.mono h as ys has⟩

end

/-- The entries of a directory stay where other directories change. -/
theorem Treed.entries_ext (h : s.Treed e) (hext : Ext e (Alt e s p) s t) (hdp : s.IsDir e p) (hname : t.Named p)
    (hd : s.IsDir e q) (hqp : q ≠ p) : t.entries e q = s.entries e q := by
  have hq : ¬Alt e s p q := fun hA => hqp (hA.named hd.2.1)
  rw [entries, entries, hext.slots hd.1 hq]
  refine List.filter_congr fun r hr => ?_
  have hr' := h.formed.isFile_of_mem hd hr
  refine decide_eq_decide.mpr ?_
  by_cases hA : Alt e s p r
  · rcases hA with rfl | ⟨hslot, -⟩
    · exact ⟨fun _ => hdp.2.1, fun _ => hname⟩
    · exact absurd (h.dir_unique hd hdp hr hslot) hqp
  · exact hext.named hr' hA

mutual

/-- A copy stays a copy where its files and the entries of its directories stay. -/
theorem Shows.keeps {A : FileLoc → Prop} (h : Keeps e A s t) (hA : ∀ q, N q → s.Named q → ¬A q)
    (hentries : ∀ q, N q → s.IsDir e q → t.entries e q = s.entries e q) : ∀ a qs, Shows e s N a qs → Shows e t N a qs
  | .file name size reads, qs => by
    rw [Shows, Shows]
    rintro ⟨q, hqs, hN, hq, hname, hcopy⟩
    have hAq := hA q hN hname
    exact ⟨q, hqs, hN, h.isFile hq, (h.named hq hAq).mpr hname, hcopy.keeps h hq hAq⟩
  | .dir name entries, qs => by
    rw [Shows, Shows]
    rintro ⟨q, hqs, hN, hd, hname, hall⟩
    have hAq := hA q hN hd.2.1
    refine ⟨q, hqs, hN, h.isDir hd hAq, hname.congr fun x hx => h.bytes q hd.1 hAq x (by omega), ?_⟩
    rw [hentries q hN hd]
    exact ShowsAll.keeps h hA hentries entries _ hall
  | .closed, qs => by
    rw [Shows, Shows]
    exact id

theorem ShowsAll.keeps {A : FileLoc → Prop} (h : Keeps e A s t) (hA : ∀ q, N q → s.Named q → ¬A q)
    (hentries : ∀ q, N q → s.IsDir e q → t.entries e q = s.entries e q) :
    ∀ as qs, ShowsAll e s N as qs → ShowsAll e t N as qs
  | [], qs => by
    rw [ShowsAll, ShowsAll]
    exact id
  | a :: as, qs => by
    rw [ShowsAll, ShowsAll]
    rintro ⟨xs, ys, hqs, ha, has⟩
    exact ⟨xs, ys, hqs, Shows.keeps h hA hentries a xs ha, ShowsAll.keeps h hA hentries as ys has⟩

end

/-! ## A new name -/

/-- The directory `p` has got the file `f`, which has no more than its name. -/
structure Begun (e : Endian) (p f : FileLoc) (s u : Builder) : Prop where
  adds : Adds e p [f] s u
  fresh : u.Fresh e f
  ne : f ≠ p
  new : s.New f

/-- A place gets its name. -/
theorem Treed.setName (hs : s.Treed e) (hd : s.IsDir e p) (h : Opened e p f s t) (bytes : List Byte)
    (hlen : bytes.length ≤ 128) (hfirst : bytes.getD 0 0 ≠ 0) :
    Begun e p f s (t.setBytes f.region f.off bytes) ∧ (t.setBytes f.region f.off bytes).NameIs f bytes := by
  obtain ⟨hformed, hgrown, hfresh⟩ := h.treed.formed.setName h.vacant hlen hfirst
  obtain ⟨b, j, hslot, hb, hj, hunnamed, hprev⟩ := h.vacant
  have hfile : t.IsFile f := hslot ▸ isFile_slot hb hj
  have hpatch := setBytes_patch t f bytes
  have hhi : bytes.length ≤ 256 := hlen.trans (by decide)
  have hzero : ∀ x < 256, t.mem f.region (f.off + x) = 0 := by
    rw [hslot] at hunnamed ⊢
    exact h.treed.formed.laid.blank b j hb hj hunnamed
  obtain ⟨-, hind, hlinks⟩ := h.treed.formed.laid.blank_file hzero
  have hname : (t.setBytes f.region f.off bytes).NameIs f bytes := by
    intro x hx
    show update t.mem f.region _ f.region (f.off + x) = _
    rw [update_self]
    split
    · rw [Nat.add_sub_cancel_left]
    · next hout =>
      have hle : bytes.length ≤ x := by omega
      rw [hzero x (hx.trans (by decide)), List.getD_eq_getElem?_getD, List.getElem?_eq_none hle]
      rfl
  have hindu : (t.setBytes f.region f.off bytes).indirect e f = t.indirect e f := by
    rw [indirect, hpatch.fieldOf_self (.inr (hlen.trans (by decide))), ← indirect]
  have htext := hpatch.ext h.treed.formed hhi hfile
  have hne : f ≠ p := fun heq => hunnamed (heq ▸ h.dir.2.1)
  have hdu := hgrown.dirs p h.dir
  generalize t.setBytes f.region f.off bytes = u at *
  have hold : ∀ q ∈ s.entries e p, t.Named q := by
    intro q hq
    obtain ⟨hmem, hnamed⟩ := mem_entries.mp hq
    by_cases hqp : q = p
    · rw [hqp]
      exact h.dir.2.1
    · exact (h.ext.named (hs.formed.isFile_of_mem hd hmem) hqp).mpr hnamed
  obtain ⟨ys, hslots⟩ := h.slots
  obtain ⟨-, hys⟩ := h.treed.entries_of_split h.dir hslots hunnamed hold
  have hfmem : f ∈ t.slots e p := by
    rw [hslots]
    exact List.mem_append_right _ List.mem_cons_self
  have hnodup := h.treed.slots_nodup h.dir
  rw [hslots, List.nodup_append] at hnodup
  have huslots : u.slots e p = s.entries e p ++ f :: ys := by
    rw [htext.slots h.dir.1 hne.symm, hslots]
  have hunamed : ∀ q ∈ t.slots e p, q ≠ f → (u.Named q ↔ t.Named q) := fun q hq hqf =>
    htext.named (h.treed.formed.isFile_of_mem h.dir hq) hqf
  have hfront : ∀ q ∈ s.entries e p, u.Named q := by
    intro q hq
    refine (hunamed q ?_ fun heq => ?_).mpr (hold q hq)
    · rw [hslots]
      exact List.mem_append_left _ hq
    · exact hnodup.2.2 q hq f List.mem_cons_self heq
  have hback : ∀ q ∈ ys, ¬u.Named q := by
    intro q hq
    rw [hunamed q ?_ fun heq => ?_]
    · exact hys q hq
    · rw [hslots]
      exact List.mem_append_right _ (List.mem_cons_of_mem _ hq)
    · rw [heq] at hq
      exact (List.nodup_cons.mp hnodup.2.1).1 hq
  have hentries : u.entries e p = s.entries e p ++ [f] := by
    rw [entries, huslots, List.filter_append, List.filter_eq_self.mpr fun q hq => decide_eq_true (hfront q hq),
      List.filter_cons, if_pos (decide_eq_true hfresh.named), List.filter_eq_nil_iff.mpr]
    intro q hq
    rw [decide_eq_true_eq]
    exact hback q hq
  have htreed : u.Treed e := by
    refine h.treed.patch hpatch hhi hfile hformed (fun k => (hfresh.links k).trans (hlinks k).symm) hindu
      fun d hdd => ?_
    have hdf : d ≠ f := by
      rintro rfl
      have htype := hdd.2.2
      rw [hfresh.type] at htype
      exact absurd htype (by decide)
    have hdt : t.IsDir e d := by
      have hfile := hpatch.isFile.mp hdd.1
      exact ⟨hfile, (htext.named hfile hdf).mp hdd.2.1, (htext.fieldOf hfile hdf (by decide)).symm.trans hdd.2.2⟩
    by_cases hdp : d = p
    · rw [hdp, huslots, List.pairwise_append, List.pairwise_cons]
      refine ⟨List.pairwise_of_forall_mem_list fun a ha _ _ _ => hfront a ha,
        ⟨fun b hb hnb => absurd hnb (hback b hb), ?_⟩, fun a ha _ _ _ => hfront a ha⟩
      exact List.pairwise_of_forall_mem_list fun _ _ b hb hnb => absurd hnb (hback b hb)
    · refine h.treed.packed_of hdt (htext.slots hdt.1 hdf) fun q hq => ?_
      refine htext.named (h.treed.formed.isFile_of_mem hdt hq) fun heq => ?_
      rw [heq] at hq
      exact hdp (h.treed.dir_unique hdt h.dir hq hfmem)
  have hnew : s.New f := by
    rintro ⟨hsf, hsn⟩
    exact hunnamed ((h.ext.named hsf hne).mpr hsn)
  refine ⟨⟨⟨htreed, ?_, hdu, fun x hx => ?_, fun q hq hsq => ?_, hentries⟩, hfresh, hne, hnew⟩, hname⟩
  · refine h.ext.trans htext (fun _ _ heq => .inl heq) fun q hsq _ heq => .inr ?_
    subst heq
    exact ⟨h.old _ hfmem hsq, fun hsn => hnew ⟨hsq, hsn⟩⟩
  · rw [htext.bytes p h.dir.1 hne.symm x (by omega), h.head x hx]
  · refine h.old q ?_ hsq
    rwa [hslots, ← huslots]

/-- The rest is about the new file alone. -/
theorem Begun.finish (h : Begun e p f s u) (ht : v.Treed e) (hext : Ext e (· = f) u v) (hname : v.Named f) :
    Adds e p [f] s v := by
  have hp := h.adds.dir.1
  have hslots := hext.slots hp h.ne.symm
  refine ⟨ht, ?_, hext.isDir h.adds.dir h.ne.symm, fun x hx => ?_, fun q hq hs => ?_, ?_⟩
  · refine h.adds.ext.trans hext (fun _ _ hA => hA) fun q hq hA heq => ?_
    rw [heq] at hq hA ⊢
    exact absurd ((h.adds.ext.named hq hA).mp h.fresh.named) fun hn => h.new ⟨hq, hn⟩
  · rw [hext.bytes p hp h.ne.symm x (by omega), h.adds.head x hx]
  · rw [hslots] at hq
    exact h.adds.old q hq hs
  · rw [← h.adds.entries, entries, entries, hslots]
    refine List.filter_congr fun q hq => decide_eq_decide.mpr ?_
    by_cases hqf : q = f
    · rw [hqf]
      exact ⟨fun _ => h.fresh.named, fun _ => hname⟩
    · exact hext.named (h.adds.treed.formed.isFile_of_mem h.adds.dir hq) hqf

/-! ## `write_file` -/

/-- What `read` brings becomes blocks of the file, from block `k` on. -/
structure Copies (e : Endian) (f : FileLoc) (k : Nat) (cs : List Chunk) (s t : Builder) : Prop where
  treed : t.Treed e
  ext : Ext e (· = f) s t
  head : ∀ x < 136, t.mem f.region (f.off + x) = s.mem f.region (f.off + x)
  length : cs = [] ∨ k + cs.length ≤ nindirect
  links : ∀ j, j < k ∨ k + cs.length ≤ j → t.link e f j = s.link e f j
  blocks : ∀ i (hi : i < cs.length), t.type (t.link e f (k + i)) = .data ∧
    ∀ x, t.mem (.block (t.link e f (k + i))) x = cs[i].bytes.getD x 0

/-- **`write_file` copies one block after the other.** -/
theorem readBlocks_copies (cs : List Chunk) : ∀ {s : Builder} {k : Nat}, s.Treed e → s.IsFile f → s.Named f →
    s.kind e f = .data →
    (readBlocks e f k cs s).Sat (fun _ t => Copies e f k cs s t) (fun _ _ => True) (fun _ => True) := by
  induction cs with
  | nil =>
    exact fun h _ _ _ => ⟨h, .refl e _ _, fun _ _ => rfl, .inl rfl, fun _ _ => rfl,
      fun i hi => absurd hi (Nat.not_lt_zero i)⟩
  | cons c cs ih =>
    intro s k h hf hname hkind
    rw [readBlocks, get_bind]
    refine sat_bind.mpr (sat_assert.mpr ?_)
    split
    case isFalse => trivial
    case isTrue hn =>
    rw [put_bind]
    refine sat_call (nextBlock_sat _ .data) ?_ (fun _ _ h => h) (fun _ h => h)
    rintro _ u ⟨-, rfl, hu⟩
    have hm : u = s.grown .data fun x => c.bytes.getD x 0 := by
      refine hu.trans (congrArg (Builder.mk · (update s.type s.nextbno .data) (s.nextbno + 1)) ?_)
      refine (update_idem _ _ _).trans (congrArg (update s.mem (.block s.nextbno)) (funext fun x => ?_))
      show update s.mem (.block s.nextbno) _ (.block s.nextbno) x = _
      rw [update_self]
      split
      · rfl
      · next hout =>
        have hle : c.bytes.length ≤ x := by omega
        rw [h.formed.laid.fresh _ (Nat.le_refl _), List.getD_eq_getElem?_getD, List.getElem?_eq_none hle]
        rfl
    have hfits : Fits .data fun x => c.bytes.getD x 0 := .inl rfl
    have hformed := h.formed.grown hn hfits
    have hgrown := h.formed.ext_grown .data fun x => c.bytes.getD x 0
    have hsu : Steady e s (s.grown .data fun x => c.bytes.getD x 0) := h.formed.laid.steady_grown
    have htype : (s.grown .data fun x => c.bytes.getD x 0).type s.nextbno = .data := update_self _ _ _
    have hmem : (s.grown .data fun x => c.bytes.getD x 0).mem (.block s.nextbno) = fun x => c.bytes.getD x 0 :=
      update_self _ _ _
    rw [hm]
    have hfu := hgrown.isFile hf
    have hnameu := (hsu.named f hf).mpr hname
    have hkindu := (hsu.kind hf).trans hkind
    refine sat_call ((saveBlockLink_sat hformed hfu hnameu (htype.trans hkindu.symm)).and
      (saveBlockLink_kept hformed hfu hnameu k s.nextbno)) ?_ (fun _ _ h => h.1) (fun _ h => h.1)
    rintro _ v ⟨⟨hk, hst⟩, hkept⟩
    have hv : v.Treed e := h.store hn hfits hf hst hkept fun hd => by
      have hfile : s.kind e f = .file := if_pos hd.2.2
      rw [hkind] at hfile
      cases hfile
    refine (ih (k := k + 1) hv (hst.steady.isFile hfu) ((hst.steady.named f hfu).mpr hnameu)
      ((hst.steady.kind hfu).trans hkindu)).mono ?_ (fun _ _ h => h) (fun _ h => h)
    rintro _ t ht
    have htypev : v.type s.nextbno = .data := by
      rw [hkept.ext.type _ (by rw [htype]; decide), htype]
    refine ⟨ht.treed, ?_, fun x hx => ?_, .inr ?_, fun j hj => ?_, fun i hi => ?_⟩
    · exact (hgrown.trans hkept.ext (fun _ _ h => h.elim) fun _ _ _ h => h).trans ht.ext (fun _ _ h => h)
        fun _ _ _ h => h
    · rw [ht.head x hx, hkept.head x hx, hgrown.bytes f hf (fun h => h) x (by omega)]
    · rw [List.length_cons]
      rcases ht.length with rfl | hle
      · exact hk
      · omega
    · rw [List.length_cons] at hj
      rw [ht.links j (by omega), hst.links j (by omega), hgrown.link hf fun h => h]
    · cases i with
      | zero =>
        rw [Nat.add_zero, ht.links k (by omega), hst.link, ht.ext.type _ (by rw [htypev]; decide), htypev,
          ht.ext.data _ htypev, hkept.ext.data _ htype, hmem]
        exact ⟨rfl, fun _ => rfl⟩
      | succ i =>
        have hblock := ht.blocks i (by rw [List.length_cons] at hi; omega)
        rw [Nat.add_right_comm, Nat.add_assoc] at hblock
        exact hblock

theorem getD_append_zero (l : List Byte) (x : Nat) : (l ++ [0]).getD x 0 = l.getD x 0 := by
  rw [List.getD_eq_getElem?_getD, List.getD_eq_getElem?_getD, List.getElem?_append]
  split
  · rfl
  · next hx =>
    rw [List.getElem?_eq_none (l := l) (by omega)]
    rcases Nat.eq_zero_or_pos (x - l.length) with h0 | hpos
    · rw [h0]
      rfl
    · rw [List.getElem?_eq_none (Nat.succ_le_of_lt hpos)]

theorem writeFile_adds (h : s.Treed e) (hd : s.IsDir e p) (name : HostName) (size : Word) (reads : List Chunk) :
    (writeFile e p name size reads s).Sat
      (fun _ t => ∃ qs, Adds e p qs s t ∧ Shows e t s.New (.file name size reads) qs) (fun _ _ => True)
      (fun _ => True) := by
  refine sat_call (createFile_opened h hd) ?_ (fun _ _ h => h) (fun _ h => h)
  rintro f t hopened
  refine sat_bind.mpr (sat_bind.mpr (sat_assert.mpr ?_))
  split
  case isFalse => trivial
  case isTrue hlen =>
  obtain ⟨c, cs, hbytes, hc⟩ := HostName.first_ne name
  obtain ⟨hbegun, hname⟩ := h.setName hd hopened (name.bytes ++ [0]) (by
    rw [List.length_append]
    exact hlen) (by
    rw [hbytes]
    exact hc)
  show Outcome.Sat ((do
    setField e f sizeField size
    setField e f typeField ftypeReg
    readBlocks e f 0 reads : BuilderM Unit) (t.setBytes f.region f.off (name.bytes ++ [0]))) _ _ _
  generalize t.setBytes f.region f.off (name.bytes ++ [0]) = u at *
  have hfresh := hbegun.fresh
  have hu := hbegun.adds.treed
  have hreg : ¬u.fieldOf e f typeField = ftypeDir := by
    rw [hfresh.type]
    decide
  -- the size
  obtain ⟨hv, huv, hlinks⟩ := hu.formed.setSize (w := size) hfresh.isFile hfresh.named fun hdir => absurd hdir hreg
  have hpatch := setField_patch e u f sizeField size
  have hsize : (u.setWord e f.region (f.off + sizeField) size).fieldOf e f sizeField = size := fieldOf_setField_self
  show Outcome.Sat ((do
    setField e f typeField ftypeReg
    readBlocks e f 0 reads : BuilderM Unit) (u.setWord e f.region (f.off + sizeField) size)) _ _ _
  generalize u.setWord e f.region (f.off + sizeField) size = v at *
  have hfv := huv.isFile hfresh.isFile
  have hnamev := (huv.named f hfresh.isFile).mpr hfresh.named
  have hregv : ¬v.fieldOf e f typeField = ftypeDir := by
    rw [huv.ftype f hfresh.isFile]
    exact hreg
  -- the type
  obtain ⟨hx, hvx, hnamex⟩ := hv.setType (w := ftypeReg) hfv hnamev
    (fun k => (hlinks k).trans (hfresh.links k)) (fun hdir => absurd hdir hregv) fun hdir => absurd hdir (by decide)
  have hpatch' := setField_patch e v f typeField ftypeReg
  have htype : (v.setWord e f.region (f.off + typeField) ftypeReg).fieldOf e f typeField = ftypeReg :=
    fieldOf_setField_self
  show Outcome.Sat (readBlocks e f 0 reads (v.setWord e f.region (f.off + typeField) ftypeReg)) _ _ _
  generalize v.setWord e f.region (f.off + typeField) ftypeReg = x at *
  have hlinkx : ∀ k, x.link e f k = u.link e f k := fun k =>
    (hpatch'.link_self hv hfv (by decide) k).trans (hlinks k)
  have hind : x.indirect e f = u.indirect e f := by
    rw [indirect, hpatch'.fieldOf_self (.inr (by decide)), hpatch.fieldOf_self (.inr (by decide)), ← indirect]
  have hext : Ext e (· = f) u x :=
    (hpatch.ext hu.formed (by decide) hfresh.isFile).trans (hpatch'.ext hv (by decide) hfv) (fun _ _ h => h)
      fun _ _ _ h => h
  have hboth : Patch f sizeField (typeField + 4) u x := by
    refine ⟨hpatch'.type.trans hpatch.type, hpatch'.nextbno.trans hpatch.nextbno, fun r y hy => ?_⟩
    unfold typeField sizeField at *
    rw [hpatch'.mem r y (hy.imp_right (Or.imp_left fun h => h.trans (by omega))),
      hpatch.mem r y (hy.imp_right (Or.imp_right fun h => Nat.le_trans (by omega) h))]
  have htx : x.Treed e := by
    refine hu.patch hboth (by decide) hfresh.isFile hx hlinkx hind fun d hdd => ?_
    have hdf : d ≠ f := by
      rintro rfl
      have := hdd.2.2
      rw [htype] at this
      exact absurd this (by decide)
    have hdfile := hboth.isFile.mp hdd.1
    have hdu : u.IsDir e d :=
      ⟨hdfile, (hext.named hdfile hdf).mp hdd.2.1, (hext.fieldOf hdfile hdf (by decide)).symm.trans hdd.2.2⟩
    refine hu.packed_of hdu (hext.slots hdfile hdf) fun q hq => ?_
    by_cases hqf : q = f
    · rw [hqf]
      exact ⟨fun _ => hfresh.named, fun _ => hnamex⟩
    · exact hext.named (hu.formed.isFile_of_mem hdu hq) hqf
  have hkind : x.kind e f = .data := by
    rw [kind, htype, if_neg (by decide)]
  have hfx := hext.isFile hfresh.isFile
  refine (readBlocks_copies reads htx hfx hnamex hkind).mono ?_ (fun _ _ h => h) (fun _ h => h)
  rintro _ y hy
  have hfinal : y.Named f := by
    have := hy.head 0 (by decide)
    rw [Nat.add_zero] at this
    rw [Named, this]
    exact hnamex
  have hfield : ∀ off, off + 4 ≤ 136 → y.fieldOf e f off = x.fieldOf e f off := fun off hoff =>
    wordAt_congr fun z h1 h2 => by
      have := hy.head (z - f.off) (by omega)
      rwa [Nat.add_sub_cancel' (by omega)] at this
  refine ⟨[f], hbegun.finish hy.treed (hext.trans hy.ext (fun _ _ h => h) fun _ _ _ h => h) hfinal, ?_⟩
  rw [Shows]
  refine ⟨f, rfl, hbegun.new, hy.ext.isFile hfx, hfinal, hlen, fun z hz => ?_, ?_, ?_, ?_, fun k hk => ?_, fun k hk => ?_⟩
  · rw [hy.head z (hz.trans (by decide)), hboth.mem _ _ (.inr (.inl (Nat.add_lt_add_left hz _))), hname z hz]
    exact getD_append_zero _ _
  · rw [hfield _ (by decide), htype]
  · rw [hfield _ (by decide), hpatch'.fieldOf_self (.inl (by decide)), hsize]
  · rcases hy.length with hnil | hle
    · rw [hnil]
      exact Nat.zero_le _
    · omega
  · have := hy.blocks k hk
    rwa [Nat.zero_add] at this
  · rw [hy.links k (.inr (by omega)), hlinkx, hfresh.links]

/-! ## `write_directory` -/

theorem getD_takeD (l : List Byte) : ∀ n x, (l.takeD n 0).getD x 0 = (l.take n).getD x 0 := by
  induction l with
  | nil =>
    intro n x
    rw [List.takeD_nil, List.take_nil]
    by_cases hx : x < n
    · simp [hx]
    · simp [hx]
  | cons c l ih =>
    intro n x
    cases n with
    | zero => rfl
    | succ n =>
      cases x with
      | zero => rfl
      | succ x => exact ih n x

/-- A new directory is empty. -/
theorem Fresh.nblocksOf (h : s.Fresh e f) : s.nblocksOf e f = 0 := by
  rw [Builder.nblocksOf, h.size]
  rfl

theorem writeDirectory_adds (h : s.Treed e) (hd : s.IsDir e p) (name : HostName) (as : List HostFile)
    (hentries : ∀ t f, t.Treed e → t.IsDir e f →
      (writeEntries e as f t).Sat (fun _ u => ∃ qs, Adds e f qs t u ∧ ShowsAll e u t.New as qs) (fun _ _ => True)
        (fun _ => True)) :
    (writeDirectory e p name (writeEntries e as) s).Sat
      (fun _ t => ∃ qs, Adds e p qs s t ∧ Shows e t s.New (.dir name as) qs) (fun _ _ => True) (fun _ => True) := by
  refine sat_call (createFile_opened h hd) ?_ (fun _ _ h => h) (fun _ h => h)
  rintro f t hopened
  obtain ⟨c, cs, hbytes, hc⟩ := HostName.first_ne name
  obtain ⟨hbegun, hname⟩ := h.setName hd hopened (name.bytes.takeD (maxnamelen - 1) 0) (by
    rw [List.takeD_length]
    decide) (by
    rw [hbytes]
    exact hc)
  show Outcome.Sat ((do
    let s ← Prog.get
    Prog.assert (s.mem f.region (f.off + (maxnamelen - 1)) = 0) .abort
    setField e f typeField ftypeDir
    writeEntries e as f : BuilderM Unit) (t.setBytes f.region f.off (name.bytes.takeD (maxnamelen - 1) 0))) _ _ _
  generalize t.setBytes f.region f.off (name.bytes.takeD (maxnamelen - 1) 0) = u at *
  have hfresh := hbegun.fresh
  have hu := hbegun.adds.treed
  rw [get_bind]
  refine sat_bind.mpr (sat_assert.mpr ?_)
  split
  case isFalse => trivial
  case isTrue =>
  obtain ⟨hv, huv, hnamev⟩ := hu.formed.setType (w := ftypeDir) hfresh.isFile hfresh.named hfresh.links (fun _ => rfl)
    fun _ => hfresh.nblocksOf
  have hpatch := setField_patch e u f typeField ftypeDir
  have htype : (u.setWord e f.region (f.off + typeField) ftypeDir).fieldOf e f typeField = ftypeDir :=
    fieldOf_setField_self
  show Outcome.Sat (writeEntries e as f (u.setWord e f.region (f.off + typeField) ftypeDir)) _ _ _
  generalize u.setWord e f.region (f.off + typeField) ftypeDir = v at *
  have hext : Ext e (· = f) u v := hpatch.ext hu.formed (by decide) hfresh.isFile
  have hempty : v.slots e f = [] := by
    rw [slots, nblocksOf, hpatch.fieldOf_self (.inl (by decide)), ← nblocksOf, hfresh.nblocksOf]
    rfl
  have htv : v.Treed e := by
    refine hu.patch hpatch (by decide) hfresh.isFile hv (hpatch.link_self hu.formed hfresh.isFile (by decide)) ?_
      fun d hdd => ?_
    · rw [indirect, hpatch.fieldOf_self (.inr (by decide)), ← indirect]
    · by_cases hdf : d = f
      · rw [hdf, hempty]
        exact .nil
      · have hdfile := hpatch.isFile.mp hdd.1
        have hdu : u.IsDir e d :=
          ⟨hdfile, (hext.named hdfile hdf).mp hdd.2.1, (hext.fieldOf hdfile hdf (by decide)).symm.trans hdd.2.2⟩
        refine hu.packed_of hdu (hext.slots hdfile hdf) fun q hq => ?_
        by_cases hqf : q = f
        · rw [hqf]
          exact ⟨fun _ => hfresh.named, fun _ => hnamev⟩
        · exact hext.named (hu.formed.isFile_of_mem hdu hq) hqf
  have hdv : v.IsDir e f := ⟨hext.isFile hfresh.isFile, hnamev, htype⟩
  refine (hentries v f htv hdv).mono ?_ (fun _ _ h => h) (fun _ h => h)
  rintro _ y ⟨qs, hadds, hall⟩
  have hvy : Ext e (· = f) v y := hadds.ext.mono fun q _ hA => hA.resolve_right fun hslot => by
    rw [hempty] at hslot
    exact absurd hslot.1 List.not_mem_nil
  refine ⟨[f], hbegun.finish hadds.treed (hext.trans hvy (fun _ _ h => h) fun _ _ _ h => h) hadds.dir.2.1, ?_⟩
  rw [Shows]
  refine ⟨f, rfl, hbegun.new, hadds.dir, fun z hz => ?_, ?_⟩
  · rw [hadds.head z hz, hpatch.mem _ _ (.inr (.inl (Nat.add_lt_add_left (hz.trans (by decide)) _))), hname z hz]
    exact getD_takeD _ _ _
  · have hempty' : v.entries e f = [] := by
      rw [entries, hempty]
      rfl
    rw [hadds.entries, hempty', List.nil_append]
    refine ShowsAll.mono (fun q hq => ?_) as qs hall
    -- what had a name before has it in `v`
    rintro ⟨hsq, hsn⟩
    have hqu := hbegun.adds.ext.isFile hsq
    have hnu := hbegun.adds.named hsq hsn
    refine hq ⟨hext.isFile hqu, ?_⟩
    by_cases hqf : q = f
    · rw [hqf]
      exact hnamev
    · exact (hext.named hqu hqf).mpr hnu

/-! ## Whole trees -/

mutual

/-- One file or directory of the host. -/
theorem writeEntry_adds : ∀ (a : HostFile) {s : Builder} {p : FileLoc}, s.Treed e → s.IsDir e p →
    (writeEntry e a p s).Sat (fun _ t => ∃ qs, Adds e p qs s t ∧ Shows e t s.New a qs) (fun _ _ => True)
      (fun _ => True)
  | .file name size reads, _, _, h, hd => by
    rw [writeEntry]
    exact writeFile_adds h hd name size reads
  | .dir name entries, _, _, h, hd => by
    rw [writeEntry]
    exact writeDirectory_adds h hd name entries fun _ _ ht hf => writeEntries_adds entries ht hf
  | .closed, _, _, h, hd => by
    rw [writeEntry]
    refine ⟨[], .refl h hd, ?_⟩
    rw [Shows]

/-- **The entries of a list are added one behind the other**, and none changes those before it. -/
theorem writeEntries_adds : ∀ (as : List HostFile) {s : Builder} {p : FileLoc}, s.Treed e → s.IsDir e p →
    (writeEntries e as p s).Sat (fun _ t => ∃ qs, Adds e p qs s t ∧ ShowsAll e t s.New as qs) (fun _ _ => True)
      (fun _ => True)
  | [], _, _, h, hd => by
    rw [writeEntries]
    refine ⟨[], .refl h hd, ?_⟩
    rw [ShowsAll]
  | a :: as, s, p, h, hd => by
    rw [writeEntries]
    refine sat_call (writeEntry_adds a h hd) ?_ (fun _ _ h => h) (fun _ h => h)
    rintro _ t ⟨xs, hxs, ha⟩
    refine (writeEntries_adds as hxs.treed hxs.dir).mono ?_ (fun _ _ h => h) (fun _ h => h)
    rintro _ u ⟨ys, hys, has⟩
    refine ⟨xs ++ ys, hxs.trans hys, ?_⟩
    rw [ShowsAll]
    refine ⟨xs, ys, rfl, ?_, ShowsAll.mono (fun q hq => hq.mono hxs) as ys has⟩
    have hne : ∀ q, s.New q → q ≠ p := fun q hq heq => hq (heq ▸ ⟨hd.1, hd.2.1⟩)
    exact Shows.keeps hys.ext.toKeeps (fun q hq hname hA => hne q hq (hA.named hname))
      (fun q hq hdq => hxs.treed.entries_ext hys.ext hxs.dir hys.dir.2.1 hdq (hne q hq)) a xs ha

end

end Builder

end Mos
