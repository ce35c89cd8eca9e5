import Mos.Fs.Creation

/-!
# A create that fails

When all entries of a directory are in use, `dir_alloc_file` first adds 4096 to its size, and then gets the
block for the new entries. If there is none, `file_create` fails, but the directory keeps the new size. The
next lookup in it tries to get the block again.
-/

namespace Mos

open Lib Prog Function

variable {s t u v : Fs} {a b c d f g i j k n p : Nat} {A D X : Set Nat} {root rest name : List Byte}

/-! ## Taking a block while there is memory -/

theorem mapBlock_supplied (hb : b < 2 ^ 18) (hs : s.Supplied) : ∃ t, mapBlock b s = .ret () t := by
  cases hm : s.isMapped b with
  | true => exact ⟨s, mapBlock_mapped hb hm⟩
  | false =>
    rw [mapBlock_unmapped hb hm, if_pos (hs 0)]
    exact ⟨_, rfl⟩

/-- While there is memory, `alloc_block` only fails if no block is free. -/
theorem allocBlock_supplied (h : s.Mounted) (hs : s.Supplied) :
    (allocBlock s).Sat (fun b t => s.Took b t) (fun _ t => s.Sees t ∧ ∀ b, ¬s.Free b) (fun _ => False) := by
  rcases allocBlockNum_eq h with ⟨heq, hnone⟩ | ⟨b, hb, heq⟩
  · rw [allocBlock, bind_err heq]
    exact ⟨Fs.Sees.refl s, hnone⟩
  · have hlt : b < 2 ^ 18 := by
      have := hb.1.1
      have := h.nblocks
      omega
    have hav : (s.take b).Supplied := hs
    obtain ⟨t, ht⟩ := mapBlock_supplied hlt hav
    have hret : allocBlock s = .ret b t := by
      rw [allocBlock, bind_ret heq, bind_ret (attempt_ret ht)]
      rfl
    have htook := allocBlock_sat h
    rw [hret] at htook ⊢
    exact htook

theorem fillSlot_supplied (h : s.Mounted) (hm : s.isMapped (p / 1024) = true) (hs : s.Supplied) :
    (fillSlot p true s).Sat (fun _ t => s.Filled p t)
      (fun _ t => s.Sees t ∧ s.num p = 0 ∧ ∀ b, ¬s.Free b) (fun _ => False) := by
  rw [fillSlot, bind_ret (load_look hm)]
  refine sat_when ?_ ?_
  · intro h0
    have h0 := look_eq_zero.mp h0
    refine sat_call (allocBlock_supplied h hs) ?_ (fun _ t h => ⟨h.1, h0, h.2⟩) (fun _ h => h)
    intro b u hu
    rw [store_mapped (hu.mapped _ hm)]
    exact .inr ⟨h0, b, u, hu, rfl⟩
  · intro h0
    exact .inl ⟨fun h => h0 (look_eq_zero.mpr h), rfl⟩

namespace Fs

/-- There is something for the slot at the address `p`. -/
def Fillable (s : Fs) (p : Nat) : Prop := s.num p ≠ 0 ∨ ∃ b, s.Free b

theorem Filled.fillable (h : s.Filled p t) : s.Fillable p := by
  rcases h with ⟨h0, -⟩ | ⟨-, b, u, htook, -⟩
  · exact .inl h0
  · exact .inr ⟨b, htook.first.1⟩

theorem Sees.fillable (h : s.Sees t) (p : Nat) : t.Fillable p ↔ s.Fillable p := by
  unfold Fillable
  simp only [h.num, h.free]

/-- Block `n` of the file `f` is there, or there is a block for it. A new index block is the first free block,
and what is in its old page counts as an entry. -/
def CanGet (s : Fs) (f n : Nat) : Prop :=
  s.block f n ≠ 0 ∨
    (n < ndirect ∨ n < nindirect ∧ s.num (fIndirect f) ≠ 0) ∧ (∃ b, s.Free b) ∨
      ndirect ≤ n ∧ n < nindirect ∧ s.num (fIndirect f) = 0 ∧
        ∃ b, s.FirstFree b ∧ (s.page b n ≠ 0 ∨ ∃ c, s.Free c ∧ c ≠ b)

theorem canGet_direct (h : n < ndirect) : s.CanGet f n ↔ s.Fillable (fDirect f n) := by
  unfold CanGet Fillable
  rw [block, if_pos h]
  simp [h, Nat.not_le.mpr h]

theorem canGet_entry (h : ndirect ≤ n) (h' : n < nindirect) (h0 : s.num (fIndirect f) ≠ 0) :
    s.CanGet f n ↔ s.Fillable (1024 * s.num (fIndirect f) + n) := by
  unfold CanGet Fillable
  rw [block, if_neg (by omega), if_pos ⟨h', h0⟩]
  simp [h', h0]

theorem canGet_index (h : ndirect ≤ n) (h' : n < nindirect) (h0 : s.num (fIndirect f) = 0) :
    s.CanGet f n ↔ ∃ b, s.FirstFree b ∧ (s.page b n ≠ 0 ∨ ∃ c, s.Free c ∧ c ≠ b) := by
  unfold CanGet
  rw [block, if_neg (by omega), if_neg fun hx => hx.2 h0]
  simp [h, h', h0, Nat.not_lt.mpr h]

theorem not_canGet (h : nindirect ≤ n) : ¬s.CanGet f n := by
  have hlt : ¬n < nindirect := Nat.not_lt.mpr h
  have hlt' : ¬n < ndirect := fun hx => hlt (Nat.lt_trans hx (by decide))
  unfold CanGet
  rw [block, if_neg hlt', if_neg fun hx => hlt hx.1]
  simp [hlt, hlt']

theorem FirstFree.unique (hb : s.FirstFree b) (hc : s.FirstFree c) : b = c := by
  rcases Nat.lt_trichotomy b c with h | h | h
  · exact absurd hb.1 (hc.2 b h)
  · exact h
  · exact absurd hc.1 (hb.2 c h)

/-- A new index block: its page is the old page of the block, and the other free blocks are still free. -/
theorem canGet_newIndex (ho : s.Own D X) (hf : f ∈ files D) (hm : s.isMapped (f / 1024) = true)
    (h : ndirect ≤ n) (h' : n < nindirect) (h0 : s.num (fIndirect f) = 0) (htook : s.Took b v) :
    let u := v.setWord (fIndirect f) (BitVec.ofNat 32 b)
    u.Mounted ∧ ¬u.Free b ∧ u.nblocks = s.nblocks ∧ u.num (fIndirect f) = b ∧ u.isMapped b = true ∧
      u.look (fSize f) = s.look (fSize f) ∧ (u.Fillable (1024 * b + n) ↔ s.CanGet f n) := by
  have hfb : fIndirect f / 1024 = f / 1024 := by rw [fIndirect, file_words hf (by decide)]
  have hsb : fSize f / 1024 = f / 1024 := by rw [fSize, file_words hf (by decide)]
  have hslot : fIndirect f ∈ slots D X := indirect_mem_slots hf
  obtain ⟨hov, -⟩ := ho.took htook
  have hmv : v.isMapped (fIndirect f / 1024) = true := htook.mapped _ (by rwa [hfb])
  have halt := alters_setWord (w := BitVec.ofNat 32 b) hmv (hov.slot_not_free hslot)
  have hplain := hov.slot_plain hslot
  have hne : f / 1024 ≠ b := fun heq => ho.file_not_free hf (heq ▸ htook.first.1)
  have hblk : (1024 * b + n) / 1024 = b := by
    unfold nindirect at h'
    omega
  have hentry : 1024 * b + n ≠ fIndirect f := by
    intro heq
    rw [heq, hfb] at hblk
    exact hne hblk
  have hnum : (v.setWord (fIndirect f) (BitVec.ofNat 32 b)).num (1024 * b + n) = (s.page b n).toNat := by
    have hmod : (1024 * b + n) % 1024 = n := by
      unfold nindirect at h'
      omega
    rw [num, halt.look _ hentry, htook.fresh _ hblk, word, hblk, hmod]
  have hfree : ∀ c, (v.setWord (fIndirect f) (BitVec.ofNat 32 b)).Free c ↔ s.Free c ∧ c ≠ b := fun c =>
    (halt.free hplain c).trans (htook.free c)
  refine ⟨halt.mounted hplain hov.mounted, fun hb => ((hfree b).mp hb).2 rfl,
    (halt.nblocks hplain).trans htook.nblocks, ?_, halt.mapped _ htook.self, ?_, ?_⟩
  · rw [num, look_setWord_self, htook.toNat ho.mounted]
  · have hsize : fSize f ≠ fIndirect f := by
      unfold fSize fIndirect
      omega
    rw [halt.look _ hsize]
    refine htook.look _ ?_ (by rwa [hsb])
    rw [hsb, ← hfb]
    exact ho.slot_inData hslot
  · unfold Fillable
    rw [canGet_index h h' h0, hnum]
    simp only [hfree]
    constructor
    · rintro (hpage | ⟨c, hc⟩)
      · exact ⟨b, htook.first, .inl fun hx => hpage (by rw [hx]; rfl)⟩
      · exact ⟨b, htook.first, .inr ⟨c, hc⟩⟩
    · rintro ⟨c, hc, hor⟩
      obtain rfl := hc.unique htook.first
      refine hor.imp_left fun hpage hx => hpage ?_
      exact BitVec.eq_of_toNat_eq hx

end Fs

/-! ## The next block of a directory -/

theorem touch_infallible (b : Nat) : Infallible (touch b) := by
  refine infallible_get fun s => infallible_ite (infallible_pure ()) ?_
  exact infallible_bind (fun _ => trivial) fun _ => infallible_ite (infallible_modify _) (infallible_halt _)

theorem load_infallible (a : Nat) : Infallible (load a) :=
  infallible_bind (touch_infallible _) fun _ => infallible_get fun _ => infallible_pure _

/-- `read_block` returns no error. -/
theorem readBlock_infallible (b : Nat) : Infallible (readBlock b) := by
  have hn : Infallible sNblocks := infallible_bind (load_infallible _) fun _ => infallible_pure _
  have hfree : Infallible (blockIsFree b) := by
    refine infallible_get fun _ => infallible_ite (infallible_pure _) (infallible_bind hn fun _ => ?_)
    exact infallible_ite (infallible_pure _) (infallible_bind (load_infallible _) fun _ => infallible_pure _)
  have hexists : Infallible (checkExists b) := infallible_get fun _ =>
    infallible_when (infallible_bind hn fun _ => infallible_assert _ _)
  have hused : Infallible (checkUsed b) := infallible_get fun _ =>
    infallible_when (infallible_bind hfree fun _ => infallible_assert _ _)
  have haddr : ∀ c, Infallible (diskaddr c) := fun c => infallible_ite (infallible_halt _) (infallible_pure _)
  have hread : ∀ va, Infallible (ideReadBlock va) := fun va =>
    infallible_bind (touch_infallible va) fun _ => infallible_modify _
  have hmapped : ∀ va, Infallible (blockIsMapped va) := fun va =>
    infallible_bind (haddr va) fun _ => infallible_get fun _ => infallible_pure _
  refine infallible_bind hexists fun _ => infallible_bind hused fun _ => infallible_bind (haddr b) fun va => ?_
  refine infallible_bind (hmapped va) fun _ => infallible_ite (infallible_pure _) ?_
  exact infallible_bind (infallible_attempt _) fun _ => hread va

/-- `file_block_walk` for a block that is to be taken. -/
theorem fileBlockWalk_supplied (ho : s.Own D X) (hf : f ∈ Fs.files D) (hm : s.isMapped (f / 1024) = true)
    (hs : s.Supplied) (n : Nat) :
    (fileBlockWalk f n true s).Sat
      (fun p u => u.Mounted ∧ u.isMapped (p / 1024) = true ∧ u.look (fSize f) = s.look (fSize f) ∧
        (u.Fillable p ↔ s.CanGet f n))
      (fun _ t => s.Sees t ∧ ¬s.CanGet f n) (fun q => q = .noMemory) := by
  have hmi : s.isMapped (fIndirect f / 1024) = true := by
    rw [fIndirect, Fs.file_words hf (by decide)]
    exact hm
  unfold fileBlockWalk
  split
  next hn =>
    refine ⟨ho.mounted, ?_, rfl, (Fs.canGet_direct hn).symm⟩
    rw [fDirect, Nat.add_assoc, Fs.file_words hf (by unfold ndirect at hn; omega)]
    exact hm
  next hn =>
    split
    next hn' =>
      have hge : ndirect ≤ n := Nat.le_of_not_lt hn
      refine sat_call (fillSlot_supplied ho.mounted hmi hs) ?_ ?_ (fun _ h => h.elim)
      · rintro - u hfill
        rcases hfill with ⟨h0, rfl⟩ | ⟨h0, b, v, htook, rfl⟩
        · have hx := ho.indexes (ho.index f hf h0)
          rw [bind_ret (load_look hmi)]
          refine sat_call (readBlock_sat ho.mounted hx.2.1 hx.2.2) ?_ (fun _ _ h => h.elim) (fun _ h => h)
          rintro - t ⟨hsees, hmt⟩
          refine ⟨hsees.mounted ho.mounted, ?_, hsees.look _, ?_⟩
          · unfold nindirect at hn'
            rwa [show (1024 * (u.look (fIndirect f)).toNat + n) / 1024 = (u.look (fIndirect f)).toNat by
              omega]
          · rw [hsees.fillable, Fs.canGet_entry hge hn' h0]
            rfl
        · obtain ⟨hmt, hused, hnb, hnum, hmb, hsize, hcan⟩ := Fs.canGet_newIndex ho hf hm hge hn' h0 htook
          have hmu : (v.setWord (fIndirect f) (BitVec.ofNat 32 b)).isMapped (fIndirect f / 1024) = true := by
            simp [htook.mapped _ hmi]
          have hlt : b < (v.setWord (fIndirect f) (BitVec.ofNat 32 b)).nblocks := by
            rw [hnb]
            exact htook.first.1.1
          rw [bind_ret (load_look hmu)]
          unfold Fs.num at hnum
          simp only [hnum]
          rw [bind_ret (readBlock_mapped hmt hlt hused hmb)]
          refine ⟨hmt, ?_, hsize, hcan⟩
          unfold nindirect at hn'
          rwa [show (1024 * b + n) / 1024 = b by omega]
      · rintro - t ⟨hsees, h0, hnone⟩
        refine ⟨hsees, ?_⟩
        rw [Fs.canGet_index hge hn' h0]
        rintro ⟨b, hb, -⟩
        exact hnone b hb.1
    next hn' => exact ⟨Fs.Sees.refl s, Fs.not_canGet (Nat.le_of_not_lt hn')⟩

/-- **`file_get_block` fails** if and only if there is no block, while there is memory. Then the size of the
file is as before. -/
theorem fileGetBlock_supplied (ho : s.Own D X) (hf : f ∈ Fs.files D) (hm : s.isMapped (f / 1024) = true)
    (hs : s.Supplied) (n : Nat) :
    (fileGetBlock f n s).Sat (fun _ _ => s.CanGet f n)
      (fun _ t => ¬s.CanGet f n ∧ t.look (fSize f) = s.look (fSize f))
      (fun q => q = .noMemory ∨ s.CanGet f n) := by
  rw [fileGetBlock, fileMapBlock, sat_bind, sat_bind]
  refine ((fileBlockWalk_supplied ho hf hm hs n).and (fileBlockWalk_feeds f n true s hs)).mono ?_ ?_
    (fun _ h => .inl h.1)
  · rintro p u ⟨⟨hmu, hmp, hsize, hcan⟩, hsu⟩
    refine sat_call (fillSlot_supplied hmu hmp hsu) ?_ ?_ (fun _ h => h.elim)
    · rintro - t hfill
      have hget := hcan.mp hfill.fillable
      have hmt : t.isMapped (p / 1024) = true := by
        rcases hfill with ⟨-, rfl⟩ | ⟨-, b, v, htook, rfl⟩
        · exact hmp
        · simp [htook.mapped _ hmp]
      rw [bind_ret (load_look hmt)]
      refine sat_call (readBlock_infallible _ t) (fun _ _ _ => hget) (fun _ _ h => h.elim) fun _ _ => .inr hget
    · rintro - t ⟨hsees, h0, hnone⟩
      refine ⟨fun hget => ?_, (hsees.look _).trans hsize⟩
      rcases hcan.mpr hget with h | ⟨b, hb⟩
      · exact h h0
      · exact hnone b hb
  · rintro - t ⟨⟨hsees, hnot⟩, -⟩
    exact ⟨hnot, hsees.look _⟩

namespace Fs

/-- A change of other words makes no difference to the blocks of a file. -/
theorem Own.canGet_alters (ho : s.Own D X) (hA : s.Inert D X A) (h : s.Alters A t) (hf : f ∈ files D)
    (n : Nat) : t.CanGet f n ↔ s.CanGet f n := by
  have hslot : ∀ a ∈ slots D X, t.look a = s.look a := fun a ha => h.look a fun haA => hA.2.1 a haA ha
  have hnum : t.num (fIndirect f) = s.num (fIndirect f) := by
    rw [num, hslot _ (indirect_mem_slots hf)]
    rfl
  have hfree := h.free hA.1
  have hfirst : ∀ b, t.FirstFree b ↔ s.FirstFree b := by
    intro b
    unfold FirstFree
    simp only [hfree]
  unfold CanGet
  rw [ho.block_congr hslot hf, hnum]
  simp only [hfree, hfirst]
  refine or_congr_right (or_congr_right (and_congr_right fun _ => and_congr_right fun _ =>
    and_congr_right fun _ => exists_congr fun b => and_congr_right fun hb => ?_))
  rw [h.idle b hb.1]

/-- There is a place for a new entry in the directory `d`. -/
def Place (s : Fs) (d : Nat) : Prop := (∃ f ∈ s.entries d, s.Unused f) ∨ s.CanGet d (s.nblocksOf d)

theorem Tidy.place_alters (hs : s.Tidy D X) (h : s.Alters (ups D) t) (hd : d ∈ files D) (hdir : s.IsDir d) :
    t.Place d ↔ s.Place d := by
  have ho := hs.own
  unfold Place
  rw [ho.entries_alters h hd, ho.nblocksOf_alters h hd, ho.canGet_alters ho.inert_ups h hd]
  refine or_congr_left (exists_congr fun f => and_congr_right fun hf => ?_)
  rw [Unused, Unused, h.look f (ho.notMem_ups (i := 0) (hs.entry_file hd hdir hf) (by decide) (by decide))]

/-- If the last name of a path is missing, then its directory has a place for it. -/
def CanCreate (s : Fs) (names : List (List Byte)) : Prop :=
  ∀ d name, s.resolve names = .ok (.missing d name) → s.Place d

end Fs

/-- The search for an entry without a name, and then the growth of the directory. -/
theorem dirAllocFile_supplied (ho : s.Own D X) (hc : s.Complete D) (hd : d ∈ Fs.files D) (hdir : s.IsDir d)
    (hm : s.isMapped (d / 1024) = true) (hs : s.Supplied) :
    (dirAllocFile d s).Sat (fun _ _ => s.Place d)
      (fun _ t => ¬s.Place d ∧ t.look (fSize d) = s.look (fSize d) + 4096)
      (fun q => q = .noMemory ∨ s.Place d) := by
  have hsd : fSize d / 1024 = d / 1024 := by rw [fSize, Fs.file_words hd (by decide)]
  rw [dirAllocFile, bind_ret (load_look (by rwa [hsd])), sat_bind]
  refine ((allocFileFrom_find d _ 0 s ho hd hm fun k _ hk =>
    hc d hd hdir k (by unfold Fs.nblocksOf; omega)).and
      (allocFileFrom_feeds d _ 0 s hs)).mono ?_ (fun _ _ h => h.1.elim) (fun _ h => .inl h.1)
  rintro o t ⟨⟨hsees, hfound, -⟩, hst⟩
  cases o with
  | some f => exact .inl ⟨f, List.mem_of_find?_eq_some hfound, by simpa using List.find?_some hfound⟩
  | none =>
    have hnone : ¬∃ f ∈ s.entries d, s.Unused f := by
      rintro ⟨f, hf, hu⟩
      rw [List.find?_eq_none] at hfound
      exact absurd (by simpa using hu) (hfound f hf)
    have hot := ho.sees hsees
    have hmt : t.isMapped (fSize d / 1024) = true := by
      rw [hsd]
      exact hsees.mapped _ hm
    have hused : ¬t.Free (fSize d / 1024) := by
      rw [hsd]
      exact hot.file_not_free hd
    have hinert : t.Inert D X {fSize d} := hot.inert_file hd (by decide) (.inl (by decide))
    have halt := Fs.alters_setWord (w := t.look (fSize d) + BitVec.ofNat 32 by2blk) hmt hused
    have hcan : ∀ n, (t.setWord (fSize d) (t.look (fSize d) + BitVec.ofNat 32 by2blk)).CanGet d n ↔
        s.CanGet d n := fun n =>
      (hot.canGet_alters hinert halt hd n).trans
        (ho.canGet_alters (ho.inert_file hd (by decide) (.inl (by decide))) (hsees.alters {fSize d}) hd n)
    have hsize : (t.setWord (fSize d) (t.look (fSize d) + BitVec.ofNat 32 by2blk)).look (fSize d) =
        s.look (fSize d) + 4096 := by
      rw [Fs.look_setWord_self, hsees.look]
      rfl
    dsimp only
    rw [bind_ret (load_look hmt), bind_ret (store_mapped hmt _)]
    refine sat_call (fileGetBlock_supplied (hot.alters hinert halt) hd (halt.mapped _ (hsees.mapped _ hm))
      hst _) ?_ ?_ ?_
    · exact fun _ _ hget => .inr ((hcan _).mp hget)
    · rintro - u ⟨hnot, hu⟩
      exact ⟨fun hplace => hplace.elim hnone fun hget => hnot ((hcan _).mpr hget), hu.trans hsize⟩
    · exact fun _ h => h.imp_right fun hget => .inr ((hcan _).mp hget)

/-! ## `file_create` -/

/-- If there is no place for the file, `file_create` fails and leaves the directory with another size. Otherwise
it does not fail, or it has changed nothing but `f_dir` fields. -/
theorem fileCreate_supplied (hs : s.Tidy D X) (h6 : root.length = 6) (hsup : s.Supplied) :
    (fileCreate (root ++ rest) s).Sat (fun _ _ => s.CanCreate (pieces slash rest))
      (fun _ t => s.CanCreate (pieces slash rest) ∧ s.Alters (Fs.ups D) t ∨
        ¬s.CanCreate (pieces slash rest) ∧ ∃ d ∈ Fs.files D, s.IsDir d ∧ t.look (fSize d) ≠ s.look (fSize d))
      (fun q => q = .noMemory ∨ s.CanCreate (pieces slash rest)) := by
  have ho := hs.own
  rw [fileCreate, sat_bind]
  refine ((walkPath_resolve ho hs.complete h6 rest).and (walkPath_feeds _ s hsup)).mono ?_ ?_
    (fun _ h => .inl h.1)
  · rintro w u ⟨⟨halt, hres, hend⟩, hsu⟩
    cases w with
    | found o f =>
      refine .inl ⟨fun d name hmissing => ?_, halt⟩
      rw [hres] at hmissing
      cases hmissing
    | missing d name =>
      obtain ⟨⟨hd, hm⟩, hdir, -, -⟩ := hend
      have htu := hs.alters halt
      have hplace : u.Place d ↔ s.CanCreate (pieces slash rest) := by
        rw [hs.place_alters halt hd hdir]
        constructor
        · intro h d' name' hmissing
          rw [hres] at hmissing
          obtain ⟨rfl, -⟩ := Walk.missing.inj (Except.ok.inj hmissing)
          exact h
        · exact fun h => h d name hres
      dsimp only
      rw [sat_bind, sat_attempt]
      refine (dirAllocFile_supplied htu.own htu.complete hd ((ho.isDir_alters halt hd).mpr hdir) hm hsu).mono
        ?_ ?_ fun _ h => h.imp_right hplace.mp
      · intro f v hp
        have hcan := hplace.mp hp
        refine sat_call (R := fun _ _ => True) (F := fun _ _ => False) (G := fun _ => True)
          (touch_infallible _ v) (fun _ _ _ => hcan) (fun _ _ h => h.elim) fun _ _ => .inr hcan
      · rintro - v ⟨hnot, hsize⟩
        refine .inr ⟨fun hcan => hnot (hplace.mpr hcan), d, hd, hdir, ?_⟩
        have hsame : u.look (fSize d) = s.look (fSize d) :=
          halt.look _ (ho.notMem_ups (i := 32) hd (by decide) (by decide))
        rw [hsize, hsame]
        intro heq
        have hnat := congrArg BitVec.toNat heq
        rw [BitVec.toNat_add, show (4096 : Word).toNat = 4096 from rfl] at hnat
        have := (s.look (fSize d)).isLt
        omega
  · rintro e t ⟨⟨halt, hres⟩, -⟩
    refine .inl ⟨fun d name hmissing => ?_, halt⟩
    rw [hres] at hmissing
    cases hmissing

/-- Two lookups have the same result, unless the server runs out of memory. -/
def SameResult : Outcome Fs Err FsPanic Nat → Outcome Fs Err FsPanic Nat → Prop
  | .ret f _, .ret g _ => f = g
  | .err e _, .err e' _ => e = e'
  | .halt q, _ => q = .noMemory
  | _, .halt q => q = .noMemory
  | _, _ => False

namespace Fs

/-- `t` is `s` with the same directories, entries and bitmap, and with the same result of every lookup. Only
`f_dir` of an entry, which every lookup that finds it sets, may differ. -/
structure Untouched (s t : Fs) : Prop where
  words : ∀ f, s.IsFile f → ∀ i < 64, f + i ≠ fDir f → t.look (f + i) = s.look (f + i)
  slots : ∀ f, s.IsFile f → ∀ k, t.held f k = s.held f k
  entries : ∀ d, s.IsFile d → s.IsDir d → t.entries d = s.entries d
  bitmap : ∀ b, t.Free b ↔ s.Free b
  lookups : ∀ path, 6 ≤ path.length → SameResult (fileOpen path s) (fileOpen path t)

/-- A `file_create` of the path that fails leaves everything as it was. -/
def CreateClean (s : Fs) (path : List Byte) : Prop := ∀ e t, fileCreate path s = .err e t → s.Untouched t

/-- The file at the end of a walk. -/
def fileAt : Except Err Walk → Except Err Nat
  | .ok (.found _ f) => .ok f
  | .ok (.missing _ _) => .error .notFound
  | .error e => .error e

end Fs

/-- `file_open` gives the file that the path stands for. -/
theorem fileOpen_resolve (hs : s.Tidy D X) (h6 : root.length = 6) :
    (fileOpen (root ++ rest) s).Sat (fun f _ => Fs.fileAt (s.resolve (pieces slash rest)) = .ok f)
      (fun e _ => Fs.fileAt (s.resolve (pieces slash rest)) = .error e) (fun q => q = .noMemory) := by
  rw [fileOpen]
  refine sat_call (walkPath_resolve hs.own hs.complete h6 rest) ?_ ?_ (fun _ h => h)
  · rintro w u ⟨-, hres, -⟩
    rw [hres]
    cases w with
    | found o f => exact rfl
    | missing d name => exact rfl
  · rintro e u ⟨-, hres⟩
    rw [hres]
    rfl

theorem sameResult_of_sat {r : Except Err Nat} {o o' : Outcome Fs Err FsPanic Nat}
    (h : o.Sat (fun f _ => r = .ok f) (fun e _ => r = .error e) (fun q => q = .noMemory))
    (h' : o'.Sat (fun f _ => r = .ok f) (fun e _ => r = .error e) (fun q => q = .noMemory)) :
    SameResult o o' := by
  cases o with
  | ret f t =>
    cases o' with
    | ret g u => exact Except.ok.inj (h.symm.trans h')
    | err e u => cases h.symm.trans h'
    | halt q => exact h'
  | err e t =>
    cases o' with
    | ret g u => cases h.symm.trans h'
    | err e' u => exact Except.error.inj (h.symm.trans h')
    | halt q => exact h'
  | halt q => exact h

/-- Nothing is touched when only `f_dir` fields change. -/
theorem Fs.Tree.untouched (hs : s.Tree) (h : s.Alters (Fs.ups s.dirBlocks) t) : s.Untouched t := by
  have ht := hs.tidy
  have ho := ht.own
  have hfile : ∀ f, s.IsFile f → f ∈ Fs.files s.dirBlocks := fun f hf => Fs.mem_files_dirBlocks.mpr hf
  have hnum : ∀ a ∈ Fs.slots s.dirBlocks s.indexBlocks, t.num a = s.num a := by
    intro a ha
    rw [Fs.num, h.look a fun hups => ho.inert_ups.2.1 a hups ha]
    rfl
  refine ⟨?_, ?_, fun d hd _ => ho.entries_alters h (hfile d hd), h.free ho.inert_ups.1, ?_⟩
  · intro f hf i hi hne
    refine h.look _ (ho.notMem_ups (hfile f hf) hi fun h45 => hne ?_)
    rw [h45]
    rfl
  · intro f hf k
    have hind : t.num (fIndirect f) = s.num (fIndirect f) := hnum _ (Fs.indirect_mem_slots (hfile f hf))
    cases k with
    | direct i => exact hnum _ (Fs.direct_mem_slots (hfile f hf) i.isLt)
    | indirect => exact hind
    | entry i =>
      simp only [Fs.held, hind]
      split
      next => rfl
      next h0 => exact hnum _ (Fs.entry_mem_slots (ho.index f (hfile f hf) h0) i.isLt)
  · intro path hlen
    obtain ⟨root, rest, rfl, h6⟩ : ∃ root rest : List Byte, path = root ++ rest ∧ root.length = 6 :=
      ⟨_, _, (List.take_append_drop 6 path).symm, by rw [List.length_take]; omega⟩
    have hafter : (fileOpen (root ++ rest) t).Sat _ _ _ := fileOpen_resolve (ht.alters h) h6
    rw [ht.resolve_alters h] at hafter
    exact sameResult_of_sat (fileOpen_resolve ht h6) hafter

/-- **A create that fails leaves everything as it was** if and only if the path leads to a file, or nowhere, or
its directory has a place for the file, while the server gets memory. If the directory has an unused entry,
this holds without memory as well. -/
theorem failed_create_clean_iff (hs : s.Tree) (h6 : root.length = 6) (hz : 0 ∉ rest) :
    (s.Supplied → (s.CreateClean (root ++ rest) ↔ s.CanCreate (pieces slash rest))) ∧
      ((∀ d name, s.resolve (pieces slash rest) = .ok (.missing d name) → ∃ f ∈ s.entries d, s.Unused f) →
        s.CreateClean (root ++ rest)) := by
  refine ⟨fun hsup => ?_, fun hroom e t herr => ?_⟩
  · have hspec : (fileCreate (root ++ rest) s).Sat _ _ _ :=
      (fileCreate_supplied hs.tidy h6 hsup).and (fileCreate_feeds _ s hsup)
    cases hr : fileCreate (root ++ rest) s with
    | ret f t =>
      rw [hr] at hspec
      refine iff_of_true (fun e u herr => ?_) hspec.1
      cases hr.symm.trans herr
    | err e t =>
      rw [hr] at hspec
      rcases hspec.1 with ⟨hcan, halt⟩ | ⟨hnot, d, hd, -, hsize⟩
      · refine iff_of_true (fun e' u herr => ?_) hcan
        obtain ⟨-, rfl⟩ := Outcome.err.inj (hr.symm.trans herr)
        exact hs.untouched halt
      · refine iff_of_false (fun hclean => hsize ?_) hnot
        refine (hclean e t hr).words d (Fs.mem_files_dirBlocks.mp hd) 32 (by decide) ?_
        unfold fDir
        omega
    | halt q =>
      rw [hr] at hspec
      refine iff_of_true (fun e u herr => ?_) (hspec.1.resolve_left hspec.2)
      cases hr.symm.trans herr
  · have hspec := fileCreate_named hs.tidy h6 hz hroom
    rw [herr] at hspec
    exact hs.untouched hspec.1

/-! ## A full disk -/

/-- A disk of 4 blocks without a free one. Block 3 is the block of the root directory. It has 16 empty files with
the names `a`, …, `p`. -/
def fullDisk : Nat → Page := fun blk i =>
  match blk, i with
  | 1, 0 => fsMagic
  | 1, 1 => 4
  | 1, 34 => 4096
  | 1, 35 => ftypeDir
  | 1, 36 => 3
  | 3, i => if i % 64 = 0 then BitVec.ofNat 32 (0x61 + i / 64) else 0
  | _, _ => 0

/-- The server after it has mounted the full disk. -/
def fullFs : Fs :=
  { unmounted fullDisk (fun _ => true) with
    cache := fun b => if b = 1 ∨ b = 2 then some ⟨fullDisk b, false⟩ else none
    super := true
    bitmap := true }

/-- The path `/root1/q`. -/
def pathQ : List Byte := [0x2f, 0x72, 0x6f, 0x6f, 0x74, 0x31, 0x2f, 0x71]

/-- The root directory has the only block. -/
theorem fullFs_slot (ha : a ∈ Fs.slots {3} ∅) (h0 : fullFs.num a ≠ 0) : a = 1060 ∧ fullFs.num a = 3 := by
  have hroot : ∀ i ≤ 10, fullFs.num (sRoot + 34 + i) ≠ 0 →
      sRoot + 34 + i = 1060 ∧ fullFs.num (sRoot + 34 + i) = 3 := by decide
  have hfile : ∀ j < file2blk, ∀ i ≤ 10, fullFs.num (fileIn 3 j + 34 + i) = 0 := by decide +kernel
  rcases ha with ⟨f, rfl | ⟨b, rfl, j, hj, rfl⟩, i, hi, rfl⟩ | ⟨x, hx, -⟩
  · exact hroot i hi h0
  · exact absurd (hfile j hj i hi) h0
  · exact hx.elim

theorem fullFs_isDir (hf : f ∈ Fs.files {3}) : fullFs.IsDir f ↔ f = sRoot := by
  rcases hf with rfl | ⟨b, rfl, j, hj, rfl⟩
  · decide
  · revert j
    decide

theorem fullFs_index (hf : f ∈ Fs.files {3}) : fullFs.num (fIndirect f) = 0 := by
  by_contra h0
  obtain ⟨haddr, -⟩ := fullFs_slot (Fs.indirect_mem_slots hf) h0
  rcases hf with rfl | ⟨b, rfl, j, hj, rfl⟩
  · unfold fIndirect sRoot at haddr
    omega
  · unfold fIndirect fileIn at haddr
    omega

theorem fullFs_own : fullFs.Own {3} ∅ := by
  have hn : fullFs.nblocks = 4 := by decide
  have hd : fullFs.firstData = 3 := by decide
  have hfree : ∀ b < 4, ¬fullFs.Free b := by decide
  have hused : 3 ∈ fullFs.used := ⟨by rw [hd], by rw [hn]; decide, hfree 3 (by decide)⟩
  have hptr : ∀ f ∈ Fs.files {3}, ∀ a ∈ fullFs.pointers f, fullFs.num a ≠ 0 → fullFs.num a = 3 ∧ f = sRoot := by
    rintro f hf a (⟨i, hi, rfl⟩ | ⟨hx, -⟩) h0
    · obtain ⟨haddr, hnum⟩ := fullFs_slot (Fs.direct_mem_slots hf hi) h0
      refine ⟨hnum, ?_⟩
      rcases hf with rfl | ⟨b, rfl, j, hj, rfl⟩
      · rfl
      · unfold fDirect fileIn at haddr
        omega
    · exact absurd (fullFs_index hf) hx
  refine ⟨⟨rfl, rfl, by rw [hn]; decide, ?_, ?_⟩, ⟨?_, ?_⟩, ?_, fun _ h => h.elim, fun _ _ h => h.elim,
    fun f hf h0 => absurd (fullFs_index hf) h0, ?_, ?_⟩
  · intro b h₁ hb
    rw [hd] at hb
    rcases (by omega : b = 1 ∨ b = 2) with rfl | rfl <;> rfl
  · intro b hb
    rw [hd] at hb
    exact hfree b (by omega)
  · intro a ha h0
    rw [(fullFs_slot ha h0).2]
    exact hused
  · intro a ha a' ha' h0 heq
    rw [(fullFs_slot ha h0).1, (fullFs_slot ha' (heq ▸ h0)).1]
  · rintro b rfl
    exact hused
  · intro f hf _ a ha h0
    exact (hptr f hf a ha h0).1
  · intro f hf hreg a ha h0
    exact absurd ((fullFs_isDir hf).mpr (hptr f hf a ha h0).2) hreg

theorem fullFs_tidy : fullFs.Tidy {3} ∅ := by
  have hentries : fullFs.entries sRoot = (List.range file2blk).map (fileIn 3) := rfl
  have hroot : fullFs.nblocksOf sRoot = 1 := rfl
  refine ⟨fullFs_own, ?_, rfl, ?_, ?_⟩
  · intro d hd hdir n hn
    obtain rfl := (fullFs_isDir hd).mp hdir
    rw [hroot] at hn
    obtain rfl : n = 0 := by omega
    decide
  · intro f hf n hn
    by_contra h0
    have hlt : n < ndirect := by
      by_contra hge
      rw [Fs.block, if_neg hge, if_neg fun h => h.2 (fullFs_index hf)] at h0
      exact h0 rfl
    rw [Fs.block, if_pos hlt] at h0
    obtain ⟨haddr, -⟩ := fullFs_slot (Fs.direct_mem_slots hf hlt) h0
    rcases hf with rfl | ⟨b, rfl, j, hj, rfl⟩
    · rw [hroot] at hn
      unfold fDirect sRoot at haddr
      omega
    · unfold fDirect fileIn at haddr
      omega
  · intro d hd hdir f hf g hg name hn hfn hgn
    obtain rfl := (fullFs_isDir hd).mp hdir
    rw [hentries, List.mem_map] at hf hg
    obtain ⟨j, hj, rfl⟩ := hf
    obtain ⟨k, hk, rfl⟩ := hg
    have hfirst : ∀ j < file2blk, ∀ k < file2blk,
        fullFs.nameByte (fileIn 3 j) 0 = fullFs.nameByte (fileIn 3 k) 0 → j = k := by decide
    rw [hfirst j (List.mem_range.mp hj) k (List.mem_range.mp hk) ?_]
    rw [hfn 0 (by simp), hgn 0 (by simp)]

theorem failed_create_clean_iff_full :
    fullFs.CreateClean (pathQ.take 6 ++ pathQ.drop 6) ↔ fullFs.CanCreate (pieces slash (pathQ.drop 6)) :=
  (failed_create_clean_iff fullFs_tidy.tree (by decide) (by decide)).1 fun _ => rfl

/-- After the attempt to create a 17th file, the size of the root directory is 8192, and a lookup of the missing
name, which failed with `-E_NOT_FOUND` before, fails with `-E_NO_DISK`. -/
theorem failed_create_grows : fullFs.Tree ∧ fullFs.Supplied ∧
    ∃ t, fileCreate pathQ fullFs = .err .notFound t ∧ ¬fullFs.Untouched t ∧ t.look (fSize sRoot) = 8192 ∧
      (∃ u, fileOpen pathQ fullFs = .err .notFound u) ∧ ∃ u, fileOpen pathQ t = .err .noDisk u := by
  have hrun : ((fileCreate pathQ fullFs).errAnd fun e t => (fileOpen pathQ t).errAnd fun e' _ =>
      decide (e = .notFound ∧ e' = .noDisk ∧ t.look (fSize sRoot) = 8192)) = true := by decide +kernel
  have hopen : ((fileOpen pathQ fullFs).errAnd fun e _ => decide (e = .notFound)) = true := by decide +kernel
  refine ⟨fullFs_tidy.tree, fun _ => rfl, ?_⟩
  obtain ⟨e, t, hcreate, hrun⟩ := Outcome.errAnd_eq_true.mp hrun
  obtain ⟨e', v, hafter, hrun⟩ := Outcome.errAnd_eq_true.mp hrun
  obtain ⟨rfl, rfl, hsize⟩ := of_decide_eq_true hrun
  obtain ⟨e, u, hbefore, hopen⟩ := Outcome.errAnd_eq_true.mp hopen
  obtain rfl := of_decide_eq_true hopen
  refine ⟨t, hcreate, fun h => ?_, hsize, ⟨u, hbefore⟩, v, hafter⟩
  have hlookup := h.lookups pathQ (by decide)
  rw [hbefore, hafter] at hlookup
  cases hlookup

end Mos
