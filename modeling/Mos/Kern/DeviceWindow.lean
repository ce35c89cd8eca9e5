import Mos.Kern.NoPanic
import Mos.Kern.PageMap
import Mos.Kern.Counter

/-!
# The windows of the devices

`sys_write_dev` and `sys_read_dev` compare the 32-bit sum `pa + len` with the end of each device. The
sum can wrap around: then it is small, and `pa` may be as large as it likes. `device_window_iff` says
that this is the only gap: a call gets past the tests outside the windows exactly if the sum wraps and
stays below the end of the last device. On a machine with 512 megabytes such a call returns 0 and has
read or written memory of the kernel (`device_window_wraps`).
-/

namespace Mos

open Lib Prog Function

variable {k : Kernel} {α β : Type} {va pa len : Word}

/-! ## The copy does not fail -/

/-- `m` returns or never comes back. -/
def Errless (m : KernM α) : Prop :=
  ∀ k, (m k).Sat (fun _ _ => True) (fun _ _ => False) (fun _ => True)

theorem errless_pure (a : α) : Errless (pure a : KernM α) := fun _ => trivial

theorem errless_halt (p : Panic) : Errless (halt p : KernM α) := fun _ => trivial

theorem errless_modify (f : Kernel → Kernel) : Errless (modify f : KernM Unit) := fun _ => trivial

theorem errless_get {f : Kernel → KernM α} (h : ∀ k, Errless (f k)) : Errless (get >>= f) :=
  fun k => h k k

theorem errless_bind {m : KernM α} {f : α → KernM β} (hm : Errless m) (hf : ∀ a, Errless (f a)) :
    Errless (m >>= f) := fun k =>
  sat_call (hm k) (fun a t _ => hf a t) (fun _ _ h => h) (fun _ h => h)

theorem errless_loop {body : Nat → KernM Unit} (h : ∀ i, Errless (body i)) (i n : Nat) :
    Errless (loop body i n) := fun _ =>
  sat_loop (I := fun _ _ => True) (fun j t _ _ _ => h j t) trivial

theorem errless_panicOn (m : KernM α) : Errless (panicOn m) := fun k =>
  sat_panicOn (Q := fun _ _ => True) (E := fun _ _ => True) (H := fun _ => True)
    (by cases m k <;> trivial)

theorem errless_pageLookup (d : Nat) (va : Word) : Errless (pageLookup d va) := fun k =>
  (pageLookup_found d va k).mono (fun _ _ _ => trivial) (fun _ _ h => h) (fun _ h => h)

theorem errless_passiveAlloc (va : Word) (d : Nat) (asid : Word) :
    Errless (passiveAlloc va d asid) := by
  unfold passiveAlloc
  split
  · exact errless_halt _
  · exact errless_bind (errless_panicOn _) fun _ => errless_panicOn _

theorem errless_refillLoop (va asid : Word) (n : Nat) : Errless (refillLoop va asid n) := by
  induction n with
  | zero => exact errless_halt _
  | succ n ih =>
    refine errless_get fun k => errless_bind (errless_pageLookup _ _) fun r => ?_
    split
    · exact errless_pure _
    · exact errless_bind (errless_passiveAlloc _ _ _) fun _ => ih

theorem errless_readWord (f i : Nat) : Errless (readWord f i) := fun _ => trivial

theorem errless_touchUser (va asid : Word) : Errless (touchUser va asid) :=
  errless_bind (errless_bind (errless_refillLoop va asid 2) fun _ => errless_readWord _ _)
    fun _ => errless_bind (errless_modify _) fun _ => errless_pure _

theorem errless_loadByte (io : Io) (asid va : Word) : Errless (loadByte io asid va) := by
  unfold loadByte
  split
  · refine errless_get fun k => ?_
    split
    · exact errless_pure _
    · split
      · exact errless_pure _
      · exact errless_halt _
  · exact errless_bind (errless_touchUser _ _) fun _ =>
      errless_bind (errless_readWord _ _) fun _ => errless_pure _

theorem errless_storeByte (asid va : Word) (b : Byte) : Errless (storeByte asid va b) := by
  unfold storeByte
  split
  · refine errless_get fun k => ?_
    split
    · exact errless_pure _
    · split
      · exact errless_modify _
      · exact errless_halt _
  · refine errless_bind (errless_touchUser _ _) fun pte => ?_
    split
    · exact errless_bind (errless_readWord _ _) fun _ => errless_modify _
    · exact errless_halt _

theorem errless_memcpy (io : Io) (asid dst src n : Word) : Errless (memcpy io asid dst src n) := by
  unfold memcpy
  split
  · exact errless_pure _
  · exact errless_loop (fun i => errless_bind (errless_loadByte _ _ _) fun _ =>
      errless_storeByte _ _ _) _ _

/-! ## Inside and outside -/

/-- The range at `pa` lies in one device, and the range at `va` in the memory of the user. -/
structure DevInside (va pa len : Word) : Prop where
  window : (0x10000000 ≤ pa.toNat ∧ pa.toNat + len.toNat ≤ 0x10000020) ∨
    (0x13000000 ≤ pa.toNat ∧ pa.toNat + len.toNat ≤ 0x13004200) ∨
    (0x15000000 ≤ pa.toNat ∧ pa.toNat + len.toNat ≤ 0x15000200)
  user : utemp.toNat ≤ va.toNat ∧ va.toNat + len.toNat ≤ utop.toNat

/-- A call that does anything but fail has its ranges inside. -/
def StaysInside (va pa len : Word) (m : KernM SysRet) (k : Kernel) : Prop :=
  (m k).Sat (fun r _ => r = .value 0 ∧ DevInside va pa len) (fun er k' => er = .inval ∧ k' = k)
    (fun _ => DevInside va pa len)

/-- The ranges that the tests let pass. -/
def devAccepted (va pa len : Word) : Bool := !isIllegalVaRange va len && isDevRange pa len

/-- Both calls make the same tests, and do not fail after them. -/
theorem staysInside_iff {body : KernM SysRet}
    (hbody : (body k).Sat (fun r _ => r = .value 0) (fun _ _ => False) (fun _ => True)) :
    StaysInside va pa len (if isIllegalVaRange va len = true then fail .inval
      else if (!isDevRange pa len) = true then fail .inval else body) k ↔
    (devAccepted va pa len = true → DevInside va pa len) := by
  unfold StaysInside devAccepted
  by_cases hva : isIllegalVaRange va len = true
  · rw [if_pos hva]
    exact iff_of_true ⟨rfl, rfl⟩ (by simp [hva])
  by_cases hdev : isDevRange pa len = true
  · have hno : ¬(!isDevRange pa len) = true := by simp [hdev]
    rw [if_neg hva, if_neg hno]
    rw [Bool.not_eq_true] at hva
    simp only [hva, hdev, Bool.not_false, Bool.and_self, true_imp_iff]
    constructor
    · intro hsat
      cases hout : body k with
      | ret r k' => rw [hout] at hsat; exact hsat.2
      | err er k' => rw [hout] at hbody; exact hbody.elim
      | halt p => rw [hout] at hsat; exact hsat
    · intro hin
      exact hbody.mono (fun _ _ hr => ⟨hr, hin⟩) (fun _ _ hf => hf.elim) (fun _ _ => hin)
  · have hyes : (!isDevRange pa len) = true := by simp [hdev]
    rw [if_neg hva, if_pos hyes]
    exact iff_of_true ⟨rfl, rfl⟩ (by simp [hdev])

theorem devCopy_sat {copy : EnvPtr → Kernel → KernM Unit} (hcopy : ∀ c k, Errless (copy c k))
    (k : Kernel) :
    ((do
      let c ← curenvPtr
      let k ← get
      copy c k
      pure (.value 0) : KernM SysRet) k).Sat (fun r _ => r = .value 0) (fun _ _ => False)
      (fun _ => True) := by
  refine sat_call (curenvPtr_spec k) ?_ (fun _ _ h => h) (fun _ h => h)
  rintro c _ ⟨rfl, -⟩
  rw [get_bind]
  exact sat_call (hcopy c k k) (fun _ _ _ => rfl) (fun _ _ h => h) (fun _ h => h)

theorem sysWriteDev_inside (io : Io) (va pa len : Word) (k : Kernel) :
    StaysInside va pa len (sysWriteDev io va pa len) k ↔
      (devAccepted va pa len = true → DevInside va pa len) :=
  staysInside_iff (devCopy_sat (fun _ _ => errless_memcpy _ _ _ _ _) k)

theorem sysReadDev_inside (io : Io) (va pa len : Word) (k : Kernel) :
    StaysInside va pa len (sysReadDev io va pa len) k ↔
      (devAccepted va pa len = true → DevInside va pa len) :=
  staysInside_iff (devCopy_sat (fun _ _ => errless_memcpy _ _ _ _ _) k)

/-- A sum that wraps and stays below the end of the last device passes the test. -/
theorem isDevRange_of_wrap (hwrap : 2 ^ 32 ≤ pa.toNat + len.toNat)
    (hlen : len.toNat ≤ utop.toNat) (hend : (pa + len).toNat ≤ 0x15000200) :
    isDevRange pa len = true := by
  have htop := toNat_utop
  simp only [isDevRange, Bool.or_eq_true, decide_eq_true_eq, BitVec.le_def, BitVec.ofNat_eq_ofNat,
    BitVec.toNat_ofNat]
  omega

/-- What the tests let pass is inside, unless the sum wraps. -/
theorem devInside_iff (h0 : len ≠ 0) :
    (devAccepted va pa len = true → DevInside va pa len) ↔
      (isIllegalVaRange va len = true ∨ pa.toNat + len.toNat < 2 ^ 32 ∨
        0x15000200 < (pa + len).toNat) := by
  have hlen0 : len.toNat ≠ 0 := fun hc => h0 (BitVec.eq_of_toNat_eq hc)
  by_cases hva : isIllegalVaRange va len = true
  · exact iff_of_true (by simp [devAccepted, hva]) (.inl hva)
  have hva' : isIllegalVaRange va len = false := by simpa using hva
  have huser := legalRange_word hva' hlen0
  have hlow : utemp.toNat ≤ va.toNat := by
    simp only [isIllegalVaRange, Bool.and_eq_false_iff, bne_eq_false_iff_eq, h0, false_or,
      Bool.or_eq_false_iff, decide_eq_false_iff_not] at hva'
    exact not_lt.mp hva'.1.2
  constructor
  · intro hin
    by_contra hno
    rw [not_or, not_or, not_lt, not_lt] at hno
    obtain ⟨-, hwrap, hend⟩ := hno
    have hdev := isDevRange_of_wrap hwrap (by omega) hend
    have hwin := (hin (by simp [devAccepted, hva', hdev])).window
    omega
  · rintro (hc | hwrap | hend) hacc
    · exact absurd hc hva
    · rw [devAccepted, Bool.and_eq_true] at hacc
      exact ⟨devRange_toNat hacc.2 hwrap, hlow, huser⟩
    · rw [devAccepted, Bool.and_eq_true] at hacc
      have hdev := hacc.2
      simp only [isDevRange, Bool.or_eq_true, decide_eq_true_eq, BitVec.le_def,
        BitVec.ofNat_eq_ofNat, BitVec.toNat_ofNat] at hdev
      omega

/-- **Device access stays inside the windows exactly if the end of the range does not wrap around to
below the end of the last device.** A call that returns 0 is then inside. -/
theorem device_window_iff (io : Io) (k : Kernel) (va pa len : Word) (h0 : len ≠ 0) :
    ((StaysInside va pa len (sysWriteDev io va pa len) k ∧
        StaysInside va pa len (sysReadDev io va pa len) k) ↔
      (isIllegalVaRange va len = true ∨ pa.toNat + len.toNat < 2 ^ 32 ∨
        0x15000200 < (pa + len).toNat)) ∧
    ((isIllegalVaRange va len = true ∨ pa.toNat + len.toNat < 2 ^ 32 ∨
        0x15000200 < (pa + len).toNat) →
      ∀ r k', (sysWriteDev io va pa len k = .ret r k' ∨ sysReadDev io va pa len k = .ret r k') →
        DevInside va pa len) := by
  have hboth : (StaysInside va pa len (sysWriteDev io va pa len) k ∧
      StaysInside va pa len (sysReadDev io va pa len) k) ↔
      (isIllegalVaRange va len = true ∨ pa.toNat + len.toNat < 2 ^ 32 ∨
        0x15000200 < (pa + len).toNat) := by
    rw [sysWriteDev_inside, sysReadDev_inside, and_self, devInside_iff h0]
  refine ⟨hboth, fun hcond r k' hret => ?_⟩
  obtain ⟨hwrite, hread⟩ := hboth.mpr hcond
  rcases hret with hret | hret
  · rw [StaysInside, hret] at hwrite
    exact hwrite.2
  · rw [StaysInside, hret] at hread
    exact hread.2

/-- Devices that deliver zeros. -/
def quietIo : Io := { scancharc := 0, device := fun _ => 0, junk := 0 }

theorem device_window_disk :
    StaysInside utext 0x13000000 4 (sysWriteDev quietIo utext 0x13000000 4) (pageInit smallBoot) ∧
    StaysInside utext 0x13000000 4 (sysReadDev quietIo utext 0x13000000 4) (pageInit smallBoot) :=
  (device_window_iff quietIo (pageInit smallBoot) utext 0x13000000 4 (by decide)).1.mpr
    (.inr (.inl (by decide)))

/-! ## A range that wraps around -/

/-- A machine with 512 megabytes. -/
def largeBoot : Boot :=
  { npage := 131072, freemem := 441, pagesPa := 57, envsPa := 1, mem := fun _ _ => 0
    npage_lt := by decide, pages_fit := by decide, envs_fit := by decide }

/-- The call returned 0. -/
def SysRet.isZero : SysRet → Bool
  | .value r => r == 0
  | .switched => false

theorem SysRet.isZero_iff {r : SysRet} : r.isZero = true ↔ r = .value 0 := by
  cases r <;> simp [isZero]

/-- **An env writes and reads the last 16 bytes of the memory**, which belong to the page directory
that all envs are made from, as if they were device registers. -/
theorem device_window_wraps : ∃ k k₁ k₂, Reach (fun _ _ => True) largeBoot k ∧
    sysWriteDev quietIo utext 0xfffffff0 16 k = .ret (.value 0) k₁ ∧
    sysReadDev quietIo utext 0xfffffff0 16 k = .ret (.value 0) k₂ ∧ k.basePgdir = 131071 ∧
    ¬DevInside utext 0xfffffff0 16 := by
  obtain ⟨k, hk, htest⟩ := exists_fitting largeBoot
    [.envCreate (some emptyImage) 1, .timer, .memAlloc 0 utext pteD]
    (fun k => k.basePgdir == 131071 &&
      (sysWriteDev quietIo utext 0xfffffff0 16 k).retAnd (fun r _ => r.isZero) &&
      (sysReadDev quietIo utext 0xfffffff0 16 k).retAnd fun r _ => r.isZero) (by decide +kernel)
  simp only [Bool.and_eq_true, beq_iff_eq] at htest
  obtain ⟨⟨hbase, hwrite⟩, hread⟩ := htest
  obtain ⟨r, k₁, hwrite, hr⟩ := Outcome.retAnd_eq_true.mp hwrite
  obtain ⟨r', k₂, hread, hr'⟩ := Outcome.retAnd_eq_true.mp hread
  obtain rfl := SysRet.isZero_iff.mp hr
  obtain rfl := SysRet.isZero_iff.mp hr'
  refine ⟨k, k₁, k₂, hk.reach, hwrite, hread, hbase, fun hin => ?_⟩
  have hwin := hin.window
  revert hwin
  decide

end Mos
