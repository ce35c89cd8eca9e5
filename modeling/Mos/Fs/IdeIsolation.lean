import Mos.Fs.Ide

/-!
# When the two servers' disk transfers do not disturb each other

The registers and the buffer of the device are shared. Between its store to a register and the start
of the operation that uses it, a server relies on the register; a writer relies on the buffer from its
store until the operation starts, and a reader from the start until it has copied the buffer. Nothing
in the code keeps the other server out meanwhile (`ide_read_stolen`). In a run in which no step
changes what the other server relies on, and in which every call's sectors lie below 4 GiB, the two
servers are isolated from each other (`ide_isolated`).
-/

namespace Mos

open Lib

/-! ## What a server relies on -/

/-- The server has selected its disk and not started the operation yet. -/
def IdeEnv.holdsId (env : IdeEnv) : Bool :=
  match env.pc with
  | .offset | .buffer | .start => true
  | _ => false

/-- The server has set the offset and not started the operation yet. -/
def IdeEnv.holdsOffset (env : IdeEnv) : Bool :=
  match env.pc with
  | .buffer | .start => true
  | _ => false

/-- The buffer holds data of the server. -/
def IdeEnv.holdsBuffer (env : IdeEnv) : Bool :=
  match env.call.op, env.pc with
  | .read, .status | .read, .fetch | .write, .start => true
  | _, _ => false

/-- The sectors of the call lie below 4 GiB, where the offset register reaches. -/
def IdeCall.Fits (c : IdeCall) : Prop :=
  c.nsecs.toNat = 0 ∨ (c.secno.toNat + c.nsecs.toNat) * by2sect < 2 ^ 32

/-- The next system call of `env` does not change what `other` relies on. -/
def IdeEnv.Respects (env other : IdeEnv) (dev : IdeDev) : Prop :=
  (env.pc = .id → other.holdsId = false) ∧
  (env.pc = .offset → other.holdsOffset = true → env.call.begin + env.off = dev.offset) ∧
  (env.pc = .buffer → other.holdsBuffer = true →
    ∀ j < by2sect, readSector env.call.src env.off.toNat j = dev.buffer j) ∧
  (env.pc = .start → env.call.op = .read → other.holdsBuffer = true →
    ∀ j < by2sect, readSector (dev.disks dev.id) dev.offset.toNat j = dev.buffer j)

/-- The condition on a step. -/
def IdeSys.StepOk (s : IdeSys) : IdeAct → Prop
  | .call _ c => c.Fits
  | .step srv => (s.env srv).Respects (s.env srv.other) s.dev

instance (c : IdeCall) : Decidable c.Fits := inferInstanceAs (Decidable (_ ∨ _))

instance (env other : IdeEnv) (dev : IdeDev) : Decidable (env.Respects other dev) :=
  inferInstanceAs (Decidable (_ ∧ _ ∧ _ ∧ _))

instance (s : IdeSys) : DecidablePred s.StepOk
  | .call _ c => inferInstanceAs (Decidable c.Fits)
  | .step srv => inferInstanceAs (Decidable ((s.env srv).Respects (s.env srv.other) s.dev))

/-! ## Positions -/

section Position

variable {c : IdeCall} {off : Word} {k : Nat}

/-- The register gets the byte address of sector `k` of the call. -/
theorem toNat_begin_add (hfits : c.Fits) (hoff : off.toNat = k * by2sect)
    (hk : k < c.nsecs.toNat) :
    (c.begin + off).toNat = c.secno.toNat * by2sect + k * by2sect := by
  rcases hfits with hzero | hfits
  · omega
  · simp only [by2sect] at hfits hoff ⊢
    simp only [IdeCall.begin, BitVec.toNat_add, BitVec.toNat_mul, BitVec.toNat_ofNat, hoff, by2sect]
    omega

/-- The loop runs as long as there are sectors left. -/
theorem lt_end_iff (hfits : c.Fits) (hoff : off.toNat = k * by2sect)
    (hk : k ≤ c.nsecs.toNat) : c.begin + off < c.end' ↔ k < c.nsecs.toNat := by
  rw [BitVec.lt_def]
  rcases hfits with hzero | hfits
  · have hoff0 : off = 0 := by
      apply BitVec.eq_of_toNat_eq
      rw [hoff]
      simp [show k = 0 by omega]
    have hnsecs : c.nsecs = 0 := BitVec.eq_of_toNat_eq hzero
    simp [IdeCall.end', hoff0, hnsecs]
  · simp only [by2sect] at hfits hoff
    simp only [IdeCall.end', IdeCall.begin, BitVec.toNat_add, BitVec.toNat_mul, BitVec.toNat_ofNat,
      hoff, by2sect]
    omega

theorem toNat_off_add (hfits : c.Fits) (hoff : off.toNat = k * by2sect)
    (hk : k < c.nsecs.toNat) :
    (off + BitVec.ofNat 32 by2sect).toNat = (k + 1) * by2sect := by
  rcases hfits with hzero | hfits
  · omega
  · simp only [by2sect] at hfits hoff ⊢
    simp only [BitVec.toNat_add, BitVec.toNat_ofNat, hoff]
    omega

end Position

/-! ## The invariant -/

/-- What the buffer holds when it holds data of the server. -/
def IdeEnv.transfer (env : IdeEnv) (disk : Nat → Byte) : Nat → Byte :=
  match env.call.op with
  | .read => readSector disk (env.call.secno.toNat * by2sect + env.off.toNat)
  | .write => readSector env.call.src env.off.toNat

/-- How many bytes of the call have been written to the disk. -/
def IdeEnv.written (env : IdeEnv) : Nat :=
  env.off.toNat + if env.pc = .status then by2sect else 0

/-- The part of the call that is done. -/
def IdeEnv.Data (env : IdeEnv) (disk before : Nat → Byte) : Prop :=
  match env.call.op with
  | .read => disk = before ∧
      ∀ a < env.off.toNat, env.dst a = disk (env.call.secno.toNat * by2sect + a)
  | .write =>
      (∀ a, (a < env.call.secno.toNat * by2sect ∨
        (env.call.secno.toNat + env.call.nsecs.toNat) * by2sect ≤ a) → disk a = before a) ∧
      ∀ a < env.written, disk (env.call.secno.toNat * by2sect + a) = env.call.src a

/-- A server that works on disk `d`, which held `before` when its call began. -/
structure IdeEnv.Ok (d : Word) (dev : IdeDev) (before : Nat → Byte) (env : IdeEnv) : Prop where
  fits : env.call.Fits
  alive : env.pc ≠ .panicked
  pos : ∃ k, env.off.toNat = k * by2sect ∧ k ≤ env.call.nsecs.toNat ∧
    (env.pc = .ret ↔ k = env.call.nsecs.toNat)
  id : env.holdsId = true → dev.id = d
  offset : env.holdsOffset = true → dev.offset = env.call.begin + env.off
  status : env.pc = .status → dev.status ≠ 0
  buffer : env.holdsBuffer = true → ∀ j < by2sect, dev.buffer j = env.transfer (dev.disks d) j
  data : env.Data (dev.disks d) before

section Ok

variable {d : Word} {dev dev' : IdeDev} {before : Nat → Byte} {env env' other : IdeEnv}

/-- A server is not disturbed by changes to what it does not rely on. -/
theorem IdeEnv.Ok.frame (h : env.Ok d dev before)
    (hid : env.holdsId = true → dev'.id = dev.id)
    (hoffset : env.holdsOffset = true → dev'.offset = dev.offset)
    (hstatus : dev.status ≠ 0 → dev'.status ≠ 0)
    (hbuffer : env.holdsBuffer = true → ∀ j < by2sect, dev'.buffer j = dev.buffer j)
    (hdisk : dev'.disks d = dev.disks d) : env.Ok d dev' before where
  fits := h.fits
  alive := h.alive
  pos := h.pos
  id hheld := (hid hheld).trans (h.id hheld)
  offset hheld := (hoffset hheld).trans (h.offset hheld)
  status hpc := hstatus (h.status hpc)
  buffer hheld j hj := by
    rw [hbuffer hheld j hj, hdisk]
    exact h.buffer hheld j hj
  data := by
    rw [hdisk]
    exact h.data

/-! ## A step of the server itself -/

/-- Back at the head of the loop, with `k` sectors done. -/
theorem ok_head {k : Nat} (hfits : env.call.Fits) (hoff : env.off.toNat = k * by2sect)
    (hk : k ≤ env.call.nsecs.toNat)
    (hdata : IdeEnv.Data { env with pc := .ret } (dev.disks d) before) :
    env.head.Ok d dev before := by
  unfold IdeEnv.head
  have hlt := lt_end_iff hfits hoff hk
  split
  next hmore =>
    have hne : k ≠ env.call.nsecs.toNat := Nat.ne_of_lt (hlt.mp hmore)
    refine ⟨hfits, by simp, ⟨k, hoff, hk, by simp [hne]⟩, by simp [IdeEnv.holdsId],
      by simp [IdeEnv.holdsOffset], by simp, ?_, hdata⟩
    cases hop : env.call.op <;> simp [IdeEnv.holdsBuffer, hop]
  next hdone =>
    have heq : k = env.call.nsecs.toNat := by
      rw [hlt] at hdone
      omega
    refine ⟨hfits, by simp, ⟨k, hoff, hk, by simp [heq]⟩, by simp [IdeEnv.holdsId],
      by simp [IdeEnv.holdsOffset], by simp, ?_, hdata⟩
    cases hop : env.call.op <;> simp [IdeEnv.holdsBuffer, hop]

/-- The driver's accesses are inside the device, so that `panic_on` lets them pass. -/
theorem accessDev_eq (env : IdeEnv) (dev : IdeDev) (next : IdeEnv × IdeDev) :
    accessDev env dev devDiskId 4 next = next ∧ accessDev env dev devDiskOffset 4 next = next ∧
    accessDev env dev devDiskStartOperation 4 next = next ∧
    accessDev env dev devDiskStatus 4 next = next ∧
    accessDev env dev devDiskBuffer (BitVec.ofNat 32 by2sect) next = next :=
  ⟨rfl, rfl, rfl, rfl, rfl⟩

/-- A sector in the middle of the destination: what was there before it, and the new bytes. -/
theorem writeSector_eq {dst disk buffer : Nat → Byte} {n b : Nat}
    (hdst : ∀ a < n, dst a = disk (b + a)) (hbuf : ∀ j < by2sect, buffer j = disk (b + n + j)) :
    ∀ a < n + by2sect, writeSector dst n buffer a = disk (b + a) := by
  intro a ha
  unfold writeSector
  split
  next hin =>
    rw [hbuf (a - n) (by omega)]
    congr 1
    omega
  next hout => exact hdst a (by omega)

/-- A step inside the loop's body. -/
theorem IdeEnv.Ok.move (h : env.Ok d dev before) (hpc : env.pc ≠ .ret) (pc : IdePc)
    (hret : pc ≠ .ret) (halive : pc ≠ .panicked)
    (hid : IdeEnv.holdsId { env with pc := pc } = true → dev'.id = d)
    (hoffset : IdeEnv.holdsOffset { env with pc := pc } = true →
      dev'.offset = env.call.begin + env.off)
    (hstatus : pc = .status → dev'.status ≠ 0)
    (hbuffer : IdeEnv.holdsBuffer { env with pc := pc } = true →
      ∀ j < by2sect, dev'.buffer j = env.transfer (dev'.disks d) j)
    (hdata : IdeEnv.Data { env with pc := pc } (dev'.disks d) before) :
    IdeEnv.Ok d dev' before { env with pc := pc } := by
  obtain ⟨k, hoff, hk, hend⟩ := h.pos
  refine ⟨h.fits, halive, ⟨k, hoff, hk, ?_⟩, hid, hoffset, hstatus, hbuffer, hdata⟩
  constructor
  · exact fun hp => absurd hp hret
  · exact fun hp => absurd (hend.mpr hp) hpc

theorem ok_ideRead (h : env.Ok d dev before) (hop : env.call.op = .read)
    (hstep : ideRead d env dev = some (env', dev')) : env'.Ok d dev' before := by
  obtain ⟨k, hoff, hk, hend⟩ := h.pos
  obtain ⟨hsame, hdone⟩ : dev.disks d = before ∧
      ∀ a < env.off.toNat, env.dst a = dev.disks d (env.call.secno.toNat * by2sect + a) := by
    have hdata := h.data
    rwa [IdeEnv.Data, hop] at hdata
  have hdata : ∀ pc, IdeEnv.Data { env with pc := pc } (dev.disks d) before := by
    intro pc
    simp only [IdeEnv.Data, hop]
    exact ⟨hsame, hdone⟩
  have haccess := accessDev_eq env dev
  cases hpc : env.pc with
  | id =>
    simp only [ideRead, hpc, haccess] at hstep
    cases hstep
    exact h.move (by simp [hpc]) .offset (by simp) (by simp) (fun _ => rfl)
      (by simp [IdeEnv.holdsOffset]) (by simp) (by simp [IdeEnv.holdsBuffer, hop]) (hdata _)
  | offset =>
    simp only [ideRead, hpc, haccess] at hstep
    cases hstep
    exact h.move (by simp [hpc]) .start (by simp) (by simp)
      (fun _ => h.id (by simp [IdeEnv.holdsId, hpc])) (fun _ => rfl) (by simp)
      (by simp [IdeEnv.holdsBuffer, hop]) (hdata _)
  | start =>
    simp only [ideRead, hpc, haccess] at hstep
    cases hstep
    have hid := h.id (by simp [IdeEnv.holdsId, hpc])
    have hoffset := h.offset (by simp [IdeEnv.holdsOffset, hpc])
    have hlt : k < env.call.nsecs.toNat := by
      have : k ≠ env.call.nsecs.toNat := by simpa [hpc] using hend
      omega
    refine h.move (by simp [hpc]) .status (by simp) (by simp) (by simp [IdeEnv.holdsId])
      (by simp [IdeEnv.holdsOffset]) ?_ ?_ (hdata _)
    · intro _
      simp [IdeDev.startOperation]
    · intro _ j _
      simp only [IdeDev.startOperation, IdeEnv.transfer, hop, hid, hoffset,
        toNat_begin_add h.fits hoff hlt, hoff]
  | status =>
    have hstatus := h.status hpc
    simp only [ideRead, hpc, haccess, if_neg hstatus] at hstep
    cases hstep
    exact h.move (by simp [hpc]) .fetch (by simp) (by simp) (by simp [IdeEnv.holdsId])
      (by simp [IdeEnv.holdsOffset]) (by simp)
      (fun _ => h.buffer (by simp [IdeEnv.holdsBuffer, hop, hpc])) (hdata _)
  | fetch =>
    have hbuffer := h.buffer (by simp [IdeEnv.holdsBuffer, hop, hpc])
    have hlt : k < env.call.nsecs.toNat := by
      have : k ≠ env.call.nsecs.toNat := by simpa [hpc] using hend
      omega
    have hnext := toNat_off_add h.fits hoff hlt
    simp only [ideRead, hpc, haccess] at hstep
    cases hstep
    refine ok_head h.fits hnext hlt ?_
    simp only [IdeEnv.Data, hop]
    refine ⟨hsame, ?_⟩
    rw [hnext, Nat.succ_mul, ← hoff]
    refine writeSector_eq hdone fun j hj => ?_
    rw [hbuffer j hj, IdeEnv.transfer, hop]
    rfl
  | _ => simp [ideRead, hpc] at hstep

/-- A sector written behind those that are done. -/
theorem writeSector_src {disk src : Nat → Byte} {n b : Nat}
    (hdone : ∀ a < n, disk (b + a) = src a) {buffer : Nat → Byte}
    (hbuf : ∀ j < by2sect, buffer j = src (n + j)) :
    ∀ a < n + by2sect, writeSector disk (b + n) buffer (b + a) = src a := by
  intro a ha
  unfold writeSector
  split
  next hin =>
    rw [hbuf (b + a - (b + n)) (by omega)]
    congr 1
    omega
  next hout => exact hdone a (by omega)

theorem ok_ideWrite (h : env.Ok d dev before) (hop : env.call.op = .write)
    (hstep : ideWrite d env dev = some (env', dev')) : env'.Ok d dev' before := by
  obtain ⟨k, hoff, hk, hend⟩ := h.pos
  have hall := h.data
  simp only [IdeEnv.Data, hop, IdeEnv.written] at hall
  obtain ⟨hsame, hdone⟩ := hall
  have haccess := accessDev_eq env dev
  have hlt : env.pc ≠ .ret → k < env.call.nsecs.toNat := by
    intro hpc
    have : k ≠ env.call.nsecs.toNat := fun heq => hpc (hend.mpr heq)
    omega
  -- as long as the operation is not started, the bytes written are those before the offset
  have hdata : env.pc ≠ .status → ∀ pc, pc ≠ .status →
      IdeEnv.Data { env with pc := pc } (dev.disks d) before := by
    intro hpc pc hpc'
    simp only [IdeEnv.Data, hop, IdeEnv.written, if_neg hpc']
    rw [if_neg hpc] at hdone
    exact ⟨hsame, hdone⟩
  cases hpc : env.pc with
  | id =>
    simp only [ideWrite, hpc, haccess] at hstep
    cases hstep
    exact h.move (by simp [hpc]) .offset (by simp) (by simp) (fun _ => rfl)
      (by simp [IdeEnv.holdsOffset]) (by simp) (by simp [IdeEnv.holdsBuffer, hop])
      (hdata (by simp [hpc]) _ (by simp))
  | offset =>
    simp only [ideWrite, hpc, haccess] at hstep
    cases hstep
    exact h.move (by simp [hpc]) .buffer (by simp) (by simp)
      (fun _ => h.id (by simp [IdeEnv.holdsId, hpc])) (fun _ => rfl) (by simp)
      (by simp [IdeEnv.holdsBuffer, hop]) (hdata (by simp [hpc]) _ (by simp))
  | buffer =>
    simp only [ideWrite, hpc, haccess] at hstep
    cases hstep
    refine h.move (by simp [hpc]) .start (by simp) (by simp)
      (fun _ => h.id (by simp [IdeEnv.holdsId, hpc]))
      (fun _ => h.offset (by simp [IdeEnv.holdsOffset, hpc])) (by simp) ?_
      (hdata (by simp [hpc]) _ (by simp))
    intro _ j _
    simp only [IdeEnv.transfer, hop]
  | start =>
    simp only [ideWrite, hpc, haccess] at hstep
    cases hstep
    have hid := h.id (by simp [IdeEnv.holdsId, hpc])
    have hoffset := h.offset (by simp [IdeEnv.holdsOffset, hpc])
    have hbuffer := h.buffer (by simp [IdeEnv.holdsBuffer, hop, hpc])
    have hmore := hlt (by simp [hpc])
    have haddr := toNat_begin_add h.fits hoff hmore
    rw [if_neg (by simp [hpc]), Nat.add_zero] at hdone
    simp only [IdeEnv.transfer, hop] at hbuffer
    refine h.move (by simp [hpc]) .status (by simp) (by simp) (by simp [IdeEnv.holdsId])
      (by simp [IdeEnv.holdsOffset]) ?_ (by simp [IdeEnv.holdsBuffer, hop]) ?_
    · intro _
      simp [IdeDev.startOperation]
    · simp only [IdeEnv.Data, hop, IdeEnv.written, IdeDev.startOperation, hid,
        Function.update_self, hoffset, haddr, ← hoff]
      constructor
      · intro a ha
        rw [← hsame a ha]
        unfold writeSector
        rw [if_neg]
        simp only [by2sect] at *
        omega
      · rw [if_pos trivial]
        exact writeSector_src hdone hbuffer
  | status =>
    have hstatus := h.status hpc
    have hmore := hlt (by simp [hpc])
    have hnext := toNat_off_add h.fits hoff hmore
    simp only [ideWrite, hpc, haccess, if_neg hstatus] at hstep
    cases hstep
    refine ok_head h.fits hnext hmore ?_
    simp only [IdeEnv.Data, hop, IdeEnv.written]
    refine ⟨hsame, ?_⟩
    rw [if_pos hpc, hoff, ← Nat.succ_mul] at hdone
    rw [hnext, if_neg (by simp), Nat.add_zero]
    exact hdone
  | _ => simp [ideWrite, hpc] at hstep

theorem ok_ideStep (h : env.Ok d dev before) (hstep : ideStep d env dev = some (env', dev')) :
    env'.Ok d dev' before := by
  unfold ideStep at hstep
  split at hstep
  next hop => exact ok_ideRead h hop hstep
  next hop => exact ok_ideWrite h hop hstep

/-! ## Every call comes to its end -/

/-- How many system calls of the present sector are made. -/
def IdeEnv.stage (env : IdeEnv) : Nat :=
  match env.call.op, env.pc with
  | _, .offset => 1
  | .read, .start | .write, .buffer => 2
  | .read, .status | .write, .start => 3
  | .read, .fetch | .write, .status => 4
  | _, _ => 0

/-- How many system calls the call still has to make. -/
def IdeEnv.left (env : IdeEnv) : Nat :=
  5 * (env.call.nsecs.toNat - env.off.toNat / by2sect) - env.stage

theorem stage_head (env : IdeEnv) : env.head.stage = 0 := by
  by_cases hmore : env.call.begin + env.off < env.call.end' <;> cases hop : env.call.op <;>
    simp [IdeEnv.head, IdeEnv.stage, hmore, hop]

/-- Each system call brings the end of the call nearer, whatever the device holds. -/
theorem left_of_ideStep (h : env.Ok d dev before)
    (hstep : ideStep d env dev = some (env', dev')) : env'.left + 1 = env.left := by
  obtain ⟨k, hoff, hk, hend⟩ := h.pos
  have haccess := accessDev_eq env dev
  have hdiv : env.off.toNat / by2sect = k := by
    rw [hoff]
    exact Nat.mul_div_cancel k (by decide)
  have hlt : env.pc ≠ .ret → k < env.call.nsecs.toNat := by
    intro hpc
    have : k ≠ env.call.nsecs.toNat := fun heq => hpc (hend.mpr heq)
    omega
  -- the last system call of a sector
  have hnext : ∀ env₁ : IdeEnv, env.pc ≠ .ret → env₁.call = env.call →
      env₁.off = env.off + BitVec.ofNat 32 by2sect → env.stage = 4 →
      env₁.head.left + 1 = env.left := by
    intro env₁ hpc hcall hoff₁ hstage
    have hmore := hlt hpc
    have hdiv₁ : env₁.off.toNat / by2sect = k + 1 := by
      rw [hoff₁, toNat_off_add h.fits hoff hmore]
      exact Nat.mul_div_cancel (k + 1) (by decide)
    have hleft : env₁.head.left = 5 * (env.call.nsecs.toNat - (k + 1)) := by
      rw [IdeEnv.left, stage_head]
      simp only [IdeEnv.head, hcall, hdiv₁, Nat.sub_zero]
    rw [hleft, IdeEnv.left, hdiv, hstage]
    omega
  have hstatus := h.status
  unfold ideStep at hstep
  cases hpc : env.pc <;> cases hop : env.call.op <;>
    simp only [hop, ideRead, ideWrite, hpc, haccess, Option.some.injEq, Prod.mk.injEq,
      reduceCtorEq] at hstep
  case status.write =>
    rw [if_neg (hstatus hpc)] at hstep
    rw [← hstep.1]
    exact hnext _ (by simp [hpc]) rfl rfl (by simp [IdeEnv.stage, hop, hpc])
  case fetch.read =>
    rw [← hstep.1]
    exact hnext _ (by simp [hpc]) rfl rfl (by simp [IdeEnv.stage, hop, hpc])
  case status.read =>
    rw [if_neg (hstatus hpc)] at hstep
    have := hlt (by simp [hpc])
    rw [← hstep.1]
    simp only [IdeEnv.left, IdeEnv.stage, hop, hpc, hdiv]
    omega
  all_goals
    have := hlt (by simp [hpc])
    rw [← hstep.1]
    simp only [IdeEnv.left, IdeEnv.stage, hop, hpc, hdiv]
    omega

/-! ## A step of the other server -/

/-- All that a system call of the driver can do to the device. -/
theorem dev_of_ideStep (hstep : ideStep d env dev = some (env', dev')) :
    (env.pc = .id ∧ dev' = { dev with id := d }) ∨
    (env.pc = .offset ∧ dev' = { dev with offset := env.call.begin + env.off }) ∨
    (env.pc = .buffer ∧ dev' = { dev with buffer := readSector env.call.src env.off.toNat }) ∨
    (env.pc = .start ∧ dev' = dev.startOperation env.call.op) ∨ dev' = dev := by
  have haccess := accessDev_eq env dev
  unfold ideStep at hstep
  cases hpc : env.pc <;> cases hop : env.call.op <;>
    simp only [hop, ideRead, ideWrite, hpc, haccess, Option.some.injEq, Prod.mk.injEq,
      reduceCtorEq] at hstep <;> simp [← hstep.2]

/-- A step that respects the other server leaves it undisturbed. It touches its own disk only, because
the register still selects it. -/
theorem ok_of_respects {d' : Word} {before' : Nat → Byte} (hne : d' ≠ d)
    (h : env.Ok d dev before) (hother : other.Ok d' dev before') (hok : env.Respects other dev)
    (hstep : ideStep d env dev = some (env', dev')) : other.Ok d' dev' before' := by
  obtain ⟨hid, hoffset, hbuffer, hstart⟩ := hok
  rcases dev_of_ideStep hstep with ⟨hpc, rfl⟩ | ⟨hpc, rfl⟩ | ⟨hpc, rfl⟩ | ⟨hpc, rfl⟩ | rfl
  · exact hother.frame (by simp [hid hpc]) (fun _ => rfl) id (fun _ _ _ => rfl) rfl
  · exact hother.frame (fun _ => rfl) (hoffset hpc) id (fun _ _ _ => rfl) rfl
  · exact hother.frame (fun _ => rfl) (fun _ => rfl) id (hbuffer hpc) rfl
  · have hdisk := h.id (by simp [IdeEnv.holdsId, hpc])
    cases hop : env.call.op with
    | read =>
      refine hother.frame (fun _ => rfl) (fun _ => rfl) ?_ (hstart hpc hop) rfl
      simp [IdeDev.startOperation]
    | write =>
      refine hother.frame (fun _ => rfl) (fun _ => rfl) ?_ (fun _ _ _ => rfl) ?_
      · simp [IdeDev.startOperation]
      · simp only [IdeDev.startOperation]
        rw [Function.update_of_ne (by rw [hdisk]; exact hne)]
  · exact hother

end Ok

/-! ## Runs -/

theorem diskno_other_ne (srv : FileServer) : srv.other.diskno ≠ srv.diskno := by
  cases srv <;> decide

theorem eq_or_other (srv e : FileServer) : e = srv ∨ e = srv.other := by
  cases srv <;> cases e <;> decide

theorem other_ne (srv : FileServer) : srv.other ≠ srv := by
  cases srv <;> decide

/-- Both servers are as they should be. -/
def IdeSys.Inv (s : IdeSys) : Prop :=
  ∀ srv, (s.env srv).Ok srv.diskno s.dev (s.before srv)

theorem ide_inv_step {s t : IdeSys} {a : IdeAct} (h : s.Inv)
    (hstep : guarded IdeSys.StepOk IdeSys.step s a = some t) : t.Inv := by
  obtain ⟨hok, hstep⟩ := of_guarded hstep
  cases a with
  | call srv c =>
    simp only [IdeSys.step] at hstep
    split at hstep
    next =>
      cases hstep
      intro e
      by_cases he : e = srv
      · subst he
        simp only [Function.update_self]
        refine ok_head (k := 0) hok (by simp) (Nat.zero_le _) ?_
        cases hop : c.op <;> simp [IdeEnv.Data, hop, IdeEnv.written, IdeSys.disk]
      · simp only [Function.update_of_ne he]
        exact h e
    next => cases hstep
  | step srv =>
    obtain ⟨⟨env, dev⟩, henv, rfl⟩ := Option.map_eq_some_iff.mp hstep
    intro e
    rcases eq_or_other srv e with rfl | rfl
    · simp only [Function.update_self]
      exact ok_ideStep (h e) henv
    · simp only [Function.update_of_ne (other_ne srv)]
      exact ok_of_respects (diskno_other_ne srv) (h srv) (h srv.other) hok henv

theorem ide_inv_start (dev : IdeDev) : (IdeSys.start dev).Inv := by
  intro srv
  refine ⟨.inl rfl, by simp [IdeSys.start], ⟨0, rfl, Nat.le_refl _, by simp [IdeSys.start]⟩,
    by simp [IdeEnv.holdsId, IdeSys.start], by simp [IdeEnv.holdsOffset, IdeSys.start],
    by simp [IdeSys.start], by simp [IdeEnv.holdsBuffer, IdeSys.start], ?_⟩
  simp [IdeEnv.Data, IdeSys.start]

/-- The invariant at the end of a call says that all its sectors are done. -/
theorem isolated_of_ok {s : IdeSys} {srv : FileServer}
    (h : (s.env srv).Ok srv.diskno s.dev (s.before srv)) : s.Isolated srv := by
  refine ⟨h.alive, ?_⟩
  obtain ⟨k, hoff, -, hend⟩ := h.pos
  have hlen : (s.env srv).pc = .ret →
      (s.env srv).off.toNat = (s.env srv).call.nsecs.toNat * by2sect := by
    intro hpc
    rw [hoff, hend.mp hpc]
  have hdata := h.data
  unfold IdeEnv.Data at hdata
  split
  next hop =>
    rw [hop] at hdata
    refine ⟨hdata.1, fun hpc a ha => hdata.2 a ?_⟩
    rw [hlen hpc]
    exact ha
  next hop =>
    rw [hop] at hdata
    refine ⟨hdata.1, fun hpc a ha => hdata.2 a ?_⟩
    rw [IdeEnv.written, hlen hpc, if_neg (by simp [hpc]), Nat.add_zero]
    exact ha

/-- **The servers are isolated** in every run in which each call stays below 4 GiB and no step of a
server changes what the other one relies on. -/
theorem ide_isolated (dev : IdeDev) (acts : List IdeAct) (s : IdeSys)
    (hrun : run (guarded IdeSys.StepOk IdeSys.step) (.start dev) acts = some s)
    (srv : FileServer) : s.Isolated srv :=
  isolated_of_ok (run_invariant (fun _ _ _ => ide_inv_step) (ide_inv_start dev) hrun srv)

/-- A device whose two disks are told apart by their bytes. -/
def twoDisks : IdeDev :=
  { id := 0, offset := 0, status := 0, buffer := fun _ => 0,
    disks := fun d _ => if d = 0 then 0 else 1 }

/-- A call for the first sector. -/
def firstSector (op : DiskOp) : IdeCall := { op := op, secno := 0, nsecs := 1, src := fun _ => 7 }

/-- Both servers transfer a sector, and the second one selects its disk and sets its offset while the
first one waits for its operation. -/
theorem ide_isolated_overlapping : ∃ acts s,
    run (guarded IdeSys.StepOk IdeSys.step) (.start twoDisks) acts = some s ∧
    ((s.env .serv).pc = .ret ∧ (s.env .fatserv).pc = .ret) ∧ ∀ srv, s.Isolated srv := by
  obtain ⟨s, hrun, htest⟩ := exists_of_run (guarded IdeSys.StepOk IdeSys.step) (.start twoDisks)
    [.call .serv (firstSector .read), .step .serv, .step .serv, .step .serv,
      .call .fatserv (firstSector .write), .step .fatserv, .step .fatserv,
      .step .serv, .step .serv, .step .fatserv, .step .fatserv, .step .fatserv]
    (fun s => decide ((s.env .serv).pc = .ret ∧ (s.env .fatserv).pc = .ret)) (by decide)
  exact ⟨_, s, hrun, of_decide_eq_true htest, ide_isolated twoDisks _ s hrun⟩

/-- **The servers are not isolated in general.** The second server selects its disk after the first
one has selected disk 0 and before it starts its read: the first one reads disk 1. -/
theorem ide_read_stolen : ¬∀ (dev : IdeDev) (acts : List IdeAct) (s : IdeSys),
    run IdeSys.step (.start dev) acts = some s → ∀ srv, s.Isolated srv := by
  intro hall
  obtain ⟨s, hrun, htest⟩ := exists_of_run IdeSys.step (.start twoDisks)
    [.call .serv (firstSector .read), .step .serv, .step .serv,
      .call .fatserv (firstSector .read), .step .fatserv, .step .serv, .step .serv, .step .serv]
    (fun s => decide ((s.env .serv).pc = .ret ∧ (s.env .serv).call.op = .read ∧
      (s.env .serv).call.nsecs = 1 ∧ (s.env .serv).call.secno = 0 ∧
      (s.env .serv).dst 0 = 1 ∧ s.disk .serv 0 = 0)) (by decide)
  obtain ⟨hpc, hop, hnsecs, hsecno, hdst, hdisk⟩ := of_decide_eq_true htest
  have hiso := (hall twoDisks _ s hrun .serv).2
  rw [hop] at hiso
  have hzero := hiso.2 hpc 0 (by rw [hnsecs]; decide)
  rw [hdst, hsecno] at hzero
  simp [hdisk] at hzero

end Mos
