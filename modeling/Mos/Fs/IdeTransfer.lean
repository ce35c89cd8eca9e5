import Mos.Fs.IdeIsolation

/-!
# Transfers one after the other

One client calls `ide_read` and `ide_write` on any disks. Each call comes to its end, and the disks are as if the
call were one access to a flat map of bytes.
-/

namespace Mos

open Function

/-! ## Calls -/

/-- A call for the disk `diskno`; `dst` is the memory that `ide_read` is given. -/
structure Transfer where
  diskno : Word
  call : IdeCall
  dst : Nat → Byte

/-- The client as it enters the loop. -/
def Transfer.enter (x : Transfer) : IdeEnv := IdeEnv.head { call := x.call, off := 0, pc := .ret, dst := x.dst }

/-- The system calls of one call, one after the other: how many sectors are transferred, and what the client and
the device are like at the end. -/
def ideRun (diskno : Word) : Nat → IdeEnv → IdeDev → Nat × IdeEnv × IdeDev
  | 0, env, dev => (0, env, dev)
  | n + 1, env, dev =>
    match ideStep diskno env dev with
    | none => (0, env, dev)
    | some (env', dev') =>
      let (sectors, last) := ideRun diskno n env' dev'
      (sectors + if env.pc = .start then 1 else 0, last)

/-- A sequence of calls: the sectors and the client at the end of each, and the device at the very end. -/
def ideRuns (fuel : Nat) : List Transfer → IdeDev → List (Nat × IdeEnv) × IdeDev
  | [], dev => ([], dev)
  | x :: xs, dev =>
    let (sectors, env, dev') := ideRun x.diskno fuel x.enter dev
    let (results, last) := ideRuns fuel xs dev'
    ((sectors, env) :: results, last)

/-! ## The flat map -/

/-- Where the bytes of a call begin on the disk, and how many they are. -/
def IdeCall.base (c : IdeCall) : Nat := c.secno.toNat * by2sect
def IdeCall.bytes (c : IdeCall) : Nat := c.nsecs.toNat * by2sect

/-- What a call makes of the disks. -/
def Transfer.apply (disks : Word → Nat → Byte) (x : Transfer) : Word → Nat → Byte :=
  match x.call.op with
  | .read => disks
  | .write => update disks x.diskno fun a =>
      if x.call.base ≤ a ∧ a < x.call.base + x.call.bytes then x.call.src (a - x.call.base)
      else disks x.diskno a

/-- What a call delivers: `ide_read` stores the bytes of the sectors, and nothing else. -/
def Transfer.Delivered (disks : Word → Nat → Byte) (x : Transfer) (r : Nat × IdeEnv) : Prop :=
  r.1 = x.call.nsecs.toNat ∧ r.2.pc = .ret ∧
    r.2.dst = match x.call.op with
      | .read => fun a => if a < x.call.bytes then disks x.diskno (x.call.base + a) else x.dst a
      | .write => x.dst

/-! ## One call -/

section Call

variable {d : Word} {dev dev' : IdeDev} {before : Nat → Byte} {env env' : IdeEnv} {x : Transfer}

/-- How many sectors are still to be transferred. -/
def IdeEnv.todo (env : IdeEnv) : Nat :=
  env.call.nsecs.toNat - env.off.toNat / by2sect -
    match env.pc with
    | .status | .fetch => 1
    | _ => 0

/-- Each of the two functions has its own system calls. -/
def IdeEnv.OnTrack (env : IdeEnv) : Prop :=
  match env.call.op with
  | .read => env.pc ≠ .buffer
  | .write => env.pc ≠ .fetch

/-- What a call leaves alone: other disks, and its destination behind the last sector. -/
structure Transfer.Keeps (x : Transfer) (disks : Word → Nat → Byte) (env : IdeEnv) (dev : IdeDev) : Prop where
  call : env.call = x.call
  onTrack : env.OnTrack
  disks : ∀ d ≠ x.diskno, dev.disks d = disks d
  dst : ∀ a, (x.call.op = .read → x.call.bytes ≤ a) → env.dst a = x.dst a

theorem IdeEnv.head_onTrack (env : IdeEnv) : env.head.OnTrack := by
  have hpc : env.head.pc = .id ∨ env.head.pc = .ret := by
    unfold head
    dsimp only
    split
    · exact .inl rfl
    · exact .inr rfl
  unfold OnTrack
  rcases hpc with hpc | hpc <;> rw [hpc] <;> split <;> simp

theorem Transfer.keeps_enter (x : Transfer) (dev : IdeDev) : x.Keeps dev.disks x.enter dev :=
  ⟨rfl, IdeEnv.head_onTrack _, fun _ _ => rfl, fun _ _ => rfl⟩

/-- Before the first system call. -/
theorem Transfer.ok_enter (hfits : x.call.Fits) : x.enter.Ok x.diskno dev (dev.disks x.diskno) := by
  refine ok_head (k := 0) hfits (by simp) (Nat.zero_le _) ?_
  unfold IdeEnv.Data
  cases hop : x.call.op with
  | read => exact ⟨rfl, fun a ha => absurd ha (by simp)⟩
  | write => exact ⟨fun _ _ => rfl, fun a ha => absurd ha (by simp [IdeEnv.written])⟩

theorem IdeEnv.head_call (env : IdeEnv) : env.head.call = env.call := rfl

theorem IdeEnv.head_dst (env : IdeEnv) : env.head.dst = env.dst := rfl

/-- At the head of the loop no sector is on its way. -/
theorem IdeEnv.head_todo (env : IdeEnv) :
    env.head.todo = env.call.nsecs.toNat - env.off.toNat / by2sect := by
  unfold head todo
  split <;> simp

/-- All that a system call of the driver can do to the client's memory. -/
theorem env_of_ideStep (hstep : ideStep d env dev = some (env', dev')) :
    env'.call = env.call ∧ (env'.dst = env.dst ∨ env.call.op = .read ∧ env.pc = .fetch ∧
      env'.dst = writeSector env.dst env.off.toNat dev.buffer) := by
  have haccess := accessDev_eq env dev
  unfold ideStep at hstep
  cases hpc : env.pc <;> cases hop : env.call.op <;>
    simp only [hop, ideRead, ideWrite, hpc, haccess, Option.some.injEq, Prod.mk.injEq,
      reduceCtorEq] at hstep
  case fetch.read =>
    rw [← hstep.1, IdeEnv.head_call, IdeEnv.head_dst]
    exact ⟨rfl, .inr ⟨rfl, rfl, rfl⟩⟩
  case status.write =>
    rw [← hstep.1]
    split
    · exact ⟨rfl, .inl rfl⟩
    · rw [IdeEnv.head_call, IdeEnv.head_dst]
      exact ⟨rfl, .inl rfl⟩
  all_goals
    rw [← hstep.1]
    exact ⟨rfl, .inl rfl⟩

theorem onTrack_of_ideStep (h : env.Ok d dev before) (hstep : ideStep d env dev = some (env', dev')) :
    env'.OnTrack := by
  have haccess := accessDev_eq env dev
  have hstatus := h.status
  unfold ideStep at hstep
  cases hpc : env.pc <;> cases hop : env.call.op <;>
    simp only [hop, ideRead, ideWrite, hpc, haccess, Option.some.injEq, Prod.mk.injEq,
      reduceCtorEq] at hstep
  case fetch.read =>
    rw [← hstep.1]
    exact IdeEnv.head_onTrack _
  case status.write =>
    rw [if_neg (hstatus hpc)] at hstep
    rw [← hstep.1]
    exact IdeEnv.head_onTrack _
  case status.read =>
    rw [if_neg (hstatus hpc)] at hstep
    rw [← hstep.1]
    simp [IdeEnv.OnTrack, hop]
  all_goals
    rw [← hstep.1]
    simp [IdeEnv.OnTrack, hop]

/-- A call goes on until it returns. -/
theorem ret_of_ideStep (h : env.Ok d dev before) (htrack : env.OnTrack) (hstep : ideStep d env dev = none) :
    env.pc = .ret := by
  have halive := h.alive
  unfold IdeEnv.OnTrack at htrack
  unfold ideStep at hstep
  cases hpc : env.pc <;> cases hop : env.call.op <;> simp_all [ideRead, ideWrite]

theorem Transfer.Keeps.step {disks : Word → Nat → Byte} (hk : x.Keeps disks env dev)
    (h : env.Ok x.diskno dev before) (hstep : ideStep x.diskno env dev = some (env', dev')) :
    x.Keeps disks env' dev' := by
  obtain ⟨hcall, hdst⟩ := env_of_ideStep hstep
  refine ⟨hcall.trans hk.call, onTrack_of_ideStep h hstep, fun d hd => ?_, fun a ha => ?_⟩
  · -- only the disk that is selected can change
    rw [← hk.disks d hd]
    rcases dev_of_ideStep hstep with ⟨-, rfl⟩ | ⟨-, rfl⟩ | ⟨-, rfl⟩ | ⟨hpc, rfl⟩ | rfl
    · rfl
    · rfl
    · rfl
    · have hid := h.id (by simp [IdeEnv.holdsId, hpc])
      cases env.call.op with
      | read => rfl
      | write =>
        have hne : d ≠ dev.id := by rwa [hid]
        exact update_of_ne hne _ _
    · rfl
  · rw [← hk.dst a ha]
    rcases hdst with heq | ⟨hop, hpc, heq⟩
    · rw [heq]
    · -- the sector is in front of `a`
      obtain ⟨k, hoff, hle, hend⟩ := h.pos
      have hlt : k < env.call.nsecs.toNat := by
        have : k ≠ env.call.nsecs.toNat := by simpa [hpc] using hend
        omega
      have hbytes := ha (by rw [← hk.call, hop])
      unfold IdeCall.bytes at hbytes
      rw [← hk.call] at hbytes
      simp only [by2sect] at hoff hbytes
      rw [heq, writeSector, if_neg]
      simp only [by2sect]
      omega

/-- A sector is transferred when the operation is started. -/
theorem todo_of_ideStep (h : env.Ok d dev before) (hstep : ideStep d env dev = some (env', dev')) :
    env.todo = env'.todo + if env.pc = .start then 1 else 0 := by
  obtain ⟨k, hoff, hk, hend⟩ := h.pos
  have haccess := accessDev_eq env dev
  have hdiv : env.off.toNat / by2sect = k := by
    rw [hoff]
    exact Nat.mul_div_cancel k (by decide)
  have hlt : env.pc ≠ .ret → k < env.call.nsecs.toNat := by
    intro hpc
    have : k ≠ env.call.nsecs.toNat := fun heq => hpc (hend.mpr heq)
    omega
  -- the last system call of a sector
  have hnext : ∀ env₁ : IdeEnv, env.pc ≠ .ret → env₁.call = env.call →
      env₁.off = env.off + BitVec.ofNat 32 by2sect →
      env₁.head.todo = env.call.nsecs.toNat - k - 1 := by
    intro env₁ hpc hcall hoff₁
    have hdiv₁ : env₁.off.toNat / by2sect = k + 1 := by
      rw [hoff₁, toNat_off_add h.fits hoff (hlt hpc)]
      exact Nat.mul_div_cancel (k + 1) (by decide)
    rw [IdeEnv.head_todo, hcall, hdiv₁]
    omega
  have hstatus := h.status
  unfold ideStep at hstep
  cases hpc : env.pc <;> cases hop : env.call.op <;>
    simp only [hop, ideRead, ideWrite, hpc, haccess, Option.some.injEq, Prod.mk.injEq,
      reduceCtorEq] at hstep
  case status.write =>
    rw [if_neg (hstatus hpc)] at hstep
    rw [← hstep.1, hnext _ (by simp [hpc]) (by rfl) (by rfl)]
    simp only [IdeEnv.todo, hpc, hdiv]
    rfl
  case fetch.read =>
    rw [← hstep.1, hnext _ (by simp [hpc]) (by rfl) (by rfl)]
    simp only [IdeEnv.todo, hpc, hdiv]
    rfl
  case status.read =>
    rw [if_neg (hstatus hpc)] at hstep
    rw [← hstep.1]
    simp only [IdeEnv.todo, hpc]
    rfl
  all_goals
    have := hlt (by simp [hpc])
    rw [← hstep.1]
    simp only [IdeEnv.todo, hpc, hdiv]
    simp
  all_goals omega

/-- The run of a call: it returns, after as many transfers as it has sectors. -/
theorem ideRun_spec {disks : Word → Nat → Byte} : ∀ n (env : IdeEnv) dev, env.Ok x.diskno dev before →
    x.Keeps disks env dev → env.left ≤ n →
    ∃ k env' dev', ideRun x.diskno n env dev = (k, env', dev') ∧ k = env.todo ∧ env'.pc = .ret ∧
      env'.Ok x.diskno dev' before ∧ x.Keeps disks env' dev' := by
  have hret : ∀ (env : IdeEnv) dev, env.Ok x.diskno dev before → env.pc = .ret → env.todo = 0 := by
    intro env dev h hpc
    obtain ⟨k, hoff, -, hend⟩ := h.pos
    have hk := hend.mp hpc
    unfold IdeEnv.todo
    rw [hoff, Nat.mul_div_cancel k (by decide), hk]
    omega
  intro n
  induction n with
  | zero =>
    intro env dev h hk hle
    cases hstep : ideStep x.diskno env dev with
    | none =>
      have hpc := ret_of_ideStep h hk.onTrack hstep
      exact ⟨0, env, dev, rfl, (hret env dev h hpc).symm, hpc, h, hk⟩
    | some r =>
      have := left_of_ideStep h hstep
      omega
  | succ n ih =>
    intro env dev h hk hle
    rw [ideRun]
    cases hstep : ideStep x.diskno env dev with
    | none =>
      have hpc := ret_of_ideStep h hk.onTrack hstep
      exact ⟨0, env, dev, rfl, (hret env dev h hpc).symm, hpc, h, hk⟩
    | some r =>
      obtain ⟨env₁, dev₁⟩ := r
      have hleft := left_of_ideStep h hstep
      obtain ⟨k, env', dev', hrun, htodo, hlast⟩ :=
        ih env₁ dev₁ (ok_ideStep h hstep) (hk.step h hstep) (by omega)
      refine ⟨k + if env.pc = .start then 1 else 0, env', dev', ?_, ?_, hlast⟩
      · simp only [hrun]
      · rw [htodo, todo_of_ideStep h hstep]

/-- **One call** is one access to the flat map. -/
theorem transfer_spec (hfits : x.call.Fits) {fuel : Nat} (hfuel : 5 * x.call.nsecs.toNat ≤ fuel) :
    ∃ k env dev', ideRun x.diskno fuel x.enter dev = (k, env, dev') ∧ x.Delivered dev.disks (k, env) ∧
      dev'.disks = x.apply dev.disks := by
  have henter : x.enter.call = x.call ∧ x.enter.off = 0 := ⟨rfl, rfl⟩
  have hleft : x.enter.left ≤ fuel := by
    unfold IdeEnv.left
    rw [henter.1, henter.2, show (0 : Word).toNat = 0 from rfl, Nat.zero_div]
    omega
  obtain ⟨k, env, dev', hrun, htodo, hpc, hok, hkeeps⟩ :=
    ideRun_spec fuel x.enter dev (Transfer.ok_enter hfits) (x.keeps_enter dev) hleft
  have hcount : x.enter.todo = x.call.nsecs.toNat := by
    unfold Transfer.enter
    rw [IdeEnv.head_todo]
    simp
  have hpos : env.off.toNat = x.call.bytes := by
    obtain ⟨m, hoff, -, hend⟩ := hok.pos
    rw [hoff, hend.mp hpc, hkeeps.call]
    rfl
  have hdata := hok.data
  refine ⟨k, env, dev', hrun, ⟨htodo.trans hcount, hpc, ?_⟩, ?_⟩
  · unfold IdeEnv.Data at hdata
    rw [hkeeps.call] at hdata
    have hdst := hkeeps.dst
    cases hop : x.call.op with
    | read =>
      rw [hop] at hdata
      obtain ⟨hsame, hread⟩ := hdata
      funext a
      dsimp only
      by_cases ha : a < x.call.bytes
      · rw [if_pos ha, hread a (by rwa [hpos]), hsame]
        rfl
      · rw [if_neg ha]
        exact hdst a fun _ => Nat.le_of_not_lt ha
    | write =>
      funext a
      exact hdst a fun hread => by rw [hop] at hread; cases hread
  · unfold IdeEnv.Data at hdata
    rw [hkeeps.call] at hdata
    unfold Transfer.apply
    funext d
    by_cases hd : d = x.diskno
    · rw [hd]
      cases hop : x.call.op with
      | read =>
        rw [hop] at hdata
        exact hdata.1
      | write =>
        rw [hop] at hdata
        obtain ⟨hsame, hwritten⟩ := hdata
        unfold IdeEnv.written at hwritten
        rw [hpos, hpc, if_neg (by decide), Nat.add_zero] at hwritten
        dsimp only
        rw [update_self]
        funext a
        by_cases ha : x.call.base ≤ a ∧ a < x.call.base + x.call.bytes
        · rw [if_pos ha]
          have hw := hwritten (a - x.call.base) (by omega)
          rwa [show x.call.secno.toNat * by2sect = x.call.base from rfl, Nat.add_sub_cancel' ha.1] at hw
        · rw [if_neg ha]
          refine hsame a ?_
          unfold IdeCall.base IdeCall.bytes at ha
          rw [Nat.add_mul]
          omega
    · rw [hkeeps.disks d hd]
      cases x.call.op with
      | read => rfl
      | write => exact (update_of_ne hd _ _).symm

end Call

/-! ## Sequences of calls -/

/-- **Sequential transfers round-trip.** In any sequence of calls, each delivers what the calls before it have
made of the disks, after one transfer for each of its sectors, and the disks are at the end what all calls have
made of them. -/
theorem transfers_round_trip (fuel : Nat) (xs : List Transfer) (dev : IdeDev)
    (hfits : ∀ x ∈ xs, (x.call.secno.toNat + x.call.nsecs.toNat) * by2sect < 2 ^ 32)
    (hfuel : ∀ x ∈ xs, 5 * x.call.nsecs.toNat ≤ fuel) :
    (ideRuns fuel xs dev).2.disks = xs.foldl Transfer.apply dev.disks ∧
      (ideRuns fuel xs dev).1.length = xs.length ∧
      ∀ i (x : Transfer) r, xs[i]? = some x → (ideRuns fuel xs dev).1[i]? = some r →
        x.Delivered ((xs.take i).foldl Transfer.apply dev.disks) r := by
  induction xs generalizing dev with
  | nil => exact ⟨rfl, rfl, fun i x r hx => by simp at hx⟩
  | cons x xs ih =>
    obtain ⟨k, env, dev', hrun, hdel, hdisks⟩ : ∃ k env dev',
        ideRun x.diskno fuel x.enter dev = (k, env, dev') ∧ x.Delivered dev.disks (k, env) ∧
          dev'.disks = x.apply dev.disks :=
      transfer_spec (.inr (hfits x List.mem_cons_self)) (hfuel x List.mem_cons_self)
    obtain ⟨hlast, hlen, hall⟩ := ih dev' (fun y hy => hfits y (List.mem_cons_of_mem x hy))
      fun y hy => hfuel y (List.mem_cons_of_mem x hy)
    simp only [ideRuns, hrun, List.foldl_cons, ← hdisks]
    refine ⟨hlast, by simp [hlen], fun i y r hy hr => ?_⟩
    cases i with
    | zero =>
      obtain rfl := Option.some.inj (List.getElem?_cons_zero.symm.trans hy)
      obtain rfl := Option.some.inj (List.getElem?_cons_zero.symm.trans hr)
      exact hdel
    | succ i =>
      rw [List.getElem?_cons_succ] at hy hr
      rw [List.take_succ_cons, List.foldl_cons, ← hdisks]
      exact hall i y r hy hr

/-- Writes a sector of disk 1 and reads it again. -/
def writeThenRead : List Transfer :=
  [⟨1, firstSector .write, fun _ => 0⟩, ⟨1, firstSector .read, fun _ => 0⟩]

theorem transfers_round_trip_small :
    (ideRuns 5 writeThenRead twoDisks).2.disks = writeThenRead.foldl Transfer.apply twoDisks.disks ∧
      (ideRuns 5 writeThenRead twoDisks).1.length = writeThenRead.length ∧
      ∀ i (x : Transfer) r, writeThenRead[i]? = some x → (ideRuns 5 writeThenRead twoDisks).1[i]? = some r →
        x.Delivered ((writeThenRead.take i).foldl Transfer.apply twoDisks.disks) r :=
  transfers_round_trip 5 writeThenRead twoDisks (by simp [writeThenRead, firstSector, by2sect])
    (by simp [writeThenRead, firstSector])

end Mos
