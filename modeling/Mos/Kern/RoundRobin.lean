import Mos.Lib.Rota
import Mos.Kern.SchedList
import Mos.Kern.Envs

/-!
# Time slices

`schedule` against the round robin of `Lib.Turn`. While no env changes its status, `env_sched_list` is
the queue of a turn, `curenv` its head and `count` the ticks that are left. The budget is the weak
point: `env_pri` is unsigned and `count` is not, so a priority of 2^31 or more becomes a negative
budget, and the env loses its turn at the next tick. `round_robin_iff` says that nothing else goes
wrong.
-/

namespace Mos

open Lib Prog Function

variable {k k' k₁ k₂ : Kernel} {e : EnvPtr} {xs ys : List EnvPtr}

/-! ## Between two calls -/

/-- What happens between two calls of `schedule`, as far as it is concerned: nothing. -/
structure Kernel.Idle (k k' : Kernel) : Prop where
  queue : k'.envSchedList = k.envSchedList
  curenv : k'.curenv = k.curenv
  schedCount : k'.schedCount = k.schedCount
  status : ∀ e, (k'.envs e).envStatus = (k.envs e).envStatus
  pri : ∀ e, (k'.envs e).envPri = (k.envs e).envPri

theorem Kernel.Idle.refl (k : Kernel) : k.Idle k := ⟨rfl, rfl, rfl, fun _ => rfl, fun _ => rfl⟩

/-- The runs that consist of calls of `schedule`: the arguments, and the envs that they run. -/
inductive Ticks (k : Kernel) : List (Bool × EnvPtr) → Kernel → Prop
  | nil : Ticks k [] k
  | snoc {l : List (Bool × EnvPtr)} {k₁ k₂ k₃ : Kernel} {e : EnvPtr} (h : Ticks k l k₁)
      (hidle : k₁.Idle k₂) (yield : Bool) (hcall : schedule yield k₂ = .ret () k₃)
      (hrun : k₃.curenv = some e) : Ticks k (l ++ [(yield, e)]) k₃

/-- The queue is `ys`, its envs are runnable, and the status and the priority of all envs are those in
`k₀`. -/
structure Kernel.Lines (k₀ : Kernel) (ys : List EnvPtr) (k : Kernel) : Prop where
  queue : k.envSchedList.Represents ys
  runnable : ∀ e ∈ ys, (k.envs e).envStatus = .runnable
  status : ∀ e, (k.envs e).envStatus = (k₀.envs e).envStatus
  pri : ∀ e, (k.envs e).envPri = (k₀.envs e).envPri

theorem Kernel.Lines.idle {k₀ : Kernel} (h : k₀.Lines ys k) (hi : k.Idle k') : k₀.Lines ys k' where
  queue := by rw [hi.queue]; exact h.queue
  runnable e he := (hi.status e).trans (h.runnable e he)
  status e := (hi.status e).trans (h.status e)
  pri e := (hi.pri e).trans (h.pri e)

/-! ## One call -/

theorem Kernel.Lines.ran {k₀ : Kernel} (h : k₀.Lines ys k) (e : EnvPtr) : k₀.Lines ys (k.ran e) := by
  have hst : ∀ e', ((k.ran e).envs e').envStatus = (k.envs e').envStatus := fun e' =>
    ran_field (φ := Env.envStatus) (fun _ _ => rfl) (fun _ _ => rfl) k e e'
  have hpri : ∀ e', ((k.ran e).envs e').envPri = (k.envs e').envPri := fun e' =>
    ran_field (φ := Env.envPri) (fun _ _ => rfl) (fun _ _ => rfl) k e e'
  have hqueue : (k.ran e).envSchedList = k.envSchedList := by
    show k.saved.envSchedList = _
    unfold Kernel.saved
    cases k.curenv <;> rfl
  exact ⟨by rw [hqueue]; exact h.queue, fun e' he' => (hst e').trans (h.runnable e' he'),
    fun e' => (hst e').trans (h.status e'), fun e' => (hpri e').trans (h.pri e')⟩

theorem ran_schedCount (k : Kernel) (e : EnvPtr) : (k.ran e).schedCount = k.schedCount := by
  show k.saved.schedCount = _
  unfold Kernel.saved
  cases k.curenv <;> rfl

/-- The state after `--count`. -/
def Kernel.sliced (k : Kernel) : Kernel := { k with schedCount := k.schedCount - 1 }

theorem Kernel.Lines.sliced {k₀ : Kernel} (h : k₀.Lines ys k) : k₀.Lines ys k.sliced :=
  ⟨h.queue, h.runnable, h.status, h.pri⟩

theorem schedule_none (hc : k.curenv = none) (yield : Bool) :
    schedule yield k = schedulePick k.sliced := by
  cases k
  cases hc
  rfl

theorem schedule_some (hc : k.curenv = some e) (hrun : (k.envs e).envStatus = .runnable)
    (yield : Bool) :
    schedule yield k = (if yield = true ∨ k.schedCount - 1 ≤ 0 then do
      schedRemove e
      schedInsertTail e
      schedulePick
    else envRun e : KernM Unit) k.sliced := by
  cases k
  cases hc
  exact congrFun (if_neg (not_not.mpr hrun)) _

/-- A call has given the first env of the queue `ys` its turn. -/
structure Kernel.Starts (k₀ : Kernel) (ys : List EnvPtr) (k : Kernel) : Prop where
  lines : k₀.Lines ys k
  cur : k.curenv = ys.head?
  count : ∀ e, ys.head? = some e → k.schedCount = (k₀.envs e).envPri.toInt

theorem schedulePick_starts {k₀ : Kernel} (h : k₀.Lines ys k) (hne : ys ≠ []) :
    ∃ k', schedulePick k = .ret () k' ∧ k₀.Starts ys k' := by
  obtain ⟨e, zs, rfl⟩ := List.exists_cons_of_ne_nil hne
  have hfirst : k.envSchedList.first = some e := h.queue.first_eq
  have h₁ : k₀.Lines (e :: zs) { k with schedCount := (k.envs e).envPri.toInt } :=
    ⟨h.queue, h.runnable, h.status, h.pri⟩
  refine ⟨Kernel.ran { k with schedCount := (k.envs e).envPri.toInt } e, ?_, h₁.ran e, rfl, ?_⟩
  · rw [schedulePick, get_bind, hfirst]
    simp only [put_bind]
    rw [envRun_eq, if_pos (h.runnable e List.mem_cons_self)]
  · rintro e' ⟨⟩
    rw [ran_schedCount, ← h.pri e]

/-- The first call finds no current env. -/
theorem schedule_first {k₀ : Kernel} (h : k₀.Lines ys k) (hne : ys ≠ []) (hc : k.curenv = none)
    (yield : Bool) : ∃ k', schedule yield k = .ret () k' ∧ k₀.Starts ys k' := by
  rw [schedule_none hc]
  exact schedulePick_starts h.sliced hne

/-- The turn ends: the current env goes behind all others. -/
theorem schedule_switch {k₀ : Kernel} (h : k₀.Lines (e :: ys) k) (hc : k.curenv = some e)
    (yield : Bool) (hend : yield = true ∨ k.schedCount ≤ 1) :
    ∃ k', schedule yield k = .ret () k' ∧ k₀.Starts (ys ++ [e]) k' := by
  have hnodup := List.nodup_cons.mp h.queue.1
  obtain ⟨q₁, heq₁, hrep₁⟩ := schedRemove_queued h.sliced.queue List.mem_cons_self
  rw [List.erase_cons_head] at hrep₁
  obtain ⟨q₂, heq₂, hrep₂⟩ :=
    schedInsertTail_queued (k := { k.sliced with envSchedList := q₁ }) hrep₁ hnodup.1
  have h₂ : k₀.Lines (ys ++ [e]) { k.sliced with envSchedList := q₂ } :=
    ⟨hrep₂, fun e' he' => h.runnable e' (by simpa [or_comm] using he'), h.status, h.pri⟩
  rw [schedule_some hc (h.runnable e List.mem_cons_self),
    if_pos (hend.imp_right fun hle => by omega), bind_ret heq₁, bind_ret heq₂]
  exact schedulePick_starts h₂ (by simp)

/-- The turn goes on. -/
theorem schedule_stay {k₀ : Kernel} (h : k₀.Lines ys k) (hc : k.curenv = some e) (he : e ∈ ys)
    (hleft : 1 < k.schedCount) :
    ∃ k', schedule false k = .ret () k' ∧ k₀.Lines ys k' ∧ k'.curenv = some e ∧
      k'.schedCount = k.schedCount - 1 := by
  have hrun : (k.sliced.envs e).envStatus = .runnable := h.runnable e he
  refine ⟨k.sliced.ran e, ?_, h.sliced.ran e, rfl, ran_schedCount k.sliced e⟩
  rw [schedule_some hc (h.runnable e he), if_neg (by simp; omega), envRun_eq, if_pos hrun]

/-! ## The calls as a round robin -/

/-- The priority of an env, as a number of ticks. -/
def Kernel.priOf (k : Kernel) (e : EnvPtr) : Nat := (k.envs e).envPri.toNat

/-- The scheduler is in the turn `t`. -/
structure Kernel.Serves (k₀ : Kernel) (t : Turn EnvPtr) (k : Kernel) : Prop where
  lines : k₀.Lines t.queue k
  cur : k.curenv = t.queue.head?
  count : k.schedCount = t.left

theorem Kernel.Serves.idle {k₀ : Kernel} {t : Turn EnvPtr} (h : k₀.Serves t k) (hi : k.Idle k') :
    k₀.Serves t k' :=
  ⟨h.lines.idle hi, hi.curenv.trans h.cur, hi.schedCount.trans h.count⟩

/-- A priority below 2^31 is a budget. -/
theorem Kernel.Starts.serves {k₀ : Kernel} (h : k₀.Starts ys k) (hne : ys ≠ [])
    (hsmall : ∀ e ∈ ys, k₀.priOf e < 2 ^ 31) : k₀.Serves (Turn.start k₀.priOf ys) k := by
  refine ⟨h.lines, h.cur, ?_⟩
  obtain ⟨e, zs, rfl⟩ := List.exists_cons_of_ne_nil hne
  have hlt : 2 * (k₀.envs e).envPri.toNat < 2 ^ 32 := by
    have := hsmall e List.mem_cons_self
    unfold Kernel.priOf at this
    omega
  rw [h.count e rfl, BitVec.toInt_eq_toNat_of_lt hlt]
  rfl

/-- **One call of `schedule` is one tick, or one yield, of the round robin.** -/
theorem Kernel.Serves.call {k₀ : Kernel} {t : Turn EnvPtr} (h : k₀.Serves t k)
    (ht : t.Valid k₀.priOf) (hsmall : ∀ e ∈ t.queue, k₀.priOf e < 2 ^ 31) (yield : Bool) :
    ∃ k', schedule yield k = .ret () k' ∧
      k₀.Serves (if yield then t.next k₀.priOf else t.tick k₀.priOf) k' := by
  obtain ⟨e, zs, hqueue⟩ := List.exists_cons_of_ne_nil ht.ne_nil
  have hc : k.curenv = some e := by rw [h.cur, hqueue]; rfl
  have hrot : t.queue.rotate 1 = zs ++ [e] := by
    rw [hqueue, List.rotate_cons_succ, List.rotate_zero]
  have hswitch : (yield = true ∨ k.schedCount ≤ 1) →
      ∃ k', schedule yield k = .ret () k' ∧ k₀.Serves (t.next k₀.priOf) k' := by
    intro hend
    obtain ⟨k', hret, hstarts⟩ := schedule_switch (hqueue ▸ h.lines) hc yield hend
    refine ⟨k', hret, ?_⟩
    rw [Turn.next, hrot]
    refine hstarts.serves (by simp) fun e' he' => hsmall e' ?_
    rw [hqueue]
    simpa [or_comm] using he'
  cases yield with
  | true => exact hswitch (.inl rfl)
  | false =>
    rw [if_neg (by simp)]
    unfold Turn.tick
    split
    next hleft =>
      obtain ⟨k', hret, hlines, hcur, hcount⟩ := schedule_stay h.lines hc (by rw [hqueue]; simp)
        (by rw [h.count]; omega)
      refine ⟨k', hret, hlines, hcur.trans (by rw [hqueue]; rfl), ?_⟩
      rw [hcount, h.count]
      show (t.left : Int) - 1 = ((t.left - 1 : Nat) : Int)
      omega
    next hleft => exact hswitch (.inr (by rw [h.count]; omega))

/-- The state of the scheduler after some calls: the turn `t` of the queue `xs`. -/
structure Kernel.Shared (k₀ : Kernel) (xs : List EnvPtr) (t : Turn EnvPtr) (k : Kernel) : Prop where
  serves : k₀.Serves t k
  valid : t.Valid k₀.priOf
  queue : ∀ e, e ∈ t.queue ↔ e ∈ xs

theorem Kernel.Shared.call {k₀ : Kernel} {t : Turn EnvPtr} (h : k₀.Shared xs t k)
    (hsmall : ∀ e ∈ xs, k₀.priOf e < 2 ^ 31) (yield : Bool) :
    ∃ k', schedule yield k = .ret () k' ∧
      k₀.Shared xs (if yield then t.next k₀.priOf else t.tick k₀.priOf) k' := by
  obtain ⟨k', hret, hserves⟩ := h.serves.call h.valid
    (fun e he => hsmall e ((h.queue e).mp he)) yield
  have hnext : ∀ e, e ∈ (t.next k₀.priOf).queue ↔ e ∈ xs := fun e =>
    List.mem_rotate.trans (h.queue e)
  refine ⟨k', hret, hserves, ?_, ?_⟩
  · split
    · exact h.valid.next
    · exact h.valid.tick
  · split
    · exact hnext
    · unfold Turn.tick
      split
      · exact h.queue
      · exact hnext

section Run

variable {k₀ : Kernel} (hlines : k₀.Lines xs k₀) (hne : xs ≠ []) (hcur : k₀.curenv = none)
  (hpri : ∀ e ∈ xs, 1 ≤ k₀.priOf e)

include hlines hne hcur hpri

theorem shared_first (hsmall : ∀ e ∈ xs, k₀.priOf e < 2 ^ 31) (hi : k₀.Idle k) (yield : Bool) :
    ∃ k', schedule yield k = .ret () k' ∧ k₀.Shared xs (Turn.start k₀.priOf xs) k' := by
  obtain ⟨k', hret, hstarts⟩ :=
    schedule_first (hlines.idle hi) hne (hi.curenv.trans hcur) yield
  exact ⟨k', hret, hstarts.serves hne hsmall, Turn.valid_start hne hpri, fun _ => Iff.rfl⟩

/-- After any calls the scheduler is in a turn, and after ticks alone in the turn of the rota. -/
theorem Ticks.shared (hsmall : ∀ e ∈ xs, k₀.priOf e < 2 ^ 31) {l : List (Bool × EnvPtr)}
    (h : Ticks k₀ l k) :
    l = [] ∧ k = k₀ ∨ ∃ t, k₀.Shared xs t k ∧ l ≠ [] ∧
      ((∀ c ∈ l, c.1 = false) →
        t = (Turn.tick k₀.priOf)^[l.length - 1] (Turn.start k₀.priOf xs)) := by
  induction h with
  | nil => exact .inl ⟨rfl, rfl⟩
  | @snoc l k₁ k₂ k₃ e h hidle yield hcall hrun ih =>
    refine .inr ?_
    rcases ih with ⟨rfl, rfl⟩ | ⟨t, hshared, hl, hturn⟩
    · obtain ⟨k', hret, hshared⟩ := shared_first hlines hne hcur hpri hsmall hidle yield
      rw [hcall] at hret
      cases hret
      exact ⟨_, hshared, by simp, fun _ => rfl⟩
    · have hshared₂ : k₀.Shared xs t k₂ := ⟨hshared.serves.idle hidle, hshared.valid, hshared.queue⟩
      obtain ⟨k', hret, hshared'⟩ := hshared₂.call hsmall yield
      rw [hcall] at hret
      cases hret
      refine ⟨_, hshared', by simp, fun hflags => ?_⟩
      obtain rfl : yield = false := hflags (yield, e) (by simp)
      have hlen : (l ++ [(false, e)]).length - 1 = (l.length - 1) + 1 := by
        have := List.length_pos_iff.mpr hl
        rw [List.length_append, List.length_singleton]
        omega
      rw [if_neg (by simp), hturn fun c hc => hflags c (by simp [hc]), hlen,
        Function.iterate_succ_apply']

omit hpri in
/-- Calls of `schedule(1)` bring every rotation of the queue to the front. -/
theorem exists_rotation (n : Nat) : ∃ l k, Ticks k₀ l k ∧ k₀.Starts (xs.rotate n) k := by
  have hhead : ∀ m, (xs.rotate m).head? ≠ none := fun m hnone =>
    hne (List.rotate_eq_nil_iff.mp (List.head?_eq_none_iff.mp hnone))
  induction n with
  | zero =>
    obtain ⟨k, hret, hstarts⟩ := schedule_first hlines hne hcur true
    obtain ⟨e, he⟩ := Option.ne_none_iff_exists'.mp (hhead 0)
    rw [List.rotate_zero] at he ⊢
    exact ⟨_, k, .snoc .nil (.refl k₀) true hret (hstarts.cur.trans he), hstarts⟩
  | succ n ih =>
    obtain ⟨l, k, hticks, hstarts⟩ := ih
    obtain ⟨e, he⟩ := Option.ne_none_iff_exists'.mp (hhead n)
    obtain ⟨ys, hys⟩ := List.head?_eq_some_iff.mp he
    have hrot : ys ++ [e] = xs.rotate (n + 1) := by
      rw [← List.rotate_rotate, hys, List.rotate_cons_succ, List.rotate_zero]
    obtain ⟨k', hret, hstarts'⟩ := schedule_switch (hys ▸ hstarts.lines)
      (hstarts.cur.trans he) true (.inl rfl)
    rw [hrot] at hstarts'
    obtain ⟨e', he'⟩ := Option.ne_none_iff_exists'.mp (hhead (n + 1))
    exact ⟨_, k', .snoc hticks (.refl k) true hret (hstarts'.cur.trans he'), hstarts'⟩

end Run

/-- `schedule(1)` moves the current env `e` behind all others and gives the next one its turn. -/
structure Kernel.Yields (k₀ k : Kernel) (e : EnvPtr) (k' : Kernel) : Prop where
  moved : ∃ ys e', k.envSchedList.Represents (e :: ys) ∧ k'.envSchedList.Represents (ys ++ [e]) ∧
    (ys ++ [e]).head? = some e' ∧ k'.curenv = some e' ∧ k'.schedCount = (k₀.priOf e' : Int) ∧
    (e' = e → ys = [])

/-- Round robin with priorities, from the state `k₀` with the queue `xs` on. -/
structure Kernel.RoundRobin (k₀ : Kernel) (xs : List EnvPtr) : Prop where
  /-- No call panics. -/
  returns : ∀ l k k₁, Ticks k₀ l k → k.Idle k₁ → ∀ yield, ∃ k', schedule yield k₁ = .ret () k'
  /-- Timer calls run the envs in the order of the rota. -/
  timer : ∀ l k, Ticks k₀ l k → (∀ c ∈ l, c.1 = false) →
    ∀ m c, l[m]? = some c → some c.2 = (rota k₀.priOf xs)[m % (rota k₀.priOf xs).length]?
  yields : ∀ l k k₁ e k', Ticks k₀ l k → k.Idle k₁ → k₁.curenv = some e →
    schedule true k₁ = .ret () k' → k₀.Yields k₁ e k'

section Run

variable {k₀ : Kernel} (hlines : k₀.Lines xs k₀) (hne : xs ≠ []) (hcur : k₀.curenv = none)
  (hpri : ∀ e ∈ xs, 1 ≤ k₀.priOf e)

include hlines hne hcur hpri

/-- The order of the timer calls. -/
theorem Ticks.rota (hsmall : ∀ e ∈ xs, k₀.priOf e < 2 ^ 31) {l : List (Bool × EnvPtr)}
    (h : Ticks k₀ l k) (hflags : ∀ c ∈ l, c.1 = false) {m : Nat} {c : Bool × EnvPtr}
    (hm : l[m]? = some c) :
    some c.2 = (Lib.rota k₀.priOf xs)[m % (Lib.rota k₀.priOf xs).length]? := by
  induction h with
  | nil => cases hm
  | @snoc l k₁ k₂ k₃ e h hidle yield hcall hrun ih =>
    by_cases hlt : m < l.length
    · rw [List.getElem?_append_left hlt] at hm
      exact ih (fun c hc => hflags c (by simp [hc])) hm
    · -- the call that was made last
      obtain rfl : m = l.length := by
        have hlen : m < (l ++ [(yield, e)]).length := (List.getElem?_eq_some_iff.mp hm).1
        rw [List.length_append, List.length_singleton] at hlen
        omega
      rw [List.getElem?_concat_length] at hm
      obtain rfl : (yield, e) = c := Option.some.inj hm
      have hsnoc := Ticks.snoc h hidle yield hcall hrun
      rcases hsnoc.shared hlines hne hcur hpri hsmall with ⟨hnil, -⟩ | ⟨t, hshared, -, hturn⟩
      · simp at hnil
      · have hhead := hshared.serves.cur
        rw [hrun, hturn hflags, Turn.head_ticks hne hpri] at hhead
        simpa using hhead

/-- A call `schedule(1)` after any calls. -/
theorem Ticks.yields (hsmall : ∀ e ∈ xs, k₀.priOf e < 2 ^ 31) {l : List (Bool × EnvPtr)}
    (h : Ticks k₀ l k) (hidle : k.Idle k₁) (he : k₁.curenv = some e)
    (hcall : schedule true k₁ = .ret () k') : k₀.Yields k₁ e k' := by
  rcases h.shared hlines hne hcur hpri hsmall with ⟨-, rfl⟩ | ⟨t, hshared, -, -⟩
  · rw [hidle.curenv, hcur] at he
    cases he
  · have hserves := hshared.serves.idle hidle
    obtain ⟨ys, hys⟩ := List.head?_eq_some_iff.mp (hserves.cur.symm.trans he)
    have hlines₁ : k₀.Lines (e :: ys) k₁ := hys ▸ hserves.lines
    obtain ⟨k'', hret, hstarts⟩ := schedule_switch hlines₁ he true (.inl rfl)
    rw [hcall] at hret
    cases hret
    have hserves' := hstarts.serves (by simp) fun e' he' => hsmall e' ((hshared.queue e').mp (by
      rw [hys]
      simpa [or_comm] using he'))
    obtain ⟨e', he'⟩ : ∃ e', (ys ++ [e]).head? = some e' :=
      Option.ne_none_iff_exists'.mp (by simp)
    refine ⟨ys, e', hlines₁.queue, hstarts.lines.queue, he', hstarts.cur.trans he', ?_, ?_⟩
    · rw [hserves'.count]
      show (((ys ++ [e]).head?.map k₀.priOf).getD 0 : Int) = _
      rw [he']
      rfl
    · rintro rfl
      have hnodup := List.nodup_cons.mp hlines₁.queue.1
      cases ys with
      | nil => rfl
      | cons y zs =>
        obtain rfl : y = e' := Option.some.inj he'
        exact absurd List.mem_cons_self hnodup.1

omit hpri in
/-- The full budget of every env fits into `count` if every yield gives it. -/
theorem small_of_yields (hyields : ∀ l k k₁ e k', Ticks k₀ l k → k.Idle k₁ → k₁.curenv = some e →
    schedule true k₁ = .ret () k' → k₀.Yields k₁ e k') : ∀ e ∈ xs, k₀.priOf e < 2 ^ 31 := by
  intro e he
  -- the queue is rotated until `e` gets its turn
  obtain ⟨j, hj, rfl⟩ := List.getElem_of_mem he
  obtain ⟨l, k, hticks, hstarts⟩ := exists_rotation hlines hne hcur (xs.length - 1 + j)
  obtain ⟨c, hc⟩ := Option.ne_none_iff_exists'.mp (show (xs.rotate (xs.length - 1 + j)).head? ≠ none
    from fun hnone => hne (List.rotate_eq_nil_iff.mp (List.head?_eq_none_iff.mp hnone)))
  obtain ⟨ys, hys⟩ := List.head?_eq_some_iff.mp hc
  have hrot : ys ++ [c] = xs.rotate j := by
    have hsucc : (xs.rotate (xs.length - 1 + j)).rotate 1 = xs.rotate j := by
      rw [List.rotate_rotate, show xs.length - 1 + j + 1 = xs.length + j by omega,
        ← List.rotate_rotate, List.rotate_length]
    rw [← hsucc, hys, List.rotate_cons_succ, List.rotate_zero]
  obtain ⟨k', hret, hstarts'⟩ := schedule_switch (hys ▸ hstarts.lines) (hstarts.cur.trans hc) true
    (.inl rfl)
  have hhead : (ys ++ [c]).head? = some xs[j] := by
    rw [hrot, List.head?_rotate hj, List.getElem?_eq_getElem hj]
  obtain ⟨zs, e', -, -, -, hcur', hcount, -⟩ :=
    (hyields l k k c k' hticks (.refl k) (hstarts.cur.trans hc) hret).moved
  obtain rfl : xs[j] = e' := Option.some.inj (hhead.symm.trans (hstarts'.cur.symm.trans hcur'))
  rw [hstarts'.count _ hhead, Kernel.priOf, BitVec.toInt_eq_toNat_cond] at hcount
  unfold Kernel.priOf
  split at hcount <;> omega

/-- No call panics. -/
theorem Ticks.returns (hsmall : ∀ e ∈ xs, k₀.priOf e < 2 ^ 31) {l : List (Bool × EnvPtr)}
    (h : Ticks k₀ l k) (hidle : k.Idle k₁) (yield : Bool) :
    ∃ k', schedule yield k₁ = .ret () k' := by
  rcases h.shared hlines hne hcur hpri hsmall with ⟨-, rfl⟩ | ⟨t, hshared, -, -⟩
  · obtain ⟨k', hret, -⟩ := shared_first hlines hne hcur hpri hsmall hidle yield
    exact ⟨k', hret⟩
  · have hshared₁ : k₀.Shared xs t k₁ :=
      ⟨hshared.serves.idle hidle, hshared.valid, hshared.queue⟩
    obtain ⟨k', hret, -⟩ := hshared₁.call hsmall yield
    exact ⟨k', hret⟩

end Run

/-- **`schedule` is a round robin with priorities exactly if every priority is below 2^31.** -/
theorem round_robin_iff {k₀ : Kernel} (hqueue : k₀.envSchedList.Represents xs) (hne : xs ≠ [])
    (hrun : ∀ e ∈ xs, (k₀.envs e).envStatus = .runnable) (hcur : k₀.curenv = none)
    (hpri : ∀ e ∈ xs, 1 ≤ (k₀.envs e).envPri.toNat) :
    k₀.RoundRobin xs ↔ ∀ e ∈ xs, (k₀.envs e).envPri.toNat < 2 ^ 31 := by
  have hlines : k₀.Lines xs k₀ := ⟨hqueue, hrun, fun _ => rfl, fun _ => rfl⟩
  constructor
  · intro hround
    exact small_of_yields hlines hne hcur hround.yields
  · intro hsmall
    exact ⟨fun l k k₁ hticks hidle yield => hticks.returns hlines hne hcur hpri hsmall hidle yield,
      fun l k hticks hflags m c hm => hticks.rota hlines hne hcur hpri hsmall hflags hm,
      fun l k k₁ e k' hticks hidle he hcall =>
        hticks.yields hlines hne hcur hpri hsmall hidle he hcall⟩

/-! ## Two envs -/

/-- Two envs are created, and none has run. The queue starts with env 1. -/
theorem exists_pair (p q : Word) (test : Kernel → Bool)
    (h : ((boot smallBoot).state?.bind (runOps
      [.envCreate (some emptyImage) p, .envCreate (some emptyImage) q])).any (fun k =>
        k.curenv == none && k.envSchedList.first == some 1 && k.priOf 1 == q.toNat &&
        ((List.finRange nenv).all fun e => (k.envs e).envStatus != .runnable || 1 ≤ k.priOf e) &&
        test k) = true) :
    ∃ k xs, k.envSchedList.Represents (1 :: xs) ∧
      (∀ e ∈ 1 :: xs, (k.envs e).envStatus = .runnable) ∧ k.curenv = none ∧ k.priOf 1 = q.toNat ∧
      (∀ e ∈ 1 :: xs, 1 ≤ k.priOf e) ∧ test k = true := by
  obtain ⟨k₀, k, hboot, hrun, htest⟩ := exists_run smallBoot _ _ h
  simp only [Bool.and_eq_true, beq_iff_eq, List.all_eq_true, List.mem_finRange, true_imp_iff,
    Bool.or_eq_true, bne_iff_ne, decide_eq_true_eq] at htest
  obtain ⟨⟨⟨⟨hcur, hfirst⟩, hq⟩, hpri⟩, htest⟩ := htest
  obtain ⟨ys, hrep, hys⟩ := (schedInv_of_run (booted_of_boot hboot).schedInv
    (queuedRun_of_runOps (by simp [Op.QueueOk]) hrun)).queue
  obtain ⟨xs, rfl⟩ := List.head?_eq_some_iff.mp (hrep.first_eq.symm.trans hfirst)
  have hrunnable : ∀ e ∈ 1 :: xs, (k.envs e).envStatus = .runnable := fun e he => (hys e).mp he
  exact ⟨k, xs, hrep, hrunnable, hcur, hq,
    fun e he => (hpri e).resolve_left (not_not.mpr (hrunnable e he)), htest⟩

theorem round_robin_pair : ∃ (k : Kernel) (xs : List EnvPtr), k.envSchedList.Represents (1 :: xs) ∧ k.priOf 1 = 2 ∧
    k.RoundRobin (1 :: xs) := by
  obtain ⟨k, xs, hrep, hrun, hcur, hq, hpri, htest⟩ := exists_pair 1 2 (fun k =>
    (List.finRange nenv).all fun e => k.priOf e < 2 ^ 31) (by decide +kernel)
  simp only [List.all_eq_true, List.mem_finRange, true_imp_iff, decide_eq_true_eq] at htest
  exact ⟨k, xs, hrep, hq, (round_robin_iff hrep (by simp) hrun hcur hpri).mpr fun e _ => htest e⟩

/-- **An env with priority 2^32 - 1 runs once**: the second timer call runs the other one. -/
theorem huge_priority_runs_once : ∃ (k k₁ k₂ : Kernel) (xs : List EnvPtr),
    k.envSchedList.Represents (1 :: xs) ∧
    (∀ e ∈ 1 :: xs, (k.envs e).envStatus = .runnable) ∧ k.curenv = none ∧
    (∀ e ∈ 1 :: xs, 1 ≤ k.priOf e) ∧ k.priOf 1 = 4294967295 ∧
    schedule false k = .ret () k₁ ∧ k₁.curenv = some 1 ∧
    schedule false k₁ = .ret () k₂ ∧ k₂.curenv = some 0 ∧ ¬k.RoundRobin (1 :: xs) := by
  obtain ⟨k, xs, hrep, hrun, hcur, hq, hpri, htest⟩ := exists_pair 1 0xffffffff (fun k =>
    (schedule false k).retAnd fun _ k₁ => k₁.curenv == some 1 &&
      (schedule false k₁).retAnd fun _ k₂ => k₂.curenv == some 0) (by decide +kernel)
  obtain ⟨⟨⟩, k₁, hcall₁, htest⟩ := Outcome.retAnd_eq_true.mp htest
  rw [Bool.and_eq_true, beq_iff_eq] at htest
  obtain ⟨hcur₁, htest⟩ := htest
  obtain ⟨⟨⟩, k₂, hcall₂, htest⟩ := Outcome.retAnd_eq_true.mp htest
  have hcur₂ : k₂.curenv = some 0 := by simpa using htest
  have hq' : k.priOf 1 = 4294967295 := hq
  refine ⟨k, k₁, k₂, xs, hrep, hrun, hcur, hpri, hq', hcall₁, hcur₁, hcall₂, hcur₂, ?_⟩
  intro hround
  have hticks : Ticks k [(false, 1), (false, 0)] k₂ :=
    .snoc (.snoc .nil (.refl k) false hcall₁ hcur₁) (.refl k₁) false hcall₂ hcur₂
  have hsecond := hround.timer _ k₂ hticks (by simp) 1 (false, 0) rfl
  have hlen : 2 ≤ (rota k.priOf (1 :: xs)).length := by
    rw [rota_cons, List.length_append, List.length_replicate]
    omega
  have hlt : 1 < (List.replicate (k.priOf 1) (1 : EnvPtr)).length := by
    rw [List.length_replicate]
    omega
  rw [Nat.mod_eq_of_lt hlen, rota_cons, List.getElem?_append_left hlt,
    List.getElem?_replicate, if_pos (by omega)] at hsecond
  exact absurd (Option.some.inj hsecond) (by decide)

end Mos
