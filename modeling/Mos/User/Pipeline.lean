import Mos.User.ShJob

/-!
# What the shell makes of a pipeline

A line is a list of commands with pipes between them. The shell runs it with one process for each command: `parsecmd`
reads the line from the left, and at a pipe the process that goes on with the rest is a child. When the process of a
command calls `spawn`, its descriptors 0 and 1 are what the line says, and all others are what they were before: no end
of a pipe is left over (`pipeline_wired`).

A redirection of the output is inherited like any other descriptor. What the last command writes goes to the file that
the line has named last, whichever command it stands at.
-/

namespace Mos

open Lib Prog Function

variable {n fuel lexFuel i j k a b : Nat} {ts : List Token} {c : Byte} {w : List Byte} {s t : Job} {F : Fds}
  {l l' : Lexer} {d : Desc}

/-! ## The lexer looks ahead only -/

/-- The loop over white space goes on from `s` and stops at something else. -/
theorem skipWhite_stop : ∀ n s (mem : Nat → Byte) x, skipWhite n s mem = some x →
    s ≤ x.1 ∧ strchr whitespace (x.2 x.1) = false := by
  intro n
  induction n with
  | zero => exact fun _ _ _ h => by cases h
  | succ n ih =>
    intro s mem x h
    rw [skipWhite] at h
    split at h
    · obtain ⟨hle, hstop⟩ := ih _ _ _ h
      exact ⟨(Nat.le_succ s).trans hle, hstop⟩
    · next hw =>
      cases h
      exact ⟨Nat.le_refl s, by simpa using hw⟩

theorem skipWord_le : ∀ n s (mem : Nat → Byte) e, skipWord n s mem = some e → s ≤ e := by
  intro n
  induction n with
  | zero => exact fun _ _ _ h => by cases h
  | succ n ih =>
    intro s mem e h
    rw [skipWord] at h
    split at h
    · exact (Nat.le_succ s).trans (ih _ _ _ h)
    · cases h
      exact Nat.le_refl s

/-- A scan gets behind the address where it starts, unless the line ends. -/
theorem gettokenAt_lt {s : Nat} {mem : Nat → Byte} {x : Scan} (h : gettokenAt n s mem = some x) :
    x.p2 = 0 ∨ s < x.p2 := by
  unfold gettokenAt at h
  split at h
  · cases h
    exact .inl rfl
  · obtain ⟨⟨s', mem'⟩, hskip, h⟩ := Option.bind_eq_some_iff.mp h
    obtain ⟨hle, hstop⟩ := skipWhite_stop _ _ _ _ hskip
    dsimp only at h hle hstop
    split at h
    · cases h
      exact .inl rfl
    next hne =>
      split at h
      · cases h
        exact .inr (Nat.lt_succ_of_le hle)
      next hsym =>
        obtain ⟨e, hword, h⟩ := Option.bind_eq_some_iff.mp h
        cases h
        -- the first character of a word belongs to it
        cases n with
        | zero => cases hword
        | succ n =>
          have hchar : strchr (whitespace ++ symbols) (mem' s') = false := by
            rw [strchr_append, hstop, Bool.false_or]
            simpa using hsym
          rw [skipWord, if_pos ⟨hne, hchar⟩] at hword
          exact .inr (hle.trans_lt (skipWord_le _ _ _ _ hword))

namespace Lexer

/-- The scanner will not get to this address any more. -/
def Past (l : Lexer) (y : Nat) : Prop := l.np2 = 0 ∨ y < l.np2

/-- The string at `a` has been scanned. -/
def Holds (l : Lexer) (a : Nat) (w : List Byte) : Prop :=
  IsString l.mem a w ∧ ∀ i ≤ w.length, l.Past (a + i)

/-- **One call of `gettoken(0, &t)`** changes nothing that has been scanned, and cuts off the word that it
delivers. -/
theorem HasNext.next (h : l.HasNext n ts) :
    ∃ t u, gettoken n 0 l = some ((ts.head?.map Token.code).getD 0, t, u) ∧ u.HasNext n ts.tail ∧
      (∀ y, l.Past y → u.mem y = l.mem y ∧ u.Past y) ∧
      ∀ w, ts.head? = some (.word w) → ∃ a, t = some a ∧ u.Holds a w := by
  obtain ⟨code, t, u, hcall, hdel, hu⟩ := gettoken_spec h
  have hcode : code = (ts.head?.map Token.code).getD 0 := by
    cases ts with
    | nil => exact hdel
    | cons tok ts =>
      cases tok with
      | word w => exact hdel.1
      | symbol c => exact hdel
  rw [hcode] at hcall
  -- the scan behind the call
  obtain ⟨x, hx, hu', ht'⟩ : ∃ x, gettokenAt n l.np2 l.mem = some x ∧
      u = ⟨l.nc, x.code, x.p1, x.p2, x.mem⟩ ∧ t = some l.np1 := by
    unfold gettoken ahead at hcall
    simp only [ne_eq, not_true_eq_false, if_false] at hcall
    obtain ⟨u', hahead, hret⟩ := Option.bind_eq_some_iff.mp hcall
    obtain ⟨x, hx, hsome⟩ := Option.bind_eq_some_iff.mp hahead
    have hpair := (Option.some.inj hret).symm
    have hu := congrArg (fun p => p.2.2) hpair
    exact ⟨x, hx, hu.trans (Option.some.inj hsome).symm, congrArg (fun p => p.2.1) hpair⟩
  have hpast : ∀ y, l.Past y → u.mem y = l.mem y ∧ u.Past y := by
    intro y hy
    rw [hu']
    by_cases h0 : l.np2 = 0
    · rw [h0] at hx
      cases hx
      exact ⟨rfl, .inl rfl⟩
    · have hlt : y < l.np2 := hy.resolve_left h0
      cases ts with
      | nil => exact absurd h.2 h0
      | cons tok ts =>
        obtain ⟨-, -, r, hstr, hz, hn, -⟩ := h
        obtain ⟨x', hx', hsame, -⟩ := gettokenAt_spec h0 hstr hz hn
        obtain rfl : x = x' := Option.some.inj (hx.symm.trans hx')
        exact ⟨hsame y hlt, (gettokenAt_lt hx).imp_right fun hp => hlt.trans hp⟩
  refine ⟨t, u, hcall, hu, hpast, fun w hw => ?_⟩
  cases ts with
  | nil => cases hw
  | cons tok ts =>
    cases hw
    obtain ⟨a, ht, hstr⟩ := hdel.2
    refine ⟨a, ht, hstr, fun i hi => ?_⟩
    -- the word ends where the scan has started
    obtain ⟨-, -, r, -, -, -, -, hp2, -⟩ := h
    obtain rfl : a = l.np1 := Option.some.inj (ht.symm.trans ht')
    have hle : l.np1 + i ≤ l.np2 := by omega
    rw [hu']
    exact (gettokenAt_lt hx).imp_right fun hp => hle.trans_lt hp

theorem Holds.keep (h : l.Holds a w) (hpast : ∀ y, l.Past y → l'.mem y = l.mem y ∧ l'.Past y) : l'.Holds a w :=
  ⟨fun i hi => by rw [(hpast _ (h.2 i (by omega))).1]; exact h.1 i hi, fun i hi => (hpast _ (h.2 i hi)).2⟩

end Lexer

/-! ## What a line says -/

/-- The arguments of a command. -/
def argsOf : List Token → List (List Byte)
  | [] => []
  | .word w :: ts => w :: argsOf ts
  | .symbol c :: .word w :: ts => if IsRedirect c then argsOf ts else w :: argsOf ts
  | .symbol _ :: ts => argsOf ts

/-- The redirections of a command. -/
def redirects : List Token → List (Byte × List Byte)
  | [] => []
  | .word _ :: ts => redirects ts
  | .symbol c :: .word w :: ts => if IsRedirect c then (c, w) :: redirects ts else redirects ts
  | .symbol _ :: ts => redirects ts

theorem argsOf_symbol (hc : ¬IsRedirect c) (ts : List Token) : argsOf (.symbol c :: ts) = argsOf ts := by
  cases ts with
  | nil => rfl
  | cons t ts =>
    cases t with
    | word w => exact if_neg hc
    | symbol d => rfl

theorem redirects_symbol (hc : ¬IsRedirect c) (ts : List Token) : redirects (.symbol c :: ts) = redirects ts := by
  cases ts with
  | nil => rfl
  | cons t ts =>
    cases t with
    | word w => exact if_neg hc
    | symbol d => rfl

theorem argsOf_redirect (hc : IsRedirect c) (w : List Byte) (ts : List Token) :
    argsOf (.symbol c :: .word w :: ts) = argsOf ts := if_pos hc

theorem redirects_redirect (hc : IsRedirect c) (w : List Byte) (ts : List Token) :
    redirects (.symbol c :: .word w :: ts) = (c, w) :: redirects ts := if_pos hc

/-- The file of the last redirection of this kind. -/
def lastTo (c : Byte) : List (Byte × List Byte) → Option (List Byte)
  | [] => none
  | (d, w) :: rs => (lastTo c rs).or (if d = c then some w else none)

@[simp] theorem lastTo_cons_self (c : Byte) (w : List Byte) (rs : List (Byte × List Byte)) :
    lastTo c ((c, w) :: rs) = (lastTo c rs).or (some w) := by
  rw [lastTo, if_pos rfl]

theorem lastTo_cons_of_ne {c d : Byte} (h : d ≠ c) (w : List Byte) (rs : List (Byte × List Byte)) :
    lastTo c ((d, w) :: rs) = lastTo c rs := by
  rw [lastTo, if_neg h, Option.or_none]

/-- **The descriptors of the command number `i`**, in a process that had the table `F` and had made `k` pipes before. The
input is the file that the command names last, or the pipe before it. The output is the pipe behind it, and for the last
command the file that the line names last. -/
def stageFds (k : Nat) (F : Fds) (parts : List (List Token)) (i : Nat) : Fds := fun fd =>
  if fd = 0 then
    ((lastTo 0x3c (redirects (parts.getD i []))).map fun w => Desc.file w oRdonly).or
      (if i = 0 then F 0 else some (.pipe (k + i - 1) oRdonly))
  else if fd = 1 then
    if i + 1 < parts.length then some (.pipe (k + i) oWronly)
    else ((lastTo 0x3e (parts.flatMap redirects)).map fun w => Desc.file w oWronly).or (F 1)
  else F fd

/-- The commands of a line have their files and fit into `argv`; `n` arguments of the first have been stored. -/
def Commands (n : Nat) : List (List Token) → Prop
  | [] => True
  | p :: ps => (∃ m, argWords p = some m ∧ n + m < maxArgs) ∧ ∀ q ∈ ps, ∃ m < maxArgs, argWords q = some m

/-! ### Token by token -/

theorem commands_word (h : Commands n (pipeParts (.word w :: ts))) :
    n < maxArgs ∧ Commands (n + 1) (pipeParts ts) := by
  obtain ⟨p, ps, hp⟩ := exists_pipeParts ts
  rw [pipeParts, if_neg (by simp), hp] at h
  obtain ⟨⟨m, hm, hlt⟩, hps⟩ := h
  rw [argWords_word] at hm
  obtain ⟨m', hm', rfl⟩ := Option.map_eq_some_iff.mp hm
  rw [hp]
  exact ⟨by omega, ⟨m', hm', by omega⟩, hps⟩

theorem commands_symbol (hc : ¬IsRedirect c) (hpipe : c ≠ 0x7c)
    (h : Commands n (pipeParts (.symbol c :: ts))) : Commands n (pipeParts ts) := by
  obtain ⟨p, ps, hp⟩ := exists_pipeParts ts
  rw [pipeParts_symbol hpipe, hp] at h
  rw [hp]
  obtain ⟨⟨m, hm, hlt⟩, hps⟩ := h
  rw [argWords_symbol hc] at hm
  exact ⟨⟨m, hm, hlt⟩, hps⟩

/-- A redirection has a file. -/
theorem commands_redirect (hc : IsRedirect c) (h : Commands n (pipeParts (.symbol c :: ts))) :
    ∃ w us, ts = .word w :: us ∧ Commands n (pipeParts us) := by
  rw [pipeParts_symbol hc.ne_pipe] at h
  cases ts with
  | nil =>
    obtain ⟨⟨m, hm, -⟩, -⟩ := h
    rw [show argWords [.symbol c] = none from if_pos hc] at hm
    cases hm
  | cons t us =>
    cases t with
    | symbol d =>
      have hnone : ∀ p, argWords (.symbol c :: .symbol d :: p) = none := fun p => if_pos hc
      rw [pipeParts] at h
      split at h
      · obtain ⟨⟨m, hm, -⟩, -⟩ := h
        rw [show argWords [.symbol c] = none from if_pos hc] at hm
        cases hm
      · obtain ⟨p, ps, hp⟩ := exists_pipeParts us
        rw [hp] at h
        obtain ⟨⟨m, hm, -⟩, -⟩ := h
        exact absurd ((hnone p).symm.trans hm) (by simp)
    | word w =>
      refine ⟨w, us, rfl, ?_⟩
      obtain ⟨p, ps, hp⟩ := exists_pipeParts us
      rw [pipeParts, if_neg (by simp), hp] at h
      rw [hp]
      obtain ⟨⟨m, hm, hlt⟩, hps⟩ := h
      rw [argWords_redirect hc] at hm
      exact ⟨⟨m, hm, hlt⟩, hps⟩

theorem commands_pipe (h : Commands n (pipeParts (.symbol 0x7c :: ts))) :
    Commands 0 (pipeParts ts) := by
  obtain ⟨p, ps, hp⟩ := exists_pipeParts ts
  rw [pipeParts, if_pos rfl, hp] at h
  rw [hp]
  obtain ⟨-, hps⟩ := h
  obtain ⟨m, hlt, hm⟩ := hps p List.mem_cons_self
  exact ⟨⟨m, hm, by omega⟩, fun q hq => hps q (List.mem_cons_of_mem _ hq)⟩

/-! ## Descriptors -/

/-- The input and the output of the shell are open, and two more descriptors are left. -/
structure Roomy (F : Fds) : Prop where
  input : F 0 ≠ none
  output : F 1 ≠ none
  free : ∃ a b, a < b ∧ b < maxfd - 1 ∧ F a = none ∧ F b = none

theorem Roomy.set (h : Roomy F) (hn : n < 2) (d : Desc) : Roomy (update F n (some d)) := by
  obtain ⟨h0, h1, a, b, hab, hb, ha', hb'⟩ := h
  have hset : ∀ m, F m ≠ none → update F n (some d) m ≠ none := by
    intro m hm
    by_cases hmn : m = n
    · simp [hmn]
    · rwa [update_of_ne hmn]
  have hkeep : ∀ m, F m = none → update F n (some d) m = none := by
    intro m hm
    have hmn : m ≠ n := by
      rintro rfl
      rcases (show m = 0 ∨ m = 1 by omega) with rfl | rfl
      · exact h0 hm
      · exact h1 hm
    rwa [update_of_ne hmn]
  exact ⟨hset 0 h0, hset 1 h1, a, b, hab, hb, hkeep a ha', hkeep b hb'⟩

namespace Job

theorem fdAlloc_some (h : fdAlloc F = some i) : i < maxfd - 1 ∧ F i = none := by
  obtain ⟨hnone, hmem⟩ := List.find?_some h, List.mem_of_find?_eq_some h
  exact ⟨List.mem_range.mp hmem, by simpa using hnone⟩

theorem exists_fdAlloc (hi : i < maxfd - 1) (hF : F i = none) : ∃ j, fdAlloc F = some j := by
  have hsome : ((List.range (maxfd - 1)).find? fun i => (F i).isNone).isSome = true := by
    rw [List.find?_isSome]
    exact ⟨i, List.mem_range.mpr hi, by simp [hF]⟩
  exact Option.isSome_iff_exists.mp hsome

theorem close_ret (hi : i < maxfd) (s : Job) : close i s = .ret () { s with fds := update s.fds i none } := by
  rw [close, if_pos hi]
  rfl

theorem dup_ret (hi : i < maxfd) (hj : j < maxfd) (hij : i ≠ j) (hd : s.fds i = some d)
    (hmap : s.maps 0 = true) :
    dup i j s = .ret () { s with fds := update s.fds j (some d), maps := fun n => s.maps (n + 1) } := by
  rw [dup, get_bind, if_pos ⟨hi, by simp [hd]⟩, bind_ret (close_ret hj s), get_bind]
  have hask : askMap { s with fds := update s.fds j none } =
      .ret true { s with fds := update s.fds j none, maps := fun n => s.maps (n + 1) } := by
    rw [← hmap]
    rfl
  rw [bind_ret hask, if_pos rfl]
  dsimp only
  rw [update_of_ne hij, hd]
  show Outcome.ret () { s with fds := update (update s.fds j none) j (some d), maps := _ } = _
  rw [update_idem]

theorem stringAt_of_isString {mem : Nat → Byte} : ∀ (w : List Byte) n a, IsString mem a w → 0 ∉ w →
    w.length < n → stringAt mem n a = some w := by
  intro w
  induction w with
  | nil =>
    intro n a h _ hn
    obtain ⟨m, rfl⟩ := Nat.exists_eq_succ_of_ne_zero (Nat.ne_of_gt hn)
    rw [stringAt, if_pos (IsString.nil_iff.mp h)]
  | cons b w ih =>
    intro n a h hz hn
    obtain ⟨m, rfl⟩ := Nat.exists_eq_succ_of_ne_zero (Nat.ne_of_gt (Nat.zero_lt_of_lt hn))
    obtain ⟨hb, hw⟩ := IsString.cons_iff.mp h
    rw [List.mem_cons, not_or] at hz
    rw [stringAt, hb, if_neg (fun h0 => hz.1 h0.symm), ih m (a + 1) hw hz.2 (by simpa using hn)]
    rfl

theorem openFile_ret {t : Option Nat} (hstr : t.bind (stringAt s.lex.mem fuel) = some w)
    (hfd : fdAlloc s.fds = some i) (hopen : s.opens 0 = true) (mode : Word) :
    openFile fuel t mode s = .ret (some i) { s with
      fds := update s.fds i (some (.file w mode)), opens := fun n => s.opens (n + 1) } := by
  rw [openFile, get_bind, hstr]
  simp only [hfd]
  rw [put_bind, if_pos hopen]
  rfl

theorem pipe_ret (hi : fdAlloc s.fds = some i)
    (hj : fdAlloc (update s.fds i (some (.pipe s.pipes oRdonly))) = some j) (hmap : s.maps 0 = true) :
    pipe s = .ret (some (i, j)) { s with
      fds := update (update s.fds i (some (.pipe s.pipes oRdonly))) j (some (.pipe s.pipes oWronly))
      pipes := s.pipes + 1
      maps := fun n => s.maps (n + 1) } := by
  have hask : askMap s = .ret true { s with maps := fun n => s.maps (n + 1) } := by
    rw [← hmap]
    rfl
  rw [pipe, get_bind, hi]
  simp only [hj]
  rw [bind_ret hask, if_pos rfl]
  rfl

theorem closeAll_ret (s : Job) :
    closeAll s = .ret () { s with fds := fun i => if i < maxfd then none else s.fds i } := by
  have hloop : ∀ n m (s : Job), m + n ≤ maxfd → loop close m n s =
      .ret () { s with fds := fun i => if m ≤ i ∧ i < m + n then none else s.fds i } := by
    intro n
    induction n with
    | zero =>
      intro m s _
      have hnone : (fun i => if m ≤ i ∧ i < m + 0 then none else s.fds i) = s.fds := by
        funext i
        exact if_neg (by omega)
      rw [hnone]
      rfl
    | succ n ih =>
      intro m s hle
      rw [loop, bind_ret (close_ret (by omega) s), ih (m + 1) _ (by omega)]
      have hfds : (fun i => if m + 1 ≤ i ∧ i < m + 1 + n then none else update s.fds m none i) =
          fun i => if m ≤ i ∧ i < m + (n + 1) then none else s.fds i := by
        funext i
        by_cases him : i = m
        · rw [if_neg (by omega), if_pos (by omega), him, update_self]
        · rw [update_of_ne him]
          exact if_congr (by omega) rfl rfl
      rw [hfds]
  rw [closeAll, hloop maxfd 0 s (by omega)]
  congr 2
  funext i
  exact if_congr (by omega) rfl rfl

/-! ### Files and pipes are only passing through -/

/-- `open`, `dup` and `close` for a redirection: the table changes at `n` only. -/
theorem redirectTo_ret (h : s.lex.HasNext fuel (.word w :: ts)) (hw : 0 ∉ w ∧ w.length < fuel) (hF : Roomy s.fds)
    (hopen : s.opens 0 = true) (hmap : s.maps 0 = true) (hn : n < 2) (mode : Word) :
    ∃ l, l.HasNext fuel ts ∧ (∀ y, s.lex.Past y → l.mem y = s.lex.mem y ∧ l.Past y) ∧
      redirectTo fuel n mode s = .ret () { s with
        lex := l
        fds := update s.fds n (some (.file w mode))
        opens := fun n => s.opens (n + 1)
        maps := fun n => s.maps (n + 1) } := by
  obtain ⟨t, l, hcall, hnext, hpast, hword⟩ := h.next
  obtain ⟨x, rfl, hstr, -⟩ := hword w rfl
  refine ⟨l, hnext, hpast, ?_⟩
  obtain ⟨h0, h1, a, b, hab, hb, ha', -⟩ := hF
  obtain ⟨i, hi⟩ := exists_fdAlloc (show a < maxfd - 1 by omega) ha'
  obtain ⟨hlt, hnone⟩ := fdAlloc_some hi
  have hin : i ≠ n := by
    rintro rfl
    rcases (show i = 0 ∨ i = 1 by omega) with rfl | rfl
    · exact h0 hnone
    · exact h1 hnone
  have hmax : maxfd = 32 := rfl
  have htok : nextToken fuel s = .ret (0x77, some x) { s with lex := l } := by
    unfold nextToken
    rw [hcall]
    rfl
  have hread : (some x).bind (stringAt l.mem fuel) = some w := stringAt_of_isString w fuel x hstr hw.1 hw.2
  rw [redirectTo, bind_ret htok]
  dsimp only
  rw [bind_ret (assert_pos rfl), bind_ret (openFile_ret (s := { s with lex := l }) hread hi hopen mode)]
  have hdup := dup_ret (s := { s with
    lex := l
    fds := update s.fds i (some (.file w mode))
    opens := fun n => s.opens (n + 1) }) (d := .file w mode) (by omega) (by omega) hin (update_self ..) hmap
  refine (bind_ret hdup).trans ((close_ret (by omega) _).trans ?_)
  dsimp only
  congr 2
  funext m
  by_cases hm : m = i
  · rw [hm, update_self, update_of_ne hin, hnone]
  · rw [update_of_ne hm]
    by_cases hmn : m = n
    · rw [hmn, update_self, update_self]
    · rw [update_of_ne hmn, update_of_ne hm, update_of_ne hmn]

@[simp] theorem fork_bind {α : Type} (f : Int → JobM α) (s : Job) :
    (fork >>= f) s = f (s.forks 0) { s with forks := fun n => s.forks (n + 1) } := rfl

/-- The end `x` of a pipe becomes the descriptor `n`, and both ends are closed. -/
theorem wire_ret {α : Type} {x y : Nat} (hx : x < maxfd) (hy : y < maxfd) (hn : n < maxfd) (hxn : x ≠ n)
    (hd : s.fds x = some d) (hmap : s.maps 0 = true) (rest : JobM α) :
    (do dup x n; close x; close y; rest : JobM α) s = rest { s with
      fds := update (update (update s.fds n (some d)) x none) y none, maps := fun n => s.maps (n + 1) } :=
  (bind_ret (dup_ret hx hn hxn hd hmap)).trans ((bind_ret (close_ret hx _)).trans (bind_ret (close_ret hy _)))

end Job

/-! ## The descriptors of a command, token by token -/

variable {p q : List Token} {ps : List (List Token)}

theorem stageFds_nil (k : Nat) (F : Fds) : stageFds k F [[]] 0 = F := by
  funext fd
  unfold stageFds
  split
  next h0 => rw [h0]; rfl
  · split
    next h1 => rw [h1]; rfl
    · rfl

theorem stageFds_congr (h : redirects p = redirects q) (k : Nat) (F : Fds) (i : Nat) :
    stageFds k F (p :: ps) i = stageFds k F (q :: ps) i := by
  have hget : redirects ((p :: ps).getD i []) = redirects ((q :: ps).getD i []) := by
    cases i with
    | zero => exact h
    | succ i => rfl
  have hall : (p :: ps).flatMap redirects = (q :: ps).flatMap redirects := by
    rw [List.flatMap_cons, List.flatMap_cons, h]
  unfold stageFds
  rw [hget, hall]
  rfl

/-- A file for the input. -/
theorem stageFds_input (w : List Byte) (k : Nat) (F : Fds) (i : Nat) :
    stageFds k F ((.symbol 0x3c :: .word w :: p) :: ps) i =
      stageFds k (update F 0 (some (.file w oRdonly))) (p :: ps) i := by
  have hred := redirects_redirect (c := 0x3c) (.inl rfl) w p
  funext fd
  unfold stageFds
  split
  · cases i with
    | zero =>
      rw [List.getD_cons_zero, List.getD_cons_zero, hred, lastTo_cons_self]
      cases lastTo 0x3c (redirects p) <;> simp
    | succ i => rfl
  · split
    · rw [List.flatMap_cons, List.flatMap_cons, hred, update_of_ne (by decide)]
      rw [List.cons_append, lastTo_cons_of_ne (by decide)]
      rfl
    · rw [update_of_ne (by assumption)]

/-- A file for the output. -/
theorem stageFds_output (w : List Byte) (k : Nat) (F : Fds) (i : Nat) :
    stageFds k F ((.symbol 0x3e :: .word w :: p) :: ps) i =
      stageFds k (update F 1 (some (.file w oWronly))) (p :: ps) i := by
  have hred := redirects_redirect (c := 0x3e) (.inr rfl) w p
  funext fd
  unfold stageFds
  split
  · rw [update_of_ne (by decide)]
    cases i with
    | zero =>
      rw [List.getD_cons_zero, List.getD_cons_zero, hred, lastTo_cons_of_ne (by decide)]
    | succ i => rfl
  · split
    · rw [List.flatMap_cons, List.flatMap_cons, hred, List.cons_append, lastTo_cons_self]
      cases lastTo 0x3e (redirects p ++ ps.flatMap redirects) <;> simp
    · rw [update_of_ne (by assumption)]

/-- Behind a pipe the input is its end for reading. -/
theorem stageFds_right (k : Nat) (F : Fds) (i : Nat) :
    stageFds k F ([] :: ps) (i + 1) = stageFds (k + 1) (update F 0 (some (.pipe k oRdonly))) ps i := by
  funext fd
  unfold stageFds
  split
  · rw [List.getD_cons_succ, if_neg (Nat.succ_ne_zero i), update_self]
    cases i with
    | zero => rfl
    | succ i => rw [if_neg (Nat.succ_ne_zero i), show k + (i + 1 + 1) - 1 = k + 1 + (i + 1) - 1 by omega]
  · split
    · rw [update_of_ne (by decide), List.length_cons, show k + (i + 1) = k + 1 + i by omega]
      exact if_congr (by omega) rfl rfl
    · rw [update_of_ne (by assumption)]

/-- In front of a pipe the output is its end for writing. -/
theorem stageFds_left (hps : ps ≠ []) (k : Nat) (F : Fds) :
    stageFds k F ([] :: ps) 0 = update F 1 (some (.pipe k oWronly)) := by
  have hlen := List.length_pos_iff.mpr hps
  funext fd
  unfold stageFds
  split
  next h0 =>
    rw [h0, update_of_ne (by decide)]
    rfl
  · split
    next h1 =>
      rw [h1, update_self, List.length_cons, if_pos (by omega)]
      rfl
    · rw [update_of_ne (by assumption)]

/-! ## One token -/

namespace Job

/-- The tokens `ts` are left, the arguments `ws` have been stored, and nothing is going to fail. -/
structure Ready (s : Job) (fuel : Nat) (ts : List Token) (ws : List (List Byte)) : Prop where
  next : s.lex.HasNext fuel ts
  args : ∀ (m : Nat) (w : List Byte), ws[m]? = some w → ∃ a, s.argv m = some a ∧ s.lex.Holds a w
  roomy : Roomy s.fds
  opens : ∀ m, s.opens m = true
  maps : ∀ m, s.maps m = true
  rightpipe : s.rightpipe = 0

/-- The process of the command number `i` of `parts` has got to its end, with the arguments `ws`. -/
structure Ran (s : Job) (parts : List (List Token)) (ws : List (List Byte)) (i : Nat) (t : Job) : Prop where
  args : ∀ (m : Nat) (w : List Byte), ws[m]? = some w → ∃ a, t.argv m = some a ∧ IsString t.lex.mem a w
  fds : t.fds = stageFds s.pipes s.fds parts i
  rightpipe : t.rightpipe = if i + 1 < parts.length then s.forks i else 0
  spawned : t.spawned = s.spawned
  waits : t.waits = s.waits

variable {ws : List (List Byte)}

/-- `parsecmd` has read a token; the strings are still there. -/
theorem Ready.nextToken (h : s.Ready lexFuel ts ws) :
    ∃ t l, Job.nextToken lexFuel s = .ret ((ts.head?.map Token.code).getD 0, t) { s with lex := l } ∧
      Ready { s with lex := l } lexFuel ts.tail ws ∧
      ∀ w, ts.head? = some (.word w) → ∃ a, t = some a ∧ l.Holds a w := by
  obtain ⟨t, l, hcall, hnext, hpast, hword⟩ := h.next.next
  refine ⟨t, l, ?_, ⟨hnext, fun m w hm => ?_, h.roomy, h.opens, h.maps, h.rightpipe⟩, hword⟩
  · unfold Job.nextToken
    rw [hcall]
  · obtain ⟨a, ha, hold⟩ := h.args m w hm
    exact ⟨a, ha, hold.keep hpast⟩

theorem parsecmd_nil (h : s.Ready lexFuel [] ws) (fuel : Nat) :
    ∃ t, parsecmd lexFuel (fuel + 1) ws.length s = .ret ws.length t ∧ s.Ran [[]] ws 0 t := by
  obtain ⟨t, l, hcall, hready, -⟩ := h.nextToken
  refine ⟨{ s with lex := l }, ?_, fun m w hm => ?_, (stageFds_nil _ _).symm, ?_, rfl, rfl⟩
  · rw [parsecmd, bind_ret hcall]
    rfl
  · obtain ⟨a, ha, hold⟩ := hready.args m w hm
    exact ⟨a, ha, hold.1⟩
  · exact h.rightpipe

theorem parsecmd_word (h : s.Ready lexFuel (.word w :: ts) ws) (hlen : ws.length < maxArgs) (fuel : Nat) :
    ∃ s', s'.Ready lexFuel ts (ws ++ [w]) ∧ s'.fds = s.fds ∧ s'.pipes = s.pipes ∧ s'.forks = s.forks ∧
      s'.spawned = s.spawned ∧ s'.waits = s.waits ∧
      parsecmd lexFuel (fuel + 1) ws.length s = parsecmd lexFuel fuel (ws ++ [w]).length s' := by
  obtain ⟨t, l, hcall, hready, hword⟩ := h.nextToken
  obtain ⟨a, rfl, hold⟩ := hword w rfl
  refine ⟨{ s with lex := l, argv := update s.argv ws.length (some a) },
    ⟨hready.next, fun m v hm => ?_, h.roomy, h.opens, h.maps, h.rightpipe⟩, rfl, rfl, rfl, rfl, rfl, ?_⟩
  · show ∃ a', update s.argv ws.length (some a) m = some a' ∧ l.Holds a' v
    rcases Nat.lt_trichotomy m ws.length with hlt | rfl | hgt
    · rw [List.getElem?_append_left hlt] at hm
      rw [update_of_ne (Nat.ne_of_lt hlt)]
      exact hready.args m v hm
    · rw [List.getElem?_concat_length] at hm
      cases hm
      exact ⟨a, update_self .., hold⟩
    · rw [List.getElem?_eq_none (by rw [List.length_append, List.length_singleton]; omega)] at hm
      cases hm
  · rw [parsecmd, bind_ret hcall, List.length_append]
    exact (bind_ret (assert_pos hlen)).trans (bind_ret (bind_ret (assert_pos hlen)))

theorem parsecmd_symbol (h : s.Ready lexFuel (.symbol c :: ts) ws) (hc : c ∈ symbols) (hne : ¬IsRedirect c)
    (hpipe : c ≠ 0x7c) (fuel : Nat) :
    ∃ l, Ready { s with lex := l } lexFuel ts ws ∧
      parsecmd lexFuel (fuel + 1) ws.length s = parsecmd lexFuel fuel ws.length { s with lex := l } := by
  obtain ⟨t, l, hcall, hready, -⟩ := h.nextToken
  refine ⟨l, hready, ?_⟩
  rw [parsecmd, bind_ret hcall]
  show (if c = 0 then _ else if c = 0x77 then _ else if c = 0x3c then _ else if c = 0x3e then _ else
    if c = 0x7c then _ else _ : JobM Nat) _ = _
  rw [if_neg (symbol_code hc).1, if_neg (symbol_code hc).2, if_neg fun h => hne (.inl h),
    if_neg fun h => hne (.inr h), if_neg hpipe]

/-- Where a redirection goes, and how the file is opened. -/
def target (c : Byte) : Nat × Word := if c = 0x3c then (0, oRdonly) else (1, oWronly)

theorem parsecmd_redirect (h : s.Ready lexFuel (.symbol c :: .word w :: ts) ws) (hc : IsRedirect c)
    (hw : 0 ∉ w ∧ w.length < lexFuel) (fuel : Nat) :
    ∃ s', s'.Ready lexFuel ts ws ∧ s'.fds = update s.fds (target c).1 (some (.file w (target c).2)) ∧
      s'.pipes = s.pipes ∧ s'.forks = s.forks ∧ s'.spawned = s.spawned ∧ s'.waits = s.waits ∧
      parsecmd lexFuel (fuel + 1) ws.length s = parsecmd lexFuel fuel ws.length s' := by
  obtain ⟨t, l, hcall, hready, -⟩ := h.nextToken
  have htarget : (target c).1 < 2 := by
    unfold target
    split <;> decide
  obtain ⟨l', hnext, hpast, hret⟩ := redirectTo_ret (s := { s with lex := l }) hready.next hw h.roomy (h.opens 0)
    (h.maps 0) htarget (target c).2
  refine ⟨{ s with
    lex := l'
    fds := update s.fds (target c).1 (some (.file w (target c).2))
    opens := fun n => s.opens (n + 1)
    maps := fun n => s.maps (n + 1) }, ⟨hnext, fun m v hm => ?_, h.roomy.set htarget _, fun m => h.opens (m + 1),
    fun m => h.maps (m + 1), h.rightpipe⟩, rfl, rfl, rfl, rfl, rfl, ?_⟩
  · obtain ⟨a, ha, hold⟩ := hready.args m v hm
    exact ⟨a, ha, hold.keep hpast⟩
  · rw [parsecmd, bind_ret hcall]
    rcases hc with rfl | rfl
    · exact bind_ret hret
    · exact bind_ret hret

/-- The two ends of a new pipe. -/
theorem exists_pipe (h : Roomy F) (k : Nat) : ∃ i j, fdAlloc F = some i ∧
    fdAlloc (update F i (some (.pipe k oRdonly))) = some j ∧ i < maxfd ∧ j < maxfd ∧ 2 ≤ i ∧ 2 ≤ j ∧ i ≠ j ∧
    F i = none ∧ F j = none := by
  obtain ⟨h0, h1, a, b, hab, hb, ha', hb'⟩ := h
  have hmax : maxfd = 32 := rfl
  obtain ⟨i, hi⟩ := exists_fdAlloc (show a < maxfd - 1 by omega) ha'
  obtain ⟨hilt, hinone⟩ := fdAlloc_some hi
  -- one of the two free descriptors is still there
  obtain ⟨m, hm, hmnone⟩ : ∃ m < maxfd - 1, update F i (some (.pipe k oRdonly)) m = none := by
    by_cases hia : i = a
    · exact ⟨b, hb, by rw [update_of_ne (by omega)]; exact hb'⟩
    · exact ⟨a, by omega, by rw [update_of_ne (Ne.symm hia)]; exact ha'⟩
  obtain ⟨j, hj⟩ := exists_fdAlloc hm hmnone
  obtain ⟨hjlt, hjnone⟩ := fdAlloc_some hj
  have hij : i ≠ j := by
    rintro rfl
    rw [update_self] at hjnone
    cases hjnone
  rw [update_of_ne hij.symm] at hjnone
  have hlow : ∀ m, F m = none → 2 ≤ m := by
    intro m hm
    by_contra hlt
    rcases (show m = 0 ∨ m = 1 by omega) with rfl | rfl
    · exact h0 hm
    · exact h1 hm
  exact ⟨i, j, hi, hj, by omega, by omega, hlow i hinone, hlow j hjnone, hij, hinone, hjnone⟩

/-- The table after the wiring: only the descriptor `n` has changed. -/
theorem wired_fds {x y : Nat} (r u d : Desc) (hi : F i = none) (hj : F j = none) (hni : n ≠ i) (hnj : n ≠ j)
    (hxy : x = i ∧ y = j ∨ x = j ∧ y = i) :
    update (update (update (update (update F i (some r)) j (some u)) n (some d)) x none) y none =
      update F n (some d) := by
  have hxn : n ≠ x ∧ n ≠ y := by
    rcases hxy with ⟨rfl, rfl⟩ | ⟨rfl, rfl⟩
    · exact ⟨hni, hnj⟩
    · exact ⟨hnj, hni⟩
  funext m
  by_cases hmn : m = n
  · rw [hmn, update_of_ne hxn.2, update_of_ne hxn.1, update_self, update_self]
  · by_cases hm : m = x ∨ m = y
    · have hnone : F m = none := by
        rcases hxy with ⟨rfl, rfl⟩ | ⟨rfl, rfl⟩ <;> rcases hm with rfl | rfl <;> assumption
      rw [update_of_ne hmn, hnone]
      rcases hm with rfl | rfl
      · by_cases hxy' : m = y
        · rw [hxy', update_self]
        · rw [update_of_ne hxy', update_self]
      · exact update_self ..
    · obtain ⟨hmx, hmy⟩ := not_or.mp hm
      have hmi : m ≠ i ∧ m ≠ j := by
        rcases hxy with ⟨rfl, rfl⟩ | ⟨rfl, rfl⟩
        · exact ⟨hmx, hmy⟩
        · exact ⟨hmy, hmx⟩
      rw [update_of_ne hmy, update_of_ne hmx, update_of_ne hmn, update_of_ne hmi.2, update_of_ne hmi.1,
        update_of_ne hmn]

/-- At a pipe the child goes on with the rest, reading from the pipe. -/
theorem parsecmd_pipe_child (h : s.Ready lexFuel (.symbol 0x7c :: ts) ws) (hfork : s.forks 0 = 0) (fuel : Nat) :
    ∃ s', s'.Ready lexFuel ts [] ∧ s'.fds = update s.fds 0 (some (.pipe s.pipes oRdonly)) ∧
      s'.pipes = s.pipes + 1 ∧ s'.forks = (fun m => s.forks (m + 1)) ∧ s'.spawned = s.spawned ∧ s'.waits = s.waits ∧
      parsecmd lexFuel (fuel + 1) ws.length s = parsecmd lexFuel fuel 0 s' := by
  obtain ⟨t, l, hcall, hready, -⟩ := h.nextToken
  obtain ⟨i, j, hi, hj, hilt, hjlt, hi2, hj2, hij, hinone, hjnone⟩ := exists_pipe h.roomy s.pipes
  have hfds := wired_fds (.pipe s.pipes oRdonly) (.pipe s.pipes oWronly) (.pipe s.pipes oRdonly)
    hinone hjnone (show 0 ≠ i by omega) (show 0 ≠ j by omega) (.inl ⟨rfl, rfl⟩)
  refine ⟨{ s with
    lex := l
    fds := update s.fds 0 (some (.pipe s.pipes oRdonly))
    pipes := s.pipes + 1
    rightpipe := 0
    forks := fun m => s.forks (m + 1)
    maps := fun m => s.maps (m + 2) }, ⟨hready.next, fun m w hm => ?_, h.roomy.set (by decide) _, h.opens,
    fun m => h.maps (m + 2), rfl⟩, rfl, rfl, rfl, rfl, rfl, ?_⟩
  · rw [List.getElem?_nil] at hm
    cases hm
  · rw [parsecmd, bind_ret hcall]
    refine (bind_ret (pipe_ret (s := { s with lex := l }) hi hj (h.maps 0))).trans ?_
    dsimp only
    rw [fork_bind, modify_bind]
    dsimp only
    rw [hfork, if_pos rfl]
    refine (wire_ret hilt hjlt (by decide) (by omega) (d := .pipe s.pipes oRdonly) ?_ (h.maps 1) _).trans ?_
    · dsimp only
      rw [update_of_ne hij, update_self]
    · dsimp only
      rw [hfds]

/-- The process in front of a pipe writes to it. -/
theorem parsecmd_pipe_parent (h : s.Ready lexFuel (.symbol 0x7c :: ts) ws) (hfork : s.forks 0 ≠ 0) (fuel : Nat)
    (hps : ps ≠ []) :
    ∃ t, parsecmd lexFuel (fuel + 1) ws.length s = .ret ws.length t ∧ s.Ran ([] :: ps) ws 0 t := by
  obtain ⟨t, l, hcall, hready, -⟩ := h.nextToken
  obtain ⟨i, j, hi, hj, hilt, hjlt, hi2, hj2, hij, hinone, hjnone⟩ := exists_pipe h.roomy s.pipes
  have hfds := wired_fds (.pipe s.pipes oRdonly) (.pipe s.pipes oWronly) (.pipe s.pipes oWronly)
    hinone hjnone (show 1 ≠ i by omega) (show 1 ≠ j by omega) (.inr ⟨rfl, rfl⟩)
  refine ⟨{ s with
    lex := l
    fds := update s.fds 1 (some (.pipe s.pipes oWronly))
    pipes := s.pipes + 1
    rightpipe := s.forks 0
    forks := fun m => s.forks (m + 1)
    maps := fun m => s.maps (m + 2) }, ?_, fun m w hm => ?_, (stageFds_left hps _ _).symm, ?_, rfl, rfl⟩
  · rw [parsecmd, bind_ret hcall]
    refine (bind_ret (pipe_ret (s := { s with lex := l }) hi hj (h.maps 0))).trans ?_
    dsimp only
    rw [fork_bind, modify_bind, if_neg hfork]
    refine (wire_ret hjlt hilt (by decide) (by omega) (d := .pipe s.pipes oWronly) (update_self ..) (h.maps 1)
      _).trans ?_
    dsimp only
    rw [hfds]
    rfl
  · obtain ⟨a, ha, hold⟩ := hready.args m w hm
    exact ⟨a, ha, hold.1⟩
  · have hlen := List.length_pos_iff.mpr hps
    rw [List.length_cons, if_pos (by omega)]

/-! ## All tokens -/

/-- The arguments of the command number `i`, when `ws` of the first command have been stored. -/
def stageArgs (ws : List (List Byte)) (parts : List (List Token)) (i : Nat) : List (List Byte) :=
  (if i = 0 then ws else []) ++ argsOf (parts.getD i [])

theorem stageArgs_congr (h : argsOf p = argsOf q) (ws : List (List Byte)) (ps : List (List Token)) (i : Nat) :
    stageArgs ws (p :: ps) i = stageArgs ws (q :: ps) i := by
  cases i with
  | zero => exact congrArg (ws ++ ·) h
  | succ i => rfl

theorem stageArgs_word (w : List Byte) (ws : List (List Byte)) (p : List Token) (ps : List (List Token)) (i : Nat) :
    stageArgs (ws ++ [w]) (p :: ps) i = stageArgs ws ((.word w :: p) :: ps) i := by
  cases i with
  | zero => exact List.append_assoc ws [w] (argsOf p)
  | succ i => rfl

/-- The words can be read as strings. -/
def Readable (fuel : Nat) (ts : List Token) : Prop := ∀ w, .word w ∈ ts → 0 ∉ w ∧ w.length < fuel

theorem Readable.tail (h : Readable fuel ts) : Readable fuel ts.tail := fun w hw => h w (List.mem_of_mem_tail hw)

/-- What a process does after a token is what it does as a whole. -/
theorem Ran.after {s s' t : Job} {parts parts' : List (List Token)} (h : s'.Ran parts' ws j t)
    (hfds : stageFds s'.pipes s'.fds parts' j = stageFds s.pipes s.fds parts i)
    (hright : (if j + 1 < parts'.length then s'.forks j else 0) = if i + 1 < parts.length then s.forks i else 0)
    (hspawned : s'.spawned = s.spawned) (hwaits : s'.waits = s.waits) : s.Ran parts ws i t :=
  ⟨h.args, h.fds.trans hfds, h.rightpipe.trans hright, h.spawned.trans hspawned, h.waits.trans hwaits⟩

/-- **`parsecmd` in the process of the command number `i`**: the process that `fork` has made a child `i` times in a
row, and then not again. -/
theorem parsecmd_runs : ∀ fuel ts ws i (s : Job), ts.length < fuel → s.Ready lexFuel ts ws → Readable lexFuel ts →
    SymbolsOnly ts → Commands ws.length (pipeParts ts) → i < (pipeParts ts).length → (∀ m < i, s.forks m = 0) →
    (i + 1 < (pipeParts ts).length → s.forks i ≠ 0) →
    ∃ t, parsecmd lexFuel fuel ws.length s = .ret (stageArgs ws (pipeParts ts) i).length t ∧
      s.Ran (pipeParts ts) (stageArgs ws (pipeParts ts) i) i t := by
  intro fuel
  induction fuel with
  | zero => exact fun _ _ _ _ h => absurd h (Nat.not_lt_zero _)
  | succ fuel ih =>
    intro ts ws i s hfuel h hread hsym hcmd hi hchild hparent
    cases ts with
    | nil =>
      obtain rfl : i = 0 := by simpa [pipeParts] using hi
      have hargs : stageArgs ws (pipeParts []) 0 = ws := List.append_nil ws
      rw [hargs]
      exact parsecmd_nil h fuel
    | cons tok ts =>
      have hshort : ts.length < fuel := by simpa using hfuel
      obtain ⟨p, ps, hp⟩ := exists_pipeParts ts
      cases tok with
      | word w =>
        obtain ⟨hlen, hcmd'⟩ := commands_word hcmd
        obtain ⟨s', hready, hfds, hpipes, hforks, hsp, hw, hret⟩ := parsecmd_word h hlen fuel
        have hparts : pipeParts (.word w :: ts) = (.word w :: p) :: ps := by
          rw [pipeParts, if_neg (by simp), hp]
          rfl
        rw [hparts] at hi hparent
        obtain ⟨t, hrun, hran⟩ := ih ts (ws ++ [w]) i s' hshort hready hread.tail hsym.tail
          (by rw [List.length_append]; exact hcmd') (by rw [hp]; exact hi) (by rw [hforks]; exact hchild)
          (by rw [hp, hforks]; exact hparent)
        rw [hp, stageArgs_word] at hrun hran
        rw [hparts]
        refine ⟨t, hret.trans hrun, hran.after ?_ (by rw [hforks]; rfl) hsp hw⟩
        rw [hpipes, hfds]
        exact stageFds_congr (show redirects p = redirects (.word w :: p) from rfl) _ _ _
      | symbol c =>
        have hc := hsym c List.mem_cons_self
        by_cases hpipe : c = 0x7c
        · subst hpipe
          have hparts : pipeParts (.symbol 0x7c :: ts) = [] :: p :: ps := by
            rw [pipeParts, if_pos rfl, hp]
          have hcmd' := commands_pipe hcmd
          rw [hparts] at hi hparent ⊢
          cases i with
          | zero =>
            obtain ⟨t, hrun, hran⟩ := parsecmd_pipe_parent h (hparent (by simp)) fuel (List.cons_ne_nil p ps)
            have hargs : stageArgs ws ([] :: p :: ps) 0 = ws := List.append_nil ws
            rw [hargs]
            exact ⟨t, hrun, hran⟩
          | succ i =>
            obtain ⟨s', hready, hfds, hpipes, hforks, hsp, hw, hret⟩ :=
              parsecmd_pipe_child h (hchild 0 (Nat.succ_pos i)) fuel
            obtain ⟨t, hrun, hran⟩ := ih ts [] i s' hshort hready hread.tail hsym.tail hcmd'
              (by rw [hp]; simpa using hi) (by rw [hforks]; exact fun m hm => hchild (m + 1) (by omega))
              (by rw [hp, hforks]; exact fun hlt => hparent (by simpa using hlt))
            rw [hp] at hrun hran
            have hargs : stageArgs [] (p :: ps) i = stageArgs ws ([] :: p :: ps) (i + 1) := by
              unfold stageArgs
              rw [ite_self, if_neg (Nat.succ_ne_zero i)]
              rfl
            rw [hargs] at hrun hran
            refine ⟨t, hret.trans hrun, hran.after ?_ ?_ hsp hw⟩
            · rw [hpipes, hfds, stageFds_right]
            · rw [hforks]
              exact if_congr (by simp) rfl rfl
        · by_cases hred : IsRedirect c
          · obtain ⟨w, us, rfl, hcmd'⟩ := commands_redirect hred hcmd
            obtain ⟨q, qs, hq⟩ := exists_pipeParts us
            have hparts : pipeParts (.symbol c :: .word w :: us) = (.symbol c :: .word w :: q) :: qs := by
              rw [pipeParts_symbol hpipe, pipeParts, if_neg (by simp), hq]
              rfl
            rw [hparts] at hi hparent ⊢
            obtain ⟨s', hready, hfds, hpipes, hforks, hsp, hw, hret⟩ :=
              parsecmd_redirect h hred (hread w (by simp)) fuel
            obtain ⟨t, hrun, hran⟩ := ih us ws i s' (by rw [List.length_cons] at hshort; omega) hready
              hread.tail.tail hsym.tail.tail hcmd' (by rw [hq]; exact hi) (by rw [hforks]; exact hchild)
              (by rw [hq, hforks]; exact hparent)
            rw [hq] at hrun hran
            rw [stageArgs_congr (argsOf_redirect hred w q)]
            refine ⟨t, hret.trans hrun, hran.after ?_ (by rw [hforks]; rfl) hsp hw⟩
            rw [hpipes, hfds]
            rcases hred with rfl | rfl
            · exact (stageFds_input w _ _ _).symm
            · exact (stageFds_output w _ _ _).symm
          · have hparts : pipeParts (.symbol c :: ts) = (.symbol c :: p) :: ps := by
              rw [pipeParts_symbol hpipe, hp]
              rfl
            obtain ⟨l, hready, hret⟩ := parsecmd_symbol h hc hred hpipe fuel
            rw [hparts] at hi hparent
            obtain ⟨t, hrun, hran⟩ := ih ts ws i _ hshort hready hread.tail hsym.tail
              (commands_symbol hred hpipe hcmd) (by rw [hp]; exact hi) hchild (by rw [hp]; exact hparent)
            rw [hp] at hrun hran
            rw [hparts, stageArgs_congr (argsOf_symbol hred p)]
            exact ⟨t, hret.trans hrun, hran.after (stageFds_congr (redirects_symbol hred p).symm _ _ _) rfl rfl rfl⟩

/-! ## The whole line -/

theorem readable_tokens (r : List Byte) (hz : 0 ∉ r) (hn : r.length < n) : Readable n (tokens r) := by
  induction r using tokens.induct with
  | case1 =>
    rw [tokens]
    exact fun w hw => absurd hw List.not_mem_nil
  | case2 b r hb ih =>
    rw [tokens, if_pos hb]
    rw [List.mem_cons, not_or] at hz
    exact ih hz.2 ((Nat.lt_succ_self _).trans hn)
  | case3 b r hb hs ih =>
    rw [tokens, if_neg hb, if_pos hs]
    rw [List.mem_cons, not_or] at hz
    intro w hw
    rcases List.mem_cons.mp hw with heq | hw
    · cases heq
    · exact ih hz.2 ((Nat.lt_succ_self _).trans hn) w hw
  | case4 b r hb hs ih =>
    rw [tokens, if_neg hb, if_neg hs]
    have hsub : r.takeWhile wordChar ⊆ r := (List.takeWhile_prefix _).subset
    have hdrop := (List.dropWhile_suffix (l := r) wordChar)
    intro w hw
    rcases List.mem_cons.mp hw with heq | hw
    · rw [Token.word.inj heq]
      refine ⟨fun h0 => hz ?_, ?_⟩
      · rcases List.mem_cons.mp h0 with h0 | h0
        · exact h0 ▸ List.mem_cons_self
        · exact List.mem_cons_of_mem _ (hsub h0)
      · have hle := (List.takeWhile_prefix (l := r) wordChar).length_le
        rw [List.length_cons] at hn ⊢
        omega
    · exact ih (fun h0 => hz (List.mem_cons_of_mem _ (hdrop.subset h0)))
        (lt_of_le_of_lt hdrop.length_le ((Nat.lt_succ_self _).trans hn)) w hw

/-- The arguments are those that are counted. -/
theorem length_argsOf : ∀ (ts : List Token) m, argWords ts = some m → (argsOf ts).length = m := by
  intro ts
  induction ts using argsOf.induct with
  | case1 =>
    rintro m ⟨⟩
    rfl
  | case2 w ts ih =>
    intro m h
    rw [argWords_word] at h
    obtain ⟨m', hm', rfl⟩ := Option.map_eq_some_iff.mp h
    rw [argsOf, List.length_cons, ih m' hm']
  | case3 c w ts hc ih =>
    intro m h
    rw [argWords_redirect hc] at h
    rw [argsOf_redirect hc, ih m h]
  | case4 c w ts hc ih =>
    intro m h
    rw [argWords_symbol hc, argWords_word] at h
    obtain ⟨m', hm', rfl⟩ := Option.map_eq_some_iff.mp h
    rw [argsOf_symbol hc, argsOf, List.length_cons, ih m' hm']
  | case5 c ts hts ih =>
    intro m h
    by_cases hc : IsRedirect c
    · -- there is no file
      have hnone : argWords (.symbol c :: ts) = none := by
        cases ts with
        | nil => exact if_pos hc
        | cons t ts =>
          cases t with
          | symbol d => exact if_pos hc
          | word w => exact absurd rfl (hts w ts)
      rw [hnone] at h
      cases h
    · rw [argWords_symbol hc] at h
      rw [argsOf_symbol hc, ih m h]

end Job

/-- The program is asked for with these arguments, a null pointer behind them, and these descriptors. -/
structure Program.Has (p : Program) (args : List (List Byte)) (fds : Fds) : Prop where
  argv : ∀ (m : Nat) (w : List Byte), args[m]? = some w → ∃ a, p.argv m = some a ∧ IsString p.mem a w
  null : p.argv args.length = none
  fds : p.fds = fds

/-- The envs that a process waits for: its program, and the process behind the pipe. -/
def Job.waitsFor (s : Job) (last : Bool) (i : Nat) : List Int :=
  (if 0 ≤ s.spawned then [s.spawned] else []) ++ if last then [] else [s.forks i]

namespace Job

@[simp] theorem wait_bind {α : Type} (c : Int) (f : Unit → JobM α) (s : Job) :
    (wait c >>= f) s = f () { s with waits := s.waits ++ [c] } := rfl

@[simp] theorem spawn_bind {α : Type} (f : Int → JobM α) (s : Job) :
    (spawn >>= f) s = f s.spawned { s with program := some { argv := s.argv, mem := s.lex.mem, fds := s.fds } } := rfl

@[simp] theorem closeAll_bind {α : Type} (f : Unit → JobM α) (s : Job) :
    (closeAll >>= f) s = f () { s with fds := fun i => if i < maxfd then none else s.fds i } :=
  bind_ret (closeAll_ret s)

/-- The end of `runcmd`. -/
theorem waits_ret (c : Int) (s : Job) :
    (do
      if 0 ≤ c then wait c else pure ()
      let s ← get
      if s.rightpipe ≠ 0 then wait s.rightpipe else pure ()
      closeAll : JobM Unit) s = .ret () { s with
        waits := s.waits ++ ((if 0 ≤ c then [c] else []) ++ if s.rightpipe ≠ 0 then [s.rightpipe] else [])
        fds := fun i => if i < maxfd then none else s.fds i } := by
  by_cases hc : 0 ≤ c <;> by_cases hr : s.rightpipe = 0 <;>
    simp [hc, hr, closeAll_ret, List.append_assoc]

/-- What `runcmd` does after `parsecmd`, if there is a command. -/
theorem finishArgs_ret {parts : List (List Token)} {ws : List (List Byte)} (h : s.Ran parts ws i t)
    (hlen : ws.length < maxArgs) (hfork : i + 1 < parts.length → s.forks i ≠ 0) :
    ∃ u, finishArgs ws.length t = .ret () u ∧ (∀ fd < maxfd, u.fds fd = none) ∧
      (∃ p, u.program = some p ∧ p.Has ws (stageFds s.pipes s.fds parts i)) ∧
      u.waits = s.waits ++ s.waitsFor (decide (parts.length ≤ i + 1)) i := by
  have hstore : storeArg ws.length none t = .ret () { t with argv := update t.argv ws.length none } :=
    bind_ret (assert_pos hlen)
  let p : Program := { argv := update t.argv ws.length none, mem := t.lex.mem, fds := t.fds }
  let u : Job := { t with
    argv := update t.argv ws.length none
    program := some p
    fds := fun i => if i < maxfd then none else t.fds i
    waits := t.waits ++ s.waitsFor (decide (parts.length ≤ i + 1)) i }
  refine ⟨u, ?_, fun fd hfd => if_pos hfd, ⟨p, rfl, fun m w hm => ?_, update_self .., h.fds⟩, ?_⟩
  · rw [finishArgs, bind_ret hstore, spawn_bind, closeAll_bind, waits_ret]
    have hright : (if t.rightpipe ≠ 0 then [t.rightpipe] else []) =
        if decide (parts.length ≤ i + 1) = true then [] else [s.forks i] := by
      rw [h.rightpipe]
      by_cases hlast : i + 1 < parts.length
      · rw [if_pos hlast, if_pos (hfork hlast), if_neg (by simpa using hlast)]
      · rw [if_neg hlast, if_neg (by simp), if_pos (by simpa using hlast)]
    have hwaits : u.waits = t.waits ++ ((if 0 ≤ t.spawned then [t.spawned] else []) ++
        if t.rightpipe ≠ 0 then [t.rightpipe] else []) := by
      rw [hright, h.spawned]
      rfl
    have hfds : (fun m => if m < maxfd then none else if m < maxfd then none else t.fds m) = u.fds := by
      funext m
      dsimp only [u]
      split <;> rfl
    dsimp only
    rw [← hwaits, hfds]
  · obtain ⟨a, ha, hstr⟩ := h.args m w hm
    have hlt : m < ws.length := (List.getElem?_eq_some_iff.mp hm).1
    exact ⟨a, by rw [← ha]; exact update_of_ne (Nat.ne_of_lt hlt) _ _, hstr⟩
  · show t.waits ++ _ = _
    rw [h.waits]

end Job

/-- The line has commands that fit into `argv`, with files behind all `<` and `>`. -/
def Runnable (line : List Byte) : Prop := ∀ p ∈ pipeParts (tokens line), ∃ m < maxArgs, argWords p = some m

theorem Runnable.commands {line : List Byte} (h : Runnable line) : Commands 0 (pipeParts (tokens line)) := by
  obtain ⟨p, ps, hp⟩ := exists_pipeParts (tokens line)
  unfold Runnable at h
  rw [hp] at h ⊢
  obtain ⟨m, hlt, hm⟩ := h p List.mem_cons_self
  exact ⟨⟨m, hm, by omega⟩, fun q hq => h q (List.mem_cons_of_mem _ hq)⟩

/-- **The shell wires a pipeline as the line says.** The process of the command number `i` is the one that `fork` has
made a child `i` times in a row. It comes to its end with all descriptors closed. If its command is not empty, it has
asked for one program, with the arguments of the command and the descriptors `stageFds`, and has waited for it and for
the process behind its pipe. -/
theorem pipeline_wired {line : List Byte} (hz : 0 ∉ line) (hrun : Runnable line) {i : Nat}
    (hi : i < (pipeParts (tokens line)).length) {s : Job} {a fuel : Nat} (ha : a ≠ 0)
    (hline : IsString s.lex.mem a line) (hfuel : line.length < fuel) (hroomy : Roomy s.fds)
    (hopens : ∀ m, s.opens m = true) (hmaps : ∀ m, s.maps m = true) (hchild : ∀ m < i, s.forks m = 0)
    (hparent : i + 1 < (pipeParts (tokens line)).length → s.forks i ≠ 0) :
    ∃ t, Job.runcmd fuel a s = .ret () t ∧ (∀ fd < maxfd, t.fds fd = none) ∧
      (argsOf ((pipeParts (tokens line)).getD i []) ≠ [] →
        (∃ p, t.program = some p ∧ p.Has (argsOf ((pipeParts (tokens line)).getD i []))
          (stageFds s.pipes s.fds (pipeParts (tokens line)) i)) ∧
        t.waits = s.waits ++ s.waitsFor (decide ((pipeParts (tokens line)).length ≤ i + 1)) i) := by
  have hlen := tokens_length line
  -- the first call of `gettoken`
  obtain ⟨x, hx, -, -, hscan⟩ := gettokenAt_spec ha hline hz hfuel
  have hfirst : gettoken fuel a s.lex = some (0, none, ⟨s.lex.c, x.code, x.p1, x.p2, x.mem⟩) := by
    simp only [gettoken, ne_eq, ha, not_false_eq_true, if_true, Lexer.ahead, hx, Option.bind_eq_bind,
      Option.bind_some]
  -- the tokens
  let s₁ : Job := { s with lex := ⟨s.lex.c, x.code, x.p1, x.p2, x.mem⟩, rightpipe := 0 }
  have hready : s₁.Ready fuel (tokens line) [] :=
    ⟨hscan, fun m w hm => absurd hm (by simp), hroomy, hopens, hmaps, rfl⟩
  obtain ⟨t, hret, hran⟩ := Job.parsecmd_runs fuel (tokens line) [] i s₁ (by omega) hready
    (Job.readable_tokens line hz hfuel) (symbolsOnly_tokens line) hrun.commands hi hchild hparent
  have hargs : Job.stageArgs [] (pipeParts (tokens line)) i = argsOf ((pipeParts (tokens line)).getD i []) := by
    unfold Job.stageArgs
    rw [ite_self, List.nil_append]
  rw [hargs] at hret hran
  obtain ⟨m, hm, hcount⟩ := hrun _ (List.getElem_mem hi)
  have hlength : (argsOf ((pipeParts (tokens line)).getD i [])).length = m :=
    Job.length_argsOf _ m (by rw [List.getD_eq_getElem?_getD, List.getElem?_eq_getElem hi]; exact hcount)
  have hcall : Job.runcmd fuel a s = (do
      let argc ← Job.parsecmd fuel fuel 0
      if argc = 0 then Job.closeAll else Job.finishArgs argc : JobM Unit) s₁ := by
    rw [Job.runcmd, get_bind, hfirst]
    rfl
  have hparse : Job.parsecmd fuel fuel 0 s₁ =
      .ret (argsOf ((pipeParts (tokens line)).getD i [])).length t := hret
  rw [hcall, bind_ret hparse]
  by_cases hzero : (argsOf ((pipeParts (tokens line)).getD i [])).length = 0
  · rw [if_pos hzero]
    exact ⟨_, Job.closeAll_ret t, fun fd hfd => if_pos hfd, fun hne => absurd (List.length_eq_zero_iff.mp hzero) hne⟩
  · rw [if_neg hzero]
    obtain ⟨u, hu, hclosed, hprogram, hwaits⟩ := Job.finishArgs_ret hran (by omega) hparent
    exact ⟨u, hu, hclosed, fun _ => ⟨hprogram, hwaits⟩⟩

/-- `a>f|b`, from the address 16 on, in the process of `b`. -/
def smallJob : Job where
  lex := { c := 0, nc := 0, np1 := 0, np2 := 0, mem := fun x => [0x61, 0x3e, 0x66, 0x7c, 0x62].getD (x - 16) 0 }
  argv := fun _ => none
  rightpipe := 0
  fds := fun i => if i < 2 then some (.inherited i) else none
  pipes := 0
  opens := fun _ => true
  maps := fun _ => true
  forks := fun _ => 0
  spawned := 6146
  program := none
  waits := []

theorem tokens_small : tokens [0x61, 0x3e, 0x66, 0x7c, 0x62] =
    [.word [0x61], .symbol 0x3e, .word [0x66], .symbol 0x7c, .word [0x62]] := by
  simp [tokens, strchr, whitespace, symbols, wordChar]

/-- The command `b` reads from the pipe and writes to the file of `a`. -/
theorem pipeline_wired_small : ∃ t p, Job.runcmd 6 16 smallJob = .ret () t ∧ t.program = some p ∧
    p.fds 0 = some (.pipe 0 oRdonly) ∧ p.fds 1 = some (.file [0x66] oWronly) ∧ t.waits = [6146] := by
  have hparts : pipeParts (tokens [0x61, 0x3e, 0x66, 0x7c, 0x62]) =
      [[.word [0x61], .symbol 0x3e, .word [0x66]], [.word [0x62]]] := by
    rw [tokens_small]
    decide
  have hrun : Runnable [0x61, 0x3e, 0x66, 0x7c, 0x62] := by
    unfold Runnable
    rw [hparts]
    intro p hp
    refine ⟨1, by decide, ?_⟩
    simp only [List.mem_cons, List.not_mem_nil, or_false] at hp
    rcases hp with rfl | rfl <;> rfl
  have hline : IsString smallJob.lex.mem 16 [0x61, 0x3e, 0x66, 0x7c, 0x62] := by
    intro i _
    show List.getD _ (16 + i - 16) 0 = _
    rw [Nat.add_sub_cancel_left]
  have hroomy : Roomy smallJob.fds := ⟨by decide, by decide, 2, 3, by decide, by decide, rfl, rfl⟩
  obtain ⟨t, hret, -, hdone⟩ := pipeline_wired (by decide) hrun (i := 1) (by rw [hparts]; decide) (by decide) hline
    (show 5 < 6 by decide) hroomy (fun _ => rfl) (fun _ => rfl) (fun _ _ => rfl)
    (by rw [hparts]; exact fun h => absurd h (by decide))
  rw [hparts] at hdone
  obtain ⟨⟨p, hp, hhas⟩, hwaits⟩ := hdone (by decide)
  refine ⟨t, p, hret, hp, ?_, ?_, hwaits⟩
  · rw [hhas.fds]
    rfl
  · rw [hhas.fds]
    rfl

end Mos
