import Mathlib.Logic.Relation
import Mos.Kern.State

/-!
# The open-file tables of the two file servers

`fs/serv.c` and `fs/fatserv.c` keep a table of `MAXOPEN` open files each. A slot is handed out with
a file id, and the slot is free again when no client maps its `Filefd` page any more: the servers
see that in the reference count of the page. The two tables work alike and differ in the ids they
start with, so the functions are written once and each server has them under its own names.

`MAXOPEN_NUM` is the macro `MAXFS * MAXOPEN`, without parentheses. In `o_fileid += MAXOPEN_NUM` it
is the product; in `fileid % MAXOPEN_NUM` it is `(fileid % MAXFS) * MAXOPEN`, so a lookup looks at
slot 0 or, for an odd id, past the end of the table. `lookup_resolves_iff` says for which ids this
does what a lookup is for.
-/

namespace Mos

open Lib

/-! ## `user/include/fsreq.h` and `fs/serv.h` -/

/-- `MAXOPEN`. -/
def maxopen : Nat := 1024

/-- `MAXFS`. -/
def maxfs : Nat := 2

/-- `NORMAL_FS_NUMBER`. -/
def normalFsNumber : Nat := 1

/-- `FAT32_FS_NUMBER`. -/
def fat32FsNumber : Nat := 2

/-- `FILEVA`. -/
def fileva : Word := 0x60000000

/-- `FILEID2FSNO(fileid)`. -/
def fileid2fsno (fileid : Word) : Nat := fileid.toNat % 2048 / 1024 + 1

/-! ## The table and its functions -/

/-- `struct Open` and `struct FatOpen`: what allocation and lookup read. -/
structure Open where
  oFileid : Word
  oFf : Word

/-- A server's table, and the reference counts that `pageref` reads in its address space. The
entries of `opentab` are those below `maxopen`. -/
structure OpenTab where
  opentab : Nat → Open
  pageref : Word → Nat

/-- An access outside an array. -/
inductive Fault where
  | outOfBounds (index : Nat)
deriving DecidableEq

/-- Functions of a file server. -/
abbrev ServM := Prog OpenTab Err Fault

/-- The table after its initialisation with the ids `base`, `base + 1`, …; no `Filefd` page is
mapped yet. -/
def tabInit (base : Nat) : OpenTab :=
  { opentab := fun i =>
      { oFileid := BitVec.ofNat 32 (i + base), oFf := fileva + by2pg * BitVec.ofNat 32 i },
    pageref := fun _ => 0 }

/-- `syscall_mem_alloc(0, va, PTE_D | PTE_LIBRARY)` at an unmapped page: `mem` tells whether the
kernel has a frame left. -/
def servMemAlloc (mem : Bool) (va : Word) : ServM Unit :=
  if mem then Prog.modify fun s => { s with pageref := Function.update s.pageref va 1 }
  else Prog.fail .noMem

/-- The body of `case 1`: a new id for slot `i`. -/
def tabClaim (i : Nat) : ServM (Nat × Word) := do
  let s ← Prog.get
  let o := s.opentab i
  let o := { o with oFileid := o.oFileid + BitVec.ofNat 32 (maxfs * maxopen) }
  Prog.put { s with opentab := Function.update s.opentab i o }
  return (i, o.oFileid)

/-- The loop of `open_alloc` over the `n` slots from `i` on. Case 0 falls through to case 1. -/
def tabAllocFrom (mem : Bool) (i : Nat) : Nat → ServM (Nat × Word)
  | 0 => Prog.fail .maxOpen
  | n + 1 => do
    let s ← Prog.get
    match s.pageref (s.opentab i).oFf with
    | 0 => do
      servMemAlloc mem (s.opentab i).oFf
      tabClaim i
    | 1 => tabClaim i
    | _ => tabAllocFrom mem (i + 1) n

/-- Allocates a slot: the slot (`*o`) and the id that is returned. -/
def tabAlloc (mem : Bool) : ServM (Nat × Word) := tabAllocFrom mem 0 maxopen

/-- Looks a file id up: the slot (`*po`). -/
def tabLookup (fileid : Word) : ServM Nat := do
  -- `fileid % MAXOPEN_NUM`, as the macro expands
  let i := fileid.toNat % maxfs * maxopen
  Prog.assert (i < maxopen) (.outOfBounds i)
  let s ← Prog.get
  let o := s.opentab i
  if s.pageref o.oFf = 1 ∨ o.oFileid ≠ fileid then
    Prog.fail .inval
  else
    return i

/-- `serve_init`. -/
def serveInit : OpenTab := tabInit 0
/-- `open_alloc`. -/
def openAlloc (mem : Bool) : ServM (Nat × Word) := tabAlloc mem
/-- `open_lookup`; it does not use `envid`. -/
def openLookup (_envid fileid : Word) : ServM Nat := tabLookup fileid

/-- `fatserve_init`. -/
def fatserveInit : OpenTab := tabInit 1024
/-- `fatopen_alloc`. -/
def fatopenAlloc (mem : Bool) : ServM (Nat × Word) := tabAlloc mem
/-- `fatopen_lookup`; it does not use `envid`. -/
def fatopenLookup (_envid fileid : Word) : ServM Nat := tabLookup fileid

/-- The two file servers. -/
inductive FileServer where
  | serv
  | fatserv
deriving DecidableEq

namespace FileServer

/-- The first id of a server's table. -/
def base : FileServer → Nat
  | serv => 0
  | fatserv => 1024

def init : FileServer → OpenTab
  | serv => serveInit
  | fatserv => fatserveInit

def alloc : FileServer → Bool → ServM (Nat × Word)
  | serv => openAlloc
  | fatserv => fatopenAlloc

def lookup : FileServer → Word → Word → ServM Nat
  | serv => openLookup
  | fatserv => fatopenLookup

theorem init_eq (srv : FileServer) : srv.init = tabInit srv.base := by cases srv <;> rfl

theorem alloc_eq (srv : FileServer) (mem : Bool) : srv.alloc mem = tabAlloc mem := by
  cases srv <;> rfl

theorem lookup_eq (srv : FileServer) (envid fileid : Word) :
    srv.lookup envid fileid = tabLookup fileid := by cases srv <;> rfl

end FileServer

/-! ## Runs -/

/-- A table in use: `handed i` is the id that the last allocation of slot `i` returned. -/
structure Served where
  tab : OpenTab
  handed : Nat → Option Word

/-- What happens to a table. Besides allocations there are the clients, which map and unmap the
`Filefd` pages of slots that have one; the server itself never unmaps one. -/
inductive ServStep (srv : FileServer) : Served → Served → Prop where
  | alloc {t : Served} (mem : Bool) {i : Nat} {id : Word} {tab : OpenTab}
      (h : srv.alloc mem t.tab = .ret (i, id) tab) :
      ServStep srv t { tab := tab, handed := Function.update t.handed i (some id) }
  | allocFail {t : Served} (mem : Bool) {e : Err} {tab : OpenTab}
      (h : srv.alloc mem t.tab = .err e tab) : ServStep srv t { t with tab := tab }
  | clients {t : Served} {i n : Nat} (hi : i < maxopen)
      (hmapped : 1 ≤ t.tab.pageref (t.tab.opentab i).oFf) (hn : 1 ≤ n) :
      ServStep srv t
        { t with tab := { t.tab with
            pageref := Function.update t.tab.pageref (t.tab.opentab i).oFf n } }

/-- The states of a server's table. -/
def Served.Reachable (srv : FileServer) (t : Served) : Prop :=
  Relation.ReflTransGen (ServStep srv) { tab := srv.init, handed := fun _ => none } t

/-- `fileid` is the id that the last allocation of slot `i` returned, and a client still maps the
slot's page. -/
def Served.Held (t : Served) (i : Nat) (fileid : Word) : Prop :=
  i < maxopen ∧ t.handed i = some fileid ∧ 2 ≤ t.tab.pageref (t.tab.opentab i).oFf

/-- What a lookup is for: a held id gives its slot, any other id is answered with `-E_INVAL`. -/
def Served.Resolves (srv : FileServer) (t : Served) (envid fileid : Word) : Prop :=
  (∀ i, t.Held i fileid → srv.lookup envid fileid t.tab = .ret i t.tab) ∧
  ((∀ i, ¬t.Held i fileid) → srv.lookup envid fileid t.tab = .err .inval t.tab)

/-! ## What an allocation does -/

/-- An allocation returns a slot that no client holds, with the next id of that slot; a failed one
leaves the table as it was. -/
theorem tabAllocFrom_spec (mem : Bool) : ∀ (n i : Nat) (s : OpenTab),
    (tabAllocFrom mem i n s).Sat
      (fun r s' => r.1 < i + n ∧ s.pageref (s.opentab r.1).oFf ≤ 1 ∧
        r.2 = (s.opentab r.1).oFileid + BitVec.ofNat 32 (maxfs * maxopen) ∧
        s'.opentab = Function.update s.opentab r.1 { s.opentab r.1 with oFileid := r.2 } ∧
        s'.pageref = Function.update s.pageref (s.opentab r.1).oFf 1)
      (fun _ s' => s' = s) (fun _ => False)
  | 0, i, s => rfl
  | n + 1, i, s => by
    rw [tabAllocFrom, Prog.get_bind]
    rcases href : s.pageref (s.opentab i).oFf with _ | _ | m
    · cases mem with
      | false => rfl
      | true => exact ⟨by simp, by simp [href], rfl, rfl, rfl⟩
    · refine ⟨by simp, by simp [href], rfl, rfl, ?_⟩
      show s.pageref = _
      rw [show (1 : Nat) = s.pageref (s.opentab i).oFf from href.symm, Function.update_eq_self]
    · refine (tabAllocFrom_spec mem n (i + 1) s).mono ?_ (fun _ _ h => h) (fun _ h => h)
      rintro r s' ⟨hlt, h⟩
      exact ⟨by omega, h⟩

/-! ## The invariant of a table -/

/-- The `Filefd` pages of two slots are different. -/
theorem oFf_injective {i j : Nat} (hi : i < maxopen) (hj : j < maxopen)
    (h : fileva + by2pg * BitVec.ofNat 32 i = fileva + by2pg * BitVec.ofNat 32 j) : i = j := by
  have h' := congrArg BitVec.toNat (BitVec.add_right_inj _ |>.mp h)
  simp only [maxopen] at hi hj
  simp only [BitVec.toNat_mul, BitVec.toNat_ofNat, show by2pg.toNat = 4096 from rfl] at h'
  omega

/-- What holds of a server's table at any time. The slots that have never been handed out still
have the id they started with, and no page. -/
structure Served.Inv (srv : FileServer) (t : Served) : Prop where
  ff : ∀ i, (t.tab.opentab i).oFf = fileva + by2pg * BitVec.ofNat 32 i
  residue : ∀ i < maxopen, (t.tab.opentab i).oFileid.toNat % 2048 = i + srv.base
  slot : ∀ i < maxopen,
    (t.handed i = none ∧ t.tab.pageref (t.tab.opentab i).oFf = 0 ∧
      (t.tab.opentab i).oFileid = BitVec.ofNat 32 (i + srv.base)) ∨
    (t.handed i = some (t.tab.opentab i).oFileid ∧ 1 ≤ t.tab.pageref (t.tab.opentab i).oFf)

theorem base_le (srv : FileServer) : srv.base ≤ 1024 := by cases srv <;> decide

theorem inv_init (srv : FileServer) :
    Served.Inv srv { tab := srv.init, handed := fun _ => none } := by
  rw [srv.init_eq]
  refine ⟨fun _ => rfl, fun i hi => ?_, fun i _ => .inl ⟨rfl, rfl, rfl⟩⟩
  have := base_le srv
  simp only [maxopen] at hi
  simp only [tabInit, BitVec.toNat_ofNat]
  omega

theorem Served.Inv.clients {srv : FileServer} {t : Served} {i n : Nat} (h : t.Inv srv)
    (hmapped : 1 ≤ t.tab.pageref (t.tab.opentab i).oFf) (hn : 1 ≤ n) :
    Served.Inv srv { t with tab := { t.tab with
      pageref := Function.update t.tab.pageref (t.tab.opentab i).oFf n } } := by
  refine ⟨h.ff, h.residue, fun j hj => ?_⟩
  rcases h.slot j hj with ⟨hnone, hzero, hid⟩ | ⟨hsome, hone⟩
  · refine .inl ⟨hnone, ?_, hid⟩
    have hne : (t.tab.opentab j).oFf ≠ (t.tab.opentab i).oFf := by
      intro heq
      rw [heq] at hzero
      omega
    simp [Function.update_of_ne hne, hzero]
  · refine .inr ⟨hsome, ?_⟩
    by_cases heq : (t.tab.opentab j).oFf = (t.tab.opentab i).oFf
    · simp [heq, hn]
    · simp [Function.update_of_ne heq, hone]

theorem Served.Inv.alloc {srv : FileServer} {t : Served} {mem : Bool} {i : Nat} {id : Word}
    {tab : OpenTab} (h : t.Inv srv) (halloc : srv.alloc mem t.tab = .ret (i, id) tab) :
    Served.Inv srv { tab := tab, handed := Function.update t.handed i (some id) } := by
  rw [srv.alloc_eq] at halloc
  have hspec := tabAllocFrom_spec mem maxopen 0 t.tab
  rw [show tabAllocFrom mem 0 maxopen t.tab = .ret (i, id) tab from halloc] at hspec
  obtain ⟨hlt, -, hid, htab, href⟩ := hspec
  simp only [Nat.zero_add] at hlt hid htab href
  have hff : ∀ j, (tab.opentab j).oFf = (t.tab.opentab j).oFf := by
    intro j
    rw [htab]
    by_cases hji : j = i
    · simp [hji]
    · simp [Function.update_of_ne hji]
  constructor
  · intro j
    rw [hff j, h.ff j]
  · intro j hj
    rw [htab]
    by_cases hji : j = i
    · subst hji
      have := h.residue j hj
      simp only [Function.update_self, hid, maxfs, maxopen, BitVec.toNat_add, BitVec.toNat_ofNat]
      omega
    · rw [Function.update_of_ne hji]
      exact h.residue j hj
  · intro j hj
    simp only [hff j, href]
    by_cases hji : j = i
    · subst hji
      exact .inr ⟨by simp [htab], by simp⟩
    · have hne : (t.tab.opentab j).oFf ≠ (t.tab.opentab i).oFf := by
        rw [h.ff, h.ff]
        exact fun heq => hji (oFf_injective hj hlt heq)
      simpa [Function.update_of_ne hji, Function.update_of_ne hne, htab] using h.slot j hj

theorem Served.Inv.step {srv : FileServer} {t t' : Served} (h : t.Inv srv)
    (hstep : ServStep srv t t') : t'.Inv srv := by
  cases hstep with
  | alloc _ halloc => exact h.alloc halloc
  | @allocFail mem e tab halloc =>
    rw [srv.alloc_eq] at halloc
    have hspec := tabAllocFrom_spec mem maxopen 0 t.tab
    rw [show tabAllocFrom mem 0 maxopen t.tab = .err e tab from halloc] at hspec
    obtain rfl : tab = t.tab := hspec
    exact h
  | clients _ hmapped hn => exact h.clients hmapped hn

theorem Served.Reachable.inv {srv : FileServer} {t : Served} (h : t.Reachable srv) :
    t.Inv srv := by
  induction h with
  | refl => exact inv_init srv
  | tail _ hstep ih => exact ih.step hstep

/-! ## Handles -/

/-- The id of a slot names the slot, so that no two slots share one. -/
theorem residue_of_handed {srv : FileServer} {t : Served} {i : Nat} {fileid : Word}
    (h : t.Reachable srv) (hi : i < maxopen) (hfileid : t.handed i = some fileid) :
    fileid.toNat % 2048 = i + srv.base := by
  rcases h.inv.slot i hi with ⟨hnone, -⟩ | ⟨hsome, -⟩
  · rw [hnone] at hfileid
    cases hfileid
  · rw [hsome, Option.some.injEq] at hfileid
    rw [← hfileid]
    exact h.inv.residue i hi

/-- It names the server too: clients send a request for it to the right one. -/
theorem fileid2fsno_of_handed {srv : FileServer} {t : Served} {i : Nat} {fileid : Word}
    (h : t.Reachable srv) (hi : i < maxopen) (hfileid : t.handed i = some fileid) :
    fileid2fsno fileid = srv.base / 1024 + 1 := by
  rw [fileid2fsno, residue_of_handed h hi hfileid]
  simp only [maxopen] at hi
  cases srv <;> simp only [FileServer.base] <;> omega

theorem tabLookup_odd {fileid : Word} (s : OpenTab) (hodd : fileid.toNat % 2 = 1) :
    tabLookup fileid s = .halt (.outOfBounds 1024) := by
  have hout : ¬fileid.toNat % maxfs * maxopen < maxopen := by
    simp [maxfs, maxopen, hodd]
  rw [tabLookup, Prog.bind_halt (Prog.assert_neg hout)]
  simp [maxfs, maxopen, hodd]

theorem tabLookup_even {fileid : Word} (s : OpenTab) (heven : fileid.toNat % 2 = 0) :
    tabLookup fileid s = if s.pageref (s.opentab 0).oFf = 1 ∨ (s.opentab 0).oFileid ≠ fileid
      then .err .inval s else .ret 0 s := by
  have hindex : fileid.toNat % maxfs * maxopen = 0 := by
    simp [maxfs, heven]
  have hin : fileid.toNat % maxfs * maxopen < maxopen := by
    rw [hindex]
    decide
  rw [tabLookup, Prog.bind_ret (Prog.assert_pos hin), Prog.get_bind, hindex]
  split <;> rfl

/-- An even id passes the test at slot 0 when it is the slot's handle, but also when it is the
slot's first id and the slot has no page yet: a count of 0 is not a count of 1. -/
theorem accepted_iff {srv : FileServer} {t : Served} (h : t.Reachable srv) (fileid : Word) :
    ¬(t.tab.pageref (t.tab.opentab 0).oFf = 1 ∨ (t.tab.opentab 0).oFileid ≠ fileid) ↔
      t.Held 0 fileid ∨ (t.handed 0 = none ∧ fileid = BitVec.ofNat 32 srv.base) := by
  have hslot := h.inv.slot 0 (by decide)
  rw [Nat.zero_add] at hslot
  rw [not_or, not_not, Served.Held]
  rcases hslot with ⟨hnone, hzero, hid⟩ | ⟨hsome, hge⟩
  · simp only [hnone, hzero, hid]
    constructor
    · rintro ⟨-, rfl⟩
      exact .inr ⟨trivial, rfl⟩
    · rintro (⟨-, hhanded, -⟩ | ⟨-, rfl⟩)
      · cases hhanded
      · exact ⟨by decide, rfl⟩
  · simp only [hsome, Option.some.injEq, reduceCtorEq, false_and, or_false]
    constructor
    · rintro ⟨hone, hid⟩
      exact ⟨by decide, hid, by omega⟩
    · rintro ⟨-, hid, hmapped⟩
      exact ⟨by omega, hid⟩

/-- **When a lookup does what it is for.** A lookup resolves exactly the even ids that are no other
slot's handle than slot 0's and that are not slot 0's first id before its first allocation. -/
theorem lookup_resolves_iff {srv : FileServer} {t : Served} (h : t.Reachable srv)
    (envid fileid : Word) :
    t.Resolves srv envid fileid ↔
      fileid.toNat % 2 = 0 ∧ (∀ i, t.Held i fileid → i = 0) ∧
      ¬(t.handed 0 = none ∧ fileid = BitVec.ofNat 32 srv.base) := by
  unfold Served.Resolves
  rw [srv.lookup_eq]
  rcases Nat.mod_two_eq_zero_or_one fileid.toNat with heven | hodd
  · rw [tabLookup_even _ heven]
    have haccepted := accepted_iff h fileid
    constructor
    · rintro ⟨hheld, hother⟩
      have honly : ∀ i, t.Held i fileid → i = 0 := by
        intro i hi
        have hret := hheld i hi
        split at hret
        · cases hret
        · cases hret
          rfl
      refine ⟨heven, honly, fun hfirst => ?_⟩
      have hnot : ∀ i, ¬t.Held i fileid := by
        intro i hi
        obtain rfl := honly i hi
        have hhanded := hi.2.1
        rw [hfirst.1] at hhanded
        cases hhanded
      have hret := hother hnot
      rw [if_neg (haccepted.mpr (.inr hfirst))] at hret
      cases hret
    · rintro ⟨-, honly, hfirst⟩
      constructor
      · intro i hi
        obtain rfl := honly i hi
        rw [if_neg (haccepted.mpr (.inl hi))]
      · intro hnot
        rw [if_pos]
        by_contra hpass
        rcases haccepted.mp hpass with hheld | hzero
        · exact hnot 0 hheld
        · exact hfirst hzero
  · rw [tabLookup_odd _ hodd]
    constructor
    · rintro ⟨hheld, hother⟩
      by_cases hex : ∃ i, t.Held i fileid
      · obtain ⟨i, hi⟩ := hex
        cases hheld i hi
      · rw [not_exists] at hex
        cases hother hex
    · rintro ⟨heven, -⟩
      omega

/-- The client of slot 0 of the first server resolves its handle. -/
theorem lookup_resolves_slot_zero : ∃ t : Served, t.Reachable .serv ∧ t.Held 0 2048 ∧
    t.Resolves .serv 4097 2048 := by
  have halloc : Served.Reachable .serv _ := .single (.alloc true rfl)
  have hheld := Relation.ReflTransGen.tail halloc (.clients (i := 0) (n := 2) (by decide)
    (by decide) (by decide))
  refine ⟨_, hheld, ⟨by decide, by decide, by decide⟩, ?_⟩
  refine (lookup_resolves_iff hheld 4097 2048).mpr ⟨by decide, fun i hi => ?_, by decide⟩
  have hslot := residue_of_handed hheld hi.1 hi.2.1
  simpa [FileServer.base] using hslot.symm

/-- **Handles do not resolve in general.** With two files open, the handle of the second, 2049,
makes the lookup read entry 1024 of the table, which has 1024 entries. -/
theorem lookup_out_of_table : ¬∀ (srv : FileServer) (t : Served) (envid fileid : Word),
    t.Reachable srv → t.Resolves srv envid fileid := by
  intro hall
  have hfirst : Served.Reachable .serv _ := .single (.alloc true rfl)
  have hheld := Relation.ReflTransGen.tail hfirst (.clients (i := 0) (n := 2) (by decide)
    (by decide) (by decide))
  have hsecond := Relation.ReflTransGen.tail hheld (.alloc true rfl)
  have hboth := Relation.ReflTransGen.tail hsecond (.clients (i := 1) (n := 2) (by decide)
    (by decide) (by decide))
  have hslot := (hall .serv _ 4097 2049 hboth).1 1 ⟨by decide, by decide, by decide⟩
  rw [show FileServer.lookup .serv 4097 2049 _ = _ from tabLookup_odd _ (by decide)] at hslot
  cases hslot

/-! ## Which server a handle belongs to -/

/-- The ids of a table lead to its server. -/
theorem fileid2fsno_of_slot {srv : FileServer} {t : Served} {i : Nat} (h : t.Reachable srv)
    (hi : i < maxopen) : fileid2fsno (t.tab.opentab i).oFileid = srv.base / 1024 + 1 := by
  have hres := h.inv.residue i hi
  simp only [maxopen] at hi
  rw [fileid2fsno, hres]
  cases srv <;> simp only [FileServer.base] <;> omega

/-- Slots with the same id are the same slot of the same server. -/
theorem slot_of_fileid {srv srv' : FileServer} {t u : Served} {i j : Nat} (ht : t.Reachable srv)
    (hu : u.Reachable srv') (hi : i < maxopen) (hj : j < maxopen)
    (heq : (t.tab.opentab i).oFileid = (u.tab.opentab j).oFileid) :
    i = j ∧ srv.base = srv'.base := by
  have hres := ht.inv.residue i hi
  have hres' := hu.inv.residue j hj
  rw [heq, hres'] at hres
  simp only [maxopen] at hi hj
  have hserv : FileServer.serv.base = 0 := rfl
  have hfat : FileServer.fatserv.base = 1024 := rfl
  cases srv <;> cases srv' <;> omega

/-- **Handles lead back to the server that issued them**: the ids of the two tables keep their
residues, whatever is allocated how often, so they name their server, and no two slots of the two
tables have the same id. -/
theorem handles_route {t u : Served} (ht : t.Reachable .serv) (hu : u.Reachable .fatserv) :
    (∀ i < maxopen, fileid2fsno (t.tab.opentab i).oFileid = normalFsNumber) ∧
    (∀ i < maxopen, fileid2fsno (u.tab.opentab i).oFileid = fat32FsNumber) ∧
    (∀ i < maxopen, ∀ j < maxopen, i ≠ j →
      (t.tab.opentab i).oFileid ≠ (t.tab.opentab j).oFileid) ∧
    (∀ i < maxopen, ∀ j < maxopen, i ≠ j →
      (u.tab.opentab i).oFileid ≠ (u.tab.opentab j).oFileid) ∧
    (∀ i < maxopen, ∀ j < maxopen, (t.tab.opentab i).oFileid ≠ (u.tab.opentab j).oFileid) := by
  refine ⟨fun i hi => fileid2fsno_of_slot ht hi, fun i hi => fileid2fsno_of_slot hu hi, ?_, ?_, ?_⟩
  · exact fun i hi j hj hne heq => hne (slot_of_fileid ht ht hi hj heq).1
  · exact fun i hi j hj hne heq => hne (slot_of_fileid hu hu hi hj heq).1
  · intro i hi j hj heq
    have hbase := (slot_of_fileid ht hu hi hj heq).2
    simp [FileServer.base] at hbase

/-- One file is open at each of the servers. -/
theorem handles_route_one_each : ∃ t u : Served, t.Reachable .serv ∧ u.Reachable .fatserv ∧
    (t.tab.opentab 0).oFileid = 2048 ∧ (u.tab.opentab 0).oFileid = 3072 ∧
    (t.tab.opentab 0).oFileid ≠ (u.tab.opentab 0).oFileid := by
  have ht : Served.Reachable .serv _ := .single (.alloc true rfl)
  have hu : Served.Reachable .fatserv _ := .single (.alloc true rfl)
  exact ⟨_, _, ht, hu, rfl, rfl, (handles_route ht hu).2.2.2.2 0 (by decide) 0 (by decide)⟩

end Mos
