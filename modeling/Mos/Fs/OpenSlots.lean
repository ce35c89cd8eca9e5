import Mos.Fs.OpenTable
import Mos.Kern.Spaces

/-!
# Slots of the open-file tables, among running clients

`open_alloc` reads the reference counts of the `Filefd` pages one after the other, while clients map
and unmap these pages: a client gets a page with the reply to its open request, passes it on with
`dup` and `fork`, and drops it with `close`. Here each access of `open_alloc` is a step of its own, and
the steps of all the envs interleave.

A slot that `open_alloc` takes is mapped by the server alone, and stays so until the function has
returned, since only an env that maps a page can pass it on. When it returns `-E_MAX_OPEN`, every slot
was in use when its count was read (`slot_not_recycled`); but by then a client may have closed a file
whose slot the scan had passed (`maxopen_slot_free`).

The address spaces are those of `Spaces`: its calls are what the kernel's do, and the counts are the
kernel's `pp_ref` (`ppRef_eq_refs`).
-/

namespace Mos

open Lib Function

/-! ## The steps -/

/-- How far `open_alloc` has got. -/
inductive AllocPc where
  /-- The server is not in `open_alloc`. -/
  | idle
  /-- `pageref(opentab[i].o_ff)`: the page table entry. -/
  | look (i : Nat)
  /-- `pageref(opentab[i].o_ff)`: the count of the frame `f`. -/
  | count (i f : Nat)
  /-- `case 0`. -/
  | alloc (i : Nat)
  /-- `case 1`. -/
  | claim (i : Nat)
  | ret (r : Except Err (Nat × Word))

/-- The head of the loop, `i < MAXOPEN`. -/
def AllocPc.head (i : Nat) : AllocPc := if i < maxopen then .look i else .ret (.error .maxOpen)

/-- The `switch`. -/
def AllocPc.switch (i : Nat) : Nat → AllocPc
  | 0 => .alloc i
  | 1 => .claim i
  | _ => .head (i + 1)

/-- A file server among the address spaces of all envs. -/
structure Desk where
  spaces : Spaces
  opentab : Nat → Open
  pc : AllocPc

namespace Desk

/-- The page of slot `i`. -/
def page (d : Desk) (i : Nat) : Nat := ppn (d.opentab i).oFf

/-- `n` is the page of a slot. -/
def Window (d : Desk) (n : Nat) : Prop := ∃ i < maxopen, n = d.page i

/-- The frame `f` is mapped nowhere. -/
def Fresh (d : Desk) (f : Nat) : Prop := f < 2 ^ 20 ∧ ∀ e n, d.spaces.frame e n ≠ some f

/-- No page has more mappings than its count can say. -/
def Bounded (d : Desk) : Prop := ∀ f, d.spaces.refs f ≤ 65535

end Desk

/-- `pages[f].pp_ref`, which has 16 bits. -/
@[irreducible] def Spaces.ppRef (s : Spaces) (f : Nat) : Nat := s.refs f % 65536

theorem Spaces.ppRef_of_le {s : Spaces} {f : Nat} (h : s.refs f ≤ 65535) : s.ppRef f = s.refs f := by
  unfold Spaces.ppRef
  omega

/-- `memset(va, 0, BY2PG)` on a frame. -/
def Spaces.clear (s : Spaces) (f : Nat) : Spaces := { s with mem := update s.mem f fun _ => 0 }

/-- The page at which a server receives requests: `REQVA`. -/
def reqPage : Nat := ppn 0x0ffff000

/-- A step of the server `srv` or of another env. -/
inductive DeskStep (srv : EnvPtr) : Desk → Desk → Prop where
  | start {d : Desk} (h : d.pc = .idle) : DeskStep srv d { d with pc := .head 0 }
  | look {d : Desk} {i : Nat} (h : d.pc = .look i) : DeskStep srv d { d with
      pc := match d.spaces.pte srv (d.page i) with
        | none => .switch i 0
        | some w => .count i (ppn w) }
  | count {d : Desk} {i f : Nat} (h : d.pc = .count i f) :
      DeskStep srv d { d with pc := .switch i (d.spaces.ppRef f) }
  | alloc {d : Desk} {i f : Nat} (h : d.pc = .alloc i) (hf : d.Fresh f) : DeskStep srv d { d with
      spaces := d.spaces.memAlloc srv (d.page i) (pteD ||| pteLibrary) f
      pc := .claim i }
  | allocFail {d : Desk} {i : Nat} (h : d.pc = .alloc i) :
      DeskStep srv d { d with pc := .ret (.error .noMem) }
  | claim {d : Desk} {i f : Nat} {id : Word} (h : d.pc = .claim i)
      (hf : d.spaces.frame srv (d.page i) = some f)
      (hid : id = (d.opentab i).oFileid + BitVec.ofNat 32 (maxfs * maxopen)) : DeskStep srv d { d with
      spaces := d.spaces.clear f
      opentab := update d.opentab i { d.opentab i with oFileid := id }
      pc := .ret (.ok (i, id)) }
  | leave {d : Desk} {r : Except Err (Nat × Word)} (h : d.pc = .ret r) :
      DeskStep srv d { d with pc := .idle }
  /-- A reply of the server with one of its pages. -/
  | reply {d : Desk} {t : Spaces} {n dstn : Nat} {dst : EnvPtr} {perm : Word} (h : d.pc = .idle)
      (hdst : dst ≠ srv) (hn : dstn < npte) (hperm : perm < 4096)
      (ht : d.spaces.memMap srv n dst dstn perm = some t) : DeskStep srv d { d with spaces := t }
  /-- What else the server does to its memory, outside the pages of the slots. -/
  | ownAlloc {d : Desk} {n f : Nat} {perm : Word} (h : d.pc = .idle) (hn : n < npte)
      (hout : ¬d.Window n) (hperm : perm < 4096) (hf : d.Fresh f) :
      DeskStep srv d { d with spaces := d.spaces.memAlloc srv n perm f }
  | ownMap {d : Desk} {t : Spaces} {n dstn : Nat} {perm : Word} (h : d.pc = .idle) (hn : dstn < npte)
      (hsrc : ¬d.Window n) (hdst : ¬d.Window dstn) (hperm : perm < 4096)
      (ht : d.spaces.memMap srv n srv dstn perm = some t) : DeskStep srv d { d with spaces := t }
  | ownUnmap {d : Desk} {n : Nat} (h : d.pc = .idle) (hn : n < npte) (hout : ¬d.Window n) :
      DeskStep srv d { d with spaces := d.spaces.memUnmap srv n }
  /-- A request, with a page that is no slot's. -/
  | request {d : Desk} {t : Spaces} {src : EnvPtr} {n : Nat} {perm : Word} (h : d.pc = .idle)
      (hsrc : src ≠ srv) (hperm : perm < 4096)
      (hpage : ∀ i < maxopen, d.spaces.frame src n ≠ d.spaces.frame srv (d.page i))
      (ht : d.spaces.memMap src n srv reqPage perm = some t) : DeskStep srv d { d with spaces := t }
  /-- Another env maps one of its pages, for itself (`dup`), for a child (`fork`) or in a message. -/
  | map {d : Desk} {t : Spaces} {src dst : EnvPtr} {n dstn : Nat} {perm : Word} (hsrc : src ≠ srv)
      (hdst : dst ≠ srv) (hn : dstn < npte) (hperm : perm < 4096)
      (ht : d.spaces.memMap src n dst dstn perm = some t) : DeskStep srv d { d with spaces := t }
  | fresh {d : Desk} {e : EnvPtr} {n f : Nat} {perm : Word} (he : e ≠ srv) (hn : n < npte)
      (hperm : perm < 4096) (hf : d.Fresh f) :
      DeskStep srv d { d with spaces := d.spaces.memAlloc e n perm f }
  | unmap {d : Desk} {e : EnvPtr} {n : Nat} (he : e ≠ srv) (hn : n < npte) :
      DeskStep srv d { d with spaces := d.spaces.memUnmap e n }

/-- The states that a server of kind `kind`, run by the env `srv`, can get into. -/
inductive Desk.Reachable (kind : FileServer) (srv : EnvPtr) : Desk → Prop where
  | init {s : Spaces} (hlt : ∀ e n, s.pte e n ≠ none → n < npte)
      (hnone : ∀ i < maxopen, s.pte srv (ppn (kind.init.opentab i).oFf) = none)
      (hcount : ∀ f, s.refs f ≤ 65535) :
      Desk.Reachable kind srv ⟨s, kind.init.opentab, .idle⟩
  | step {d d' : Desk} (h : Desk.Reachable kind srv d) (hstep : DeskStep srv d d')
      (hcount : d'.Bounded) : Desk.Reachable kind srv d'

/-! ## The invariant -/

namespace Desk

variable {kind : FileServer} {srv e a : EnvPtr} {d d' : Desk} {i j n m f : Nat} {o : Option Nat}
  {t : Spaces}

/-- The server maps slot `i` to a frame that is mapped nowhere else. -/
def Sole (srv : EnvPtr) (d : Desk) (i : Nat) : Prop :=
  ∃ f, d.spaces.frame srv (d.page i) = some f ∧
    ∀ e n, d.spaces.frame e n = some f → e = srv ∧ n = d.page i

/-- What `open_alloc` knows of the slot it is at. -/
def PcOk (srv : EnvPtr) (d : Desk) : AllocPc → Prop
  | .idle => True
  | .look i => i < maxopen
  | .count i f => i < maxopen ∧ d.spaces.frame srv (d.page i) = some f
  | .alloc i => i < maxopen ∧ d.spaces.frame srv (d.page i) = none
  | .claim i => i < maxopen ∧ d.Sole srv i
  | .ret (.ok (i, _)) => i < maxopen ∧ d.Sole srv i
  | .ret (.error _) => True

/-- `open_alloc` has decided for slot `i`. -/
def Takes (d : Desk) (i : Nat) : Prop := d.pc = .claim i ∨ ∃ id, d.pc = .ret (.ok (i, id))

/-- What holds at any time. The server maps a slot's frame at the page of the slot only. -/
structure Inv (srv : EnvPtr) (d : Desk) : Prop where
  lt : ∀ e n f, d.spaces.frame e n = some f → n < npte
  ff : ∀ i, (d.opentab i).oFf = fileva + by2pg * BitVec.ofNat 32 i
  once : ∀ i < maxopen, ∀ n f, d.spaces.frame srv (d.page i) = some f →
    d.spaces.frame srv n = some f → n = d.page i
  pc : d.PcOk srv d.pc

theorem Inv.goto (h : d.Inv srv) {p : AllocPc} (hp : d.PcOk srv p) :
    ({ d with pc := p } : Desk).Inv srv := by
  refine ⟨h.lt, h.ff, h.once, ?_⟩
  rcases p with _ | i | ⟨i, f⟩ | i | i | (er | ⟨i, id⟩) <;> exact hp

theorem Inv.sole (h : d.Inv srv) (ht : d.Takes i) : i < maxopen ∧ d.Sole srv i := by
  have hpc := h.pc
  rcases ht with hclaim | ⟨id, hret⟩
  · rw [hclaim] at hpc
    exact hpc
  · rw [hret] at hpc
    exact hpc

theorem page_of_ff (hff : ∀ i, (d.opentab i).oFf = fileva + by2pg * BitVec.ofNat 32 i)
    (hi : i < maxopen) : d.page i = 0x60000 + i := by
  simp only [maxopen] at hi
  rw [page, hff, ppn_eq]
  simp only [BitVec.toNat_add, BitVec.toNat_mul, BitVec.toNat_ofNat,
    show by2pg.toNat = 4096 from rfl, show fileva.toNat = 0x60000000 from rfl]
  omega

theorem Inv.page_lt (h : d.Inv srv) (hi : i < maxopen) : d.page i < npte := by
  rw [page_of_ff h.ff hi]
  simp only [maxopen] at hi
  have : npte = 0x7f400 := by decide
  omega

theorem Inv.page_inj (h : d.Inv srv) (hi : i < maxopen) (hj : j < maxopen)
    (heq : d.page i = d.page j) : i = j := by
  rw [page_of_ff h.ff hi, page_of_ff h.ff hj] at heq
  omega

/-- One mapping is different. -/
def Changed (s : Spaces) (a : EnvPtr) (m : Nat) (o : Option Nat) (t : Spaces) : Prop :=
  ∀ e n, t.frame e n = if e = a ∧ n = m then o else s.frame e n

theorem changed_alloc (hf : d.Fresh f) {perm : Word} (hperm : perm < 4096) :
    Changed d.spaces a m (some f) (d.spaces.memAlloc a m perm f) := fun _ _ =>
  Spaces.frame_memAlloc hf.1 hperm

theorem changed_unmap : Changed d.spaces a m none (d.spaces.memUnmap a m) := fun _ _ =>
  Spaces.frame_setPte

theorem Changed.lt (hc : Changed d.spaces a m o t) (h : d.Inv srv) (hm : m < npte) :
    ∀ e n f, t.frame e n = some f → n < npte := by
  intro e n f hf
  rw [hc] at hf
  split at hf
  next heq => rw [heq.2]; exact hm
  next => exact h.lt e n f hf

/-- A mapping of an env other than the server changes, and not to the slot that `open_alloc` takes. -/
theorem Inv.other (h : d.Inv srv) (ha : a ≠ srv) (hm : m < npte) (hc : Changed d.spaces a m o t)
    (ho : ∀ i f, d.Takes i → d.spaces.frame srv (d.page i) = some f → o ≠ some f) :
    ({ d with spaces := t } : Desk).Inv srv := by
  have hsrv : ∀ n, t.frame srv n = d.spaces.frame srv n := by
    intro n
    rw [hc, if_neg]
    rintro ⟨rfl, -⟩
    exact ha rfl
  have hsole : ∀ i, d.Takes i → i < maxopen ∧ ({ d with spaces := t } : Desk).Sole srv i := by
    intro i ht
    obtain ⟨hi, f, hf, honly⟩ := h.sole ht
    refine ⟨hi, f, (hsrv _).trans hf, fun e n hn => ?_⟩
    rw [hc] at hn
    split at hn
    · exact absurd hn (ho i f ht hf)
    · exact honly e n hn
  refine ⟨hc.lt h hm, h.ff, ?_, ?_⟩
  · intro i hi n f hf hn
    rw [hsrv] at hf hn
    exact h.once i hi n f hf hn
  · have hpc := h.pc
    show ({ d with spaces := t } : Desk).PcOk srv d.pc
    rcases hd : d.pc with _ | i | ⟨i, f⟩ | i | i | (er | ⟨i, id⟩) <;> rw [hd] at hpc
    · trivial
    · exact hpc
    · exact ⟨hpc.1, (hsrv _).trans hpc.2⟩
    · exact ⟨hpc.1, (hsrv _).trans hpc.2⟩
    · exact hsole i (.inl hd)
    · trivial
    · exact hsole i (.inr ⟨id, hd⟩)

/-- The server changes a mapping of its own outside the slots, to a frame that is no slot's. -/
theorem Inv.own (h : d.Inv srv) (hidle : d.pc = .idle) (hm : m < npte) (hout : ¬d.Window m)
    (hc : Changed d.spaces srv m o t)
    (ho : ∀ i < maxopen, ∀ f, d.spaces.frame srv (d.page i) = some f → o ≠ some f) :
    ({ d with spaces := t } : Desk).Inv srv := by
  have hpage : ∀ i < maxopen, t.frame srv (d.page i) = d.spaces.frame srv (d.page i) := by
    intro i hi
    rw [hc, if_neg]
    rintro ⟨-, heq⟩
    exact hout ⟨i, hi, heq.symm⟩
  refine ⟨hc.lt h hm, h.ff, ?_, ?_⟩
  · intro i hi n f hf hn
    have hf' : d.spaces.frame srv (d.page i) = some f := (hpage i hi).symm.trans hf
    rw [hc] at hn
    split at hn
    · exact absurd hn (ho i hi f hf')
    · exact h.once i hi n f hf' hn
  · show ({ d with spaces := t } : Desk).PcOk srv d.pc
    rw [hidle]
    trivial

/-- A frame that is mapped nowhere is no slot's. -/
theorem Fresh.ne (hf : d.Fresh f) {g : Nat} (hg : d.spaces.frame e n = some g) :
    some f ≠ some g := by
  rintro heq
  rw [← heq] at hg
  exact hf.2 e n hg

/-- What an env other than the server maps is not the frame that `open_alloc` takes. -/
theorem Inv.ne_of_takes (h : d.Inv srv) (ht : d.Takes i) {g : Nat}
    (hg : d.spaces.frame srv (d.page i) = some g) (ha : a ≠ srv)
    (hf : d.spaces.frame a n = some f) : some f ≠ some g := by
  obtain ⟨-, g', hg', honly⟩ := h.sole ht
  obtain rfl : g = g' := Option.some.inj (hg.symm.trans hg')
  rintro heq
  rw [heq] at hf
  exact ha (honly a n hf).1

theorem frame_of_pte {w : Word} (h : d.spaces.pte e n = some w) :
    d.spaces.frame e n = some (ppn w) := by
  rw [Spaces.frame, h, Option.map_some]

/-- A frame that is counted once is mapped once. -/
theorem sole_of_refs (h : d.Inv srv) (hcount : d.spaces.refs f = 1) (hi : i < maxopen)
    (hf : d.spaces.frame srv (d.page i) = some f) : d.Sole srv i := by
  refine ⟨f, hf, fun e n hn => ?_⟩
  have huniq := refCount_one_unique hcount (s := (srv, ⟨d.page i, h.page_lt hi⟩))
    (t := (e, ⟨n, h.lt e n f hn⟩)) hf hn
  exact ⟨(congrArg Prod.fst huniq).symm, (congrArg (fun p => p.2.val) huniq).symm⟩

/-- A slot that is counted more than once is mapped by another env. -/
theorem Inv.other_of_refs (h : d.Inv srv) (hcount : 1 < d.spaces.refs f) (hi : i < maxopen)
    (hf : d.spaces.frame srv (d.page i) = some f) :
    ∃ e n, e ≠ srv ∧ d.spaces.frame e n = some f := by
  obtain ⟨⟨e, n⟩, hne, hn⟩ := exists_other_of_refCount hcount (srv, ⟨d.page i, h.page_lt hi⟩)
  refine ⟨e, n, ?_, hn⟩
  rintro rfl
  exact hne (Prod.ext rfl (Fin.ext (h.once i hi n f hf hn)))

theorem pcOk_head : d.PcOk srv (.head i) := by
  unfold AllocPc.head
  split
  next hi => exact hi
  next => trivial

/-- The `switch` goes on with what the count says. -/
theorem Inv.pcOk_switch (h : d.Inv srv) (hi : i < maxopen)
    (hf : d.spaces.frame srv (d.page i) = some f) (hcount : d.spaces.refs f ≤ 65535) :
    d.PcOk srv (.switch i (d.spaces.ppRef f)) := by
  have hpos : 0 < d.spaces.refs f :=
    refCount_pos (s := (srv, (⟨d.page i, h.page_lt hi⟩ : Fin npte))) hf
  rw [Spaces.ppRef_of_le hcount]
  rcases hr : d.spaces.refs f with _ | _ | r
  · omega
  · exact ⟨hi, sole_of_refs h hr hi hf⟩
  · exact pcOk_head

theorem not_takes_of_idle (h : d.pc = .idle) : ¬d.Takes i := by
  rintro (hc | ⟨id, hr⟩)
  · rw [h] at hc
    cases hc
  · rw [h] at hr
    cases hr

theorem reqPage_not_window (h : d.Inv srv) : ¬d.Window reqPage := by
  rintro ⟨i, hi, heq⟩
  rw [page_of_ff h.ff hi] at heq
  have : reqPage = 0xffff := by decide
  omega

/-- The server maps a fresh frame for a slot that has none. -/
theorem Inv.alloc (h : d.Inv srv) (hi : i < maxopen) (hf : d.Fresh f) :
    ({ d with
      spaces := d.spaces.memAlloc srv (d.page i) (pteD ||| pteLibrary) f
      pc := .claim i } : Desk).Inv srv := by
  have hperm : pteD ||| pteLibrary < 4096 := by decide
  have hc : Changed d.spaces srv (d.page i) (some f) _ := changed_alloc hf hperm
  have hself : ∀ e n, (d.spaces.memAlloc srv (d.page i) (pteD ||| pteLibrary) f).frame e n = some f →
      e = srv ∧ n = d.page i := by
    intro e n hn
    rw [hc] at hn
    split at hn
    next heq => exact heq
    next => exact absurd hn (hf.2 e n)
  refine ⟨hc.lt h (h.page_lt hi), h.ff, ?_, hi, f, ?_, hself⟩
  · intro j hj n g hg hn
    rw [hc] at hg
    split at hg
    next heq =>
      obtain rfl : f = g := Option.some.inj hg
      exact (hself srv n hn).2.trans heq.2.symm
    next hne =>
      rw [hc] at hn
      split at hn
      · exact absurd hn (hf.ne hg)
      · exact h.once j hj n g hg hn
  · show (d.spaces.memAlloc srv (d.page i) (pteD ||| pteLibrary) f).frame srv (d.page i) = some f
    rw [hc, if_pos ⟨rfl, rfl⟩]

/-- A new id for a slot, and the `memset`, leave the mappings alone. -/
theorem Inv.claim (h : d.Inv srv) (hi : i < maxopen) (hs : d.Sole srv i) (f : Nat) (id : Word) :
    ({ d with
      spaces := d.spaces.clear f
      opentab := update d.opentab i { d.opentab i with oFileid := id }
      pc := .ret (.ok (i, id)) } : Desk).Inv srv := by
  have hff : ∀ j, (update d.opentab i { d.opentab i with oFileid := id } j).oFf
      = (d.opentab j).oFf := by
    intro j
    by_cases hj : j = i
    · rw [hj, update_self]
    · rw [update_of_ne hj]
  have hpage : ∀ j, ({ d with
      spaces := d.spaces.clear f
      opentab := update d.opentab i { d.opentab i with oFileid := id }
      pc := .ret (.ok (i, id)) } : Desk).page j = d.page j := fun j => congrArg ppn (hff j)
  refine ⟨h.lt, fun j => (hff j).trans (h.ff j), ?_, hi, ?_⟩
  · intro j hj n g hg hn
    rw [hpage] at hg ⊢
    exact h.once j hj n g hg hn
  · obtain ⟨g, hg, honly⟩ := hs
    exact ⟨g, by rw [hpage]; exact hg, fun e n hn => by rw [hpage]; exact honly e n hn⟩

/-- **Every step keeps the invariant.** -/
theorem Inv.step (h : d.Inv srv) (hstep : DeskStep srv d d') (hcount : d.Bounded) : d'.Inv srv := by
  have hpc := h.pc
  cases hstep with
  | start hidle => exact h.goto pcOk_head
  | @look i hlook =>
    rw [hlook] at hpc
    refine h.goto ?_
    cases hpte : d.spaces.pte srv (d.page i) with
    | none => exact ⟨hpc, by rw [Spaces.frame, hpte, Option.map_none]⟩
    | some w => exact ⟨hpc, frame_of_pte hpte⟩
  | @count i f hcnt =>
    rw [hcnt] at hpc
    exact h.goto (h.pcOk_switch hpc.1 hpc.2 (hcount f))
  | @alloc i f halloc hf =>
    rw [halloc] at hpc
    exact h.alloc hpc.1 hf
  | allocFail halloc => exact h.goto trivial
  | @claim i f id hclaim hf hid =>
    rw [hclaim] at hpc
    exact h.claim hpc.1 hpc.2 f id
  | leave hret => exact h.goto trivial
  | @reply t n dstn dst perm hidle hdst hn hperm ht =>
    obtain ⟨f, hf, hc⟩ := Spaces.frame_memMap hperm ht
    exact h.other hdst hn hc fun i g ht' _ => absurd ht' (not_takes_of_idle hidle)
  | @ownAlloc n f perm hidle hn hout hperm hf =>
    exact h.own hidle hn hout (changed_alloc hf hperm) fun i _ g hg => hf.ne hg
  | @ownMap t n dstn perm hidle hn hsrc hdst hperm ht =>
    obtain ⟨f, hf, hc⟩ := Spaces.frame_memMap hperm ht
    refine h.own hidle hn hdst hc fun i hi g hg heq => hsrc ⟨i, hi, ?_⟩
    rw [heq] at hf
    exact h.once i hi n g hg hf
  | @ownUnmap n hidle hn hout =>
    exact h.own hidle hn hout changed_unmap fun _ _ _ _ hc => by cases hc
  | @request t src n perm hidle hsrc hperm hpage ht =>
    obtain ⟨f, hf, hc⟩ := Spaces.frame_memMap hperm ht
    refine h.own hidle (by decide) (reqPage_not_window h) hc fun i hi g hg heq => hpage i hi ?_
    rw [hf, hg, heq]
  | @map t src dst n dstn perm hsrc hdst hn hperm ht =>
    obtain ⟨f, hf, hc⟩ := Spaces.frame_memMap hperm ht
    exact h.other hdst hn hc fun i g ht' hg => h.ne_of_takes ht' hg hsrc hf
  | @fresh e n f perm he hn hperm hf =>
    exact h.other he hn (changed_alloc hf hperm) fun i g _ hg => hf.ne hg
  | @unmap e n he hn => exact h.other he hn changed_unmap fun _ _ _ _ hc => by cases hc

theorem Reachable.bounded (h : Reachable kind srv d) : d.Bounded := by
  cases h with
  | init hlt hnone hcount => exact hcount
  | step _ _ hcount => exact hcount

theorem Reachable.inv (h : Reachable kind srv d) : d.Inv srv := by
  induction h with
  | @init s hlt hnone hcount =>
    have hff : ∀ i, (kind.init.opentab i).oFf = fileva + by2pg * BitVec.ofNat 32 i := by
      intro i
      rw [kind.init_eq]
      rfl
    have hmapped : ∀ e n f, s.frame e n = some f → s.pte e n ≠ none := by
      intro e n f hf
      obtain ⟨w, hw, -⟩ := Spaces.frame_eq_some.mp hf
      rw [hw]
      simp
    refine ⟨fun e n f hf => hlt e n (hmapped e n f hf), hff, ?_, trivial⟩
    intro i hi n f hf _
    exact absurd (hnone i hi) (hmapped srv _ f hf)
  | step h hstep _ ih => exact ih.step hstep h.bounded

/-! ## A call of `open_alloc` -/

/-- Another env maps the page of slot `j`. -/
def InUse (srv : EnvPtr) (d : Desk) (j : Nat) : Prop :=
  ∃ f e n, d.spaces.frame srv (d.page j) = some f ∧ e ≠ srv ∧ d.spaces.frame e n = some f

/-- The steps of all envs during one call of `open_alloc`, with the states they are taken in. -/
inductive Call (srv : EnvPtr) (d₀ : Desk) : List Desk → Desk → Prop
  | nil : Call srv d₀ [] d₀
  | snoc {l : List Desk} {d d' : Desk} (h : Call srv d₀ l d) (hin : d.pc ≠ .idle)
      (hstep : DeskStep srv d d') (hcount : d'.Bounded) : Call srv d₀ (l ++ [d]) d'

theorem Call.reachable {d₀ : Desk} {l : List Desk} (h : Call srv d₀ l d)
    (h₀ : Reachable kind srv d₀) : Reachable kind srv d := by
  induction h with
  | nil => exact h₀
  | snoc _ _ hstep hcount ih => exact ih.step hstep hcount

end Desk

/-- The number of slots that `open_alloc` has found in use. -/
def AllocPc.passed : AllocPc → Nat
  | .look i => i
  | .count i _ => i
  | .alloc i => i
  | .claim i => i
  | .ret (.error .maxOpen) => maxopen
  | _ => 0

namespace Desk

variable {kind : FileServer} {srv : EnvPtr} {d d' d₀ : Desk} {i j f : Nat} {l : List Desk}

theorem head_ne_idle (i : Nat) : AllocPc.head i ≠ .idle := by
  unfold AllocPc.head
  split <;> simp

theorem passed_head (hi : i ≤ maxopen) : (AllocPc.head i).passed = i := by
  unfold AllocPc.head
  split
  next => rfl
  next hge => exact Nat.le_antisymm (Nat.le_of_not_lt hge) hi

/-- A slot is passed where another env maps it. -/
theorem passed_step (h : d.Inv srv) (hcount : d.Bounded) (hin : d.pc ≠ .idle)
    (hstep : DeskStep srv d d') : d'.pc.passed ≤ d.pc.passed ∨
      (d'.pc.passed = d.pc.passed + 1 ∧ (∃ f, d.pc = .count d.pc.passed f) ∧
        d.InUse srv d.pc.passed) := by
  have hpc := h.pc
  cases hstep with
  | start hidle => exact absurd hidle hin
  | @look i hlook =>
    refine .inl (le_of_eq ?_)
    rw [hlook]
    show (match d.spaces.pte srv (d.page i) with
      | none => AllocPc.switch i 0
      | some w => .count i (ppn w)).passed = i
    split <;> rfl
  | @count i f hcnt =>
    rw [hcnt] at hpc ⊢
    obtain ⟨hi, hf⟩ := hpc
    show (AllocPc.switch i (d.spaces.ppRef f)).passed ≤ i ∨ _
    rw [Spaces.ppRef_of_le (hcount f)]
    rcases hr : d.spaces.refs f with _ | _ | r
    · exact .inl (le_refl i)
    · exact .inl (le_refl i)
    · obtain ⟨e, n, he, hn⟩ := h.other_of_refs (by rw [hr]; omega) hi hf
      exact .inr ⟨passed_head hi, ⟨f, rfl⟩, f, e, n, hf, he, hn⟩
  | @alloc i f halloc hf =>
    rw [halloc]
    exact .inl (le_refl i)
  | allocFail halloc => exact .inl (Nat.zero_le _)
  | claim hclaim hf hid => exact .inl (Nat.zero_le _)
  | leave hret => exact .inl (Nat.zero_le _)
  | reply hidle hdst hn hperm ht => exact .inl (le_refl _)
  | ownAlloc hidle hn hout hperm hf => exact .inl (le_refl _)
  | ownMap hidle hn hsrc hdst hperm ht => exact .inl (le_refl _)
  | ownUnmap hidle hn hout => exact .inl (le_refl _)
  | request hidle hsrc hperm hpage ht => exact .inl (le_refl _)
  | map hsrc hdst hn hperm ht => exact .inl (le_refl _)
  | fresh he hn hperm hf => exact .inl (le_refl _)
  | unmap he hn => exact .inl (le_refl _)

theorem Call.passed (h : Call srv d₀ l d) (h₀ : Reachable kind srv d₀) (hpc : d₀.pc = .head 0) :
    ∀ j < d.pc.passed, ∃ d' ∈ l, (∃ f, d'.pc = .count j f) ∧ d'.InUse srv j := by
  induction h with
  | nil =>
    rw [hpc, passed_head (Nat.zero_le _)]
    exact fun j hj => absurd hj (Nat.not_lt_zero j)
  | @snoc l d d' h hin hstep hcount ih =>
    have hreach := h.reachable h₀
    have hold : ∀ j < d.pc.passed, ∃ d' ∈ l ++ [d],
        (∃ f, d'.pc = .count j f) ∧ d'.InUse srv j := by
      intro j hj
      obtain ⟨d₁, hd₁, huse⟩ := ih j hj
      exact ⟨d₁, List.mem_append_left _ hd₁, huse⟩
    intro j hj
    rcases passed_step hreach.inv hreach.bounded hin hstep with hle | ⟨heq, hcnt, huse⟩
    · exact hold j (lt_of_lt_of_le hj hle)
    · by_cases hlt : j < d.pc.passed
      · exact hold j hlt
      · obtain rfl : j = d.pc.passed := by omega
        exact ⟨d, List.mem_append_right _ List.mem_cons_self, hcnt, huse⟩

/-- **A slot is not recycled under a client.** From the moment `open_alloc` decides for a slot until it
has returned, no other env maps the slot's page; and if it returns `-E_MAX_OPEN`, then each slot was
mapped by another env when its count was read. -/
theorem slot_not_recycled (h₀ : Reachable kind srv d₀) (hpc : d₀.pc = .head 0)
    (h : Call srv d₀ l d) :
    (∀ i, d.Takes i → i < maxopen ∧ ∃ f, d.spaces.frame srv (d.page i) = some f ∧
      ∀ e n, d.spaces.frame e n = some f → e = srv) ∧
    (d.pc = .ret (.error .maxOpen) → ∀ j < maxopen, ∃ d' ∈ l,
      (∃ f, d'.pc = .count j f) ∧ d'.InUse srv j) := by
  constructor
  · intro i ht
    obtain ⟨hi, f, hf, honly⟩ := (h.reachable h₀).inv.sole ht
    exact ⟨hi, f, hf, fun e n hn => (honly e n hn).1⟩
  · intro hret j hj
    refine h.passed h₀ hpc j ?_
    rw [hret]
    exact hj

/-! ## A table that is full -/

/-- The slots from `j` to `m` are passed if they are counted more than once. -/
theorem Call.scan {m : Nat} (hm : m ≤ maxopen) (n : Nat) (hj : j + n = m) (h : Call srv d₀ l d)
    (hpc : d.pc = .head j) (hb : d.Bounded) (hfull : ∀ i, j ≤ i → i < m →
      ∃ f, d.spaces.frame srv (d.page i) = some f ∧ 1 < d.spaces.refs f) :
    ∃ l', Call srv d₀ l' { d with pc := .head m } := by
  induction n generalizing j d l with
  | zero =>
    obtain rfl : j = m := hj
    exact ⟨l, by rw [← hpc]; exact h⟩
  | succ n ih =>
    obtain ⟨f, hf, hrefs⟩ := hfull j (le_refl j) (by omega)
    obtain ⟨w, hw, rfl⟩ := Spaces.frame_eq_some.mp hf
    have hlook : d.pc = .look j := by rw [hpc, AllocPc.head, if_pos (by omega)]
    have h₁ : DeskStep srv d { d with pc := .count j (ppn w) } := by
      have hstep := @DeskStep.look srv d j hlook
      rw [hw] at hstep
      exact hstep
    have hswitch : AllocPc.switch j (d.spaces.ppRef (ppn w)) = .head (j + 1) := by
      rw [Spaces.ppRef_of_le (hb _)]
      obtain ⟨r, hr⟩ := Nat.exists_eq_add_of_lt hrefs
      rw [hr, show 1 + r + 1 = r + 2 by omega]
      rfl
    have h₂ : DeskStep srv { d with pc := .count j (ppn w) } { d with pc := .head (j + 1) } := by
      have hstep := @DeskStep.count srv { d with pc := .count j (ppn w) } j (ppn w) rfl
      rw [← hswitch]
      exact hstep
    have hcall := (h.snoc (by rw [hlook]; simp) h₁ hb).snoc (by simp) h₂ hb
    exact ih (j := j + 1) (d := { d with pc := .head (j + 1) }) (by omega) hcall rfl hb
      fun i hi hlt => hfull i (by omega) hlt

/-- The frames when the server 0 has handed out `m` slots to the env 1. -/
def filled (m : Nat) (e : EnvPtr) (n : Nat) : Option Nat :=
  if e = 0 ∧ 0x60000 ≤ n ∧ n < 0x60000 + m then some (n - 0x60000)
  else if e = 1 ∧ 0x400 ≤ n ∧ n < 0x400 + m then some (n - 0x400)
  else none

/-- Frame `f` is mapped for slot `f` and by env 1, if at all. -/
def Paired (s : Spaces) : Prop :=
  ∀ e n f, s.frame e n = some f → (e = 0 ∧ n = 0x60000 + f) ∨ (e = 1 ∧ n = 0x400 + f)

theorem bounded_of_paired (h : Paired d.spaces) : d.Bounded := by
  intro f
  have hcard : d.spaces.refs f ≤ ({0, 1} : Finset EnvPtr).card := by
    refine refCount_le_card Prod.fst ?_ ?_
    · intro p hp
      rcases h p.1 p.2 f hp with ⟨h0, -⟩ | ⟨h1, -⟩
      · simp [h0]
      · simp [h1]
    · intro p q hp hq heq
      have hval : p.2.val = q.2.val := by
        rcases h p.1 p.2 f hp with ⟨hp0, hp1⟩ | ⟨hp0, hp1⟩ <;>
          rcases h q.1 q.2 f hq with ⟨hq0, hq1⟩ | ⟨hq0, hq1⟩
        · omega
        · rw [heq, hq0] at hp0
          cases hp0
        · rw [heq, hq0] at hp0
          cases hp0
        · omega
      exact Prod.ext heq (Fin.ext hval)
  exact le_trans hcard (by decide)

/-- A state between two requests, with `m` slots handed out. -/
structure Filled (m : Nat) (d : Desk) : Prop where
  reach : Reachable .serv 0 d
  idle : d.pc = .idle
  frames : ∀ e n, d.spaces.frame e n = filled m e n

theorem filled_paired {m : Nat} {e : EnvPtr} {n : Nat} (h : filled m e n = some f) :
    f < m ∧ ((e = 0 ∧ n = 0x60000 + f) ∨ (e = 1 ∧ n = 0x400 + f)) := by
  unfold filled at h
  split at h
  next hs =>
    injection h with h
    exact ⟨by omega, .inl ⟨hs.1, by omega⟩⟩
  next =>
    split at h
    next hc =>
      injection h with h
      exact ⟨by omega, .inr ⟨hc.1, by omega⟩⟩
    next => cases h

theorem filled_slot {m : Nat} (hi : i < m) : filled m 0 (0x60000 + i) = some i := by
  unfold filled
  rw [if_pos ⟨rfl, by omega, by omega⟩]
  simp

theorem filled_client {m : Nat} (hi : i < m) : filled m 1 (0x400 + i) = some i := by
  unfold filled
  rw [if_neg (by simp), if_pos ⟨rfl, by omega, by omega⟩]
  simp

theorem filled_succ (m : Nat) (e : EnvPtr) (n : Nat) :
    (if e = 1 ∧ n = 0x400 + m then some m
      else if e = 0 ∧ n = 0x60000 + m then some m else filled m e n) = filled (m + 1) e n := by
  unfold filled
  split
  next h =>
    rw [if_neg (by rw [h.1]; simp), if_pos ⟨h.1, by omega, by omega⟩, h.2]
    simp
  next h₁ =>
    split
    next h =>
      rw [if_pos ⟨h.1, by omega, by omega⟩, h.2]
      simp
    next h₀ =>
      have hslot : (e = 0 ∧ 0x60000 ≤ n ∧ n < 0x60000 + (m + 1)) ↔
          (e = 0 ∧ 0x60000 ≤ n ∧ n < 0x60000 + m) := by
        constructor
        · rintro ⟨he, hle, hlt⟩
          exact ⟨he, hle, lt_of_le_of_ne (by omega) fun heq => h₀ ⟨he, heq⟩⟩
        · rintro ⟨he, hle, hlt⟩
          exact ⟨he, hle, by omega⟩
      have hclient : (e = 1 ∧ 0x400 ≤ n ∧ n < 0x400 + (m + 1)) ↔
          (e = 1 ∧ 0x400 ≤ n ∧ n < 0x400 + m) := by
        constructor
        · rintro ⟨he, hle, hlt⟩
          exact ⟨he, hle, lt_of_le_of_ne (by omega) fun heq => h₁ ⟨he, heq⟩⟩
        · rintro ⟨he, hle, hlt⟩
          exact ⟨he, hle, by omega⟩
      simp only [hslot, hclient]

theorem filled_zero : ∃ d, Filled 0 d := by
  have hnone : ∀ e n, Spaces.frame ⟨fun _ _ => none, fun _ _ => 0⟩ e n = none := fun _ _ => rfl
  have hb : Desk.Bounded ⟨⟨fun _ _ => none, fun _ _ => 0⟩, FileServer.serv.init.opentab, .idle⟩ :=
    bounded_of_paired fun e n f hf => by
      rw [hnone] at hf
      cases hf
  refine ⟨_, .init (s := ⟨fun _ _ => none, fun _ _ => 0⟩) (fun _ _ h => absurd rfl h)
    (fun _ _ => rfl) hb, rfl, fun e n => ?_⟩
  unfold filled
  rw [if_neg (by omega), if_neg (by omega)]
  rfl

/-- The slots that are handed out are counted twice. -/
theorem refs_of_frames {s : Spaces} {m : Nat} (hm : m ≤ maxopen) (hi : i < m)
    (h₀ : s.frame 0 (0x60000 + i) = some i) (h₁ : s.frame 1 (0x400 + i) = some i) :
    1 < s.refs i := by
  have hmax : maxopen = 1024 := rfl
  have hnpte : npte = 0x7f400 := by decide
  refine one_lt_refCount (s := ((0 : EnvPtr), (⟨0x60000 + i, by omega⟩ : Fin npte)))
    (t := ((1 : EnvPtr), (⟨0x400 + i, by omega⟩ : Fin npte))) h₀ h₁ ?_
  intro heq
  have h01 : (0 : EnvPtr) = 1 := congrArg Prod.fst heq
  exact absurd h01 (by decide)

/-- One more slot is handed out: the scan passes the slots in use, the next one gets a frame, and env 1
gets its page. -/
theorem Filled.succ {m : Nat} (h : Filled m d) (hm : m < maxopen) : ∃ d', Filled (m + 1) d' := by
  have hmax : maxopen = 1024 := rfl
  have hnpte : npte = 0x7f400 := by decide
  have hpage : ∀ i < maxopen, d.page i = 0x60000 + i := fun i hi =>
    page_of_ff h.reach.inv.ff hi
  have hb : d.Bounded := h.reach.bounded
  have h₀ : Reachable .serv 0 { d with pc := .head 0 } := h.reach.step (.start h.idle) hb
  obtain ⟨l, hl⟩ := Call.scan (d := { d with pc := .head 0 }) (le_of_lt hm) m (Nat.zero_add m)
    (@Call.nil 0 _) rfl hb (by
      intro i _ hi
      have hs := (h.frames 0 (0x60000 + i)).trans (filled_slot hi)
      refine ⟨i, ?_, refs_of_frames (le_of_lt hm) hi hs
        ((h.frames 1 (0x400 + i)).trans (filled_client hi))⟩
      show d.spaces.frame 0 (d.page i) = some i
      rw [hpage i (by omega)]
      exact hs)
  have hfresh : d.Fresh m := by
    refine ⟨by omega, fun e n hf => ?_⟩
    rw [h.frames] at hf
    exact absurd (filled_paired hf).1 (lt_irrefl m)
  have hnone : d.spaces.pte 0 (d.page m) = none := by
    have hf : d.spaces.frame 0 (d.page m) = none := by
      rw [h.frames, hpage m hm, filled, if_neg (by omega), if_neg (by simp)]
    exact Option.map_eq_none_iff.mp hf
  have h₁ : Reachable .serv 0 { d with pc := .look m } := by
    have hhead : AllocPc.head m = .look m := by rw [AllocPc.head, if_pos hm]
    rw [← hhead]
    exact hl.reachable h₀
  have h₂ : Reachable .serv 0 { d with pc := .alloc m } := by
    have hstep := @DeskStep.look 0 { d with pc := .look m } m rfl
    have hpte : ({ d with pc := .look m } : Desk).spaces.pte 0
      (({ d with pc := .look m } : Desk).page m) = none := hnone
    rw [hpte] at hstep
    exact h₁.step hstep hb
  have hperm : pteD ||| pteLibrary < 4096 := by decide
  have hc : Changed d.spaces 0 (d.page m) (some m) _ := changed_alloc hfresh hperm
  have hpair : Paired (d.spaces.memAlloc 0 (d.page m) (pteD ||| pteLibrary) m) := by
    intro e n f hf
    rw [hc] at hf
    split at hf
    next heq =>
      obtain rfl : m = f := Option.some.inj hf
      exact .inl ⟨heq.1, heq.2.trans (hpage m hm)⟩
    next =>
      rw [h.frames] at hf
      exact (filled_paired hf).2
  have h₃ := h₂.step (@DeskStep.alloc 0 { d with pc := .alloc m } m m rfl hfresh)
    (bounded_of_paired hpair)
  have hslot : (d.spaces.memAlloc 0 (d.page m) (pteD ||| pteLibrary) m).frame 0 (d.page m) = some m := by
    rw [hc, if_pos ⟨rfl, rfl⟩]
  have h₄ := h₃.step (.claim rfl hslot rfl) (bounded_of_paired hpair)
  have h₅ := h₄.step (.leave rfl) (bounded_of_paired hpair)
  obtain ⟨w, hw, hppn⟩ := Spaces.frame_eq_some.mp hslot
  have hmap : ∃ t, ((d.spaces.memAlloc 0 (d.page m) (pteD ||| pteLibrary) m).clear m).memMap 0
      (d.page m) 1 (0x400 + m) (pteD ||| pteLibrary) = some t :=
    ⟨_, Option.map_eq_some_iff.mpr ⟨w, hw, rfl⟩⟩
  obtain ⟨t, ht⟩ := hmap
  obtain ⟨f, hf, hframes⟩ := Spaces.frame_memMap hperm ht
  obtain rfl : m = f := Option.some.inj (hslot.symm.trans hf)
  have hfinal : ∀ e n, t.frame e n = filled (m + 1) e n := by
    intro e n
    have hold : ((d.spaces.memAlloc 0 (d.page m) (pteD ||| pteLibrary) m).clear m).frame e n
        = if e = 0 ∧ n = 0x60000 + m then some m else filled m e n := by
      show (d.spaces.memAlloc 0 (d.page m) (pteD ||| pteLibrary) m).frame e n = _
      rw [hc, hpage m hm, h.frames]
    rw [hframes, hold]
    exact filled_succ m e n
  have hpair' : Paired t := fun e n f hf => (filled_paired ((hfinal e n).symm.trans hf)).2
  exact ⟨_, h₅.step (.reply rfl (by decide) (by omega) hperm ht) (bounded_of_paired hpair'), rfl,
    hfinal⟩

theorem exists_filled (m : Nat) (hm : m ≤ maxopen) : ∃ d, Filled m d := by
  induction m with
  | zero => exact filled_zero
  | succ m ih =>
    obtain ⟨d, hd⟩ := ih (by omega)
    exact hd.succ (by omega)

/-- The first request: slot 0 gets a frame, and nobody else maps it. -/
theorem slot_not_recycled_first : ∃ d₀ l d, Reachable .serv 0 d₀ ∧ d₀.pc = .head 0 ∧
    Call 0 d₀ l d ∧ d.Takes 0 ∧ ∃ f, d.spaces.frame 0 (d.page 0) = some f ∧
      ∀ e n, d.spaces.frame e n = some f → e = 0 := by
  obtain ⟨d, h⟩ := filled_zero
  have hb : d.Bounded := h.reach.bounded
  have hempty : ∀ e n, d.spaces.frame e n = none := by
    intro e n
    rw [h.frames, filled, if_neg (by omega), if_neg (by omega)]
  have h₀ : Reachable .serv 0 { d with pc := .head 0 } := h.reach.step (.start h.idle) hb
  have hfresh : d.Fresh 0 := ⟨by decide, fun e n hf => by rw [hempty] at hf; cases hf⟩
  have hlook : DeskStep 0 { d with pc := .head 0 } { d with pc := .alloc 0 } := by
    have hstep := @DeskStep.look 0 { d with pc := .head 0 } 0 rfl
    have hpte : ({ d with pc := .head 0 } : Desk).spaces.pte 0
      (({ d with pc := .head 0 } : Desk).page 0) = none := Option.map_eq_none_iff.mp (hempty 0 _)
    rw [hpte] at hstep
    exact hstep
  have hc : Changed d.spaces 0 (d.page 0) (some 0) _ :=
    changed_alloc hfresh (show pteD ||| pteLibrary < 4096 by decide)
  have hpair : Paired (d.spaces.memAlloc 0 (d.page 0) (pteD ||| pteLibrary) 0) := by
    intro e n f hf
    rw [hc] at hf
    split at hf
    next heq =>
      obtain rfl : 0 = f := Option.some.inj hf
      exact .inl ⟨heq.1, heq.2.trans (page_of_ff h.reach.inv.ff (by decide))⟩
    next =>
      rw [hempty] at hf
      cases hf
  have hcall := ((@Call.nil 0 { d with pc := .head 0 }).snoc (head_ne_idle 0) hlook hb).snoc
    (by simp) (@DeskStep.alloc 0 { d with pc := .alloc 0 } 0 0 rfl hfresh) (bounded_of_paired hpair)
  have htakes : ({ d with
      spaces := d.spaces.memAlloc 0 (d.page 0) (pteD ||| pteLibrary) 0
      pc := .claim 0 } : Desk).Takes 0 := .inl rfl
  exact ⟨_, _, _, h₀, rfl, hcall, htakes, ((slot_not_recycled h₀ rfl hcall).1 0 htakes).2⟩

/-- **The table can look full although it is not.** All slots are in use when the scan begins. After it
has passed slot 0 the client closes this file; the scan goes on and finds no slot. -/
theorem maxopen_slot_free : ∃ d₀ l d, Reachable .serv 0 d₀ ∧ d₀.pc = .head 0 ∧ Call 0 d₀ l d ∧
    d.pc = .ret (.error .maxOpen) ∧ ¬d.InUse 0 0 := by
  have hmax : maxopen = 1024 := rfl
  have hnpte : npte = 0x7f400 := by decide
  obtain ⟨d, h⟩ := exists_filled maxopen (le_refl _)
  have hb : d.Bounded := h.reach.bounded
  have hpage : ∀ i < maxopen, d.page i = 0x60000 + i := fun i hi =>
    page_of_ff h.reach.inv.ff hi
  have h₀ : Reachable .serv 0 { d with pc := .head 0 } := h.reach.step (.start h.idle) hb
  have hslot : ∀ i < maxopen, d.spaces.frame 0 (0x60000 + i) = some i := fun i hi =>
    (h.frames 0 _).trans (filled_slot hi)
  have hclient : ∀ i < maxopen, d.spaces.frame 1 (0x400 + i) = some i := fun i hi =>
    (h.frames 1 _).trans (filled_client hi)
  obtain ⟨l, hl⟩ := Call.scan (d := { d with pc := .head 0 }) (m := 1) (by decide) 1 rfl
    (@Call.nil 0 _) rfl hb (by
      intro i _ hi
      have hi' : i < maxopen := by omega
      refine ⟨i, ?_, refs_of_frames (le_refl _) hi' (hslot i hi') (hclient i hi')⟩
      show d.spaces.frame 0 (d.page i) = some i
      rw [hpage i hi']
      exact hslot i hi')
  -- the client closes the file of slot 0
  have hc : Changed d.spaces 1 0x400 none (d.spaces.memUnmap 1 0x400) := changed_unmap
  have hpair : Paired (d.spaces.memUnmap 1 0x400) := by
    intro e n f hf
    rw [hc] at hf
    split at hf
    · cases hf
    · rw [h.frames] at hf
      exact (filled_paired hf).2
  have hb' : ({ d with spaces := d.spaces.memUnmap 1 0x400, pc := .head 1 } : Desk).Bounded :=
    bounded_of_paired hpair
  have hunmap : DeskStep 0 { d with pc := .head 1 }
      { d with spaces := d.spaces.memUnmap 1 0x400, pc := .head 1 } :=
    @DeskStep.unmap 0 { d with pc := .head 1 } 1 0x400 (by decide) (by omega)
  have hcall := hl.snoc (head_ne_idle 1) hunmap hb'
  obtain ⟨l', hl'⟩ := Call.scan (le_refl maxopen) 1023 (j := 1) rfl hcall rfl hb' (by
      intro i hi hlt
      have hs : (d.spaces.memUnmap 1 0x400).frame 0 (0x60000 + i) = some i := by
        rw [hc, if_neg (by simp)]
        exact hslot i hlt
      have hcl : (d.spaces.memUnmap 1 0x400).frame 1 (0x400 + i) = some i := by
        rw [hc, if_neg (by omega)]
        exact hclient i hlt
      refine ⟨i, ?_, refs_of_frames (le_refl _) hlt hs hcl⟩
      show (d.spaces.memUnmap 1 0x400).frame 0 (d.page i) = some i
      rw [hpage i hlt]
      exact hs)
  refine ⟨_, l', _, h₀, rfl, hl', by simp [AllocPc.head], ?_⟩
  rintro ⟨f, e, n, hf, he, hn⟩
  have hf' : (d.spaces.memUnmap 1 0x400).frame 0 (d.page 0) = some f := hf
  have hn' : (d.spaces.memUnmap 1 0x400).frame e n = some f := hn
  rw [hc, if_neg (by simp), hpage 0 (by decide), hslot 0 (by decide)] at hf'
  obtain rfl : 0 = f := Option.some.inj hf'
  rw [hc] at hn'
  split at hn'
  · cases hn'
  next hne =>
    rw [h.frames] at hn'
    rcases (filled_paired hn').2 with ⟨he0, -⟩ | ⟨he1, hn1⟩
    · exact he he0
    · exact hne ⟨he1, hn1⟩

end Desk

end Mos
