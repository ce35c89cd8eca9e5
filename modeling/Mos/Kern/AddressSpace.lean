import Mathlib.Data.Fintype.Sigma
import Mathlib.Tactic.DeriveFintype
import Mos.Lib.RefCount
import Mos.Kern.Bits

/-!
# Address spaces and who refers to a frame

`Vm` is the part of the kernel state that memory management is about: the frames with their
contents, counts and free list, and the page directory of every live env. On it, `table` and `leaf`
read the two levels of the page tables below `UTOP`, and `slotRef` lists all the places that can
refer to a frame.

`Vm.Inv` is what memory management keeps: the counts are exact, a page table belongs to one
directory entry only and is not mapped anywhere, a page directory is not referred to at all. Every
operation of `kern/pmap.c` and `env_free` changes one slot at a time, so two lemmas do most of the
work: `Vm.Inv.link` fills an empty slot and `Vm.Inv.unlink` clears one.
-/

namespace Mos

open Lib Function

/-- `PDX(UTOP)`: the directory entries of an address space that belong to the user. -/
abbrev npde : Nat := 509

/-- `VPN(UTOP)`: the user's pages. -/
abbrev npte : Nat := 521216

/-- Where a frame can be referred to: a directory entry or a page table entry of an env. -/
inductive Slot where
  | table (e : EnvPtr) (i : Fin npde)
  | page (e : EnvPtr) (n : Fin npte)
deriving DecidableEq, Fintype

/-- Memory, and the page directories of the live envs. -/
structure Vm where
  npage : Nat
  mem : Nat → Nat → Word
  ppRef : Nat → BitVec 16
  free : List Nat
  pgdirs : List Nat
  dir : EnvPtr → Option Nat

namespace Vm

/-- The page table that directory entry `i` of `e` points to. -/
def table (v : Vm) (e : EnvPtr) (i : Nat) : Option Nat :=
  match v.dir e with
  | none => none
  | some d => if i < npde ∧ has (v.mem d i) pteV then some (ppn (v.mem d i)) else none

/-- The valid page table entry of page `n` of `e`. -/
def leaf (v : Vm) (e : EnvPtr) (n : Nat) : Option Word :=
  match v.table e (n / 1024) with
  | none => none
  | some t => if has (v.mem t (n % 1024)) pteV then some (v.mem t (n % 1024)) else none

/-- The frame that a slot refers to. -/
def slotRef (v : Vm) : Slot → Option Nat
  | .table e i => v.table e i
  | .page e n => (v.leaf e n).map ppn

/-- How many slots refer to the frame `f`. -/
def refs (v : Vm) (f : Nat) : Nat := refCount v.slotRef f

/-- Writes one word. -/
def setWord (v : Vm) (f i : Nat) (w : Word) : Vm :=
  { v with mem := update v.mem f (update (v.mem f) i w) }

/-- Counts one more reference. -/
def addRef (v : Vm) (pp : Nat) : Vm := { v with ppRef := update v.ppRef pp (v.ppRef pp + 1) }

/-- Counts one reference less; the last one frees the frame. -/
def dropRef (v : Vm) (pp : Nat) : Vm :=
  { v with
    ppRef := update v.ppRef pp (v.ppRef pp - 1)
    free := if v.ppRef pp - 1 = 0 then pp :: v.free else v.free }

end Vm

/-- The page directory of `e`, if it is live. -/
def Kernel.dirOf (k : Kernel) (e : EnvPtr) : Option Nat :=
  if k.Live e then some (k.envs e).envPgdir else none

/-- What memory management sees of the kernel. -/
def Kernel.vm (k : Kernel) : Vm :=
  { npage := k.npage
    mem := k.mem
    ppRef := k.ppRef
    free := k.pageFreeList
    pgdirs := k.pgdirs
    dir := k.dirOf }

namespace Vm

variable {v u : Vm} {e : EnvPtr} {s : Slot} {d f i j n t pp : Nat} {w : Word} {M : List Nat}

/-! ## Reading the tables -/

theorem table_eq_some : v.table e i = some t ↔
    ∃ d, v.dir e = some d ∧ i < npde ∧ has (v.mem d i) pteV ∧ ppn (v.mem d i) = t := by
  unfold table
  split <;> simp_all [and_assoc]

theorem table_of_dir (hd : v.dir e = some d) (hi : i < npde) :
    v.table e i = if has (v.mem d i) pteV then some (ppn (v.mem d i)) else none := by
  simp [table, hd, hi]

theorem leaf_eq_some : v.leaf e n = some w ↔
    ∃ t, v.table e (n / 1024) = some t ∧ has (v.mem t (n % 1024)) pteV ∧
      v.mem t (n % 1024) = w := by
  unfold leaf
  split <;> simp_all

theorem leaf_of_table (ht : v.table e (n / 1024) = some t) :
    v.leaf e n = if has (v.mem t (n % 1024)) pteV then some (v.mem t (n % 1024)) else none := by
  simp [leaf, ht]

theorem leaf_of_no_table (ht : v.table e (n / 1024) = none) : v.leaf e n = none := by
  simp [leaf, ht]

theorem table_lt (h : v.table e i = some t) : i < npde := by
  obtain ⟨_, _, hi, _⟩ := table_eq_some.mp h
  exact hi

theorem leaf_lt (h : v.leaf e n = some w) : n < npte := by
  obtain ⟨t, ht, _⟩ := leaf_eq_some.mp h
  have := table_lt ht
  unfold npde at this
  unfold npte
  omega

theorem leaf_valid (h : v.leaf e n = some w) : has w pteV = true := by
  obtain ⟨t, _, hv, rfl⟩ := leaf_eq_some.mp h
  exact hv

theorem slotRef_table (h : v.table e i = some t) :
    v.slotRef (.table e ⟨i, table_lt h⟩) = some t := h

theorem slotRef_page (h : v.leaf e n = some w) :
    v.slotRef (.page e ⟨n, leaf_lt h⟩) = some (ppn w) := by
  simp [slotRef, h]

/-! ## What a write changes -/

/-- The tables depend on the page directories only. -/
theorem table_congr (hdir : u.dir = v.dir)
    (hm : ∀ e d, v.dir e = some d → ∀ i < npde, u.mem d i = v.mem d i) : u.table = v.table := by
  funext e i
  unfold table
  rw [hdir]
  cases hd : v.dir e with
  | none => rfl
  | some d =>
    by_cases hi : i < npde
    · simp [hi, hm e d hd i hi]
    · simp [hi]

/-- The mappings depend on the page directories and the page tables only. -/
theorem leaf_congr (htab : u.table = v.table)
    (hm : ∀ e i t, v.table e i = some t → ∀ j < 1024, u.mem t j = v.mem t j) :
    u.leaf = v.leaf := by
  funext e n
  unfold leaf
  rw [htab]
  cases ht : v.table e (n / 1024) with
  | none => rfl
  | some t => simp [hm e _ t ht (n % 1024) (Nat.mod_lt _ (by decide))]

theorem slotRef_congr (htab : u.table = v.table) (hleaf : u.leaf = v.leaf) :
    u.slotRef = v.slotRef := by
  funext s
  cases s with
  | table e i => exact congrFun (congrFun htab e) i
  | page e n => simp [slotRef, hleaf]

/-- The counts and the lists do not matter for what is mapped. -/
theorem view_of_mem (hmem : u.mem = v.mem) (hdir : u.dir = v.dir) :
    u.table = v.table ∧ u.leaf = v.leaf ∧ u.slotRef = v.slotRef := by
  have htab : u.table = v.table := table_congr hdir fun _ _ _ _ _ => by rw [hmem]
  have hleaf : u.leaf = v.leaf := leaf_congr htab fun _ _ _ _ _ _ => by rw [hmem]
  exact ⟨htab, hleaf, slotRef_congr htab hleaf⟩

@[simp] theorem table_addRef (v : Vm) (pp : Nat) : (v.addRef pp).table = v.table :=
  (view_of_mem rfl rfl).1

@[simp] theorem slotRef_addRef (v : Vm) (pp : Nat) : (v.addRef pp).slotRef = v.slotRef :=
  (view_of_mem rfl rfl).2.2

@[simp] theorem table_dropRef (v : Vm) (pp : Nat) : (v.dropRef pp).table = v.table :=
  (view_of_mem rfl rfl).1

@[simp] theorem leaf_dropRef (v : Vm) (pp : Nat) : (v.dropRef pp).leaf = v.leaf :=
  (view_of_mem rfl rfl).2.1

@[simp] theorem slotRef_dropRef (v : Vm) (pp : Nat) : (v.dropRef pp).slotRef = v.slotRef :=
  (view_of_mem rfl rfl).2.2

/-! ## The invariant -/

/-- What memory management keeps. `M` is the list of the frames it manages. -/
structure Inv (M : List Nat) (v : Vm) : Prop where
  npage_lt : v.npage < 2 ^ 20
  managed : ∀ f ∈ M, f < v.npage
  free_nodup : v.free.Nodup
  /-- A free frame is counted 0 and is no page directory. -/
  free_spec : ∀ f ∈ v.free, f ∈ M ∧ f ∉ v.pgdirs ∧ v.ppRef f = 0
  /-- A page directory is counted 1. -/
  pgdirs_spec : ∀ p ∈ v.pgdirs, p ∈ M ∧ v.ppRef p = 1
  dir_mem : ∀ e d, v.dir e = some d → d ∈ v.pgdirs
  dir_inj : ∀ e e' d, v.dir e = some d → v.dir e' = some d → e = e'
  held : ∀ s f, v.slotRef s = some f → f ∈ M ∧ f ∉ v.pgdirs
  /-- A page table is referred to by one directory entry and by nothing else. -/
  table_excl : ∀ e i s t, v.slotRef (.table e i) = some t → v.slotRef s = some t → s = .table e i
  /-- The counts are exact. -/
  count : ∀ f ∈ M, f ∉ v.pgdirs → (v.ppRef f).toNat = v.refs f

namespace Inv

theorem free_not_held (h : Inv M v) (hf : f ∈ v.free) : v.slotRef s ≠ some f := by
  obtain ⟨hM, hp, h0⟩ := h.free_spec f hf
  have hc := h.count f hM hp
  rw [h0] at hc
  exact refCount_eq_zero.mp hc.symm s

theorem dir_not_held (h : Inv M v) (hd : v.dir e = some d) : v.slotRef s ≠ some d :=
  fun hs => (h.held s d hs).2 (h.dir_mem e d hd)

theorem dir_not_table (h : Inv M v) (hd : v.dir e = some d) {e' : EnvPtr} :
    v.table e' i ≠ some d :=
  fun ht => h.dir_not_held hd (slotRef_table ht)

theorem free_not_table (h : Inv M v) (hf : f ∈ v.free) : v.table e i ≠ some f :=
  fun ht => h.free_not_held hf (slotRef_table ht)

theorem free_not_dir (h : Inv M v) (hf : f ∈ v.free) : v.dir e ≠ some f :=
  fun hd => (h.free_spec f hf).2.1 (h.dir_mem e f hd)

theorem table_inj (h : Inv M v) {e' : EnvPtr} {i' : Nat} (ht : v.table e i = some t)
    (ht' : v.table e' i' = some t) : e' = e ∧ i' = i := by
  have he := h.table_excl _ _ _ t (slotRef_table ht) (slotRef_table ht')
  simpa using he

/-- A mapped frame is no page table. -/
theorem leaf_not_table (h : Inv M v) (hl : v.leaf e n = some w) {e' : EnvPtr} :
    v.table e' i ≠ some (ppn w) := by
  intro ht
  have he := h.table_excl _ _ _ _ (slotRef_table ht) (slotRef_page hl)
  cases he

theorem table_lt_npage (h : Inv M v) (ht : v.table e i = some t) : t < v.npage :=
  h.managed t (h.held _ t (slotRef_table ht)).1

theorem leaf_lt_npage (h : Inv M v) (hl : v.leaf e n = some w) : ppn w < v.npage :=
  h.managed _ (h.held _ _ (slotRef_page hl)).1

end Inv

/-- The frames that hold page directories and page tables differ from each other and from the free
ones. This is all that a write to a table needs, whatever the counts are. -/
structure Apart (v : Vm) : Prop where
  npage_lt : v.npage < 2 ^ 20
  free_nodup : v.free.Nodup
  free_lt : ∀ f ∈ v.free, f < v.npage
  free_not_dir : ∀ f ∈ v.free, ∀ e, v.dir e ≠ some f
  free_not_table : ∀ f ∈ v.free, ∀ e i, v.table e i ≠ some f
  dir_lt : ∀ e d, v.dir e = some d → d < v.npage
  dir_inj : ∀ e e' d, v.dir e = some d → v.dir e' = some d → e = e'
  dir_not_table : ∀ e d e' i, v.dir e = some d → v.table e' i ≠ some d
  table_lt : ∀ e i t, v.table e i = some t → t < v.npage
  table_inj : ∀ e i e' i' t, v.table e i = some t → v.table e' i' = some t → e' = e ∧ i' = i

theorem Inv.apart (h : Inv M v) : Apart v where
  npage_lt := h.npage_lt
  free_nodup := h.free_nodup
  free_lt f hf := h.managed f (h.free_spec f hf).1
  free_not_dir _ hf _ := h.free_not_dir hf
  free_not_table _ hf _ _ := h.free_not_table hf
  dir_lt e d hd := h.managed d (h.pgdirs_spec d (h.dir_mem e d hd)).1
  dir_inj := h.dir_inj
  dir_not_table _ _ _ _ hd := h.dir_not_table hd
  table_lt _ _ _ ht := h.table_lt_npage ht
  table_inj _ _ _ _ _ ht ht' := h.table_inj ht ht'

/-! ## Writes and the view -/

/-- Writing a frame that is neither a directory nor a table changes no mapping. -/
theorem view_setFrame (hd : ∀ e, v.dir e ≠ some f) (ht : ∀ e i, v.table e i ≠ some f)
    (ws : Nat → Word) :
    ({ v with mem := update v.mem f ws } : Vm).table = v.table ∧
      ({ v with mem := update v.mem f ws } : Vm).leaf = v.leaf := by
  have htab : ({ v with mem := update v.mem f ws } : Vm).table = v.table := by
    refine table_congr rfl fun e d he i _ => ?_
    have hne : d ≠ f := fun hdf => hd e (hdf ▸ he)
    simp [update_of_ne hne]
  refine ⟨htab, leaf_congr htab fun e i t he j _ => ?_⟩
  have hne : t ≠ f := fun htf => ht e i (htf ▸ he)
  simp [update_of_ne hne]

/-- Writing a page table entry leaves the directory level alone. -/
theorem Apart.table_setPte (h : Apart v) (ht : v.table e i = some t) :
    (v.setWord t j w).table = v.table := by
  refine table_congr rfl fun e' d hd i' _ => ?_
  have hne : d ≠ t := fun hdt => h.dir_not_table e' d e i hd (hdt ▸ ht)
  simp [setWord, update_of_ne hne]

/-- **Writing a page table entry changes the mapping of one page.** -/
theorem Apart.leaf_setPte (h : Apart v) (ht : v.table e i = some t) (hj : j < 1024) (e' : EnvPtr)
    (n : Nat) :
    (v.setWord t j w).leaf e' n
      = if e' = e ∧ n = i * 1024 + j then (if has w pteV then some w else none)
        else v.leaf e' n := by
  have htab : (v.setWord t j w).table = v.table := h.table_setPte ht
  cases ht' : v.table e' (n / 1024) with
  | none =>
    have hne : ¬(e' = e ∧ n = i * 1024 + j) := by
      rintro ⟨rfl, rfl⟩
      rw [show (i * 1024 + j) / 1024 = i by omega, ht] at ht'
      cases ht'
    rw [if_neg hne, leaf_of_no_table ht', leaf_of_no_table (by rw [htab]; exact ht')]
  | some t' =>
    rw [leaf_of_table ht', leaf_of_table (t := t') (by rw [htab]; exact ht')]
    by_cases htt : t' = t
    · obtain ⟨he, hi⟩ := h.table_inj _ _ _ _ _ ht (htt ▸ ht')
      by_cases hnj : n % 1024 = j
      · have hn : n = i * 1024 + j := by omega
        simp [setWord, htt, he, hn, hj, Nat.mod_eq_of_lt]
      · have hn : ¬(e' = e ∧ n = i * 1024 + j) := by omega
        rw [if_neg hn]
        simp [setWord, htt, update_of_ne hnj]
    · have hn : ¬(e' = e ∧ n = i * 1024 + j) := by
        rintro ⟨rfl, rfl⟩
        rw [show (i * 1024 + j) / 1024 = i by omega, ht] at ht'
        exact htt (Option.some.inj ht').symm
      rw [if_neg hn]
      simp [setWord, update_of_ne htt]

theorem table_setPte (h : Inv M v) (ht : v.table e i = some t) :
    (v.setWord t j w).table = v.table :=
  h.apart.table_setPte ht

theorem leaf_setPte (h : Inv M v) (ht : v.table e i = some t) (hj : j < 1024) (e' : EnvPtr)
    (n : Nat) :
    (v.setWord t j w).leaf e' n
      = if e' = e ∧ n = i * 1024 + j then (if has w pteV then some w else none)
        else v.leaf e' n :=
  h.apart.leaf_setPte ht hj e' n

theorem slotRef_setPte (h : Inv M v) (ht : v.table e i = some t) (hj : j < 1024)
    (hn : i * 1024 + j < npte) :
    (v.setWord t j w).slotRef = update v.slotRef (.page e ⟨i * 1024 + j, hn⟩)
      (if has w pteV then some (ppn w) else none) := by
  funext s
  cases s with
  | table e' i' =>
    rw [update_of_ne (by simp)]
    exact congrFun (congrFun (table_setPte h ht) e') i'
  | page e' n =>
    simp only [slotRef, leaf_setPte h ht hj]
    by_cases hs : e' = e ∧ (n : Nat) = i * 1024 + j
    · obtain ⟨rfl, hn'⟩ := hs
      obtain rfl : n = ⟨i * 1024 + j, hn⟩ := Fin.ext hn'
      rw [update_self, if_pos ⟨rfl, rfl⟩]
      split <;> rfl
    · rw [if_neg hs, update_of_ne]
      · rfl
      · intro heq
        cases heq
        exact hs ⟨rfl, rfl⟩

/-- Writing a directory entry changes one table. -/
theorem Apart.table_setPde (h : Apart v) (hd : v.dir e = some d) (hi : i < npde) (e' : EnvPtr)
    (i' : Nat) :
    (v.setWord d i w).table e' i'
      = if e' = e ∧ i' = i then (if has w pteV then some (ppn w) else none)
        else v.table e' i' := by
  by_cases he : e' = e
  · subst he
    by_cases hii : i' = i
    · subst hii
      rw [table_of_dir (v := v.setWord d i' w) hd hi]
      simp [setWord]
    · simp [table, setWord, hd, hii]
  · have hne : ¬(e' = e ∧ i' = i) := fun hc => he hc.1
    rw [if_neg hne]
    unfold table
    show (match v.dir e' with | none => _ | some _ => _) = _
    cases hd' : v.dir e' with
    | none => rfl
    | some d' =>
      have hdd : d' ≠ d := fun hc => he (h.dir_inj e' e d (hc ▸ hd') hd)
      simp [setWord, update_of_ne hdd]

/-- The pages of the table that a directory entry gains or loses, all unmapped before and after. -/
theorem Apart.leaf_setPde (h : Apart v) (hd : v.dir e = some d) (hi : i < npde)
    (hold : ∀ n, n / 1024 = i → v.leaf e n = none)
    (hnew : has w pteV → ppn w ≠ d ∧ ∀ j, v.mem (ppn w) j = 0) :
    (v.setWord d i w).leaf = v.leaf := by
  funext e' n
  have htab := h.table_setPde (w := w) hd hi e' (n / 1024)
  by_cases hs : e' = e ∧ n / 1024 = i
  · obtain ⟨rfl, hn⟩ := hs
    rw [hold n hn]
    rw [if_pos ⟨rfl, hn⟩] at htab
    by_cases hw : has w pteV
    · obtain ⟨hne, hz⟩ := hnew hw
      rw [if_pos hw] at htab
      rw [leaf_of_table htab]
      simp [setWord, update_of_ne hne, hz]
    · rw [if_neg hw] at htab
      exact leaf_of_no_table htab
  · rw [if_neg hs] at htab
    cases ht : v.table e' (n / 1024) with
    | none => rw [leaf_of_no_table ht, leaf_of_no_table (htab.trans ht)]
    | some t =>
      have hne : t ≠ d := fun hc => h.dir_not_table e d e' _ hd (hc ▸ ht)
      rw [leaf_of_table ht, leaf_of_table (htab.trans ht)]
      simp [setWord, update_of_ne hne]

theorem table_setPde (h : Inv M v) (hd : v.dir e = some d) (hi : i < npde) (e' : EnvPtr)
    (i' : Nat) :
    (v.setWord d i w).table e' i'
      = if e' = e ∧ i' = i then (if has w pteV then some (ppn w) else none)
        else v.table e' i' :=
  h.apart.table_setPde hd hi e' i'

theorem leaf_setPde (h : Inv M v) (hd : v.dir e = some d) (hi : i < npde)
    (hold : ∀ n, n / 1024 = i → v.leaf e n = none)
    (hnew : has w pteV → ppn w ≠ d ∧ ∀ j, v.mem (ppn w) j = 0) :
    (v.setWord d i w).leaf = v.leaf :=
  h.apart.leaf_setPde hd hi hold hnew

theorem slotRef_setPde (h : Inv M v) (hd : v.dir e = some d) (hi : i < npde)
    (hold : ∀ n, n / 1024 = i → v.leaf e n = none)
    (hnew : has w pteV → ppn w ≠ d ∧ ∀ j, v.mem (ppn w) j = 0) :
    (v.setWord d i w).slotRef = update v.slotRef (.table e ⟨i, hi⟩)
      (if has w pteV then some (ppn w) else none) := by
  funext s
  cases s with
  | table e' i' =>
    simp only [slotRef, table_setPde h hd hi]
    by_cases hs : e' = e ∧ (i' : Nat) = i
    · obtain ⟨rfl, hi'⟩ := hs
      obtain rfl : i' = ⟨i, hi⟩ := Fin.ext hi'
      rw [update_self, if_pos ⟨rfl, rfl⟩]
    · rw [if_neg hs, update_of_ne]
      · rfl
      · intro heq
        cases heq
        exact hs ⟨rfl, rfl⟩
  | page e' n =>
    rw [update_of_ne (by simp)]
    simp only [slotRef, leaf_setPde h hd hi hold hnew]

/-! ## Keeping the tables apart -/

namespace Apart

theorem congr (h : Apart v) (hnp : u.npage = v.npage) (hfree : u.free = v.free)
    (hdir : u.dir = v.dir) (htab : u.table = v.table) : Apart u := by
  obtain ⟨h1, h2, h3, h4, h5, h6, h7, h8, h9, h10⟩ := h
  constructor <;> simp only [hnp, hfree, hdir, htab] <;> assumption

theorem setPte (h : Apart v) (ht : v.table e i = some t) : Apart (v.setWord t j w) :=
  h.congr rfl rfl rfl (h.table_setPte ht)

/-- **A free frame becomes a page table.** -/
theorem linkTable (h : Apart v) (hd : v.dir e = some d) (hi : i < npde) (ht : v.table e i = none)
    {rest : List Nat} (hf : v.free = pp :: rest) (hw : has w pteV) (hpp : ppn w = pp)
    (hnp : u.npage = v.npage) (hfree : u.free = rest) (hdir : u.dir = v.dir)
    (hmem : u.mem = (Vm.setWord { v with mem := update v.mem pp fun _ => 0 } d i w).mem) :
    Apart u ∧ (∀ e' i', u.table e' i' = if e' = e ∧ i' = i then some pp else v.table e' i') ∧
      u.leaf = v.leaf := by
  have hfr : pp ∈ v.free := by
    rw [hf]
    exact List.mem_cons_self
  have hne : pp ≠ d := fun hc => h.free_not_dir pp hfr e (hc ▸ hd)
  obtain ⟨htab₁, hleaf₁⟩ :=
    view_setFrame (h.free_not_dir pp hfr) (h.free_not_table pp hfr) fun _ => 0
  have h₁ : Apart { v with mem := update v.mem pp fun _ => 0 } := h.congr rfl rfl rfl htab₁
  have hzero : ∀ j, update v.mem pp (fun _ => (0 : Word)) pp j = 0 := fun j => by rw [update_self]
  obtain ⟨htab₂, hleaf₂, -⟩ := view_of_mem (u := u)
    (v := Vm.setWord { v with mem := update v.mem pp fun _ => 0 } d i w) hmem hdir
  have htable : ∀ e' i', u.table e' i' = if e' = e ∧ i' = i then some pp else v.table e' i' := by
    intro e' i'
    rw [htab₂, h₁.table_setPde hd hi, if_pos hw, hpp, htab₁]
  have hold : ∀ n, n / 1024 = i → v.leaf e n = none := fun n hn => leaf_of_no_table (hn ▸ ht)
  have hleaf : u.leaf = v.leaf := by
    rw [hleaf₂, h₁.leaf_setPde hd hi (by rwa [hleaf₁]) fun _ => by rw [hpp]; exact ⟨hne, hzero⟩,
      hleaf₁]
  have hnodup := h.free_nodup
  rw [hf, List.nodup_cons] at hnodup
  have hrest : ∀ f ∈ rest, f ∈ v.free ∧ f ≠ pp := fun f hfm =>
    ⟨by rw [hf]; exact List.mem_cons_of_mem _ hfm, fun hc => hnodup.1 (hc ▸ hfm)⟩
  refine ⟨?_, htable, hleaf⟩
  constructor
  case npage_lt => exact hnp ▸ h.npage_lt
  case free_nodup => exact hfree ▸ hnodup.2
  case free_lt => exact fun f hfm => hnp ▸ h.free_lt f (hrest f (hfree ▸ hfm)).1
  case free_not_dir => exact fun f hfm => hdir ▸ h.free_not_dir f (hrest f (hfree ▸ hfm)).1
  case free_not_table =>
    intro f hfm e' i'
    obtain ⟨hfv, hfp⟩ := hrest f (hfree ▸ hfm)
    rw [htable]
    split
    · exact fun hc => hfp (Option.some.inj hc).symm
    · exact h.free_not_table f hfv e' i'
  case dir_lt => exact fun e' d' hd' => hnp ▸ h.dir_lt e' d' (hdir ▸ hd')
  case dir_inj => exact hdir ▸ h.dir_inj
  case dir_not_table =>
    intro e₁ d₁ e' i' hd₁
    rw [hdir] at hd₁
    rw [htable]
    split
    · exact fun hc => h.free_not_dir pp hfr e₁ (Option.some.inj hc ▸ hd₁)
    · exact h.dir_not_table e₁ d₁ e' i' hd₁
  case table_lt =>
    intro e' i' t' ht'
    rw [htable] at ht'
    rw [hnp]
    split at ht'
    · exact Option.some.inj ht' ▸ h.free_lt pp hfr
    · exact h.table_lt e' i' t' ht'
  case table_inj =>
    intro e₁ i₁ e₂ i₂ t' ht₁ ht₂
    rw [htable] at ht₁ ht₂
    split at ht₁
    next hc₁ =>
      split at ht₂
      next hc₂ => exact ⟨hc₂.1.trans hc₁.1.symm, hc₂.2.trans hc₁.2.symm⟩
      next => exact absurd (ht₂.trans ht₁.symm) (h.free_not_table pp hfr e₂ i₂)
    next =>
      split at ht₂
      next => exact absurd (ht₁.trans ht₂.symm) (h.free_not_table pp hfr e₁ i₁)
      next => exact h.table_inj e₁ i₁ e₂ i₂ t' ht₁ ht₂

end Apart

/-! ## Keeping the invariant -/

namespace Inv

/-- Only the slots, the counts and the lists matter. -/
theorem congr (h : Inv M v) (hnp : u.npage = v.npage) (hfree : u.free = v.free)
    (hpg : u.pgdirs = v.pgdirs) (hdir : u.dir = v.dir) (href : u.ppRef = v.ppRef)
    (hslot : u.slotRef = v.slotRef) : Inv M u := by
  obtain ⟨h1, h2, h3, h4, h5, h6, h7, h8, h9, h10⟩ := h
  constructor <;> simp only [refs, hnp, hfree, hpg, hdir, href, hslot] <;> assumption

/-- **Filling an empty slot** with a frame that is in use, and counting it. A page table must not be
referred to before. -/
theorem link (h : Inv M v) (hs : v.slotRef s = none) (hM : pp ∈ M) (hfr : pp ∉ v.free)
    (hpp : pp ∉ v.pgdirs)
    (hexcl : ∀ s', v.slotRef s' = some pp → ∃ e n e' n', s = .page e n ∧ s' = .page e' n')
    (hcap : v.refs pp < 65535)
    (hnp : u.npage = v.npage) (hfree : u.free = v.free) (hpg : u.pgdirs = v.pgdirs)
    (hdir : u.dir = v.dir) (href : u.ppRef = update v.ppRef pp (v.ppRef pp + 1))
    (hslot : u.slotRef = update v.slotRef s (some pp)) : Inv M u := by
  have hother : ∀ f, f ≠ pp → u.ppRef f = v.ppRef f := fun f hf => by
    rw [href, update_of_ne hf]
  refine ⟨by rw [hnp]; exact h.npage_lt, by rw [hnp]; exact h.managed,
    by rw [hfree]; exact h.free_nodup, ?_, ?_, by rw [hdir, hpg]; exact h.dir_mem,
    by rw [hdir]; exact h.dir_inj, ?_, ?_, ?_⟩
  · intro f hf
    rw [hfree] at hf
    rw [hpg, hother f (fun hc => hfr (hc ▸ hf))]
    exact h.free_spec f hf
  · intro p hp
    rw [hpg] at hp
    rw [hother p (fun hc => hpp (hc ▸ hp))]
    exact h.pgdirs_spec p hp
  · intro s' f hs'
    rw [hpg]
    rw [hslot] at hs'
    by_cases hss : s' = s
    · rw [hss, update_self] at hs'
      cases hs'
      exact ⟨hM, hpp⟩
    · rw [update_of_ne hss] at hs'
      exact h.held s' f hs'
  · intro e i s' t ht hs'
    rw [hslot] at ht hs'
    by_cases h1 : Slot.table e i = s
    · -- the new slot is a table: nobody else refers to it
      rw [h1, update_self] at ht
      cases ht
      by_cases h2 : s' = s
      · rw [h2, h1]
      · rw [update_of_ne h2] at hs'
        obtain ⟨e₁, n₁, _, _, hp, _⟩ := hexcl s' hs'
        rw [hp] at h1
        cases h1
    · rw [update_of_ne h1] at ht
      by_cases h2 : s' = s
      · rw [h2, update_self] at hs'
        cases hs'
        obtain ⟨_, _, _, _, _, hp⟩ := hexcl _ ht
        cases hp
      · rw [update_of_ne h2] at hs'
        exact h.table_excl e i s' t ht hs'
  · intro f hf hfp
    rw [hpg] at hfp
    have hc := h.count f hf hfp
    by_cases hfpp : f = pp
    · subst hfpp
      have hr : u.refs f = v.refs f + 1 := by
        rw [refs, hslot]
        exact refCount_update_set (by rw [hs]; simp)
      rw [hr, href, update_self, BitVec.toNat_add, hc]
      exact Nat.mod_eq_of_lt (by simpa using Nat.succ_lt_succ hcap)
    · rw [hother f hfpp, hc, refs, refs, hslot]
      exact (refCount_update_other (by rw [hs]; simp) (by simpa using fun h => hfpp h.symm)).symm

/-- **Clearing a slot** and uncounting its frame, which becomes free with the last reference. -/
theorem unlink (h : Inv M v) (hs : v.slotRef s = some pp)
    (hnp : u.npage = v.npage)
    (hfree : u.free = if v.ppRef pp - 1 = 0 then pp :: v.free else v.free)
    (hpg : u.pgdirs = v.pgdirs)
    (hdir : u.dir = v.dir) (href : u.ppRef = update v.ppRef pp (v.ppRef pp - 1))
    (hslot : u.slotRef = update v.slotRef s none) : Inv M u := by
  obtain ⟨hM, hpp⟩ := h.held s pp hs
  have hother : ∀ f, f ≠ pp → u.ppRef f = v.ppRef f := fun f hf => by
    rw [href, update_of_ne hf]
  have hfr : pp ∉ v.free := fun hf => h.free_not_held hf hs
  have hpos : 0 < v.refs pp := refCount_pos hs
  have hcnt := h.count pp hM hpp
  have hsub : (v.ppRef pp - 1).toNat = v.refs pp - 1 := by
    have := (v.ppRef pp).isLt
    rw [BitVec.toNat_sub_of_le (by rw [BitVec.le_def]; simp; omega), hcnt]
    rfl
  have hrefs : u.refs pp + 1 = v.refs pp := by
    rw [refs, hslot]
    exact refCount_update_clear hs (by simp)
  refine ⟨by rw [hnp]; exact h.npage_lt, by rw [hnp]; exact h.managed, ?_, ?_, ?_,
    by rw [hdir, hpg]; exact h.dir_mem, by rw [hdir]; exact h.dir_inj, ?_, ?_, ?_⟩
  · rw [hfree]
    split
    · exact List.nodup_cons.mpr ⟨hfr, h.free_nodup⟩
    · exact h.free_nodup
  · intro f hf
    rw [hpg]
    by_cases hfpp : f = pp
    · subst hfpp
      refine ⟨hM, hpp, ?_⟩
      rw [hfree] at hf
      split at hf
      next h0 => rw [href, update_self, h0]
      next => exact absurd hf hfr
    · rw [hother f hfpp]
      refine h.free_spec f ?_
      rw [hfree] at hf
      split at hf
      next => exact (List.mem_cons.mp hf).resolve_left hfpp
      next => exact hf
  · intro p hp
    rw [hpg] at hp
    rw [hother p (fun hc => hpp (hc ▸ hp))]
    exact h.pgdirs_spec p hp
  · intro s' f hs'
    rw [hpg]
    rw [hslot] at hs'
    by_cases hss : s' = s
    · rw [hss, update_self] at hs'
      cases hs'
    · rw [update_of_ne hss] at hs'
      exact h.held s' f hs'
  · intro e i s' t ht hs'
    rw [hslot] at ht hs'
    have h1 : Slot.table e i ≠ s := fun hc => by rw [hc, update_self] at ht; cases ht
    have h2 : s' ≠ s := fun hc => by rw [hc, update_self] at hs'; cases hs'
    rw [update_of_ne h1] at ht
    rw [update_of_ne h2] at hs'
    exact h.table_excl e i s' t ht hs'
  · intro f hf hfp
    rw [hpg] at hfp
    by_cases hfpp : f = pp
    · subst hfpp
      rw [href, update_self, hsub]
      omega
    · rw [hother f hfpp, h.count f hf hfp, refs, refs, hslot]
      refine (refCount_update_other ?_ (by simp)).symm
      rw [hs]
      simpa using fun hc => hfpp hc.symm

end Inv

/-! ## The steps of memory management -/

/-- A frame that may be mapped: in use, and neither a directory nor a table. -/
structure Usable (M : List Nat) (v : Vm) (f : Nat) : Prop where
  managed : f ∈ M
  not_free : f ∉ v.free
  not_pgdir : f ∉ v.pgdirs
  not_table : ∀ e i, v.table e i ≠ some f

/-- A frame just taken off the free list: nothing refers to it. -/
structure Fresh (M : List Nat) (v : Vm) (f : Nat) : Prop where
  managed : f ∈ M
  not_free : f ∉ v.free
  not_pgdir : f ∉ v.pgdirs
  not_held : ∀ s, v.slotRef s ≠ some f
  zero : ∀ i, v.mem f i = 0

/-- From `v` to `u` no mapping has changed, and the frames in use are as they were. -/
structure Grow (M : List Nat) (v u : Vm) : Prop where
  leaf : u.leaf = v.leaf
  dir : u.dir = v.dir
  keep : ∀ f, Usable M v f → Usable M u f ∧ u.mem f = v.mem f ∧ u.refs f = v.refs f

/-- From `v` to `u` the entry of one page has become `o`, and the frames in use have kept their
contents. -/
structure Remap (M : List Nat) (v u : Vm) (e : EnvPtr) (n : Nat) (o : Option Word) : Prop where
  leaf : ∀ e' n', u.leaf e' n' = if e' = e ∧ n' = n then o else v.leaf e' n'
  dir : u.dir = v.dir
  data : ∀ f, Usable M v f → u.mem f = v.mem f

theorem Fresh.usable (h : Fresh M v f) : Usable M v f :=
  ⟨h.managed, h.not_free, h.not_pgdir, fun _ _ ht => h.not_held _ (slotRef_table ht)⟩

theorem Fresh.refs (h : Fresh M v f) : v.refs f = 0 := refCount_eq_zero.mpr h.not_held

theorem Inv.usable_of_leaf (h : Inv M v) (hl : v.leaf e n = some w) : Usable M v (ppn w) := by
  obtain ⟨hM, hp⟩ := h.held _ _ (slotRef_page hl)
  exact ⟨hM, fun hf => h.free_not_held hf (slotRef_page hl), hp, fun _ _ => h.leaf_not_table hl⟩

theorem Inv.ne_dir (h : Inv M v) (hu : Usable M v f) : v.dir e ≠ some f :=
  fun hd => hu.not_pgdir (h.dir_mem e f hd)

theorem Grow.refl (v : Vm) : Grow M v v := ⟨rfl, rfl, fun _ h => ⟨h, rfl, rfl⟩⟩

theorem Grow.trans {v₁ v₂ v₃ : Vm} (h : Grow M v₁ v₂) (h' : Grow M v₂ v₃) : Grow M v₁ v₃ := by
  refine ⟨h'.leaf.trans h.leaf, h'.dir.trans h.dir, fun f hf => ?_⟩
  obtain ⟨h1, h2, h3⟩ := h.keep f hf
  obtain ⟨h4, h5, h6⟩ := h'.keep f h1
  exact ⟨h4, h5.trans h2, h6.trans h3⟩

/-- `page_alloc`. -/
theorem Inv.alloc (h : Inv M v) {rest : List Nat} (hf : v.free = pp :: rest)
    (hv : u = { v with free := rest, mem := update v.mem pp fun _ => 0 }) :
    Inv M u ∧ Grow M v u ∧ Fresh M u pp ∧ u.slotRef = v.slotRef := by
  subst hv
  have hmem : pp ∈ v.free := by rw [hf]; exact List.mem_cons_self
  have hnd := h.free_nodup
  rw [hf] at hnd
  obtain ⟨hpM, hpd, _⟩ := h.free_spec pp hmem
  obtain ⟨htab, hleaf⟩ := view_setFrame (v := v) (f := pp) (fun e => h.free_not_dir hmem)
    (fun e i => h.free_not_table hmem) fun _ => 0
  have hslot : Vm.slotRef { v with free := rest, mem := update v.mem pp fun _ => 0 } = v.slotRef :=
    slotRef_congr htab hleaf
  have hsub : ∀ f ∈ rest, f ∈ v.free := fun f hf' => by rw [hf]; exact List.mem_cons_of_mem _ hf'
  refine ⟨?_, ⟨hleaf, rfl, fun f hu => ?_⟩, ?_, hslot⟩
  · exact ⟨h.npage_lt, h.managed, (List.nodup_cons.mp hnd).2, fun f hf' => h.free_spec f (hsub f hf'),
      h.pgdirs_spec, h.dir_mem, h.dir_inj, by rw [hslot]; exact h.held,
      by rw [hslot]; exact h.table_excl, by unfold refs; rw [hslot]; exact h.count⟩
  · have hne : f ≠ pp := fun hc => hu.not_free (hc ▸ hmem)
    refine ⟨⟨hu.managed, fun hf' => hu.not_free (hsub f hf'), hu.not_pgdir, ?_⟩,
      update_of_ne hne _ _, by unfold refs; rw [hslot]⟩
    intro e i
    exact htab ▸ hu.not_table e i
  · exact ⟨hpM, (List.nodup_cons.mp hnd).1, hpd, fun s => by rw [hslot]; exact h.free_not_held hmem,
      fun i => by simp⟩

/-- `pgdir_walk` puts a new page table into a directory. -/
theorem Inv.linkTable (h : Inv M v) (hd : v.dir e = some d) (hi : i < npde)
    (ht : v.table e i = none) (hfresh : Fresh M v pp)
    (hv : u = (v.setWord d i (page2pa pp ||| pteV ||| pteD)).addRef pp) :
    Inv M u ∧ u.table e i = some pp ∧ u.leaf = v.leaf ∧
      ∀ f, f ≠ pp → Usable M v f → Usable M u f ∧ u.mem f = v.mem f ∧ u.refs f = v.refs f := by
  have hlt : pp < 2 ^ 20 := lt_trans (h.managed pp hfresh.managed) h.npage_lt
  have hppn := ppn_tableEntry hlt
  have hval := has_tableEntry_valid pp
  have hdpp : pp ≠ d := fun hc => hfresh.not_pgdir (hc ▸ h.dir_mem e d hd)
  have hold : ∀ n, n / 1024 = i → v.leaf e n = none := fun n hn => leaf_of_no_table (hn ▸ ht)
  have hnew : has (page2pa pp ||| pteV ||| pteD) pteV →
      ppn (page2pa pp ||| pteV ||| pteD) ≠ d ∧
        ∀ j, v.mem (ppn (page2pa pp ||| pteV ||| pteD)) j = 0 := by
    rw [hppn]
    exact fun _ => ⟨hdpp, hfresh.zero⟩
  obtain ⟨h₁, h₂, h₃⟩ := view_of_mem (v := v.setWord d i (page2pa pp ||| pteV ||| pteD)) (u := u)
    (by rw [hv]; rfl) (by rw [hv]; rfl)
  have htab' : ∀ e' i', u.table e' i' = if e' = e ∧ i' = i then some pp else v.table e' i' := by
    intro e' i'
    rw [h₁, table_setPde h hd hi, if_pos hval, hppn]
  have hleaf' : u.leaf = v.leaf := h₂.trans (leaf_setPde h hd hi hold hnew)
  have hslot : u.slotRef = update v.slotRef (.table e ⟨i, hi⟩) (some pp) := by
    rw [h₃, slotRef_setPde h hd hi hold hnew, if_pos hval, hppn]
  refine ⟨?_, by rw [htab', if_pos ⟨rfl, rfl⟩], hleaf', ?_⟩
  · refine h.link (s := .table e ⟨i, hi⟩) ht hfresh.managed hfresh.not_free hfresh.not_pgdir
      (fun s' hs' => absurd hs' (hfresh.not_held s')) (by rw [hfresh.refs]; decide)
      (by rw [hv]; rfl) (by rw [hv]; rfl) (by rw [hv]; rfl) (by rw [hv]; rfl) (by rw [hv]; rfl)
      hslot
  · intro f hne hu
    refine ⟨⟨hu.managed, by subst hv; exact hu.not_free, by subst hv; exact hu.not_pgdir, ?_⟩, ?_, ?_⟩
    · intro e' i'
      rw [htab']
      split
      · simpa using fun hc => hne hc.symm
      · exact hu.not_table e' i'
    · have hfd : f ≠ d := fun hc => h.ne_dir hu (hc ▸ hd)
      subst hv
      simp [setWord, addRef, update_of_ne hfd]
    · rw [refs, hslot]
      exact refCount_update_other (by simp [slotRef, ht]) (by simpa using fun hc => hne hc.symm)

/-- A page table entry is written over one of the same frame: nothing is counted. -/
theorem Inv.relink (h : Inv M v) (ht : v.table e i = some t) (hj : j < 1024) {w₀ : Word}
    (hl : v.leaf e (i * 1024 + j) = some w₀) (hw : has w pteV) (hpp : ppn w = ppn w₀) :
    Inv M (v.setWord t j w) := by
  refine h.congr rfl rfl rfl rfl rfl ?_
  rw [slotRef_setPte h ht hj (leaf_lt hl), if_pos hw]
  refine update_eq_self_iff.mpr ?_
  rw [slotRef_page hl, hpp]

/-- `page_insert` fills an empty page table entry. -/
theorem Inv.linkPage (h : Inv M v) (ht : v.table e i = some t) (hj : j < 1024)
    (hl : v.leaf e (i * 1024 + j) = none) (hu : Usable M v (ppn w)) (hw : has w pteV)
    (hcap : v.refs (ppn w) < 65535) :
    Inv M ((v.setWord t j w).addRef (ppn w)) := by
  have hn : i * 1024 + j < npte := by
    have := table_lt ht
    unfold npde at this
    unfold npte
    omega
  refine h.link (s := .page e ⟨i * 1024 + j, hn⟩) (by simp [slotRef, hl]) hu.managed
    hu.not_free hu.not_pgdir ?_ hcap rfl rfl rfl rfl rfl ?_
  · intro s' hs'
    cases s' with
    | table e' i' => exact absurd hs' (hu.not_table e' i')
    | page e' n' => exact ⟨e, _, e', n', rfl, rfl⟩
  · have := slotRef_setPte (w := w) h ht hj hn
    rw [if_pos hw] at this
    exact this

/-- How often the frame of a new entry is referred to. -/
theorem Inv.refs_linkPage (h : Inv M v) (ht : v.table e i = some t) (hj : j < 1024)
    (hl : v.leaf e (i * 1024 + j) = none) (hw : has w pteV) :
    (v.setWord t j w).refs (ppn w) = v.refs (ppn w) + 1 := by
  have hn : i * 1024 + j < npte := by
    have := table_lt ht
    unfold npde at this
    unfold npte
    omega
  rw [refs, slotRef_setPte h ht hj hn, if_pos hw]
  exact refCount_update_set (by simp [slotRef, hl])

/-- `page_remove` clears a page table entry. -/
theorem Inv.unlinkPage (h : Inv M v) (ht : v.table e i = some t) (hj : j < 1024)
    (hl : v.leaf e (i * 1024 + j) = some w) :
    Inv M ((v.setWord t j 0).dropRef (ppn w)) := by
  refine h.unlink (slotRef_page hl) rfl rfl rfl rfl rfl ?_
  have := slotRef_setPte (w := 0) h ht hj (leaf_lt hl)
  rw [if_neg (by simp)] at this
  exact this

/-- What is left after `page_remove`. Another frame stays in use and is referred to as often as
before. -/
theorem Inv.after_unlinkPage (h : Inv M v) (ht : v.table e i = some t) (hj : j < 1024)
    (hl : v.leaf e (i * 1024 + j) = some w) (hv : u = (v.setWord t j 0).dropRef (ppn w)) :
    u.table = v.table ∧ u.leaf e (i * 1024 + j) = none ∧
      ∀ f, f ≠ ppn w → Usable M v f → Usable M u f ∧ u.refs f = v.refs f := by
  subst hv
  have htab : ((v.setWord t j 0).dropRef (ppn w)).table = v.table := by
    rw [table_dropRef, table_setPte h ht]
  refine ⟨htab, ?_, fun f hne hu => ⟨⟨hu.managed, ?_, hu.not_pgdir, ?_⟩, ?_⟩⟩
  · rw [leaf_dropRef, leaf_setPte h ht hj, if_pos ⟨rfl, rfl⟩, if_neg (by simp)]
  · show f ∉ (if _ then _ else _)
    split
    · exact fun hc => (List.mem_cons.mp hc).elim hne hu.not_free
    · exact hu.not_free
  · rw [htab]
    exact hu.not_table
  · rw [refs, slotRef_dropRef, slotRef_setPte h ht hj (leaf_lt hl), if_neg (by simp)]
    refine refCount_update_other ?_ (by simp)
    rw [slotRef_page hl]
    simpa using fun hc => hne hc.symm

/-- `env_free` takes an empty page table out of the directory. -/
theorem Inv.unlinkTable (h : Inv M v) (hd : v.dir e = some d) (ht : v.table e i = some t)
    (hempty : ∀ n, n / 1024 = i → v.leaf e n = none) :
    Inv M ((v.setWord d i 0).dropRef t) := by
  refine h.unlink (slotRef_table ht) rfl rfl rfl rfl rfl ?_
  have := slotRef_setPde (w := 0) h hd (table_lt ht) hempty (by simp)
  rw [if_neg (by simp)] at this
  exact this

/-- `env_setup_vm` turns a fresh frame into a page directory. No env uses it yet. -/
theorem Inv.newPgdir (h : Inv M v) (hfresh : Fresh M v pp) (ws : Nat → Word) :
    Inv M { v.addRef pp with mem := update v.mem pp ws, pgdirs := pp :: v.pgdirs } := by
  have hcount := h.count pp hfresh.managed hfresh.not_pgdir
  have hzero : v.ppRef pp = 0 := by
    rw [hfresh.refs] at hcount
    exact BitVec.eq_of_toNat_eq hcount
  obtain ⟨htab, hleaf⟩ := view_setFrame (v := v) (f := pp)
    (fun e => h.ne_dir hfresh.usable) hfresh.usable.not_table ws
  obtain ⟨_, _, hslot₁⟩ := view_of_mem (v := { v with mem := update v.mem pp ws })
    (u := { v.addRef pp with mem := update v.mem pp ws, pgdirs := pp :: v.pgdirs }) rfl rfl
  have hslot := hslot₁.trans (slotRef_congr htab hleaf)
  have hother : ∀ f, f ≠ pp → (v.addRef pp).ppRef f = v.ppRef f := fun f hf => update_of_ne hf _ _
  refine ⟨h.npage_lt, h.managed, h.free_nodup, fun f hf => ?_, fun p hp => ?_, fun e d hd => ?_,
    h.dir_inj, fun s f hs => ?_, by rw [hslot]; exact h.table_excl, fun f hf hfp => ?_⟩
  · obtain ⟨hM, hp, h0⟩ := h.free_spec f hf
    have hne : f ≠ pp := fun hc => hfresh.not_free (hc ▸ hf)
    exact ⟨hM, fun hc => (List.mem_cons.mp hc).elim hne hp, (hother f hne).trans h0⟩
  · by_cases hpp : p = pp
    · subst hpp
      refine ⟨hfresh.managed, ?_⟩
      show update v.ppRef p (v.ppRef p + 1) p = 1
      rw [update_self, hzero]
      rfl
    · obtain ⟨hM, h1⟩ := h.pgdirs_spec p ((List.mem_cons.mp hp).resolve_left hpp)
      exact ⟨hM, (hother p hpp).trans h1⟩
  · exact List.mem_cons_of_mem _ (h.dir_mem e d hd)
  · rw [hslot] at hs
    obtain ⟨hM, hp⟩ := h.held s f hs
    refine ⟨hM, fun hc => (List.mem_cons.mp hc).elim (fun he => ?_) hp⟩
    exact hfresh.not_held s (he ▸ hs)
  · have hne : f ≠ pp := fun hc => hfp (hc ▸ List.mem_cons_self)
    have hc := h.count f hf fun hc => hfp (List.mem_cons_of_mem _ hc)
    rw [refs, hslot, ← refs, ← hc]
    exact congrArg BitVec.toNat (hother f hne)

/-- An env comes to life with a page directory that has no tables. -/
theorem Inv.addDir (h : Inv M v) (hp : pp ∈ v.pgdirs) (hdead : v.dir e = none)
    (hown : ∀ e', v.dir e' ≠ some pp) (hz : ∀ i < npde, v.mem pp i = 0)
    (hv : u = { v with dir := update v.dir e (some pp) }) :
    Inv M u ∧ u.leaf = v.leaf := by
  have hdir : u.dir = update v.dir e (some pp) := by rw [hv]
  have hmem : u.mem = v.mem := by rw [hv]
  have htab : u.table = v.table := by
    funext e' i
    by_cases he : e' = e
    · subst he
      have hold : v.table e' i = none := by simp [table, hdead]
      rw [hold]
      by_cases hi : i < npde
      · simp [table, hdir, hmem, hz i hi]
      · simp [table, hdir, hi]
    · simp [table, hdir, hmem, update_of_ne he]
  have hleaf : u.leaf = v.leaf := leaf_congr htab fun _ _ _ _ _ _ => by rw [hmem]
  have hslot := slotRef_congr htab hleaf
  have hdirs : ∀ e' d, u.dir e' = some d → e' = e ∧ d = pp ∨ e' ≠ e ∧ v.dir e' = some d := by
    intro e' d hd
    rw [hdir] at hd
    by_cases he : e' = e
    · rw [he, update_self] at hd
      exact .inl ⟨he, (Option.some.inj hd).symm⟩
    · rw [update_of_ne he] at hd
      exact .inr ⟨he, hd⟩
  have hrest : u.npage = v.npage ∧ u.free = v.free ∧ u.pgdirs = v.pgdirs ∧ u.ppRef = v.ppRef := by
    rw [hv]
    exact ⟨rfl, rfl, rfl, rfl⟩
  obtain ⟨hnp, hfree, hpg, href⟩ := hrest
  refine ⟨⟨by rw [hnp]; exact h.npage_lt, by rw [hnp]; exact h.managed,
    by rw [hfree]; exact h.free_nodup, by rw [hfree, hpg, href]; exact h.free_spec,
    by rw [hpg, href]; exact h.pgdirs_spec, ?_, ?_, by rw [hslot, hpg]; exact h.held,
    by rw [hslot]; exact h.table_excl,
    by unfold refs; rw [hslot, hpg, href]; exact h.count⟩, hleaf⟩
  · intro e' d hd
    rw [hpg]
    rcases hdirs e' d hd with ⟨_, rfl⟩ | ⟨_, hd⟩
    · exact hp
    · exact h.dir_mem e' d hd
  · intro e₁ e₂ d h₁ h₂
    rcases hdirs e₁ d h₁ with ⟨rfl, rfl⟩ | ⟨_, h₁⟩ <;>
      rcases hdirs e₂ _ h₂ with ⟨rfl, hd₂⟩ | ⟨_, h₂⟩
    · rfl
    · exact absurd h₂ (hown e₂)
    · exact absurd h₁ (hd₂ ▸ hown e₁)
    · exact h.dir_inj e₁ e₂ d h₁ h₂

/-- `env_free` gives the page directory back, after all its tables are gone. -/
theorem Inv.dropDir (h : Inv M v) (hd : v.dir e = some d) (hempty : ∀ i, v.table e i = none)
    (hnp : u.npage = v.npage) (hmem : u.mem = v.mem)
    (hdir : u.dir = update v.dir e none) (href : u.ppRef = update v.ppRef d 0)
    (hfree : u.free = d :: v.free) (hpg : u.pgdirs = v.pgdirs.filter (· ≠ d)) : Inv M u := by
  have hdp := h.dir_mem e d hd
  obtain ⟨hdM, hd1⟩ := h.pgdirs_spec d hdp
  have htab : u.table = v.table := by
    funext e' i
    by_cases he : e' = e
    · subst he
      rw [hempty i]
      simp [table, hdir]
    · simp [table, hdir, hmem, update_of_ne he]
  have hslot : u.slotRef = v.slotRef :=
    slotRef_congr htab (leaf_congr htab fun _ _ _ _ _ _ => by rw [hmem])
  have hother : ∀ f, f ≠ d → u.ppRef f = v.ppRef f := fun f hf => by rw [href, update_of_ne hf]
  have hpgmem : ∀ p, p ∈ u.pgdirs ↔ p ∈ v.pgdirs ∧ p ≠ d := fun p => by simp [hpg]
  have hdirs : ∀ e' d', u.dir e' = some d' → v.dir e' = some d' ∧ e' ≠ e := by
    intro e' d' he'
    rw [hdir] at he'
    by_cases hee : e' = e
    · rw [hee, update_self] at he'
      cases he'
    · rw [update_of_ne hee] at he'
      exact ⟨he', hee⟩
  refine ⟨by rw [hnp]; exact h.npage_lt, by rw [hnp]; exact h.managed, ?_, ?_, ?_, ?_, ?_,
    ?_, by rw [hslot]; exact h.table_excl, ?_⟩
  · rw [hfree]
    exact List.nodup_cons.mpr ⟨fun hc => (h.free_spec d hc).2.1 hdp, h.free_nodup⟩
  · intro f hf
    rw [hpgmem]
    rw [hfree] at hf
    by_cases hfd : f = d
    · subst hfd
      exact ⟨hdM, fun hc => hc.2 rfl, by rw [href, update_self]⟩
    · obtain ⟨hM, hp, h0⟩ := h.free_spec f ((List.mem_cons.mp hf).resolve_left hfd)
      exact ⟨hM, fun hc => hp hc.1, by rw [hother f hfd, h0]⟩
  · intro p hp
    obtain ⟨hp, hne⟩ := (hpgmem p).mp hp
    rw [hother p hne]
    exact h.pgdirs_spec p hp
  · intro e' d' he'
    obtain ⟨he', hee⟩ := hdirs e' d' he'
    exact (hpgmem d').mpr ⟨h.dir_mem e' d' he', fun hc => hee (h.dir_inj e' e d (hc ▸ he') hd)⟩
  · intro e₁ e₂ d' h₁ h₂
    exact h.dir_inj e₁ e₂ d' (hdirs e₁ d' h₁).1 (hdirs e₂ d' h₂).1
  · intro s f hs
    rw [hslot] at hs
    obtain ⟨hM, hp⟩ := h.held s f hs
    exact ⟨hM, fun hc => hp ((hpgmem f).mp hc).1⟩
  · intro f hf hfp
    by_cases hfd : f = d
    · subst hfd
      have h0 : v.refs f = 0 := refCount_eq_zero.mpr fun s => h.dir_not_held hd
      rw [refs, hslot, ← refs, h0, href, update_self]
      rfl
    · rw [hother f hfd, refs, hslot, ← refs]
      exact h.count f hf fun hc => hfp ((hpgmem f).mpr ⟨hc, hfd⟩)

/-- Writing a page table entry, as seen from the mappings. -/
theorem Inv.remap_setPte (h : Inv M v) (ht : v.table e i = some t) (hj : j < 1024)
    (hv : u.mem = (v.setWord t j w).mem) (hdir : u.dir = v.dir) :
    Remap M v u e (i * 1024 + j) (if has w pteV then some w else none) := by
  obtain ⟨_, hleaf, _⟩ := view_of_mem (v := v.setWord t j w) hv hdir
  refine ⟨fun e' n' => by rw [hleaf]; exact leaf_setPte h ht hj e' n', hdir, fun f hu => ?_⟩
  have hne : f ≠ t := fun hc => hu.not_table e i (hc ▸ ht)
  rw [hv]
  exact update_of_ne hne _ _

/-- The entries of a directory from `UTOP` on are not the user's. -/
theorem Inv.view_setHigh (h : Inv M v) (hd : v.dir e = some d) (hi : npde ≤ i) :
    (v.setWord d i w).table = v.table ∧ (v.setWord d i w).leaf = v.leaf := by
  have htab : (v.setWord d i w).table = v.table := by
    refine table_congr rfl fun e' d' _ i' hi' => ?_
    by_cases hdd : d' = d
    · have hne : i' ≠ i := by omega
      simp [setWord, hdd, update_of_ne hne]
    · simp [setWord, update_of_ne hdd]
  refine ⟨htab, leaf_congr htab fun e' i' t ht j _ => ?_⟩
  have hne : t ≠ d := fun hc => h.dir_not_table hd (hc ▸ ht)
  simp [setWord, update_of_ne hne]

/-- A frame that nothing refers to need not be managed, whatever its count. -/
theorem Inv.forget (h : Inv M v) (hfresh : Fresh M v pp) (hnp : u.npage = v.npage)
    (hfree : u.free = v.free) (hpg : u.pgdirs = v.pgdirs) (hdir : u.dir = v.dir)
    (href : ∀ f, f ≠ pp → u.ppRef f = v.ppRef f) (hslot : u.slotRef = v.slotRef) :
    Inv (M.filter (· ≠ pp)) u := by
  have hmem : ∀ f, f ∈ M.filter (· ≠ pp) ↔ f ∈ M ∧ f ≠ pp := fun f => by simp
  refine ⟨by rw [hnp]; exact h.npage_lt, fun f hf => by rw [hnp]; exact h.managed f ((hmem f).mp hf).1,
    by rw [hfree]; exact h.free_nodup, fun f hf => ?_, fun p hp => ?_,
    by rw [hdir, hpg]; exact h.dir_mem, by rw [hdir]; exact h.dir_inj, fun s f hs => ?_,
    by rw [hslot]; exact h.table_excl, fun f hf hp => ?_⟩
  · rw [hfree] at hf
    have hne : f ≠ pp := fun hc => hfresh.not_free (hc ▸ hf)
    rw [hmem, hpg, href f hne]
    exact ⟨⟨(h.free_spec f hf).1, hne⟩, (h.free_spec f hf).2⟩
  · rw [hpg] at hp
    have hne : p ≠ pp := fun hc => hfresh.not_pgdir (hc ▸ hp)
    rw [hmem, href p hne]
    exact ⟨⟨(h.pgdirs_spec p hp).1, hne⟩, (h.pgdirs_spec p hp).2⟩
  · rw [hslot] at hs
    rw [hmem, hpg]
    exact ⟨⟨(h.held s f hs).1, fun hc => hfresh.not_held s (hc ▸ hs)⟩, (h.held s f hs).2⟩
  · obtain ⟨hf, hne⟩ := (hmem f).mp hf
    rw [href f hne, refs, hslot]
    exact h.count f hf (hpg ▸ hp)

end Vm

end Mos
