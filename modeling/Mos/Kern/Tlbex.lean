import Mos.Kern.Pmap

/-!
# `kern/tlbex.c`: TLB refill

A user access to an address without a TLB entry ends in `_do_tlb_refill`, which maps a fresh page
where there is none (`passive_alloc`). The kernel's own accesses to user addresses take the same
path.
-/

namespace Mos

open Lib Prog

/-- `panic_on(expr)`. -/
def panicOn {α : Type} (m : KernM α) : KernM α := do
  match ← attempt m with
  | .ok a => pure a
  | .error _ => halt .panicOn

/-- The checks of `passive_alloc`: where no page is ever mapped on demand. -/
def passiveCheck (va : Word) : Option Panic :=
  if va < utemp then some .addressTooLow
  else if ustacktop ≤ va ∧ va < ustacktop + by2pg then some .invalidMemory
  else if uenvs ≤ va ∧ va < upages then some .envsZone
  else if upages ≤ va ∧ va < uvpt then some .pagesZone
  else if ulim ≤ va then some .kernelAddress
  else none

/-- `passive_alloc(va, pgdir, asid)`. -/
def passiveAlloc (va : Word) (pgdir : Nat) (asid : Word) : KernM Unit := do
  match passiveCheck va with
  | some p => halt p
  | none =>
    let p ← panicOn pageAlloc
    panicOn (pageInsert pgdir asid p (pteAddr va) pteD)

/-- The loop of `_do_tlb_refill`. One round maps the page, so the second lookup succeeds. -/
def refillLoop (va asid : Word) : Nat → KernM (Nat × Nat)
  | 0 => halt .refillLoop
  | n + 1 => do
    let k ← get
    match ← pageLookup k.curPgdir va with
    | some (_, pt, i) => pure (pt, i)
    | none =>
      passiveAlloc va k.curPgdir asid
      refillLoop va asid n

/-- `_do_tlb_refill(va, asid)`: the page table entry for `va`. -/
def doTlbRefill (va asid : Word) : KernM Word := do
  let (pt, i) ← refillLoop va asid 2
  readWord pt i

/-- `do_tlb_refill`: writes the entry to the TLB. -/
def tlbRefill (va asid : Word) : KernM Unit := do
  let pte ← doTlbRefill va asid
  modify fun k => { k with tlb := { hi := pteAddr va ||| asid <<< 6, lo := pte } :: k.tlb }

/-- The position of a word in its page. -/
def wordIndex (va : Word) : Nat := (va >>> 2 &&& 0x3ff).toNat

/-- A load of the kernel from the user address `va`, in the current address space. An unaligned
address is an exception without a handler. -/
def loadUser (va asid : Word) : KernM Word := do
  if va &&& 3 ≠ 0 then halt .reserved
  else
    let pte ← doTlbRefill va asid
    modify fun k => { k with tlb := { hi := pteAddr va ||| asid <<< 6, lo := pte } :: k.tlb }
    readWord (ppn pte) (wordIndex va)

/-- Loads of `n` words, one after the other. -/
def loadUserWords (asid : Word) : Word → Nat → KernM (List Word)
  | _, 0 => pure []
  | va, n + 1 => do
    let w ← loadUser va asid
    let ws ← loadUserWords asid (va + 4) n
    pure (w :: ws)

/-- A store of the kernel through a null pointer. It hits the page that the current address space
maps at address 0; there usually is none, and `passive_alloc` panics. -/
def storeNull (w : Word) : KernM Unit := do
  let k ← get
  match ← pageLookup k.curPgdir 0 with
  | none => halt .addressTooLow
  | some (pp, pt, i) =>
    let pte ← readWord pt i
    if has pte pteD then writeWord pp 0 w else halt .tlbModInKernel

end Mos
