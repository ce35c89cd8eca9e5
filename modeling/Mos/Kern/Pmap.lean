import Mos.Kern.State

/-!
# `kern/pmap.c`: frames and page tables

The frame allocator and the operations on two-level page tables, as the source has them.
Functions that store a `Pte *` through a pointer argument return it; a null pointer is `none`.
-/

namespace Mos

open Lib Prog

/-! ## Access to memory -/

/-- Reads a word of a frame. -/
def readWord (f i : Nat) : KernM Word := do
  let k ← get
  pure (k.mem f i)

/-- Writes a word of a frame. -/
def writeWord (f i : Nat) (w : Word) : KernM Unit := modify fun k => k.setWord f i w

/-- `KADDR(pa)`, on frame numbers. -/
def kaddr (f : Nat) : KernM Nat := do
  let k ← get
  if f < k.npage then pure f else halt .kaddr

/-- `pa2page(pa)`. -/
def pa2page (pa : Word) : KernM Nat := do
  let k ← get
  if ppn pa < k.npage then pure (ppn pa) else halt .pa2page

/-- `pp->pp_ref++`. -/
def incref (pp : Nat) : KernM Unit := modify fun k => k.setRef pp (k.ppRef pp + 1)

/-! ## The TLB -/

/-- The ASID field of EntryHi. -/
def asidOf (hi : Word) : Word := hi >>> 6 &&& 0x3f

/-- What `tlbp` looks for: the page and, unless the entry is global, the ASID. -/
def TlbEntry.matches (t : TlbEntry) (hi : Word) : Bool :=
  ppn t.hi == ppn hi && (has t.lo pteG || asidOf t.hi == asidOf hi)

/-- `tlb_out(entryhi)`. -/
def tlbOut (hi : Word) : KernM Unit :=
  modify fun k => { k with tlb := k.tlb.filter fun t => !t.matches hi }

/-- `tlb_invalidate(asid, va)`. -/
def tlbInvalidate (asid va : Word) : KernM Unit := tlbOut (pteAddr va ||| asid <<< 6)

/-! ## Frames -/

/-- `page_alloc(&pp)`: takes the first free frame and clears it. The count stays 0. -/
def pageAlloc : KernM Nat := do
  let k ← get
  match k.pageFreeList with
  | [] => fail .noMem
  | pp :: rest =>
    let _ ← kaddr pp
    put ({ k with pageFreeList := rest }.setFrame pp fun _ => 0)
    pure pp

/-- `page_free(pp)`. A freed frame is no page directory any more. -/
def pageFree (pp : Nat) : KernM Unit := do
  let k ← get
  assert (k.ppRef pp = 0) .pageFreeAssert
  put { k with pageFreeList := pp :: k.pageFreeList, pgdirs := k.pgdirs.filter (· ≠ pp) }

/-- `page_decref(pp)`. -/
def pageDecref (pp : Nat) : KernM Unit := do
  let k ← get
  assert (k.ppRef pp ≠ 0) .pageDecrefAssert
  put (k.setRef pp (k.ppRef pp - 1))
  if k.ppRef pp - 1 = 0 then pageFree pp else pure ()

/-! ## Page tables -/

/-- `pgdir_walk(pgdir, va, create, &pte)`. -/
def pgdirWalk (pgdir : Nat) (va : Word) (create : Bool) : KernM (Option (Nat × Nat)) := do
  let pde ← readWord pgdir (pdx va)
  if has pde pteV then
    let pt ← kaddr (ppn (pteAddr pde))
    pure (some (pt, ptx va))
  else if create then
    let pp ← pageAlloc
    let pde := page2pa pp ||| pteV ||| pteD
    writeWord pgdir (pdx va) pde
    incref pp
    let pt ← kaddr (ppn (pteAddr pde))
    pure (some (pt, ptx va))
  else pure none

/-- `page_lookup(pgdir, va, &pte)`. -/
def pageLookup (pgdir : Nat) (va : Word) : KernM (Option (Nat × Nat × Nat)) := do
  match ← pgdirWalk pgdir va false with
  | none => pure none
  | some (pt, i) =>
    let pte ← readWord pt i
    if has pte pteV then
      let pp ← pa2page pte
      pure (some (pp, pt, i))
    else pure none

/-- `page_remove(pgdir, asid, va)`. -/
def pageRemove (pgdir : Nat) (asid va : Word) : KernM Unit := do
  match ← pageLookup pgdir va with
  | none => pure ()
  | some (pp, pt, i) =>
    pageDecref pp
    writeWord pt i 0
    tlbInvalidate asid va

/-- Steps 2 to 4 of `page_insert`: nothing is mapped at `va` any more. -/
def pageInsertNew (pgdir : Nat) (asid : Word) (pp : Nat) (va perm : Word) : KernM Unit := do
  tlbInvalidate asid va
  match ← pgdirWalk pgdir va true with
  | none => pure ()
  | some (pt, i) =>
    writeWord pt i (page2pa pp ||| perm ||| pteV)
    incref pp

/-- `page_insert(pgdir, asid, pp, va, perm)`. -/
def pageInsert (pgdir : Nat) (asid : Word) (pp : Nat) (va perm : Word) : KernM Unit := do
  match ← pgdirWalk pgdir va false with
  | none => pageInsertNew pgdir asid pp va perm
  | some (pt, i) =>
    let pte ← readWord pt i
    if has pte pteV then
      let old ← pa2page pte
      if old ≠ pp then
        pageRemove pgdir asid va
        pageInsertNew pgdir asid pp va perm
      else
        tlbInvalidate asid va
        writeWord pt i (page2pa pp ||| perm ||| pteV)
    else pageInsertNew pgdir asid pp va perm

/-! ## `page_init` -/

/-- The loop of `page_init`: frame `i` is in use below `freemem`, else it goes to the front of the
free list. -/
def pageInitLoop (freemem : Nat) : Nat → List Nat
  | 0 => []
  | i + 1 => if i < freemem then pageInitLoop freemem i else i :: pageInitLoop freemem i

end Mos
