import Jos.Logic.Code
import Jos.Inc.Mmu

/-!
# Physical pages and page tables (`kern/pmap.c`)

The state is the array `pages`, the free list and the words of physical memory. The kernel virtual
address of a page is the page's number, and a pointer to a page table entry is a page number with an
index. The kernel's own arrays are not words of `mem`, and the TLB is not part of the state.
-/

namespace Jos

open Logic Function

structure PageInfo where
  ppLink : Option Nat
  ppRef : BitVec 16
  deriving DecidableEq

/-- Physical memory and its bookkeeping. `kern/pmap.h` maps at most 256 MB, which is
what bounds `npages`. -/
structure Phys where
  npages : Nat
  npages_le : npages ≤ 65536
  kernPgdir : Nat
  pages : Nat → PageInfo
  pageFreeList : Option Nat
  userMemCheckAddr : Word
  mem : Nat → Nat → Word

abbrev PhysM := Code String Phys

namespace Phys

/-- Write one word of a page. -/
@[simps -fullyApplied npages kernPgdir pages pageFreeList]
def setWord (p : Phys) (page i : Nat) (w : Word) : Phys :=
  { p with mem := update p.mem page (update (p.mem page) i w) }

/-- Replace the contents of a page. -/
@[simps -fullyApplied mem npages kernPgdir pages pageFreeList]
def setPage (p : Phys) (page : Nat) (words : Nat → Word) : Phys :=
  { p with mem := update p.mem page words }

@[simps -fullyApplied mem npages kernPgdir pageFreeList]
def setRef (p : Phys) (pp : Nat) (ref : BitVec 16) : Phys :=
  { p with pages := update p.pages pp { p.pages pp with ppRef := ref } }

@[simps -fullyApplied mem npages kernPgdir pageFreeList]
def setLink (p : Phys) (pp : Nat) (link : Option Nat) : Phys :=
  { p with pages := update p.pages pp { p.pages pp with ppLink := link } }

variable (p : Phys) (page i pp : Nat) (w : Word) (words : Nat → Word) (ref : BitVec 16)
  (link : Option Nat)

theorem setWord_eq_setPage : p.setWord page i w = p.setPage page (update (p.mem page) i w) := rfl

theorem setWord_mem_apply (x j : Nat) :
    (p.setWord page i w).mem x j = if x = page ∧ j = i then w else p.mem x j := by
  by_cases hx : x = page
  · subst hx
    by_cases hj : j = i <;> simp [setWord, hj]
  · simp [setWord, hx]

theorem setWord_mem_of_ne {page x : Nat} (h : x ≠ page) : (p.setWord page i w).mem x = p.mem x := by
  simp [setWord, h]

@[simp] theorem setRef_ppLink (x : Nat) :
    ((p.setRef pp ref).pages x).ppLink = (p.pages x).ppLink := by
  by_cases hx : x = pp
  · subst hx
    simp [setRef]
  · simp [setRef, hx]

theorem setRef_ppRef (x : Nat) :
    ((p.setRef pp ref).pages x).ppRef = if x = pp then ref else (p.pages x).ppRef := by
  by_cases hx : x = pp <;> simp [setRef, hx]

@[simp] theorem setLink_ppRef (x : Nat) :
    ((p.setLink pp link).pages x).ppRef = (p.pages x).ppRef := by
  by_cases hx : x = pp
  · subst hx
    simp [setLink]
  · simp [setLink, hx]

theorem setLink_ppLink (x : Nat) :
    ((p.setLink pp link).pages x).ppLink = if x = pp then link else (p.pages x).ppLink := by
  by_cases hx : x = pp <;> simp [setLink, hx]

end Phys

def loadPte (pte : Nat × Nat) : PhysM Word := do
  let p ← Code.get
  return p.mem pte.1 pte.2

def storePte (pte : Nat × Nat) (w : Word) : PhysM Unit :=
  Code.modify fun p => p.setWord pte.1 pte.2 w

/-- `pp->pp_ref += 1`, on 16 bits. -/
def incref (pp : Nat) : PhysM Unit :=
  Code.modify fun p => p.setRef pp ((p.pages pp).ppRef + 1)

/-- `KADDR` at the address of a page. -/
def kaddr (page : Nat) : PhysM Nat := do
  let p ← Code.get
  if p.npages ≤ page then
    Code.panic "KADDR called with invalid pa"
  else
    return page

def pa2page (page : Nat) : PhysM Nat := do
  let p ← Code.get
  if p.npages ≤ page then
    Code.panic "pa2page called with invalid pa"
  else
    return page

def page2kva (pp : Nat) : PhysM Nat := kaddr (pageOf (page2pa pp))

def allocZero : Word := 1

def pageAlloc (allocFlags : Word) : PhysM (Option Nat) := do
  match (← Code.get).pageFreeList with
  | none => return none
  | some allocPage =>
    Code.modify fun p => { p with pageFreeList := (p.pages allocPage).ppLink }
    if allocFlags &&& allocZero ≠ 0 then
      let kva ← page2kva allocPage
      Code.modify fun p => p.setPage kva fun _ => 0
    Code.modify fun p => p.setRef allocPage 0
    return some allocPage

def pageFree (pp : Nat) : PhysM Unit := do
  if ((← Code.get).pages pp).ppRef ≠ 0 then
    Code.panic "pmap->page_free: the pp ref is not zero! \n"
  Code.modify fun p => p.setLink pp p.pageFreeList
  Code.modify fun p => { p with pageFreeList := some pp }

def pageDecref (pp : Nat) : PhysM Unit := do
  Code.modify fun p => p.setRef pp ((p.pages pp).ppRef - 1)
  if ((← Code.get).pages pp).ppRef = 0 then
    pageFree pp

def pgdirWalk (pgdir : Option Nat) (va : Word) (create : Bool) : PhysM (Option (Nat × Nat)) := do
  match pgdir with
  | none => Code.panic "pmap->pgdir_walk: the pgdir is NULL! \n"
  | some pgdir =>
    let targetPDE ← loadPte (pgdir, pdx va)
    if present targetPDE then
      let targetPTEHead ← kaddr (pageOf targetPDE)
      return some (targetPTEHead, ptx va)
    else if create = false then
      return none
    else
      match ← pageAlloc allocZero with
      | none => return none
      | some newPage =>
        incref newPage
        storePte (pgdir, pdx va) (page2pa newPage ||| pteP ||| pteW ||| pteU)
        let targetPDE ← loadPte (pgdir, pdx va)
        let targetPTEHead ← kaddr (pageOf targetPDE)
        return some (targetPTEHead, ptx va)

/-- The page mapped at `va` and the pointer stored in `*pte_store`. -/
def pageLookup (pgdir : Option Nat) (va : Word) : PhysM (Option (Nat × (Nat × Nat))) := do
  match ← pgdirWalk pgdir va false with
  | none => return none
  | some targetPTE =>
    let pte ← loadPte targetPTE
    if present pte then
      let result ← pa2page (pageOf pte)
      return some (result, targetPTE)
    else
      return none

def pageRemove (pgdir : Option Nat) (va : Word) : PhysM Unit := do
  match ← pageLookup pgdir va with
  | none => return ()
  | some (targetPG, pteStore) =>
    pageDecref targetPG
    storePte pteStore ((← loadPte pteStore) &&& ~~~pteP)

/-- The end of `page_insert`, reached with the entry to write. -/
def pageInsertAt (targetPTE : Nat × Nat) (pp : Nat) (perm : Word) : PhysM Int := do
  storePte targetPTE (page2pa pp ||| perm ||| pteP)
  incref pp
  return 0

def pageInsert (pgdir : Option Nat) (pp : Nat) (va perm : Word) : PhysM Int := do
  match ← pgdirWalk pgdir va false with
  | none =>
    match ← pgdirWalk pgdir va true with
    | none => return -eNoMem
    | some targetPTE => pageInsertAt targetPTE pp perm
  | some targetPTE =>
    if present (← loadPte targetPTE) then
      pageRemove pgdir va
    if (← Code.get).pageFreeList = some pp then
      Code.modify fun p => { p with pageFreeList := (p.pages pp).ppLink }
    pageInsertAt targetPTE pp perm

/-- One round of the loop of `user_mem_check` for every unit of fuel. An address at or
above `ULIM` ends the loop, so `ulim / pgsize + 1` rounds are enough. -/
def userMemCheckLoop (pgdir : Option Nat) (endAddr perm : Word) : Nat → Word → PhysM Int
  | 0, _ => return -eFault
  | fuel + 1, tmpAddr => do
    if tmpAddr.toNat < endAddr.toNat then
      match ← pgdirWalk pgdir tmpAddr false with
      | none =>
        Code.modify fun p => { p with userMemCheckAddr := tmpAddr }
        return -eFault
      | some pte =>
        if ~~~(← loadPte pte) &&& perm ≠ 0 ∨ ulim ≤ tmpAddr.toNat then
          Code.modify fun p => { p with userMemCheckAddr := tmpAddr }
          return -eFault
        else
          userMemCheckLoop pgdir endAddr perm fuel (roundup (tmpAddr + 1))
    else
      return 0

def userMemCheck (pgdir : Option Nat) (va len perm : Word) : PhysM Int :=
  userMemCheckLoop pgdir (roundup (va + len)) perm (ulim / pgsize + 1) va

/-- What `i386_detect_memory` and `boot_alloc` have found out when `page_init` runs:
`firstFree` is the page at which `boot_alloc` would continue. -/
structure MemLayout where
  npages : Nat
  npages_le : npages ≤ 65536
  npagesBasemem : Nat
  basemem_le : npagesBasemem ≤ npages
  firstFree : Nat
  firstFree_le : firstFree ≤ npages

def mpPage : Nat := mpentryPaddr / pgsize

/-- One round of a loop of `page_init` over memory that is free except for the page of
the processors' start-up code. -/
def pageInitFree (i : Nat) : PhysM Unit := do
  if i = mpPage then
    Code.modify fun p => p.setRef i 1
  else
    Code.modify fun p => p.setRef i 0
    Code.modify fun p => p.setLink i p.pageFreeList
    Code.modify fun p => { p with pageFreeList := some i }

/-- One round of a loop of `page_init` over memory that is in use. -/
def pageInitUsed (i : Nat) : PhysM Unit := do
  Code.modify fun p => p.setRef i 1
  Code.modify fun p => p.setLink i none

/-- `for (; i < bound; i++) body(i)`, which leaves `i` at the larger of the two. -/
def loopFrom (i bound : Nat) (body : Nat → PhysM Unit) : PhysM Nat := do
  Code.times (bound - i) fun n => body (i + n)
  return max i bound

def pageInit (layout : MemLayout) : PhysM Unit := do
  let i ← loopFrom 0 1 pageInitUsed
  let i ← loopFrom i layout.npagesBasemem pageInitFree
  let i ← loopFrom i layout.firstFree pageInitUsed
  let _ ← loopFrom i layout.npages pageInitFree

end Jos
