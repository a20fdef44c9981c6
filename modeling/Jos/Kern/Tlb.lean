import Jos.Kern.State

/-!
# Processors with translation caches

Each processor has a TLB that is filled from the page directory in `cr3` and emptied by `lcr3` and
`invlpg`. The code that edits page tables or switches directories is a sequence of stores and
flushes, and an address space is a map from page numbers to what a present entry gives. While one
processor is in the kernel, the others go on using theirs.
-/

namespace Jos

open Function

/-- What a present page table entry gives to user code. -/
structure Mapping where
  page : Nat
  writable : Bool
  deriving DecidableEq, Repr

/-- From page numbers, for the pages below `UTOP`. -/
abbrev Table := Nat → Option Mapping

def utopPages : Nat := utop / pgsize

/-- What the kernel does to page tables, environments and the own processor. An environment
stands for its page directory, and `none` for `kern_pgdir`. -/
inductive KernelOp where
  | setPte (e vpn : Nat) (m : Option Mapping)
  | tlbInvalidate (e vpn : Nat)
  | lcr3 (dir : Option Nat)
  | setCurenv (e : Option Nat)
  | setStatus (e : Nat) (status : EnvStatus)
  | iret
  | hlt
  deriving DecidableEq

/-- A processor runs user code, has still to do some operations in the kernel, or waits. -/
inductive CpuMode where
  | user
  | kernel (ops : List KernelOp)
  | halted
  deriving DecidableEq

structure TlbCpu where
  curenv : Option Nat
  cr3 : Option Nat
  tlb : Table
  mode : CpuMode

structure TlbState where
  tables : Nat → Table
  status : Nat → EnvStatus
  parent : Nat → Option Nat
  cpus : Nat → TlbCpu

/-- The user part of a page directory. That of `kern_pgdir` is empty. -/
def TlbState.tableOf (s : TlbState) : Option Nat → Table
  | some e => s.tables e
  | none => fun _ => none

def TlbState.setCpu (s : TlbState) (i : Nat) (c : TlbCpu) : TlbState :=
  { s with cpus := update s.cpus i c }

def setEntry (tables : Nat → Table) (e vpn : Nat) (m : Option Mapping) : Nat → Table :=
  update tables e (update (tables e) vpn m)

def pageRemoveOps (t : Table) (e vpn : Nat) : List KernelOp :=
  if (t vpn).isSome then [.setPte e vpn none, .tlbInvalidate e vpn] else []

def pageInsertOps (t : Table) (e vpn : Nat) (m : Mapping) : List KernelOp :=
  pageRemoveOps t e vpn ++ [.setPte e vpn (some m)]

/-- The calls, with what `page_alloc` and the allocation of a page table give. -/
inductive PageCall where
  | pageAlloc (e vpn : Nat) (writable : Bool) (page : Option Nat) (room : Bool)
  | pageMap (src srcvpn dst dstvpn : Nat) (writable room : Bool)
  | pageUnmap (e vpn : Nat)
  | envDestroy (e : Nat)
  | yield

/-- `envid2env` finds the environment and allows the caller to change it. -/
def TlbState.mayChange (s : TlbState) (cur e : Nat) : Bool :=
  s.status e ≠ .free && (e = cur || s.parent e = some cur)

def sysPageAllocOps (s : TlbState) (cur e vpn : Nat) (writable : Bool) (page : Option Nat)
    (room : Bool) : List KernelOp :=
  if vpn < utopPages then
    match page with
    | none => []
    | some page =>
      if s.mayChange cur e && room then pageInsertOps (s.tables e) e vpn ⟨page, writable⟩ else []
  else []

def sysPageMapOps (s : TlbState) (cur src srcvpn dst dstvpn : Nat) (writable room : Bool) :
    List KernelOp :=
  if s.mayChange cur src && s.mayChange cur dst && srcvpn < utopPages && dstvpn < utopPages then
    match s.tables src srcvpn with
    | none => []
    | some m =>
      if writable && !m.writable then []
      else if room then pageInsertOps (s.tables dst) dst dstvpn ⟨m.page, writable⟩
      else []
  else []

def sysPageUnmapOps (s : TlbState) (cur e vpn : Nat) : List KernelOp :=
  if s.mayChange cur e && vpn < utopPages then pageRemoveOps (s.tables e) e vpn else []

def envFreeOps (s : TlbState) (cur e : Nat) : List KernelOp :=
  (if e = cur then [.lcr3 none] else []) ++
    (List.range utopPages).flatMap (pageRemoveOps (s.tables e) e) ++ [.setStatus e .free]

def envDestroyOps (s : TlbState) (cur e : Nat) : List KernelOp :=
  if s.status e = .running ∧ cur ≠ e then [.setStatus e .dying]
  else envFreeOps s cur e ++ if cur = e then [.setCurenv none] else []

def callOps (s : TlbState) (cur : Nat) : PageCall → List KernelOp
  | .pageAlloc e vpn writable page room => sysPageAllocOps s cur e vpn writable page room
  | .pageMap src srcvpn dst dstvpn writable room =>
    sysPageMapOps s cur src srcvpn dst dstvpn writable room
  | .pageUnmap e vpn => sysPageUnmapOps s cur e vpn
  | .envDestroy e => if s.mayChange cur e then envDestroyOps s cur e else []
  | .yield => []

/-- `trap`: a zombie is freed instead. -/
def trapOps (s : TlbState) (cur : Nat) (call : PageCall) : List KernelOp :=
  if s.status cur = .dying then envFreeOps s cur cur ++ [.setCurenv none] else callOps s cur call

def envRunOps (s : TlbState) (cur : Option Nat) (e : Nat) : List KernelOp :=
  (if cur = some e then []
    else (match cur with
      | some c => if s.status c = .running then [.setStatus c .runnable] else []
      | none => []) ++
      [.setCurenv (some e), .setStatus e .running, .lcr3 (some e)]) ++ [.iret]

def schedHaltOps : List KernelOp := [.setCurenv none, .lcr3 none, .hlt]

/-- The processor `i` does the first of its operations. -/
def TlbState.exec (s : TlbState) (i : Nat) (op : KernelOp) (rest : List KernelOp) : TlbState :=
  let c := s.cpus i
  match op with
  | .setPte e vpn m =>
    { s.setCpu i { c with mode := .kernel rest } with tables := setEntry s.tables e vpn m }
  | .tlbInvalidate e vpn =>
    if c.curenv = none ∨ c.curenv = some e then
      s.setCpu i { c with tlb := update c.tlb vpn none, mode := .kernel rest }
    else s.setCpu i { c with mode := .kernel rest }
  | .lcr3 dir => s.setCpu i { c with cr3 := dir, tlb := fun _ => none, mode := .kernel rest }
  | .setCurenv e => s.setCpu i { c with curenv := e, mode := .kernel rest }
  | .setStatus e status =>
    { s.setCpu i { c with mode := .kernel rest } with
      status := update s.status e status }
  | .iret => s.setCpu i { c with mode := .user }
  | .hlt => s.setCpu i { c with mode := .halted }

def TlbState.fill (s : TlbState) (i vpn : Nat) : TlbState :=
  let c := s.cpus i
  match c.tlb vpn with
  | some _ => s
  | none => s.setCpu i { c with tlb := update c.tlb vpn (s.tableOf c.cr3 vpn) }

/-- No processor holds the kernel lock. -/
def TlbState.Unlocked (s : TlbState) : Prop :=
  ∀ i < ncpu, (s.cpus i).mode = .user ∨ (s.cpus i).mode = .halted

instance TlbState.decidableUnlocked (s : TlbState) : Decidable s.Unlocked :=
  inferInstanceAs (Decidable (∀ i < ncpu, _))

/-- An access to memory, a trap from user mode, an interrupt of a processor that waits, an
operation in the kernel, and the two ways out of it. -/
inductive TlbMove where
  | access (i vpn : Nat)
  | trap (i : Nat) (call : PageCall)
  | wake (i : Nat)
  | op (i : Nat)
  | envRun (i e : Nat)
  | schedHalt (i : Nat)

def TlbMove.cpu : TlbMove → Nat
  | .access i _ | .trap i _ | .wake i | .op i | .envRun i _ | .schedHalt i => i

/-- `sched_yield` and the end of `trap` pick an environment that is runnable, or the current
one if it is running. -/
def TlbState.mayRun (s : TlbState) (i e : Nat) : Bool :=
  s.status e = .runnable || ((s.cpus i).curenv = some e && s.status e = .running)

def TlbState.enter (s : TlbState) (i : Nat) (ops : List KernelOp) : TlbState :=
  s.setCpu i { s.cpus i with mode := .kernel ops }

def TlbState.step (s : TlbState) (m : TlbMove) : Option TlbState :=
  if m.cpu < ncpu then
    match m with
    | .access i vpn => if (s.cpus i).mode ≠ .halted then some (s.fill i vpn) else none
    | .trap i call =>
      match (s.cpus i).mode, (s.cpus i).curenv with
      | .user, some cur => if s.Unlocked then some (s.enter i (trapOps s cur call)) else none
      | _, _ => none
    | .wake i =>
      if (s.cpus i).mode = .halted ∧ s.Unlocked then some (s.enter i []) else none
    | .op i =>
      match (s.cpus i).mode with
      | .kernel (op :: rest) => some (s.exec i op rest)
      | _ => none
    | .envRun i e =>
      if (s.cpus i).mode = .kernel [] ∧ s.mayRun i e then
        some (s.enter i (envRunOps s (s.cpus i).curenv e))
      else none
    | .schedHalt i => if (s.cpus i).mode = .kernel [] then some (s.enter i schedHaltOps) else none
  else none

/-- A machine whose processors wait, with any environments. -/
def TlbState.idle (tables : Nat → Table) (status : Nat → EnvStatus)
    (parent : Nat → Option Nat) : TlbState :=
  ⟨tables, status, parent, fun _ => ⟨none, none, fun _ => none, .halted⟩⟩

end Jos
