import Jos.Kern.Sched

/-!
# Environments (`kern/env.c`)
-/

namespace Jos

open Logic

/-- One round of the loop of `env_init`. The test for the last slot compares with `NENV` and is
never true. -/
def envInitSlot (i : Nat) : Kern Unit := do
  setEnv i fun env => { env with envId := 0, envStatus := .free }
  Code.modify fun k => k.setEnv i fun env => { env with envLink := k.envFreeList }
  Code.modify fun k => { k with envFreeList := some i }

def envInit : Kern Unit := do
  Code.modify fun k => { k with envFreeList := none }
  Code.times nenv fun j => envInitSlot (nenv - 1 - j)

/-- The slot that `envid2env` stores, or the error it returns. -/
def envid2env (envid : Word) (checkperm : Bool) : Kern (Except Int Nat) := do
  if envid = 0 then
    return .ok (← curenv)
  let e := envx envid
  let entry ← env e
  if entry.envStatus = .free ∨ entry.envId ≠ envid then
    return .error (-eBadEnv)
  if checkperm then
    let cur ← curenv
    if e ≠ cur ∧ entry.envParentId ≠ (← env cur).envId then
      return .error (-eBadEnv)
  return .ok e

/-- The page directory that `env_setup_vm` builds, or `none` for `-E_NO_MEM`. -/
def setupVm : PhysM (Option Nat) := do
  match ← pageAlloc allocZero with
  | none => return none
  | some p =>
    incref p
    let pgdir ← page2kva p
    Code.modify fun s => s.setPage pgdir (s.mem s.kernPgdir)
    storePte (pgdir, uvpt / ptsize) (page2pa p ||| pteP ||| pteU)
    return some pgdir

def envSetupVm (e : Nat) : Kern Int := do
  match ← onPhys setupVm with
  | none => return -eNoMem
  | some pgdir =>
    setEnv e fun env => { env with envPgdir := some pgdir }
    return 0

def nextEnvId (old : Word) (e : Nat) : Word :=
  let generation := (old + envgen) &&& ~~~(0x3ff : Word)
  let generation := if generation.toInt ≤ 0 then envgen else generation
  generation ||| toWord e

def initialTf : Trapframe :=
  { Trapframe.zero with
    tfDs := gdUd ||| 3
    tfEs := gdUd ||| 3
    tfSs := gdUd ||| 3
    tfEsp := toWord ustacktop
    tfCs := gdUt ||| 3
    tfEflags := flIf }

def envAlloc (parentId : Word) : Kern (Except Int Nat) := do
  match (← Code.get).envFreeList with
  | none => return .error (-eNoFreeEnv)
  | some e =>
    let r ← envSetupVm e
    if r < 0 then
      return .error r
    setEnv e fun env =>
      { env with
        envId := nextEnvId env.envId e
        envParentId := parentId
        envType := .user
        envStatus := .runnable
        envRuns := 0
        envTf := initialTf
        envPgfaultUpcall := 0
        envIpcRecving := false }
    Code.modify fun k => { k with envFreeList := (k.envs e).envLink }
    Code.modify fun k => { k with envLog := k.envLog ++ [.alloc e] }
    return .ok e

/-- One round of the loop of `region_alloc`. -/
def regionAllocPage (pgdir : Option Nat) (addr : Word) : PhysM Unit := do
  match ← pageAlloc allocZero with
  | none => Code.panic "env->region_alloc: page alloc failed! \n"
  | some nPage =>
    incref nPage
    let ret ← pageInsert pgdir nPage addr (pteP ||| pteU ||| pteW)
    if ret ≠ 0 then
      Code.panic "env->region_alloc: page insertion failed! \n"

def regionAlloc (pgdir : Option Nat) (va len : Word) : PhysM Unit := do
  let startAddr := rounddown va
  let endAddr := roundup (va + len)
  if utop < endAddr.toNat then
    Code.panic "env->region_alloc: alloc out of range! \n"
  Code.times ((endAddr.toNat - startAddr.toNat) / pgsize) fun i =>
    regionAllocPage pgdir (startAddr + toWord (i * pgsize))

def loadSegments (pgdir : Option Nat) (binary : Elf) : List Proghdr → Kern Unit
  | [] => pure ()
  | ph :: rest => do
    if ph.pType = elfProgLoad then
      onPhys (regionAlloc pgdir ph.pVa ph.pMemsz)
      copyOut ph.pVa ph.pFilesz.toNat fun i => binary.byte (ph.pOffset.toNat + i)
    loadSegments pgdir binary rest

def loadIcode (e : Nat) (binary : Elf) : Kern Unit := do
  let pgdir := (← env e).envPgdir
  lcr3 (← paddr pgdir)
  loadSegments pgdir binary binary.ph
  lcr3 (← Code.get).phys.kernPgdir
  setEnv e fun env => { env with envTf := { env.envTf with tfEip := binary.eEntry } }
  onPhys (regionAlloc pgdir (toWord (ustacktop - pgsize)) (toWord pgsize))
  setEnv e fun env => { env with envBreak := rounddown (toWord (ustacktop - pgsize)) }

def envCreate (binary : Elf) (type : EnvType) : Kern Unit := do
  match ← envAlloc 0 with
  | .error _ => Code.panic "env->env_create: env alloc failed! \n"
  | .ok e =>
    loadIcode e binary
    setEnv e fun env => { env with envType := type }
    if type = .fs then
      setEnv e fun env =>
        { env with envTf := { env.envTf with tfEflags := env.envTf.tfEflags ||| flIoplMask } }

/-- One round of the inner loop of `env_free`. -/
def envFreePte (pgdir pt pdeno pteno : Nat) : PhysM Unit := do
  if present (← loadPte (pt, pteno)) then
    pageRemove (some pgdir) (pgaddr pdeno pteno 0)

/-- One round of the outer loop of `env_free`. -/
def envFreePde (pgdir pdeno : Nat) : PhysM Unit := do
  let pde ← loadPte (pgdir, pdeno)
  if present pde then
    let pt ← kaddr (pageOf pde)
    Code.times nptentries (envFreePte pgdir pt pdeno)
    storePte (pgdir, pdeno) 0
    pageDecref (← pa2page (pageOf pde))

/-- What `env_free` does once it has left the address space `pgdir`. -/
def envFreeSpace (e pgdir : Nat) : Kern Unit := do
  onPhys (Code.times (utop / ptsize) (envFreePde pgdir))
  setEnv e fun env => { env with envPgdir := none }
  onPhys (do pageDecref (← pa2page pgdir))
  setEnv e fun env => { env with envStatus := .free }
  Code.modify fun k => k.setEnv e fun env => { env with envLink := k.envFreeList }
  Code.modify fun k => { k with envFreeList := some e }
  Code.modify fun k => { k with envLog := k.envLog ++ [.free k.cpunum e] }

def envFree (e : Nat) : Kern Unit := do
  let k ← Code.get
  if k.curenv = some e then
    lcr3 k.phys.kernPgdir
  match (k.envs e).envPgdir with
  | none => Code.panic kernelFault
  | some pgdir =>
    envFreeSpace e pgdir

def envDestroy (e : Nat) : Kern Unit := do
  let k ← Code.get
  if (k.envs e).envStatus = .running ∧ k.curenv ≠ some e then
    setEnv e fun env => { env with envStatus := .dying }
  else
    envFree e
    if (← Code.get).curenv = some e then
      setCurenv none
      schedYield

/-- `user_mem_assert`, which destroys `e` when the check fails. -/
def userMemAssert (e : Nat) (va len perm : Word) : Kern Unit := do
  let r ← onPhys (userMemCheck (← env e).envPgdir va len (perm ||| pteU))
  if r < 0 then
    envDestroy e

end Jos
