import Jos.Kern.State

/-!
# Running environments (`kern/sched.c` and `env_run` of `kern/env.c`)

None of the functions here returns: they leave the kernel for user mode, for the idle
loop of `sched_halt` or for the kernel monitor, or they panic.
-/

namespace Jos

open Logic

def envPopTf (e : Nat) : Kern Unit := do
  let k ← Code.get
  setEnv e fun env => { env with envCpunum := k.cpunum }
  Code.modify fun k => k.setCpu fun c =>
    { c with mode := .user, userTf := (k.envs e).envTf }
  Code.exit

def envRun (e : Nat) : Kern Unit := do
  let k ← Code.get
  if k.curenv ≠ some e then
    match k.curenv with
    | none => pure ()
    | some cur =>
      if (k.envs cur).envStatus = .running then
        setEnv cur fun env => { env with envStatus := .runnable }
    setCurenv (some e)
    setEnv e fun env => { env with envStatus := .running }
    setEnv e fun env => { env with envRuns := env.envRuns + 1 }
    let pa ← paddr (← env e).envPgdir
    lcr3 pa
  envPopTf e

/-- `while (1) monitor(NULL)`, and `monitor(tf)`: no command makes the monitor return,
and it keeps the kernel lock. -/
def monitor : Kern Unit := do
  Code.modify fun k => k.setCpu fun c => { c with mode := .monitor }
  Code.exit

/-- The statuses that keep `sched_halt` from dropping into the monitor. -/
def EnvStatus.active (s : EnvStatus) : Bool :=
  s = .runnable || s = .running || s = .dying

def schedHalt : Kern Unit := do
  let k ← Code.get
  if ∀ i < nenv, (k.envs i).envStatus.active = false then
    monitor
  setCurenv none
  lcr3 k.phys.kernPgdir
  Code.modify fun k => k.setCpu fun c => { c with cpuStatus := .halted, mode := .halt }
  Code.exit

def schedLoop : Nat → Nat → Kern Unit
  | 0, _ => pure ()
  | rounds + 1, i => do
    if (← env i).envStatus = .runnable then
      envRun i
    schedLoop rounds ((i + 1) % nenv)

/-- The index at which the search starts. For the last slot it is `NENV`. -/
def Kernel.schedStart (k : Kernel) : Nat :=
  match k.curenv with
  | none => 0
  | some idle => envx (k.envs idle).envId + 1

def schedYield : Kern Unit := do
  let k ← Code.get
  schedLoop nenv k.schedStart
  match k.curenv with
  | none => pure ()
  | some idle =>
    if (← env idle).envStatus = .running then
      envRun idle
  schedHalt

end Jos
