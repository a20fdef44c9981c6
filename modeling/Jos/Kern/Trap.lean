import Jos.Kern.Syscall

/-!
# Traps (`kern/trap.c`)

A trap from user mode saves the frame in the slot of `curenv`, and the dispatcher works on that
copy. A trap that interrupts the idle loop works on the frame on the kernel stack, an argument here.
Input enters `cons` from outside.
-/

namespace Jos

open Logic

/-- Where `page_fault_handler` puts the fault frame. -/
def utfAddr (esp : Word) : Word :=
  if esp.toNat < uxstacktop ∧ uxstacktop - pgsize < esp.toNat then
    esp - 4 - sizeofUTrapframe
  else
    toWord uxstacktop - sizeofUTrapframe

def storeUTrapframe (utf faultVa : Word) (tf : Trapframe) : Kern Unit := do
  store32 utf faultVa
  store32 (utf + 4) tf.tfErr
  storePushRegs (utf + 8) tf.tfRegs
  store32 (utf + 40) tf.tfEip
  store32 (utf + 44) tf.tfEflags
  store32 (utf + 48) tf.tfEsp

/-- `page_fault_handler` for the frame `tf`; `faultVa` is the content of `cr2`. -/
def pageFaultHandler (tf : Trapframe) (faultVa : Word) : Kern Unit := do
  if tf.tfCs &&& 3 = 0 then
    Code.panic kernelFault
  let cur ← curenv
  if (← env cur).envPgfaultUpcall ≠ 0 then
    let utf := utfAddr tf.tfEsp
    userMemAssert cur utf sizeofUTrapframe pteW
    storeUTrapframe utf faultVa tf
    setEnv cur fun env =>
      { env with envTf := { env.envTf with tfEip := env.envPgfaultUpcall } }
    setEnv cur fun env => { env with envTf := { env.envTf with tfEsp := utf } }
    envRun cur
  envDestroy cur

def timeTick : Kern Unit := do
  Code.modify fun k => { k with ticks := k.ticks + 1 }
  let k ← Code.get
  if (k.ticks * 10).toNat < k.ticks.toNat then
    Code.panic "time_tick: time overflowed"

/-- `trap_dispatch`. The result of a system call goes to the saved frame in `slot`. -/
def trapDispatch (tf : Trapframe) (slot : Option Nat) (cr2 : Word) : Kern Unit := do
  if tf.tfTrapno = tPgflt then
    pageFaultHandler tf cr2
  else if tf.tfTrapno = tBrkpt then
    monitor
  else if tf.tfTrapno = tSyscall then
    let regs := tf.tfRegs
    let r ← syscall regs.regEax regs.regEdx regs.regEcx regs.regEbx regs.regEdi regs.regEsi
    match slot with
    | none => pure ()
    | some e => setEnv e fun env => { env with envTf := env.envTf.withEax (BitVec.ofInt 32 r) }
  else if tf.tfTrapno = irqOffset + irqSpurious then
    pure ()
  else if tf.tfTrapno = irqOffset + irqTimer then
    if (← Code.get).cpunum = 0 then
      timeTick
    schedYield
  else if tf.tfTrapno = irqOffset + irqKbd then
    pure ()
  else if tf.tfTrapno = irqOffset + irqSerial then
    pure ()
  else if tf.tfCs = gdKt then
    Code.panic "unhandled trap in kernel"
  else
    envDestroy (← curenv)

/-- The end of `trap`, reached when no other environment was scheduled. -/
def trapReturn : Kern Unit := do
  let k ← Code.get
  match k.curenv with
  | none => schedYield
  | some e =>
    if (k.envs e).envStatus = .running then
      envRun e
    else
      schedYield

def trap (tf : Trapframe) (cr2 : Word) : Kern Unit := do
  Code.modify fun k => k.setCpu fun c => { c with cpuStatus := .started }
  if tf.tfCs &&& 3 = 3 then
    match (← Code.get).curenv with
    | none => Code.panic "assertion failed: curenv"
    | some cur =>
      if (← env cur).envStatus = .dying then
        envFree cur
        setCurenv none
        schedYield
      setEnv cur fun env => { env with envTf := tf }
      trapDispatch tf (some cur) cr2
  else
    trapDispatch tf none cr2
  trapReturn

end Jos
