import Jos.Kern.State

/-!
# Where the processors take and release the kernel lock

The path of a processor through `i386_init`, `mp_main`, `trap`, `sysenter_handler`, `sched_yield`,
`sched_halt` and `env_run`, with the steps of `spin_lock` and `spin_unlock` (`kern/spinlock.c`, with
`DEBUG_SPINLOCK`). A step changes one shared word, and which way the code takes between such steps
is an input. Of a trap only the privilege level in `tf_cs` is kept.
-/

namespace Jos

/-- `struct spinlock`; `cpu` is the processor that holds the lock. -/
structure Spinlock where
  locked : Bool
  cpu : Option Nat
  deriving DecidableEq, Repr

def Spinlock.holding (lk : Spinlock) (i : Nat) : Bool := lk.locked && lk.cpu = some i

/-- Places in `spin_lock`: the test of `holding`, the loop, and the store of the owner. -/
inductive SpinLockPc where
  | check
  | spin
  | record
  deriving DecidableEq, Repr

/-- Places in `spin_unlock`: the test of `holding`, the store of the owner, and the `xchg`. -/
inductive SpinUnlockPc where
  | check
  | clear
  | release
  deriving DecidableEq, Repr

/-- The calls of `lock_kernel`: in `i386_init` or `mp_main`, and the two in `trap`. -/
inductive LockCall where
  | init
  | halted (fromUser : Bool)
  | user
  deriving DecidableEq, Repr

/-- The calls of `unlock_kernel`. -/
inductive UnlockCall where
  | envRun
  | schedHalt
  deriving DecidableEq, Repr

inductive SyscallCaller where
  | trapDispatch
  | sysenterHandler
  deriving DecidableEq, Repr

/-- Places of a processor. `fromUser` says whether the trap came from user mode. -/
inductive Place where
  /-- In `i386_init` or `mp_main`, before and after `lock_kernel`. -/
  | start
  | init
  | lock (pc : SpinLockPc) (call : LockCall)
  | unlock (pc : SpinUnlockPc) (call : UnlockCall)
  /-- User code. -/
  | user
  /-- In the loop of `hlt` at the end of `sched_halt`. -/
  | halted
  /-- In `trap`, at its beginning, at the test of `tf_cs`, behind `lock_kernel` in the branch
  for user mode, and behind `trap_dispatch`. -/
  | trap (fromUser : Bool)
  | trapCs (fromUser : Bool)
  | trapUser
  | trapEnd
  | trapDispatch
  | syscall (caller : SyscallCaller)
  | schedYield
  | schedHalt
  | envRun
  /-- Behind `unlock_kernel` in `env_run` and in `sched_halt`. -/
  | envPopTf
  | sti
  /-- In the kernel monitor for good. -/
  | monitor
  /-- Halted since another processor has called `panic`. -/
  | dead
  deriving DecidableEq, Repr

/-- The place behind the call. -/
def LockCall.behind : LockCall → Place
  | .init => .init
  | .halted fromUser => .trapCs fromUser
  | .user => .trapUser

def UnlockCall.behind : UnlockCall → Place
  | .envRun => .envPopTf
  | .schedHalt => .sti

/-- The place is in the kernel proper: `syscall`, `trap_dispatch`, `sched_yield` and what they call,
as far as the lock has to be held. -/
def Place.inKernel : Place → Bool
  | .init | .trapUser | .trapEnd | .trapDispatch | .syscall _ | .schedYield | .schedHalt
  | .envRun => true
  | _ => false

/-- The ways the code can take. `step` is the next statement where there is no choice. -/
inductive Way where
  | step
  | interrupt
  | sysenter
  | syscall
  | schedYield
  | schedHalt
  | envRun
  | ret
  | monitor
  deriving DecidableEq, Repr

structure CpuPlace where
  cpuStatus : CpuStatus
  place : Place
  deriving DecidableEq

/-- All processors, with the words they share. -/
structure Smp where
  kernelLock : Spinlock
  panicstr : Bool
  cpus : Nat → CpuPlace

def Smp.start : Smp := ⟨⟨false, none⟩, false, fun _ => ⟨.unused, .start⟩⟩

/-- What a step of the processor `i` can change. -/
structure Share where
  lock : Spinlock
  panicstr : Bool
  cpu : CpuPlace
  deriving DecidableEq

def Share.goto (s : Share) (p : Place) : Share := { s with cpu := { s.cpu with place := p } }

def Share.panic (s : Share) : Share := { s.goto .monitor with panicstr := true }

/-- A step of `spin_lock`. -/
def Share.spinLock (i : Nat) (call : LockCall) (s : Share) : SpinLockPc → Share
  | .check => if s.lock.holding i then s.panic else s.goto (.lock .spin call)
  | .spin =>
    if s.lock.locked then s
    else { s.goto (.lock .record call) with lock := { s.lock with locked := true } }
  | .record => { s.goto call.behind with lock := { s.lock with cpu := some i } }

/-- A step of `spin_unlock`. -/
def Share.spinUnlock (i : Nat) (call : UnlockCall) (s : Share) : SpinUnlockPc → Share
  | .check => if s.lock.holding i then s.goto (.unlock .clear call) else s.panic
  | .clear => { s.goto (.unlock .release call) with lock := { s.lock with cpu := none } }
  | .release => { s.goto call.behind with lock := { s.lock with locked := false } }

def Share.xchgStatus (s : Share) (status : CpuStatus) : Share :=
  { s with cpu := { s.cpu with cpuStatus := status } }

/-- The processor `i` goes the way `w` from its place, if there is this way. -/
def Share.walk (i : Nat) (s : Share) (w : Way) : Option Share :=
  match s.cpu.place, w with
  | .start, .step => some ((s.xchgStatus .started).goto (.lock .check .init))
  | .init, .schedYield => some (s.goto .schedYield)
  | .lock pc call, .step => some (s.spinLock i call pc)
  | .unlock pc call, .step => some (s.spinUnlock i call pc)
  | .user, .interrupt => some (s.goto (.trap true))
  | .user, .sysenter => some (s.goto (.syscall .sysenterHandler))
  | .halted, .interrupt => some (s.goto (.trap false))
  | .trap fromUser, .step =>
    if s.panicstr then some (s.goto .dead)
    else if s.cpu.cpuStatus = .halted then
      some ((s.xchgStatus .started).goto (.lock .check (.halted fromUser)))
    else some ((s.xchgStatus .started).goto (.trapCs fromUser))
  | .trapCs true, .step => some (s.goto (.lock .check .user))
  | .trapCs false, .step => some (s.goto .trapDispatch)
  -- a zombie is freed, or the frame is copied
  | .trapUser, .schedYield => some (s.goto .schedYield)
  | .trapUser, .step => some (s.goto .trapDispatch)
  | .trapDispatch, .syscall => some (s.goto (.syscall .trapDispatch))
  | .trapDispatch, .schedYield => some (s.goto .schedYield)
  | .trapDispatch, .envRun => some (s.goto .envRun)
  | .trapDispatch, .ret => some (s.goto .trapEnd)
  | .syscall _, .schedYield => some (s.goto .schedYield)
  | .syscall .trapDispatch, .ret => some (s.goto .trapDispatch)
  -- `sysexit`
  | .syscall .sysenterHandler, .ret => some (s.goto .user)
  | .trapEnd, .envRun => some (s.goto .envRun)
  | .trapEnd, .schedYield => some (s.goto .schedYield)
  | .schedYield, .envRun => some (s.goto .envRun)
  | .schedYield, .schedHalt => some (s.goto .schedHalt)
  | .schedHalt, .monitor => some (s.goto .monitor)
  | .schedHalt, .step => some ((s.xchgStatus .halted).goto (.unlock .check .schedHalt))
  | .envRun, .step => some (s.goto (.unlock .check .envRun))
  | .envPopTf, .step => some (s.goto .user)
  | .sti, .step => some (s.goto .halted)
  | _, _ => none

/-- A step of the processor `i`: it goes on, or the kernel's code panics. -/
def Share.next (i : Nat) (s : Share) : Option Way → Option Share
  | some w => s.walk i w
  | none => if s.cpu.place.inKernel then some s.panic else none

def Smp.share (s : Smp) (i : Nat) : Share := ⟨s.kernelLock, s.panicstr, s.cpus i⟩

def Smp.put (s : Smp) (i : Nat) (t : Share) : Smp :=
  ⟨t.lock, t.panicstr, Function.update s.cpus i t.cpu⟩

/-- A step of the machine: one of the processors goes some way, or panics. -/
structure SmpMove where
  cpu : Nat
  way : Option Way

def Smp.step (s : Smp) (m : SmpMove) : Option Smp :=
  if m.cpu < ncpu then ((s.share m.cpu).next m.cpu m.way).map (s.put m.cpu) else none

def Smp.run (s : Smp) : List SmpMove → Option Smp
  | [] => some s
  | m :: moves => (s.step m).bind fun s' => s'.run moves

end Jos
