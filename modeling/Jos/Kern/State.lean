import Jos.Kern.Pmap
import Jos.Inc.Env

/-!
# The kernel state

The kernel's variables, the processors while they are outside the kernel, and the accesses to memory
through the address space in force. The indices of `envs` from `NENV` on stand for the memory behind
the table, which `sched_yield` can read. `envLog` is a history variable: the calls of `env_alloc`
that succeed and those of `env_free`.
-/

namespace Jos

open Logic

inductive CpuStatus where
  | unused
  | started
  | halted
  deriving DecidableEq

/-- What a processor does while it does not hold the kernel lock: it has not entered the scheduler
yet, runs user code, waits in `sched_halt`, or is in the kernel monitor for good. -/
inductive Mode where
  | boot
  | user
  | halt
  | monitor
  deriving DecidableEq

/-- A processor. `cr3` is the page of the page directory in force, and `userTf` holds
the registers that the last `iret` restored. -/
structure Cpu where
  cpuStatus : CpuStatus
  cpuEnv : Option Nat
  cr3 : Nat
  mode : Mode
  userTf : Trapframe

def ncpu : Nat := 8

structure TxDesc where
  length : BitVec 16
  cmd : BitVec 8
  status : BitVec 8
  buf : List (BitVec 8)

structure RxDesc where
  length : BitVec 16
  status : BitVec 8
  buf : Nat → BitVec 8

/-- The registers and descriptors of the network card that the driver uses. A
descriptor carries the contents of its buffer. -/
structure E1000 where
  tdt : Word
  tdh : Word
  rdt : Word
  txDescs : Nat → TxDesc
  rxDescs : Nat → RxDesc

inductive EnvEvent where
  | alloc (e : Nat)
  | free (cpu e : Nat)
  deriving DecidableEq

structure Kernel where
  phys : Phys
  envs : Nat → Env
  envFreeList : Option Nat
  cpus : Nat → Cpu
  cpunum : Nat
  ticks : Word
  cons : List Word
  e1000 : E1000
  envLog : List EnvEvent

abbrev Kern := Code String Kernel

namespace Kernel

def curenv (k : Kernel) : Option Nat := (k.cpus k.cpunum).cpuEnv

@[simps -fullyApplied phys cpus cpunum envFreeList envLog]
def setEnv (k : Kernel) (e : Nat) (f : Env → Env) : Kernel :=
  { k with envs := Function.update k.envs e (f (k.envs e)) }

/-- Change the processor that executes. -/
@[simps -fullyApplied phys envs cpunum envFreeList envLog]
def setCpu (k : Kernel) (f : Cpu → Cpu) : Kernel :=
  { k with cpus := Function.update k.cpus k.cpunum (f (k.cpus k.cpunum)) }

variable (k : Kernel) (e : Nat) (f : Env → Env) (g : Cpu → Cpu)

@[simp] theorem setEnv_self : (k.setEnv e f).envs e = f (k.envs e) := by
  simp [setEnv]

theorem setEnv_setEnv (g : Env → Env) :
    (k.setEnv e f).setEnv e g = k.setEnv e fun env => g (f env) := by
  simp [setEnv]

theorem setEnv_of_ne {x : Nat} (h : x ≠ e) : (k.setEnv e f).envs x = k.envs x := by
  simp [setEnv, h]

theorem setEnv_field {α : Type} (proj : Env → α) (h : proj (f (k.envs e)) = proj (k.envs e))
    (x : Nat) : proj ((k.setEnv e f).envs x) = proj (k.envs x) := by
  by_cases hx : x = e
  · rw [hx, setEnv_self, h]
  · rw [k.setEnv_of_ne e f hx]

@[simp] theorem setCpu_self : (k.setCpu g).cpus k.cpunum = g (k.cpus k.cpunum) := by
  simp [setCpu]

theorem setCpu_id : k.setCpu (fun c => c) = k := by
  simp [setCpu]

theorem setCpu_setCpu (h : Cpu → Cpu) : (k.setCpu g).setCpu h = k.setCpu fun c => h (g c) := by
  simp [setCpu]

theorem setCpu_of_ne {i : Nat} (h : i ≠ k.cpunum) : (k.setCpu g).cpus i = k.cpus i := by
  simp [setCpu, h]

@[simp] theorem setCpu_curenv : (k.setCpu g).curenv = (g (k.cpus k.cpunum)).cpuEnv := by
  simp [curenv]

end Kernel

def onPhys {α : Type} (m : PhysM α) : Kern α :=
  Code.zoom Kernel.phys (fun k p => { k with phys := p }) m

def setEnv (e : Nat) (f : Env → Env) : Kern Unit := Code.modify fun k => k.setEnv e f

def env (e : Nat) : Kern Env := do
  return (← Code.get).envs e

def kernelFault : String := "tarp->page_fault_handler: kernel-mode page faults \n"

/-- `curenv`, at a place where the kernel dereferences it. -/
def curenv : Kern Nat := do
  match (← Code.get).curenv with
  | none => Code.panic kernelFault
  | some e => return e

def setCurenv (e : Option Nat) : Kern Unit :=
  Code.modify fun k => k.setCpu fun c => { c with cpuEnv := e }

def lcr3 (pgdir : Nat) : Kern Unit :=
  Code.modify fun k => k.setCpu fun c => { c with cr3 := pgdir }

/-- `PADDR` at the address of a page directory. -/
def paddr (pgdir : Option Nat) : Kern Nat :=
  match pgdir with
  | none => Code.panic "PADDR called with invalid kva 00000000"
  | some d => return d

/-! ## Memory through the address space in force

The kernel runs with the write-protect bit of `cr0` set, so a store needs `PTE_W` in the
directory entry and in the table entry. An access that the tables do not allow is a page
fault in kernel mode. -/

/-- The page that holds the byte at `va`, for a load (`write = false`) or a store. -/
def Phys.translate (p : Phys) (pgdir : Nat) (va : Word) (write : Bool) : Option Nat :=
  let pde := p.mem pgdir (pdx va)
  let pte := p.mem (pageOf pde) (ptx va)
  if present pde && present pte && (!write || (writable pde && writable pte)) then
    some (pageOf pte)
  else
    none

/-- The index of the word that holds the byte at `va`. -/
def wordIndex (va : Word) : Nat := (pgoff va >>> 2).toNat

/-- The distance in bits of the byte at `va` from the low end of its word. -/
def byteShift (va : Word) : Nat := 8 * (va &&& 3).toNat

def loadByte (va : Word) : Kern (BitVec 8) := do
  let k ← Code.get
  match k.phys.translate (k.cpus k.cpunum).cr3 va false with
  | none => Code.panic kernelFault
  | some page => return (k.phys.mem page (wordIndex va) >>> byteShift va).setWidth 8

def storeByte (va : Word) (b : BitVec 8) : Kern Unit := do
  let k ← Code.get
  match k.phys.translate (k.cpus k.cpunum).cr3 va true with
  | none => Code.panic kernelFault
  | some page =>
    let old := k.phys.mem page (wordIndex va)
    let new := old &&& ~~~((0xff : Word) <<< byteShift va) |||
      b.setWidth 32 <<< byteShift va
    Code.modify fun k => { k with phys := k.phys.setWord page (wordIndex va) new }

def load16 (va : Word) : Kern (BitVec 16) := do
  let lo ← loadByte va
  let hi ← loadByte (va + 1)
  return hi.setWidth 16 <<< 8 ||| lo.setWidth 16

def load32 (va : Word) : Kern Word := do
  let lo ← load16 va
  let hi ← load16 (va + 2)
  return hi.setWidth 32 <<< 16 ||| lo.setWidth 32

def store32 (va w : Word) : Kern Unit := do
  storeByte va (w.setWidth 8)
  storeByte (va + 1) ((w >>> 8).setWidth 8)
  storeByte (va + 2) ((w >>> 16).setWidth 8)
  storeByte (va + 3) ((w >>> 24).setWidth 8)

def loadPushRegs (va : Word) : Kern PushRegs := do
  let edi ← load32 va
  let esi ← load32 (va + 4)
  let ebp ← load32 (va + 8)
  let oesp ← load32 (va + 12)
  let ebx ← load32 (va + 16)
  let edx ← load32 (va + 20)
  let ecx ← load32 (va + 24)
  let eax ← load32 (va + 28)
  return ⟨edi, esi, ebp, oesp, ebx, edx, ecx, eax⟩

def storePushRegs (va : Word) (regs : PushRegs) : Kern Unit := do
  store32 va regs.regEdi
  store32 (va + 4) regs.regEsi
  store32 (va + 8) regs.regEbp
  store32 (va + 12) regs.regOesp
  store32 (va + 16) regs.regEbx
  store32 (va + 20) regs.regEdx
  store32 (va + 24) regs.regEcx
  store32 (va + 28) regs.regEax

def loadTrapframe (va : Word) : Kern Trapframe := do
  let regs ← loadPushRegs va
  let es ← load16 (va + 32)
  let ds ← load16 (va + 36)
  let trapno ← load32 (va + 40)
  let err ← load32 (va + 44)
  let eip ← load32 (va + 48)
  let cs ← load16 (va + 52)
  let eflags ← load32 (va + 56)
  let esp ← load32 (va + 60)
  let ss ← load16 (va + 64)
  return ⟨regs, es, ds, trapno, err, eip, cs, eflags, esp, ss⟩

/-- Store `len` bytes at `va`, as `memcpy` and `memmove` from kernel memory do. -/
def copyOut (va : Word) (len : Nat) (bytes : Nat → BitVec 8) : Kern Unit :=
  Code.times len fun i => storeByte (va + toWord i) (bytes i)

def copyIn (va : Word) : Nat → Kern (List (BitVec 8))
  | 0 => return []
  | len + 1 => do
    let b ← loadByte va
    return b :: (← copyIn (va + 1) len)

end Jos
