import Jos.Inc.Mmu

/-!
# Trap frames, environments and system call numbers

The data types of `inc/trap.h`, `inc/env.h`, `inc/syscall.h` and `inc/elf.h`, without the padding of
`struct Trapframe`. Pointers into `envs` and `pages` are indices, a page directory is the number of
its page, and a null pointer is `none`.
-/

namespace Jos

/-- The registers as pushed by `pusha`. -/
structure PushRegs where
  regEdi : Word
  regEsi : Word
  regEbp : Word
  regOesp : Word
  regEbx : Word
  regEdx : Word
  regEcx : Word
  regEax : Word
  deriving DecidableEq

structure Trapframe where
  tfRegs : PushRegs
  tfEs : BitVec 16
  tfDs : BitVec 16
  tfTrapno : Word
  tfErr : Word
  tfEip : Word
  tfCs : BitVec 16
  tfEflags : Word
  tfEsp : Word
  tfSs : BitVec 16
  deriving DecidableEq

/-- `tf->tf_regs.reg_eax = eax`. -/
def Trapframe.withEax (tf : Trapframe) (eax : Word) : Trapframe :=
  { tf with tfRegs := { tf.tfRegs with regEax := eax } }

def Trapframe.zero : Trapframe where
  tfRegs := ⟨0, 0, 0, 0, 0, 0, 0, 0⟩
  tfEs := 0
  tfDs := 0
  tfTrapno := 0
  tfErr := 0
  tfEip := 0
  tfCs := 0
  tfEflags := 0
  tfEsp := 0
  tfSs := 0

def sizeofTrapframe : Word := 68

def sizeofUTrapframe : Word := 52

def tBrkpt : Word := 3
def tPgflt : Word := 14
def tSyscall : Word := 48
def irqOffset : Word := 32
def irqTimer : Word := 0
def irqKbd : Word := 1
def irqSerial : Word := 4
def irqSpurious : Word := 7

inductive EnvStatus where
  | free
  | dying
  | runnable
  | running
  | notRunnable
  deriving DecidableEq

inductive EnvType where
  | user
  | fs
  | ns
  deriving DecidableEq

structure Env where
  envTf : Trapframe
  envLink : Option Nat
  envId : Word
  envParentId : Word
  envType : EnvType
  envStatus : EnvStatus
  envRuns : Word
  envCpunum : Nat
  envPgdir : Option Nat
  envPgfaultUpcall : Word
  envIpcRecving : Bool
  envIpcDstva : Word
  envIpcValue : Word
  envIpcFrom : Word
  envIpcPerm : Word
  envBreak : Word
  deriving DecidableEq

def nenv : Nat := 1024

/-- The `ENVX` macro: the table index of an environment identifier. -/
def envx (envid : Word) : Nat := (envid &&& 0x3ff).toNat

/-- `1 << ENVGENSHIFT`. -/
def envgen : Word := 1 <<< 12

/-- The system calls, in the order of their numbers. -/
inductive Sysno where
  | cputs
  | cgetc
  | getenvid
  | envDestroy
  | pageAlloc
  | pageMap
  | pageUnmap
  | exofork
  | envSetStatus
  | envSetTrapframe
  | envSetPgfaultUpcall
  | yield
  | ipcTrySend
  | ipcRecv
  | mapKernelPage
  | sbrk
  | timeMsec
  | netSend
  | netRecv
  deriving DecidableEq

/-- The system call with the given number, if there is one. -/
def Sysno.ofWord (w : Word) : Option Sysno :=
  match w.toNat with
  | 0 => some .cputs
  | 1 => some .cgetc
  | 2 => some .getenvid
  | 3 => some .envDestroy
  | 4 => some .pageAlloc
  | 5 => some .pageMap
  | 6 => some .pageUnmap
  | 7 => some .exofork
  | 8 => some .envSetStatus
  | 9 => some .envSetTrapframe
  | 10 => some .envSetPgfaultUpcall
  | 11 => some .yield
  | 12 => some .ipcTrySend
  | 13 => some .ipcRecv
  | 14 => some .mapKernelPage
  | 15 => some .sbrk
  | 16 => some .timeMsec
  | 17 => some .netSend
  | 18 => some .netRecv
  | _ => none

/-- The fields of `struct Proghdr` that the loader reads. -/
structure Proghdr where
  pType : Word
  pOffset : Word
  pVa : Word
  pFilesz : Word
  pMemsz : Word

def elfProgLoad : Word := 1

/-- A program image: its entry point, its program headers in order and its bytes. -/
structure Elf where
  eEntry : Word
  ph : List Proghdr
  byte : Nat → BitVec 8

end Jos
