import Mathlib.Data.Nat.Bitwise
import Mathlib.Tactic.Common

/-!
# Machine words and the memory layout

What the kernel functions read of `inc/mmu.h`, `inc/memlayout.h` and `inc/error.h`. Words are 32
bits wide. Addresses that are only compared or divided are natural numbers.
-/

namespace Jos

/-- A 32-bit machine word: an address, a register, a page table entry. -/
abbrev Word := BitVec 32

abbrev toWord (n : Nat) : Word := BitVec.ofNat 32 n

theorem toWord_add (m n : Nat) : toWord (m + n) = toWord m + toWord n := BitVec.ofNat_add m n

def pgsize : Nat := 4096
def npdentries : Nat := 1024
def nptentries : Nat := 1024
def ptsize : Nat := pgsize * nptentries

def kernbase : Nat := 0xf0000000
def kstacktop : Nat := kernbase
def mmiolim : Nat := kstacktop - ptsize
def mmiobase : Nat := mmiolim - ptsize
def ulim : Nat := mmiobase
def uvpt : Nat := ulim - ptsize
def upages : Nat := uvpt - ptsize
def uenvs : Nat := upages - ptsize
def utop : Nat := uenvs
def uxstacktop : Nat := utop
def ustacktop : Nat := utop - 2 * pgsize
def mpentryPaddr : Nat := 0x7000

def pteP : Word := 0x001
def pteW : Word := 0x002
def pteU : Word := 0x004
def pteAvail : Word := 0xe00
def pteSyscall : Word := pteAvail ||| pteP ||| pteW ||| pteU

def flIf : Word := 0x00000200
def flIoplMask : Word := 0x00003000
def flIopl0 : Word := 0x00000000

def gdKt : BitVec 16 := 0x08
def gdUt : BitVec 16 := 0x18
def gdUd : BitVec 16 := 0x20

def eBadEnv : Int := 2
def eInval : Int := 3
def eNoMem : Int := 4
def eNoFreeEnv : Int := 5
def eFault : Int := 6
def eIpcNotRecv : Int := 7
def eAgain : Int := 16
def maxerror : Int := 17

/-- The `PDX` macro: the page directory index of a linear address. -/
def pdx (va : Word) : Nat := (va >>> 22 &&& 0x3ff).toNat

/-- The `PTX` macro: the page table index of a linear address. -/
def ptx (va : Word) : Nat := (va >>> 12 &&& 0x3ff).toNat

/-- The `PGOFF` macro: the offset in the page. -/
def pgoff (va : Word) : Word := va &&& 0xfff

/-- The `PGNUM` macro: the page number field of an address. -/
def pgnum (va : Word) : Nat := (va >>> 12).toNat

/-- The `PGADDR` macro. -/
def pgaddr (d t o : Nat) : Word :=
  toWord d <<< 22 ||| toWord t <<< 12 ||| toWord o

/-- `ROUNDDOWN(a, PGSIZE)`. -/
def rounddown (a : Word) : Word := a - a % 4096

/-- `ROUNDUP(a, PGSIZE)`, which wraps at the top of the address space. -/
def roundup (a : Word) : Word := rounddown (a + 4096 - 1)

/-- The `PTE_P` bit of an entry. -/
def present (w : Word) : Bool := w &&& pteP != 0

/-- The `PTE_W` bit of an entry. -/
def writable (w : Word) : Bool := w &&& pteW != 0

/-- The page number in an entry, `PGNUM(PTE_ADDR(w))`. -/
def pageOf (w : Word) : Nat := pgnum (w &&& ~~~0xfff)

/-- The physical address of a page, `page2pa`. -/
def page2pa (pp : Nat) : Word := toWord (pp <<< 12)

end Jos
