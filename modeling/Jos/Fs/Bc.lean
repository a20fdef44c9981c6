import Jos.Logic.Through
import Jos.Inc.Fs

/-!
# The block cache (`fs/bc.c`)

Disk and mapped region are memories of bytes. A block is loaded by the fault handler at the first
access, and a store sets the dirty bit of the page. `sys_page_alloc` is taken to succeed, and
`touch` sets page faults aside.

`past` and `moves` are history variables: the disk before each write to it, and the parts of the
caller's buffer that have been copied.
-/

namespace Jos

open Logic Function

structure Fs where
  disk : Image
  cache : Image
  mapped : Nat → Bool
  dirty : Nat → Bool
  past : List Image
  moves : List (Nat × Nat)

abbrev FsM := Code String Fs

/-- What the server sees at the addresses of the mapped disk. -/
def Fs.mem (s : Fs) : Image := fun a =>
  if s.mapped (a / blksize) then s.cache a else s.disk a

/-- `super->s_nblocks`. -/
def nblocksIn (m : Image) : Nat := (word m sNblocksAt).toNat

/-- `block_is_free`. -/
def freeIn (m : Image) (blockno : Nat) : Bool :=
  blockno < nblocksIn m && word m (bitmapAt blockno) &&& bitmapBit blockno != 0

/-- `ide_read` of one block to its place in the address space. -/
def Fs.load (s : Fs) (b : Nat) : Fs :=
  { s with
    cache := setBytes s.cache (b * blksize) blksize fun i => s.disk (b * blksize + i)
    mapped := update s.mapped b true
    dirty := update s.dirty b false }

/-- What `sys_page_map(0, addr, 0, addr, perm)` returns for a page that is mapped. -/
def remap (addr : Nat) : Int := if addr % pgsize ≠ 0 then -eInval else 0

/-- The handler reads the super block and the bitmap by `access`. -/
def bcPgfault (access : Nat → FsM Unit) (addr : Nat) : FsM Unit := do
  let blockno := addr / blksize
  if disksize ≤ addr then
    Code.panic "page fault in FS"
  else do
    access sNblocksAt
    if nblocksIn (← Code.get).mem ≤ blockno then
      Code.panic "reading non-existent block"
    else do
      Code.modify fun s => s.load blockno
      -- The page is allocated and read at the rounded address, but mapped again at `addr` itself.
      if remap addr < 0 then
        Code.panic "in bc_pgfault, sys_page_map"
      else do
        access sNblocksAt
        access (bitmapAt blockno)
        if freeIn (← Code.get).mem blockno then
          Code.panic "reading free block"

/-- An access to block `b`, before it takes place, page faults aside: a block is loaded as by an
access to its first byte, and the handler causes no faults. -/
def touch (b : Nat) : FsM Unit := do
  if (← Code.get).mapped b = false then
    bcPgfault (fun _ => pure ()) (b * blksize)

/-- The number of blocks that a range of addresses has a part in. -/
def rangeBlocks (a n : Nat) : Nat :=
  if n = 0 then 0 else (a + n - 1) / blksize + 1 - a / blksize

/-- The accesses to the blocks of a range of addresses. -/
def touchRange (a n : Nat) : FsM Unit :=
  Code.times (rangeBlocks a n) fun i => touch (a / blksize + i)

def load8 (a : Nat) : FsM Byte := do
  touch (a / blksize)
  return (← Code.get).mem a

def loadWord (a : Nat) : FsM Word := do
  touch (a / blksize)
  return word (← Code.get).mem a

def loadBytes (a n : Nat) : FsM (Nat → Byte) := do
  touchRange a n
  let m := (← Code.get).mem
  return fun i => m (a + i)

/-- The pages of a range become dirty. -/
def dirtied (dirty : Nat → Bool) (a n : Nat) : Nat → Bool := fun b =>
  dirty b || (b * blksize < a + n && a < (b + 1) * blksize && 0 < n)

def Fs.store (s : Fs) (a n : Nat) (f : Nat → Byte) : Fs :=
  { s with cache := setBytes s.cache a n f, dirty := dirtied s.dirty a n }

def storeBytes (a n : Nat) (f : Nat → Byte) : FsM Unit := do
  touchRange a n
  Code.modify fun s => s.store a n f

def storeWord (a : Nat) (w : Word) : FsM Unit := do
  touch (a / blksize)
  Code.modify fun s => s.store a 4 (wordByte w)

def diskaddr (blockno : Word) : FsM Nat := do
  if blockno = 0 ∨ (← loadWord sNblocksAt).toNat ≤ blockno.toNat then
    Code.panic "bad block number in diskaddr"
  else
    return blockno.toNat * blksize

/-- `ide_write` of one block, and the page made clean. -/
def Fs.writeBack (s : Fs) (b : Nat) : Fs :=
  { s with
    past := s.past ++ [s.disk]
    disk := setBytes s.disk (b * blksize) blksize fun i => s.cache (b * blksize + i)
    dirty := update s.dirty b false }

def flushBlock (a : Nat) : FsM Unit := do
  let b := a / blksize
  if disksize ≤ a then
    Code.panic "flush_block of bad va"
  else do
    let s ← Code.get
    if s.mapped b && s.dirty b then
      Code.modify fun s => s.writeBack b

end Jos
