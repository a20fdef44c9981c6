import Jos.Inc.Mmu
import Jos.Logic.Bytes

/-!
# The file system format (`inc/fs.h`)

A pointer into the mapped disk is its distance from `DISKMAP`, so block `b` starts at `b * BLKSIZE`.
A pointer to a `struct File` is the address of its first byte.
-/

namespace Jos

def blksize : Nat := 4096
def blkbitsize : Nat := blksize * 8
def maxnamelen : Nat := 128
def maxpathlen : Nat := 1024
def ndirect : Nat := 10
def nindirect : Nat := blksize / 4
def maxfilesize : Nat := (ndirect + nindirect) * blksize
def sizeofFile : Nat := 256
def blkfiles : Nat := blksize / sizeofFile
def fsMagic : Word := 0x4A0530AE
def ftypeReg : Word := 0
def ftypeDir : Word := 1

/-- `DISKSIZE` of `fs/fs.h`. -/
def disksize : Nat := 0xC0000000

def eNoDisk : Int := 9
def eMaxOpen : Int := 10
def eNotFound : Int := 11
def eBadPath : Int := 12
def eFileExists : Int := 13

def fSizeAt (f : Nat) : Nat := f + 128
def fTypeAt (f : Nat) : Nat := f + 132
def fDirectAt (f i : Nat) : Nat := f + 136 + 4 * i
def fIndirectAt (f : Nat) : Nat := f + 176

/-- `super`, as `fs_init` sets it. -/
def superAddr : Nat := 1 * blksize
def sMagicAt : Nat := superAddr
def sNblocksAt : Nat := superAddr + 4
def sRoot : Nat := superAddr + 8

/-- `bitmap`, as `fs_init` sets it. -/
def bitmapAddr : Nat := 2 * blksize

/-- The address of `bitmap[blockno / 32]`. -/
def bitmapAt (blockno : Nat) : Nat := bitmapAddr + 4 * (blockno / 32)

/-- The bit of a block in its word of the bitmap, `1 << (blockno % 32)`. -/
def bitmapBit (blockno : Nat) : Word := 1 <<< (blockno % 32)

end Jos
