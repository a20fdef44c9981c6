import Jos.Logic.Through
import Jos.Inc.Fs

/-!
# The image builder (`fs/fsformat.c`)

The mapped image is a memory of bytes, and pointers into it are distances from `diskmap`. The array
of directory entries is a memory of its own, with any contents. An argument is a path with the
contents of its file. `allocs` is a history variable: the ranges that `alloc` has handed out.
-/

namespace Jos

open Logic

/-- `ROUNDUP(n, BLKSIZE)` of a `uint32_t`. -/
def roundupUnsigned (n : Word) : Word :=
  n - 1 + toWord blksize - (n - 1) % toWord blksize

/-- `ROUNDUP(n, BLKSIZE)` of an `int`: the remainder has the sign of `n - 1`. -/
def roundupInt (n : Word) : Word :=
  n - 1 + toWord blksize - (n - 1).srem (toWord blksize)

def maxDirEnts : Nat := 128

/-- The longest name of a file that `open` of the host accepts. -/
def nameMax : Nat := 255

structure Arg where
  path : List Byte
  content : List Byte

/-- What follows the last slash. -/
def Arg.name (arg : Arg) : List Byte :=
  (arg.path.reverse.takeWhile (· != (47 : Byte))).reverse

structure Fmt where
  nblocks : Word
  diskmap : Image
  diskpos : Nat
  super : Nat
  bitmap : Nat
  ents : Image
  n : Nat
  allocs : List (Nat × Nat)

abbrev FmtM := Code String Fmt

/-- Before `main` runs; `heap` is the memory that `malloc` will return. -/
def Fmt.start (heap : Image) (nblocks : Word) : Fmt where
  nblocks := nblocks
  diskmap _ := 0
  diskpos := 0
  super := 0
  bitmap := 0
  ents := heap
  n := 0
  allocs := []

/-- A pointer to a `struct File`, in the mapped image or in the array of entries. -/
inductive FilePtr where
  | disk (a : Nat)
  | ents (a : Nat)

def storeDisk (a n : Nat) (f : Nat → Byte) : FmtM Unit :=
  Code.modify fun s => { s with diskmap := setBytes s.diskmap a n f }

/-- A store of `n` bytes at the distance `k` from a pointer. -/
def storeFile (p : FilePtr) (k n : Nat) (f : Nat → Byte) : FmtM Unit :=
  Code.modify fun s =>
    match p with
    | .disk a => { s with diskmap := setBytes s.diskmap (a + k) n f }
    | .ents a => { s with ents := setBytes s.ents (a + k) n f }

def blockof (pos : Nat) : Nat := pos / blksize

def alloc (bytes : Word) : FmtM Nat := do
  let start := (← Code.get).diskpos
  Code.modify fun s =>
    { s with
      diskpos := s.diskpos + (roundupUnsigned bytes).toNat
      allocs := s.allocs ++ [(start, (roundupUnsigned bytes).toNat)] }
  let s ← Code.get
  if s.nblocks.toNat ≤ blockof s.diskpos then
    Code.panic "out of disk blocks"
  else
    return start

def opendisk : FmtM Unit := do
  Code.modify fun s => { s with diskmap := fun _ => 0, diskpos := 0 }
  let _ ← alloc (toWord blksize)
  let super ← alloc (toWord blksize)
  Code.modify fun s => { s with super := super }
  let nblocks := (← Code.get).nblocks
  storeDisk super 4 (wordByte fsMagic)
  storeDisk (super + 4) 4 (wordByte nblocks)
  storeFile (.disk (super + 8)) 132 4 (wordByte ftypeDir)
  storeFile (.disk (super + 8)) 0 2 fun i => [47, 0].getD i 0
  let nbitblocks := (nblocks.toNat + blkbitsize - 1) / blkbitsize
  let bitmap ← alloc (toWord (nbitblocks * blksize))
  Code.modify fun s => { s with bitmap := bitmap }
  storeDisk bitmap (nbitblocks * blksize) fun _ => 0xFF

def finishdisk : FmtM Unit := do
  let s ← Code.get
  Code.times (blockof s.diskpos) fun i => do
    let a := s.bitmap + 4 * (i / 32)
    let w := word (← Code.get).diskmap a
    storeDisk a 4 (wordByte (w &&& ~~~bitmapBit i))

/-- The part of `finishfile` for the `n` blocks of a file that has all its direct slots in use. -/
def finishindirect (f : FilePtr) (start n : Nat) : FmtM Unit := do
  let ind ← alloc (toWord blksize)
  storeFile f 176 4 (wordByte (toWord (blockof ind)))
  Code.times (n - ndirect) fun i =>
    storeDisk (ind + 4 * i) 4 (wordByte (toWord (start + (ndirect + i))))

/-- `finishfile`; `start` is the number of the first block of the file. -/
def finishfile (f : FilePtr) (start : Nat) (len : Word) : FmtM Unit := do
  storeFile f 128 4 (wordByte len)
  let n := (roundupUnsigned len).toNat / blksize
  Code.times (min n ndirect) fun i =>
    storeFile f (136 + 4 * i) 4 (wordByte (toWord (start + i)))
  if min n ndirect = ndirect then
    finishindirect f start n

def startdir : FmtM Unit :=
  Code.modify fun s => { s with n := 0 }

def diradd (type : Word) (name : List Byte) : FmtM FilePtr := do
  let k := (← Code.get).n
  Code.modify fun s => { s with n := k + 1 }
  if maxDirEnts < k + 1 then
    Code.panic "too many directory entries"
  else do
    let out := FilePtr.ents (sizeofFile * k)
    storeFile out 0 (name.length + 1) fun i => name.getD i 0
    storeFile out 132 4 (wordByte type)
    return out

def finishdir : FmtM Unit := do
  let size := toWord ((← Code.get).n * sizeofFile)
  let start ← alloc size
  let s ← Code.get
  storeDisk start size.toNat s.ents
  finishfile (.disk (s.super + 8)) (blockof start) (roundupInt size)

def writefile (arg : Arg) : FmtM Unit := do
  if nameMax < arg.name.length then
    Code.panic "open"
  else if maxfilesize ≤ arg.content.length then
    Code.panic "too large"
  else do
    let f ← diradd ftypeReg arg.name
    let size := toWord arg.content.length
    let start ← alloc size
    storeDisk start arg.content.length fun i => arg.content.getD i 0
    finishfile f (blockof start) size

def writefiles : List Arg → FmtM Unit
  | [] => return ()
  | arg :: args => do
    writefile arg
    writefiles args

/-- `main` with the number of blocks that `strtol` gives. -/
def fsformat (args : List Arg) : FmtM Unit := do
  let nblocks := (← Code.get).nblocks.toNat
  if nblocks < 2 ∨ 1024 < nblocks then
    Code.exit
  else do
    opendisk
    startdir
    writefiles args
    finishdir
    finishdisk

end Jos
