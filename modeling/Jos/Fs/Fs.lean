import Jos.Fs.Bc

/-!
# The file system (`fs/fs.c`)

Functions that store through a pointer argument return the pointer, with the error codes as
`Except`. Numbers have 32 bits; a comparison between `off_t` and `size_t` is unsigned, as in C.
Strings are lists of bytes without the terminating zero.
-/

namespace Jos

open Logic

def checkSuper : FsM Unit := do
  if (← loadWord sMagicAt) ≠ fsMagic then
    Code.panic "bad file system magic number"
  else if disksize / blksize < (← loadWord sNblocksAt).toNat then
    Code.panic "file system is too large"

def blockIsFree (blockno : Nat) : FsM Bool := do
  if (← loadWord sNblocksAt).toNat ≤ blockno then
    return false
  else
    return (← loadWord (bitmapAt blockno)) &&& bitmapBit blockno != 0

def freeBlock (blockno : Word) : FsM Unit := do
  if blockno = 0 then
    Code.panic "attempt to free zero block"
  else do
    let w ← loadWord (bitmapAt blockno.toNat)
    storeWord (bitmapAt blockno.toNat) (w ||| bitmapBit blockno.toNat)

/-- The search loop of `alloc_block`, with the number of rounds left. -/
def allocFrom : Nat → Nat → FsM Int
  | 0, _ => return -eNoDisk
  | rounds + 1, blockno => do
    if ← blockIsFree blockno then
      let w ← loadWord (bitmapAt blockno)
      storeWord (bitmapAt blockno) (w &&& ~~~bitmapBit blockno)
      flushBlock (bitmapAt blockno)
      return (toWord blockno).toInt
    else
      allocFrom rounds (blockno + 1)

def allocBlock : FsM Int := do
  allocFrom (← loadWord sNblocksAt).toNat 0

def assertUsed (blockno : Nat) : FsM Unit := do
  if ← blockIsFree blockno then
    Code.panic "assertion failed: !block_is_free"

def checkBitmap : FsM Unit := do
  let n := (← loadWord sNblocksAt).toNat
  Code.times ((n + blkbitsize - 1) / blkbitsize) fun i => assertUsed (2 + i)
  assertUsed 0
  assertUsed 1

def fileBlockWalk (f : Nat) (filebno : Word) (alloc : Bool) : FsM (Except Int Nat) := do
  if ndirect + nindirect ≤ filebno.toNat then
    return .error (-eInval)
  else if filebno.toNat < ndirect then
    return .ok (fDirectAt f filebno.toNat)
  else
    if (← loadWord (fIndirectAt f)) = 0 then
      if alloc = false then
        return .error (-eNotFound)
      let r ← allocBlock
      if r < 0 then
        return .error (-eNoDisk)
      let blk ← diskaddr (BitVec.ofInt 32 r)
      storeBytes blk blksize fun _ => 0
      storeWord (fIndirectAt f) (BitVec.ofInt 32 r)
      flushBlock blk
    let ind ← diskaddr (← loadWord (fIndirectAt f))
    return .ok (ind + 4 * (filebno.toNat - ndirect))

def fileGetBlock (f : Nat) (filebno : Word) : FsM (Except Int Nat) := do
  match ← fileBlockWalk f filebno true with
  | .error r => return .error r
  | .ok pdiskbno =>
    -- The source tests for a failure of `alloc_block` with `*pdiskbno < 0`, which is never
    -- true of an unsigned number. The error code goes on to `diskaddr`.
    if (← loadWord pdiskbno) = 0 then
      storeWord pdiskbno (BitVec.ofInt 32 (← allocBlock))
    return .ok (← diskaddr (← loadWord pdiskbno))

/-- `strcmp(a, name) == 0`. -/
def strcmpEq : List Byte → Nat → FsM Bool
  | [], a => return (← load8 a) == 0
  | c :: name, a => do
    if (← load8 a) = c then
      strcmpEq name (a + 1)
    else
      return false

def strcpy (a : Nat) (name : List Byte) : FsM Unit :=
  storeBytes a (name.length + 1) fun i => name.getD i 0

/-- The inner loop over the files of a directory block. -/
def scanBlock (test : Nat → FsM Bool) : Nat → Nat → FsM (Option Nat)
  | 0, _ => return none
  | rounds + 1, f => do
    if ← test f then
      return some f
    else
      scanBlock test rounds (f + sizeofFile)

/-- The loop over the blocks of a directory that `dir_lookup` and `dir_alloc_file` share. -/
def scanDir (dir : Nat) (test : Nat → FsM Bool) : Nat → Word → FsM (Except Int (Option Nat))
  | 0, _ => return .ok none
  | rounds + 1, i => do
    match ← fileGetBlock dir i with
    | .error r => return .error r
    | .ok blk =>
      match ← scanBlock test blkfiles blk with
      | some f => return .ok (some f)
      | none => scanDir dir test rounds (i + 1)

def dirAssert : String := "assertion failed: (dir->f_size % BLKSIZE) == 0"

/-- The number of blocks of a directory, after the assertion about its size. -/
def dirBlocks (dir : Nat) : FsM Word := do
  let size ← loadWord (fSizeAt dir)
  if size.srem (toWord blksize) ≠ 0 then
    Code.panic dirAssert
  else
    return size.sdiv (toWord blksize)

def dirLookup (dir : Nat) (name : List Byte) : FsM (Except Int Nat) := do
  let nblock ← dirBlocks dir
  match ← scanDir dir (strcmpEq name) nblock.toNat 0 with
  | .error r => return .error r
  | .ok (some f) => return .ok f
  | .ok none => return .error (-eNotFound)

def dirAllocFile (dir : Nat) : FsM (Except Int Nat) := do
  let nblock ← dirBlocks dir
  match ← scanDir dir (fun f => do return (← load8 f) == 0) nblock.toNat 0 with
  | .error r => return .error r
  | .ok (some f) => return .ok f
  | .ok none =>
    storeWord (fSizeAt dir) ((← loadWord (fSizeAt dir)) + toWord blksize)
    fileGetBlock dir nblock

def slash : Byte := 0x2f

def skipSlash (p : List Byte) : List Byte := p.dropWhile (· == slash)

/-- How `walk_path` ends: with the file and its directory, with the directory that the
file should be in and the last name of the path, or with an error. -/
inductive Walk where
  | found (dir : Option Nat) (f : Nat)
  | missing (dir : Nat) (lastelem : List Byte)
  | failed (r : Int)
  deriving DecidableEq

/-- The loop of `walk_path`. Every round takes at least one character. -/
def walkLoop : Nat → List Byte → Option Nat → Nat → FsM Walk
  | 0, _, dir, f => return .found dir f
  | _ + 1, [], dir, f => return .found dir f
  | rounds + 1, c :: path, _, f => do
    let name := (c :: path).takeWhile (· != slash)
    let rest := skipSlash ((c :: path).dropWhile (· != slash))
    if maxnamelen ≤ name.length then
      return .failed (-eBadPath)
    else if (← loadWord (fTypeAt f)) ≠ ftypeDir then
      return .failed (-eNotFound)
    else
      match ← dirLookup f name with
      | .error r =>
        if r = -eNotFound ∧ rest = [] then
          return .missing f name
        else
          return .failed r
      | .ok f' => walkLoop rounds rest (some f) f'

def walkPath (path : List Byte) : FsM Walk :=
  walkLoop path.length (skipSlash path) none sRoot

def fileFreeBlock (f : Nat) (filebno : Word) : FsM Int := do
  match ← fileBlockWalk f filebno false with
  | .error r => return r
  | .ok ptr =>
    let b ← loadWord ptr
    if b ≠ 0 then
      freeBlock b
      storeWord ptr 0
    return 0

/-- `(size + BLKSIZE - 1) / BLKSIZE`, a signed quotient. -/
def blocksOf (size : Word) : Word :=
  (size + toWord (blksize - 1)).sdiv (toWord blksize)

def fileTruncateBlocks (f : Nat) (newsize : Word) : FsM Unit := do
  let oldNblocks := blocksOf (← loadWord (fSizeAt f))
  let newNblocks := blocksOf newsize
  Code.times (oldNblocks.toNat - newNblocks.toNat) fun i => do
    let _ ← fileFreeBlock f (newNblocks + toWord i)
  if newNblocks.toNat ≤ ndirect then
    let ind ← loadWord (fIndirectAt f)
    if ind ≠ 0 then
      freeBlock ind
      storeWord (fIndirectAt f) 0

def fileSetSize (f : Nat) (newsize : Word) : FsM Int := do
  if newsize.toInt < (← loadWord (fSizeAt f)).toInt then
    fileTruncateBlocks f newsize
  storeWord (fSizeAt f) newsize
  flushBlock f
  return 0

def fileFlushBlock (f i : Nat) : FsM Unit := do
  match ← fileBlockWalk f (toWord i) false with
  | .error _ => return ()
  | .ok pdiskbno =>
    let b ← loadWord pdiskbno
    if b ≠ 0 then
      flushBlock (← diskaddr b)

def fileFlush (f : Nat) : FsM Unit := do
  let n := (blocksOf (← loadWord (fSizeAt f))).toInt.toNat
  Code.times n (fileFlushBlock f)
  flushBlock f
  let ind ← loadWord (fIndirectAt f)
  if ind ≠ 0 then
    flushBlock (← diskaddr ind)

def fsSync : FsM Unit := do
  let n := (← loadWord sNblocksAt).toNat
  Code.times (n - 1) fun i => do flushBlock (← diskaddr (toWord (1 + i)))

def fileCreate (path : List Byte) : FsM (Except Int Nat) := do
  match ← walkPath path with
  | .found _ _ => return .error (-eFileExists)
  | .failed r => return .error r
  | .missing dir name =>
    match ← dirAllocFile dir with
    | .error r => return .error r
    | .ok f =>
      strcpy f name
      fileFlush dir
      return .ok f

def fileOpen (path : List Byte) : FsM (Except Int Nat) := do
  match ← walkPath path with
  | .found _ f => return .ok f
  | .missing _ _ => return .error (-eNotFound)
  | .failed r => return .error r

/-- Where the bytes that `file_write` writes come from: memory outside the mapped disk, or the
request page. This lies right below the disk, so a copy that runs over its end continues in block 0.
-/
inductive Source where
  | bytes (data : Nat → Byte)
  | request (page : Nat → Byte)

/-- The place of `req_buf` in the request page. -/
def reqBufAt : Nat := 8

/-- The bytes of the buffer from `i` on, of which `n` are used. -/
def Source.fetch : Source → Nat → Nat → FsM (Nat → Byte)
  | .bytes data, i, _ => return fun j => data (i + j)
  | .request page, i, n => do
    let start := reqBufAt + i - pgsize
    touchRange start (reqBufAt + i + n - pgsize - start)
    let m := (← Code.get).mem
    return fun j =>
      if reqBufAt + i + j < pgsize then page (reqBufAt + i + j)
      else m (reqBufAt + i + j - pgsize)

/-- The number of bytes that one round of `file_read` or `file_write` copies. -/
def roundLen (pos endPos : Word) : Word :=
  let inBlock := toWord blksize - pos.srem (toWord blksize)
  if inBlock.toNat ≤ (endPos - pos).toNat then inBlock else endPos - pos

/-- `blk + pos % BLKSIZE`. -/
def roundAddr (blk : Nat) (pos : Word) : Nat :=
  ((blk : Int) + (pos.srem (toWord blksize)).toInt).toNat

def recordMove (i n : Nat) : FsM Unit :=
  Code.modify fun s => { s with moves := s.moves ++ [(i, n)] }

/-- The loop of `file_read`, with the bytes that have been copied so far. Every round copies
at least one byte. -/
def fileReadLoop (f : Nat) (endPos : Word) : Nat → Word → List Byte → FsM (Int × List Byte)
  | 0, _, buf => return (0, buf)
  | rounds + 1, pos, buf => do
    if pos.toNat < endPos.toNat then
      match ← fileGetBlock f (pos.sdiv (toWord blksize)) with
      | .error r => return (r, buf)
      | .ok blk =>
        let bn := roundLen pos endPos
        let bytes ← loadBytes (roundAddr blk pos) bn.toNat
        recordMove buf.length bn.toNat
        fileReadLoop f endPos rounds (pos + bn) (buf ++ (List.range bn.toNat).map bytes)
    else
      return (0, buf)

/-- The result of `file_read` and the bytes it has stored in the buffer. -/
def fileRead (f : Nat) (count offset : Word) : FsM (Int × List Byte) := do
  let size ← loadWord (fSizeAt f)
  if size.toInt ≤ offset.toInt then
    return (0, [])
  else do
    let count := if count.toNat ≤ (size - offset).toNat then count else size - offset
    let (r, buf) ← fileReadLoop f (offset + count) count.toNat offset []
    if r < 0 then
      return (r, buf)
    else
      return (count.toInt, buf)

/-- The loop of `file_write`; `i` bytes of the buffer have been written. -/
def fileWriteLoop (f : Nat) (src : Source) (endPos : Word) : Nat → Word → Nat → FsM Int
  | 0, _, _ => return 0
  | rounds + 1, pos, i => do
    if pos.toNat < endPos.toNat then
      match ← fileGetBlock f (pos.sdiv (toWord blksize)) with
      | .error r => return r
      | .ok blk =>
        let bn := roundLen pos endPos
        let bytes ← src.fetch i bn.toNat
        storeBytes (roundAddr blk pos) bn.toNat bytes
        recordMove i bn.toNat
        fileWriteLoop f src endPos rounds (pos + bn) (i + bn.toNat)
    else
      return 0

def fileWrite (f : Nat) (src : Source) (count offset : Word) : FsM Int := do
  if (← loadWord (fSizeAt f)).toNat < (offset + count).toNat then
    let r ← fileSetSize f (offset + count)
    if r < 0 then
      return r
  let r ← fileWriteLoop f src (offset + count) count.toNat offset 0
  if r < 0 then
    return r
  else
    return count.toInt

end Jos
