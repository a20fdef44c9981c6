import Jos.Kern.Syscall
import Jos.Logic.Bytes

/-!
# Loading a program from a file (`lib/spawn.c`)

`spawn` finds the program headers in the first 512 bytes of the file and maps the segments into the
child page by page. The system calls are those of the kernel; `readn` stores through the address
space of the parent. The size of the file fits an `off_t`.
-/

namespace Jos

open Logic

def elfMagic : Word := 0x464c457f

def elfProgFlagWrite : Word := 2

def utemp : Word := 0x400000

def eNotExec : Int := 14

def half (m : Image) (a : Nat) : Nat := (m a).toNat + 256 * (m (a + 1)).toNat

/-- The fields of `struct Proghdr` that `spawn` reads. -/
structure SegmentHdr extends Proghdr where
  pFlags : Word

def segmentHdr (m : Image) (a : Nat) : SegmentHdr where
  pType := word m a
  pOffset := word m (a + 4)
  pVa := word m (a + 8)
  pFilesz := word m (a + 16)
  pMemsz := word m (a + 20)
  pFlags := word m (a + 24)

def phoff (m : Image) : Nat := (word m 28).toNat

def phnum (m : Image) : Nat := half m 44

def segmentHdrs (m : Image) : List SegmentHdr :=
  (List.range (phnum m)).map fun i => segmentHdr m (phoff m + 32 * i)

/-- The image as `load_icode` finds it in the kernel. -/
def Elf.ofImage (m : Image) : Elf := ⟨word m 24, (segmentHdrs m).map SegmentHdr.toProghdr, m⟩

structure ExecFile where
  size : Nat
  byte : Image
  size_lt : size < 2 ^ 31

/-- How many bytes `read` returns at an offset, when it is asked for `n`. -/
def ExecFile.read (f : ExecFile) (off n : Nat) : Nat := min n (min pgsize (f.size - off))

/-- `readn` from the offset `off`, when `tot` bytes have been read. -/
def readn (f : ExecFile) (off : Nat) (buf : Word) (n : Nat) : Nat → Nat → Kern Nat
  | 0, tot => pure tot
  | fuel + 1, tot => do
    if tot < n then
      let m := f.read (off + tot) (n - tot)
      if m = 0 then
        return tot
      copyOut (buf + toWord tot) m fun i => f.byte (off + tot + i)
      readn f off buf n fuel (tot + m)
    else
      return tot

/-- `elf_buf` after its 512 bytes have been read; what was in it stays behind the end of the
file. -/
def ExecFile.elfBuf (f : ExecFile) (old : Image) : Image := fun x =>
  if x < min 512 f.size then f.byte x else old x

/-- One round of the loop of `map_segment`, with the values that it has adjusted. -/
def mapPage (child : Word) (f : ExecFile) (va filesz fileoffset perm i : Word) : Kern Int := do
  if filesz.toNat ≤ i.toNat then
    sysPageAlloc child (va + i) perm
  else
    let r ← sysPageAlloc 0 utemp (pteP ||| pteU ||| pteW)
    if r < 0 then
      return r
    let n := min pgsize (filesz - i).toNat
    let _ ← readn f (fileoffset + i).toNat utemp n n 0
    let r ← sysPageMap 0 utemp child (va + i) perm
    if r < 0 then
      Code.panic "spawn: sys_page_map data: %e"
    let _ ← sysPageUnmap 0 utemp
    return 0

def mapPages (child : Word) (f : ExecFile) (va filesz fileoffset perm : Word) :
    Nat → Word → Kern Int
  | 0, _ => return 0
  | rounds + 1, i => do
    let r ← mapPage child f va filesz fileoffset perm i
    if r < 0 then
      return r
    mapPages child f va filesz fileoffset perm rounds (i + toWord pgsize)

def mapSegment (child : Word) (f : ExecFile) (va memsz filesz fileoffset perm : Word) :
    Kern Int :=
  let i := pgoff va
  let memsz := memsz + i
  mapPages child f (va - i) (filesz + i) (fileoffset - i) perm
    ((memsz.toNat + pgsize - 1) / pgsize) 0

/-- The loop of `spawn` over the program headers. -/
def mapSegments (child : Word) (f : ExecFile) : List SegmentHdr → Kern Int
  | [] => return 0
  | ph :: rest => do
    if ph.pType ≠ elfProgLoad then
      mapSegments child f rest
    else
      let perm := if ph.pFlags &&& elfProgFlagWrite ≠ 0 then pteP ||| pteU ||| pteW
        else pteP ||| pteU
      let r ← mapSegment child f ph.pVa ph.pMemsz ph.pFilesz ph.pOffset perm
      if r < 0 then
        return r
      mapSegments child f rest

/-- What `spawn` does with the file, for a child that has its stack. The bytes `old` are those that
`elf_buf` had on the stack. -/
def spawnSegments (child : Word) (f : ExecFile) (old : Image) : Kern Int := do
  let buf := f.elfBuf old
  if f.size < 512 ∨ word buf 0 ≠ elfMagic then
    return -eNotExec
  mapSegments child f (segmentHdrs buf)

end Jos
