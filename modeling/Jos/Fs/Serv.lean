import Jos.Fs.Fs

/-!
# The file server (`fs/serv.c`)

The pages with `struct Fd` and the request page are shared with clients, who choose their contents
and the number of references between requests. The request page lies right below the mapped disk,
and a store behind its end goes to block 0.

`accesses` is a history variable: the parts of the request region that have been accessed.
-/

namespace Jos

open Logic Function

def fsreqOpen : Word := 1
def fsreqSetSize : Word := 2
def fsreqRead : Word := 3
def fsreqWrite : Word := 4
def fsreqStat : Word := 5
def fsreqFlush : Word := 6
def fsreqSync : Word := 8

def oAccmode : Word := 0x3
def oCreat : Word := 0x100
def oTrunc : Word := 0x200
def oExcl : Word := 0x400

/-- `devfile.dev_id`. -/
def devfileId : Word := 0x66

def maxopen : Nat := 1024

/-- The places of the fields of `union Fsipc`. -/
def reqFileidAt : Nat := 0
def reqSizeAt : Nat := 4
def reqNAt : Nat := 4
def reqOmodeAt : Nat := maxpathlen
def retSizeAt : Nat := maxnamelen
def retIsdirAt : Nat := maxnamelen + 4

structure OpenFile where
  oFileid : Word
  oFile : Option Nat
  oMode : Word

structure Fd where
  fdDevId : Word
  fdOffset : Word
  fdOmode : Word
  fdFileId : Word

/-- The server with its table of open files. `fd i` is the page `opentab[i].o_fd` and
`fdRef i` what `pageref` says of it. If `noMem` is set, `sys_page_alloc` fails. -/
structure Serv where
  fs : Fs
  opentab : Nat → OpenFile
  fd : Nat → Fd
  fdRef : Nat → Nat
  noMem : Bool
  fsreq : Image
  accesses : List (Nat × Nat)

abbrev ServM := Code String Serv

def onFs {α : Type} (m : FsM α) : ServM α := Code.zoom Serv.fs (fun s t => { s with fs := t }) m

/-- A function of the file system that uses the request region from `base` on as its buffer. -/
def onBuffer {α : Type} (base : Nat) (m : FsM α) : ServM α := do
  let before := (← Code.get).fs.moves.length
  let a ← onFs m
  Code.modify fun s =>
    { s with accesses := s.accesses ++ (s.fs.moves.drop before).map fun p => (base + p.1, p.2) }
  return a

def Serv.init (fs : Fs) : Serv where
  fs := fs
  opentab i := ⟨toWord i, none, if i = 0 then 1 else 0⟩
  fd _ := ⟨0, 0, 0, 0⟩
  fdRef _ := 0
  noMem := false
  fsreq _ := 0
  accesses := []

def access (a n : Nat) : ServM Unit :=
  Code.modify fun s => { s with accesses := s.accesses ++ [(a, n)] }

def reqWord (a : Nat) : ServM Word := do
  access a 4
  return word (← Code.get).fsreq a

/-- The copy of `req_path`, up to its terminating zero. -/
def reqPath : ServM (List Byte) := do
  access 0 maxpathlen
  let page := (← Code.get).fsreq
  return ((List.range (maxpathlen - 1)).map page).takeWhile (· != 0)

def storeReq (a n : Nat) (f : Nat → Byte) : ServM Unit := do
  access a n
  Code.modify fun s => { s with fsreq := setBytes s.fsreq a n f }

/-- A byte of the copy of a name, which may lie behind the request page. -/
def storeNameByte (i : Nat) (c : Byte) : ServM Unit := do
  if i < pgsize then
    storeReq i 1 fun _ => c
  else do
    access i 1
    onFs (storeBytes (i - pgsize) 1 fun _ => c)

def setOpenFile (i : Nat) (f : OpenFile → OpenFile) : ServM Unit :=
  Code.modify fun s => { s with opentab := update s.opentab i (f (s.opentab i)) }

def setFd (i : Nat) (f : Fd → Fd) : ServM Unit :=
  Code.modify fun s => { s with fd := update s.fd i (f (s.fd i)) }

/-- The loop of `openfile_alloc`: its result, and the index of the entry. -/
def openfileAllocFrom : Nat → Nat → ServM (Int × Nat)
  | 0, i => return (-eMaxOpen, i)
  | rounds + 1, i => do
    let s ← Code.get
    if s.fdRef i = 0 ∧ s.noMem then
      return (-eNoMem, i)
    else if s.fdRef i ≤ 1 then
      Code.modify fun s => { s with fdRef := update s.fdRef i 1 }
      setOpenFile i fun o => { o with oFileid := o.oFileid + toWord maxopen }
      setFd i fun _ => ⟨0, 0, 0, 0⟩
      return (((← Code.get).opentab i).oFileid.toInt, i)
    else
      openfileAllocFrom rounds (i + 1)

def openfileAlloc : ServM (Int × Nat) := openfileAllocFrom maxopen 0

def openfileLookup (fileid : Word) : ServM (Except Int Nat) := do
  let s ← Code.get
  let i := fileid.toNat % maxopen
  if s.fdRef i ≤ 1 ∨ (s.opentab i).oFileid ≠ fileid then
    return .error (-eInval)
  else
    return .ok i

/-- `o->o_file`, which is about to be dereferenced. -/
def openFile (i : Nat) : ServM Nat := do
  match ((← Code.get).opentab i).oFile with
  | some f => return f
  | none => Code.panic "page fault in FS"

/-- The file that `serve_open` is to open, which `file_create` makes if it is asked to. -/
def createOrOpen (path : List Byte) : ServM (Except Int Nat) := do
  if (← reqWord reqOmodeAt) &&& oCreat ≠ 0 then
    match ← onFs (fileCreate path) with
    | .ok f => return .ok f
    | .error r =>
      if (← reqWord reqOmodeAt) &&& oExcl = 0 ∧ r = -eFileExists then
        onFs (fileOpen path)
      else
        return .error r
  else
    onFs (fileOpen path)

/-- The end of `serve_open`: open the file and fill in the entry `o`. -/
def enterOpenFile (path : List Byte) (o : Nat) : ServM (Int × Option Nat) := do
  match ← onFs (fileOpen path) with
  | .error r => return (r, none)
  | .ok f =>
    setOpenFile o fun x => { x with oFile := some f }
    let id := ((← Code.get).opentab o).oFileid
    setFd o fun fd => { fd with fdFileId := id }
    let omode ← reqWord reqOmodeAt
    setFd o fun fd => { fd with fdOmode := omode &&& oAccmode }
    setFd o fun fd => { fd with fdDevId := devfileId }
    let omode ← reqWord reqOmodeAt
    setOpenFile o fun x => { x with oMode := omode }
    return (0, some o)

/-- The result of `serve_open`, and the entry whose page goes to the client. -/
def serveOpen : ServM (Int × Option Nat) := do
  let path ← reqPath
  let (r, o) ← openfileAlloc
  if r < 0 then
    return (r, none)
  else
    match ← createOrOpen path with
    | .error r => return (r, none)
    | .ok f =>
      if (← reqWord reqOmodeAt) &&& oTrunc ≠ 0 then
        let r ← onFs (fileSetSize f 0)
        if r < 0 then
          return (r, none)
      enterOpenFile path o

/-- The common start of the other handlers: look up the open file that the request names. -/
def withOpenFile (body : Nat → ServM Int) : ServM Int := do
  match ← openfileLookup (← reqWord reqFileidAt) with
  | .error r => return r
  | .ok o => body o

def serveSetSize : ServM Int := withOpenFile fun o => do
  let f ← openFile o
  let size ← reqWord reqSizeAt
  onFs (fileSetSize f size)

def serveRead : ServM Int := withOpenFile fun o => do
  let n ← reqWord reqNAt
  let count := if n.toNat ≤ pgsize then n else toWord pgsize
  let f ← openFile o
  let offset := ((← Code.get).fd o).fdOffset
  let (r, buf) ← onBuffer 0 (fileRead f count offset)
  Code.modify fun s => { s with fsreq := setBytes s.fsreq 0 buf.length fun i => buf.getD i 0 }
  if r < 0 then
    return r
  else do
    setFd o fun fd => { fd with fdOffset := fd.fdOffset + BitVec.ofInt 32 r }
    return r

def serveWrite : ServM Int := withOpenFile fun o => do
  let f ← openFile o
  let n ← reqWord reqNAt
  let s ← Code.get
  let r ← onBuffer reqBufAt (fileWrite f (.request s.fsreq) n (s.fd o).fdOffset)
  if r < 0 then
    return r
  else do
    setFd o fun fd => { fd with fdOffset := fd.fdOffset + BitVec.ofInt 32 r }
    return r

/-- `strcpy(ret->ret_name, f->f_name)` from the byte `i` on. A load behind the mapped disk
panics, so that the rounds suffice. -/
def copyName (f : Nat) : Nat → Nat → ServM Unit
  | 0, _ => return ()
  | rounds + 1, i => do
    let c ← onFs (load8 (f + i))
    storeNameByte i c
    if c ≠ 0 then
      copyName f rounds (i + 1)

def serveStat : ServM Int := withOpenFile fun o => do
  let f ← openFile o
  copyName f disksize 0
  let size ← onFs (loadWord (fSizeAt f))
  storeReq retSizeAt 4 (wordByte size)
  let type ← onFs (loadWord (fTypeAt f))
  storeReq retIsdirAt 4 (wordByte (if type = ftypeDir then 1 else 0))
  return 0

def serveFlush : ServM Int := withOpenFile fun o => do
  onFs (fileFlush (← openFile o))
  return 0

def serveSync : ServM Int := do
  onFs fsSync
  return 0

/-- The table of handlers. -/
def handlers (req : Word) : Option (ServM Int) :=
  if req = fsreqRead then some serveRead
  else if req = fsreqStat then some serveStat
  else if req = fsreqFlush then some serveFlush
  else if req = fsreqWrite then some serveWrite
  else if req = fsreqSetSize then some serveSetSize
  else if req = fsreqSync then some serveSync
  else none

/-- The answer to one request of `serve` with an argument page: the value that is sent, and
the entry whose page is sent with it. -/
def serveRequest (req : Word) : ServM (Int × Option Nat) :=
  if req = fsreqOpen then serveOpen
  else
    match handlers req with
    | some h => do return (← h, none)
    | none => return (-eInval, none)

end Jos
