import Mathlib.Data.Finset.Basic
import Jos.Logic.Bytes

/-!
# The request parser of the web server (`user/httpd.c`)

`handle_client` reads at most `BUFFSIZE` bytes into a buffer on its stack and passes it on without a
length. The parser sees memory from there on: the bytes received, and what lies behind.
-/

namespace Jos

open Logic

/-- How `http_request_parse` ends, and the number of bytes that it has read by then: it reads the
request from the start on. It faults where `malloc` has returned a null pointer. -/
inductive Parsed where
  | badReq (reads : Nat)
  | fault (reads : Nat)
  | ok (reads : Nat) (url version : List Byte)
  deriving DecidableEq

/-- `strncmp(p, q, n) == 0` from the byte with index `i` on, and the number of bytes of `p` read. -/
def strncmp (p q : Image) : Nat → Nat → Bool × Nat
  | 0, i => (true, i)
  | n + 1, i =>
    if p i ≠ 0 ∧ p i = q i then strncmp p q n (i + 1) else (p i == q i, i + 1)

/-- The loop `while (*request && *request != c) request++`. -/
def skipTo (c : Byte) (p : Image) : Nat → Nat → Option Nat
  | 0, _ => none
  | fuel + 1, i => if p i ≠ 0 ∧ p i ≠ c then skipTo c p fuel (i + 1) else some i

def reqBytes (p : Image) (i j : Nat) : List Byte := (List.range' i (j - i)).map p

def space : Byte := 32

def newline : Byte := 10

def get (i : Nat) : Byte := [71, 69, 84, space].getD i 0

/-- `malloc1` and `malloc2` say whether the two calls of `malloc` succeed. -/
def httpRequestParse (p : Image) (malloc1 malloc2 : Bool) (fuel : Nat) : Option Parsed :=
  match strncmp p get 4 0 with
  | (false, n) => some (.badReq n)
  | (true, _) => do
    let i ← skipTo space p fuel 4
    if malloc1 = false then return .fault (i + 1)
    let j ← skipTo newline p fuel (i + 1)
    if malloc2 = false then return .fault (j + 1)
    return .ok (j + 1) (reqBytes p 4 i) (reqBytes p (i + 1) j)

/-! ## Descriptors -/

/-- What the calls in `send_file` return. The descriptor of `open` is one that is not in use. -/
structure Calls (fds : Finset Nat) where
  openFd : Option Nat
  /-- Whether the file is a directory, or the error. -/
  fstat : Except Int Bool
  sendHeader : Int
  sendSize : Int
  sendContentType : Int
  sendHeaderFin : Int
  sendData : Int
  unused : ∀ fd, openFd = some fd → fd ∉ fds

/-- The result and the open descriptors afterwards. -/
def sendFile (fds : Finset Nat) (calls : Calls fds) : Int × Finset Nat :=
  match calls.openFd with
  | none => (0, fds)
  | some fd =>
    match calls.fstat with
    | .error r => (r, (insert fd fds).erase fd)
    | .ok true => (0, insert fd fds)
    | .ok false =>
      let sent := [calls.sendHeader, calls.sendSize, calls.sendContentType, calls.sendHeaderFin]
      ((sent.find? (· < 0)).getD calls.sendData, (insert fd fds).erase fd)

/-- What `handle_client` does once it has read into `buffer`: the open descriptors afterwards. There
is no result if the parser does not end or faults. -/
def handleClient (sock : Nat) (buffer : Image) (malloc1 malloc2 : Bool) (fuel : Nat)
    (fds : Finset Nat) (calls : Calls fds) : Option (Finset Nat) := do
  match ← httpRequestParse buffer malloc1 malloc2 fuel with
  | .badReq _ => return fds.erase sock
  | .fault _ => none
  | .ok _ _ _ => return (sendFile fds calls).2.erase sock

end Jos
