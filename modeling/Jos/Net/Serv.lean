import Jos.Inc.Mmu
import Jos.Logic.Bytes

/-!
# The network server (`net/serv.c`)

`serve` takes a buffer for a request page, waits for a message and starts a thread; `serve_thread`
serves the request, answers and gives the buffer back. Threads switch only when one yields. Of a
request the model keeps what decides which memory it touches, and the memory handed to lwIP.
-/

namespace Jos

open Logic

inductive Nsreq where
  | accept
  | bind
  | shutdown
  | close
  | connect
  | listen
  | recv
  | send
  | socket
  | input
  | output
  | timer
  deriving DecidableEq, Repr

/-- The request codes, which are numbered from 1. -/
def Nsreq.ofWord (reqno : Word) : Option Nsreq :=
  [.accept, .bind, .shutdown, .close, .connect, .listen, .recv, .send, .socket, .input, .output,
    .timer][reqno.toNat - 1]?.filter fun _ => 0 < reqno.toNat

def queueSize : Nat := 20

def reqva : Nat := 0x0ffff000 - queueSize * pgsize

/-- The first entry of `buse` that is not set, its page, and the entries after it has been set;
without such an entry the server panics. -/
def getBuffer (buse : Nat → Bool) : Option (Nat × (Nat → Bool)) :=
  ((List.range queueSize).find? fun i => !buse i).map fun i =>
    (reqva + i * pgsize, Function.update buse i true)

def putBuffer (va : Nat) (buse : Nat → Bool) : Nat → Bool :=
  Function.update buse ((va - reqva) / pgsize) false

/-! ## The main thread and the threads that serve -/

structure StArgs where
  reqno : Word
  req : Nat
  deriving DecidableEq

/-- Where the main thread is: at the top of the loop of `serve`, where it yields, in
`ipc_recv`, in the `thread_yield` of `process_timer`, or it has panicked. -/
inductive ServePc where
  | loop
  | ipcRecv (va : Nat)
  | processTimer (va : Nat)
  | panicked
  deriving DecidableEq

/-- What `ipc_recv` returns, and whether the allocations that follow succeed. -/
structure NsMessage where
  reqno : Word
  whom : Word
  perm : Word
  argsOk : Bool
  threadOk : Bool
  deriving DecidableEq

/-- `threads` are the requests whose thread has not finished. -/
structure NetServ where
  timerEnvid : Word
  buse : Nat → Bool
  pc : ServePc
  threads : List StArgs

namespace NetServ

def start (timerEnvid : Word) : NetServ := ⟨timerEnvid, fun _ => false, .loop, []⟩

/-- `get_buffer`, and the call of `ipc_recv`. -/
def receive (s : NetServ) : NetServ :=
  match getBuffer s.buse with
  | none => { s with pc := .panicked }
  | some (va, buse) => { s with buse := buse, pc := .ipcRecv va }

/-- The round after `ipc_recv` has returned. -/
def handle (s : NetServ) (va : Nat) (m : NsMessage) : NetServ :=
  if Nsreq.ofWord m.reqno = some .timer then
    -- `process_timer` returns at once if the message is not from the timer environment
    if m.whom ≠ s.timerEnvid then
      { s with buse := putBuffer va s.buse, pc := .loop }
    else
      { s with pc := .processTimer va }
  else if present m.perm = false then
    { s with pc := .loop }
  else if m.argsOk = false then
    { s with pc := .panicked }
  else if m.threadOk = false then
    { s with pc := .loop }
  else
    { s with pc := .loop, threads := s.threads ++ [⟨m.reqno, va⟩] }

def finish (s : NetServ) (args : StArgs) : NetServ :=
  { s with buse := putBuffer args.req s.buse, threads := s.threads.erase args }

end NetServ

inductive NetMove where
  | receive
  | message (m : NsMessage)
  | timerDone
  | finish (args : StArgs)
  deriving DecidableEq

/-- A move that is not possible is `none`: no thread runs while the server waits. -/
def NetServ.move (s : NetServ) (mv : NetMove) : Option NetServ :=
  match mv, s.pc with
  | .receive, .loop => some s.receive
  | .message m, .ipcRecv va => some (s.handle va m)
  | .timerDone, .processTimer va => some { s with buse := putBuffer va s.buse, pc := .loop }
  | .finish args, .loop => if args ∈ s.threads then some (s.finish args) else none
  | .finish args, .processTimer _ => if args ∈ s.threads then some (s.finish args) else none
  | _, _ => none

/-! ## The memory that a request touches

A part of memory is a start address and a number of bytes; addresses are 32 bits wide. -/

abbrev MemPart := Nat × Nat

def lwipRecv (mem : Nat) (len : Word) : List MemPart := [(mem, len.toInt.toNat)]

def lwipSend (data : Nat) (size : Word) : List MemPart := [(data, size.toInt.toNat)]

/-- `sin_family`, `sin_addr` and `sin_port` of the name, which `lwip_bind` and `lwip_connect`
read. -/
def lwipName (name : Nat) : List MemPart := [(name + 1, 1), (name + 4, 4), (name + 2, 2)]

def pbufSize : Nat := 2000

/-- The sizes of the buffers in the chain that `pbuf_alloc` makes for `length` bytes. -/
def pbufLens : Nat → Nat → List Nat
  | 0, _ => []
  | fuel + 1, length =>
    min length pbufSize ::
      if 0 < length - pbufSize then pbufLens fuel (length - pbufSize) else []

/-- The loop of `low_level_input`: `memcpy` takes an unsigned number of bytes. -/
def copyChain (rxbuf : Nat) (len : Int) : Int → List Nat → List MemPart
  | _, [] => []
  | copied, q :: rest =>
    let bytes := if (q : Int) > len - copied then len - copied else q
    ((BitVec.ofInt 32 (rxbuf + copied)).toNat, (BitVec.ofInt 32 bytes).toNat) ::
      copyChain rxbuf len (copied + bytes) rest

/-- `jif_input` reads the length of the packet, which it stores in 16 bits, and copies the
packet if `pbuf_alloc` succeeds. -/
def jifInput (pbufOk : Bool) (m : Image) (pkt : Nat) : List MemPart :=
  let len : BitVec 16 := (word m pkt).setWidth 16
  (pkt, 4) ::
    if pbufOk then copyChain (pkt + 4) len.toInt 0 (pbufLens 33 len.toNat) else []

/-- The parts of memory that `serve_thread` reads or writes through `args->req`, in memory with
the contents `m`. -/
def serveThread (pbufOk : Bool) (m : Image) (args : StArgs) : List MemPart :=
  let req := args.req
  match Nsreq.ofWord args.reqno with
  | some .accept => [(req + 4, 4), (req, 4), (req, 20)]
  | some .bind => [(req, 4), (req + 20, 4)] ++ lwipName (req + 4)
  | some .shutdown => [(req, 4), (req + 4, 4)]
  | some .close => [(req, 4)]
  | some .connect => [(req, 4), (req + 20, 4)] ++ lwipName (req + 4)
  | some .listen => [(req, 4), (req + 4, 4)]
  | some .recv => [(req, 4), (req + 4, 4), (req + 8, 4)] ++ lwipRecv req (word m (req + 4))
  | some .send => [(req, 4), (req + 4, 4), (req + 8, 4)] ++ lwipSend (req + 12) (word m (req + 4))
  | some .socket => [(req, 4), (req + 4, 4), (req + 8, 4)]
  | some .input => jifInput pbufOk m req
  | _ => []

end Jos
