import Jos.Kern.Syscall
import Jos.Logic.Bytes

/-!
# The rings of the network card (`kern/e1000.c`)

Driver and card share a ring of descriptors without a lock, so the driver is a machine whose steps
access shared memory or a register at most once, in any order with the card. The `k`-th descriptor
that the card works on is in slot `k % N`, and its head register is the count of its advances.
`done` is a history variable with the calls that have returned.
-/

namespace Jos

open Logic Function

theorem ndesc_pos : 0 < ndesc := by decide

/-! ## Transmission -/

/-- `struct tx_desc`; the address is a distance from `tx_bufs`. -/
structure TxDescr where
  addr : Nat
  length : BitVec 16
  cmd : BitVec 8
  status : BitVec 8

def txCmdEop : BitVec 8 := 1
def txCmdRs : BitVec 8 := 4
def txStatusDd : BitVec 8 := 1

/-- The longest packet that `e1000_tx` takes, and the size of a buffer in `tx_bufs`. -/
def maxPacket : Nat := 1518
def txBufSize : Nat := 1520

/-- What the card has done: descriptors fetched, advances of `TDH`, packets transmitted, and the
transmitted packets for which it has not yet set `DD`. -/
structure TxDevice where
  fetched : Nat
  advanced : Nat
  sent : Nat
  writeBack : List Nat
  wire : List (List Byte)

/-- Places in `e1000_tx`. A value that has been loaded is part of the place. -/
inductive TxPc where
  | loadTdt
  | loadTdh (tdt : Word)
  | testDd (tdt : Word)
  | copy (tdt : Word) (k : Nat)
  | storeLength (tdt : Word)
  | loadCmd (tdt : Word)
  | storeCmd (tdt : Word) (cmd : BitVec 8)
  | loadStatus (tdt : Word)
  | storeStatus (tdt : Word) (status : BitVec 8)
  | storeTdt (tdt : Word)

/-- A call of `e1000_tx`, with the bytes at `buf` and the number of stores it has made. -/
structure TxCall where
  buf : Nat → Byte
  len : Word
  pc : TxPc
  stores : Nat

structure TxDone where
  buf : Nat → Byte
  len : Word
  result : Int
  stores : Nat

def packet (buf : Nat → Byte) (len : Word) : List Byte := (List.range len.toNat).map buf

structure TxRing where
  tdt : Word
  descs : Nat → TxDescr
  bufs : Image
  dev : TxDevice
  call : Option TxCall
  done : List TxDone

namespace TxRing

def init : TxRing where
  tdt := 0
  descs i := ⟨i * txBufSize, 0, 0, txStatusDd⟩
  bufs _ := 0
  dev := ⟨0, 0, 0, [], []⟩
  call := none
  done := []

def tdh (s : TxRing) : Word := toWord (s.dev.advanced % ndesc)

def bytesAt (s : TxRing) (i : Nat) : List Byte :=
  (List.range (s.descs i).length.toNat).map fun j => s.bufs ((s.descs i).addr + j)

/-- The packets for which `e1000_tx` has returned their length. -/
def accepted (s : TxRing) : List (List Byte) :=
  s.done.filterMap fun d => if d.result = d.len.toNat then some (packet d.buf d.len) else none

/-! ### The driver -/

def goto (s : TxRing) (c : TxCall) (pc : TxPc) : TxRing :=
  { s with call := some { c with pc := pc } }

def ret (s : TxRing) (c : TxCall) (r : Int) : TxRing :=
  { s with call := none, done := s.done ++ [⟨c.buf, c.len, r, c.stores⟩] }

def setDescr (s : TxRing) (i : Nat) (f : TxDescr → TxDescr) : TxRing :=
  { s with descs := update s.descs i (f (s.descs i)) }

def stored (c : TxCall) : TxCall := { c with stores := c.stores + 1 }

def beginTx (s : TxRing) (buf : Nat → Byte) (len : Word) : TxRing :=
  match s.call with
  | some _ => s
  | none =>
    if maxPacket < len.toNat then s.ret ⟨buf, len, .loadTdt, 0⟩ (-eInval)
    else { s with call := some ⟨buf, len, .loadTdt, 0⟩ }

def stepCall (s : TxRing) (c : TxCall) : TxRing :=
  match c.pc with
  | .loadTdt => s.goto c (.loadTdh s.tdt)
  | .loadTdh tdt =>
    if (tdt + 1).toNat % ndesc = s.tdh.toNat then s.ret c (-eAgain) else s.goto c (.testDd tdt)
  | .testDd tdt =>
    if (s.descs (tdt.toNat % ndesc)).status &&& txStatusDd = 0 then s.ret c (-eAgain)
    else s.goto c (.copy tdt 0)
  | .copy tdt k =>
    if k < c.len.toNat then
      { s with
        bufs := update s.bufs ((s.descs (tdt.toNat % ndesc)).addr + k) (c.buf k) }.goto
        (stored c) (.copy tdt (k + 1))
    else s.goto c (.storeLength tdt)
  | .storeLength tdt =>
    (s.setDescr (tdt.toNat % ndesc) fun d => { d with length := c.len.setWidth 16 }).goto (stored c)
      (.loadCmd tdt)
  | .loadCmd tdt => s.goto c (.storeCmd tdt (s.descs (tdt.toNat % ndesc)).cmd)
  | .storeCmd tdt cmd =>
    (s.setDescr (tdt.toNat % ndesc) fun d => { d with cmd := cmd ||| (txCmdRs ||| txCmdEop) }).goto
      (stored c) (.loadStatus tdt)
  | .loadStatus tdt => s.goto c (.storeStatus tdt (s.descs (tdt.toNat % ndesc)).status)
  | .storeStatus tdt status =>
    (s.setDescr (tdt.toNat % ndesc) fun d => { d with status := status &&& ~~~txStatusDd }).goto
      (stored c) (.storeTdt tdt)
  | .storeTdt tdt =>
    { s with tdt := toWord ((tdt + 1).toNat % ndesc) }.ret (stored c) c.len.toNat

/-! ### The card -/

def fetch (s : TxRing) : TxRing :=
  if s.tdh ≠ s.tdt ∧ s.dev.fetched = s.dev.advanced then
    { s with dev := { s.dev with fetched := s.dev.fetched + 1 } }
  else s

def advance (s : TxRing) : TxRing :=
  if s.dev.advanced < s.dev.fetched then
    { s with dev := { s.dev with advanced := s.dev.advanced + 1 } }
  else s

def transmit (s : TxRing) : TxRing :=
  if s.dev.sent < s.dev.fetched then
    { s with dev := { s.dev with
        sent := s.dev.sent + 1
        writeBack := s.dev.sent :: s.dev.writeBack
        wire := s.dev.wire ++ [s.bytesAt (s.dev.sent % ndesc)] } }
  else s

def setDd (s : TxRing) (k : Nat) : TxRing :=
  if k ∈ s.dev.writeBack then
    { s.setDescr (k % ndesc) fun d => { d with status := d.status ||| txStatusDd } with
      dev := { s.dev with writeBack := s.dev.writeBack.erase k } }
  else s

end TxRing

inductive TxMove where
  | begin (buf : Nat → Byte) (len : Word)
  | driver
  | fetch
  | advance
  | transmit
  | setDd (k : Nat)

def TxRing.move (s : TxRing) : TxMove → TxRing
  | .begin buf len => s.beginTx buf len
  | .driver =>
    match s.call with
    | none => s
    | some c => s.stepCall c
  | .fetch => s.fetch
  | .advance => s.advance
  | .transmit => s.transmit
  | .setDd k => s.setDd k

/-- The state after any interleaving. -/
def TxRing.run (s : TxRing) (moves : List TxMove) : TxRing := moves.foldl .move s

def TxRing.Drained (s : TxRing) : Prop := s.tdh = s.tdt ∧ s.dev.sent = s.dev.fetched

/-! ## Reception -/

structure RxDescr where
  addr : Nat
  length : BitVec 16
  status : BitVec 8

def rxStatusDd : BitVec 8 := 1

/-- `page_alloc(ALLOC_ZERO)` and `pp->pp_ref += 1`, which faults if there is no page. -/
def rxPage : PhysM Nat := do
  match ← pageAlloc allocZero with
  | none => Code.panic kernelFault
  | some pp =>
    incref pp
    return pp

/-- The loop of `e1000_rx_init` that fills `pptrs`. -/
def rxPages : Nat → PhysM (List Nat)
  | 0 => return []
  | n + 1 => do
    let pp ← rxPage
    return pp :: (← rxPages n)

/-- The pages of `e1000_rx_init`: one for the descriptors, and `pptrs` for the buffers. -/
def e1000RxInit : PhysM (List Nat) := do
  let _ ← rxPage
  rxPages (ndesc / 2)

/-- The address in descriptor `i`: two buffers to a page. -/
def rxBuf (pptrs : List Nat) (i : Nat) : Nat := pptrs.getD (i / 2) 0 * 4096 + i % 2 * 4096 / 2

/-- What `e1000_rx_init` leaves in `pptrs`. -/
structure RxPages where
  pptrs : List Nat
  length : pptrs.length = ndesc / 2
  nodup : pptrs.Nodup

abbrev Incoming := { p : List Byte // p.length ≤ maxPacket }

/-- Places of the card while it stores a packet. -/
inductive RxDevPc where
  | idle
  | write (p : Incoming) (k : Nat)
  | setLength (p : Incoming)
  | setDd (p : Incoming)
  | advance

/-- What the card has done: advances of `RDH`, its place, and the packets for which it has set
`DD`. -/
structure RxDevice where
  advanced : Nat
  pc : RxDevPc
  stored : List (List Byte)

/-- Places in `e1000_rx`. -/
inductive RxPc where
  | loadRdt
  | testDd (rdt : Nat)
  | loadLength (rdt : Nat)
  | copy (rdt len k : Nat)
  | storeStatus (rdt len : Nat)
  | storeRdt (rdt len : Nat)

/-- A call of `e1000_rx`, with the bytes at `buf`. -/
structure RxCall where
  buf : Image
  pc : RxPc

structure RxDone where
  buf : Image
  result : Int

structure RxRing where
  rdt : Word
  descs : Nat → RxDescr
  bufs : Image
  dev : RxDevice
  call : Option RxCall
  done : List RxDone

namespace RxRing

def init (pptrs : List Nat) : RxRing where
  rdt := toWord (ndesc - 1)
  descs i := ⟨rxBuf pptrs i, 0, 0⟩
  bufs _ := 0
  dev := ⟨0, .idle, []⟩
  call := none
  done := []

def rdh (s : RxRing) : Word := toWord (s.dev.advanced % ndesc)

/-- The packets that `e1000_rx` has returned: as many bytes at `buf` as its result says. -/
def returned (s : RxRing) : List (List Byte) :=
  s.done.filterMap fun d =>
    if 0 ≤ d.result then some ((List.range d.result.toNat).map d.buf) else none

/-! ### The driver -/

def goto (s : RxRing) (c : RxCall) (pc : RxPc) : RxRing :=
  { s with call := some { c with pc := pc } }

def ret (s : RxRing) (buf : Image) (r : Int) : RxRing :=
  { s with call := none, done := s.done ++ [⟨buf, r⟩] }

def setDescr (s : RxRing) (i : Nat) (f : RxDescr → RxDescr) : RxRing :=
  { s with descs := update s.descs i (f (s.descs i)) }

/-- `e1000_rx(buf, len)` is called; `none` is the null pointer. `len` is overwritten before it is
read. -/
def beginRx (s : RxRing) (buf : Option Image) : RxRing :=
  match s.call, buf with
  | some _, _ => s
  | none, none => s.ret (fun _ => 0) (-eInval)
  | none, some buf => { s with call := some ⟨buf, .loadRdt⟩ }

def stepCall (s : RxRing) (c : RxCall) : RxRing :=
  match c.pc with
  | .loadRdt => s.goto c (.testDd ((s.rdt + 1).toNat % ndesc))
  | .testDd rdt =>
    if (s.descs rdt).status &&& rxStatusDd = 0 then s.ret c.buf (-eAgain)
    else s.goto c (.loadLength rdt)
  | .loadLength rdt => s.goto c (.copy rdt (min (s.descs rdt).length.toNat maxPacket) 0)
  | .copy rdt len k =>
    if k < len then
      s.goto { c with buf := update c.buf k (s.bufs ((s.descs rdt).addr + k)) }
        (.copy rdt len (k + 1))
    else s.goto c (.storeStatus rdt len)
  | .storeStatus rdt len =>
    (s.setDescr rdt fun d => { d with status := 0 }).goto c (.storeRdt rdt len)
  | .storeRdt rdt len => { s with rdt := toWord rdt }.ret c.buf len

/-! ### The card -/

/-- A packet arrives. It is dropped while there is no descriptor for it. -/
def arrive (s : RxRing) (p : Incoming) : RxRing :=
  match s.dev.pc with
  | .idle => if s.rdh ≠ s.rdt then { s with dev := { s.dev with pc := .write p 0 } } else s
  | _ => s

/-- The next step of the card with a packet. -/
def stepCard (s : RxRing) : RxRing :=
  let slot := s.dev.advanced % ndesc
  match s.dev.pc with
  | .idle => s
  | .write p k =>
    if k < p.val.length then
      { s with
        bufs := update s.bufs ((s.descs slot).addr + k) (p.val.getD k 0)
        dev := { s.dev with pc := .write p (k + 1) } }
    else { s with dev := { s.dev with pc := .setLength p } }
  | .setLength p =>
    { s.setDescr slot fun d => { d with length := BitVec.ofNat 16 p.val.length } with
      dev := { s.dev with pc := .setDd p } }
  | .setDd p =>
    { s.setDescr slot fun d => { d with status := d.status ||| rxStatusDd } with
      dev := { s.dev with pc := .advance, stored := s.dev.stored ++ [p.val] } }
  | .advance => { s with dev := { s.dev with pc := .idle, advanced := s.dev.advanced + 1 } }

end RxRing

inductive RxMove where
  | begin (buf : Option Image)
  | driver
  | arrive (p : Incoming)
  | card

def RxRing.move (s : RxRing) : RxMove → RxRing
  | .begin buf => s.beginRx buf
  | .driver =>
    match s.call with
    | none => s
    | some c => s.stepCall c
  | .arrive p => s.arrive p
  | .card => s.stepCard

def RxRing.run (s : RxRing) (moves : List RxMove) : RxRing := moves.foldl .move s

/-- The moves of the driver and its callers. -/
def RxMove.byDriver : RxMove → Bool
  | .begin _ | .driver => true
  | .arrive _ | .card => false

/-- The descriptor whose contents the driver is about to read or to clear, after it has found `DD`
set there. -/
def RxRing.inUse (s : RxRing) : Option Nat :=
  match s.call with
  | none => none
  | some c =>
    match c.pc with
    | .loadRdt | .testDd _ | .storeRdt _ _ => none
    | .loadLength rdt | .copy rdt _ _ | .storeStatus rdt _ => some rdt

/-- The descriptor that the card is writing. -/
def RxRing.writing (s : RxRing) : Option Nat :=
  match s.dev.pc with
  | .idle | .advance => none
  | .write _ _ | .setLength _ | .setDd _ => some (s.dev.advanced % ndesc)

/-- The card alone may come to write the descriptor. -/
def RxRing.MayWrite (s : RxRing) (i : Nat) : Prop :=
  ∃ moves : List RxMove, (∀ m ∈ moves, m.byDriver = false) ∧ (s.run moves).writing = some i

end Jos
