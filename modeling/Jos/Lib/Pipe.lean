import Jos.Inc.Mmu
import Jos.Logic.Bytes

/-!
# Reading and writing a pipe (`lib/pipe.c`)

`devpipe_read` and `devpipe_write` run in two environments without a lock, so each is a machine
whose steps access the shared page at most once. A value that has been loaded is part of the place.
What `_pipeisclosed` answers is an input.
-/

namespace Jos

open Logic

def pipebufsiz : Nat := 32

structure Pipe where
  pRpos : Word
  pWpos : Word
  /-- The bytes from `p_buf` on. An `off_t` is signed, and so is its remainder. -/
  pBuf : Int → Byte

def Pipe.fresh : Pipe := { pRpos := 0, pWpos := 0, pBuf := fun _ => 0 }

/-- `pos % PIPEBUFSIZ` -/
def bufIndex (pos : Word) : Int := pos.toInt.tmod pipebufsiz

/-! ## devpipe_read -/

/-- Places in `devpipe_read`. -/
inductive ReadPc where
  /-- The test of `i < n`. -/
  | loop
  /-- In the test of the `while`, before and after the load of `p_rpos`. -/
  | testRpos
  | testWpos (rpos : Word)
  /-- The pipe is empty. -/
  | empty
  /-- In `buf[i] = p->p_buf[p->p_rpos % PIPEBUFSIZ]`. -/
  | takeRpos
  | takeByte (rpos : Word)
  /-- In `p->p_rpos++`. -/
  | incrLoad
  | incrStore (rpos : Word)
  deriving DecidableEq, Repr

/-- A call of `devpipe_read`; `buf` has what has been stored in the buffer so far. -/
structure ReadCall where
  n : Nat
  i : Nat
  buf : List Byte
  pc : ReadPc
  deriving DecidableEq, Repr

/-- After a step, the call goes on or returns the bytes to its caller. -/
abbrev ReadNext := ReadCall ⊕ List Byte

def devpipeReadStep (closed : Bool) (p : Pipe) (c : ReadCall) : Pipe × ReadNext :=
  match c.pc with
  | .loop => if c.i < c.n then (p, .inl { c with pc := .testRpos }) else (p, .inr (c.buf.take c.i))
  | .testRpos => (p, .inl { c with pc := .testWpos p.pRpos })
  | .testWpos rpos =>
    (p, .inl { c with pc := if rpos = p.pWpos then .empty else .takeRpos })
  | .empty =>
    if 0 < c.i then (p, .inr (c.buf.take c.i))
    else if closed then (p, .inr [])
    else (p, .inl { c with pc := .testRpos })
  | .takeRpos => (p, .inl { c with pc := .takeByte p.pRpos })
  | .takeByte rpos =>
    (p, .inl { c with buf := c.buf ++ [p.pBuf (bufIndex rpos)], pc := .incrLoad })
  | .incrLoad => (p, .inl { c with pc := .incrStore p.pRpos })
  | .incrStore rpos => ({ p with pRpos := rpos + 1 }, .inl { c with i := c.i + 1, pc := .loop })

/-! ## devpipe_write -/

/-- Places in `devpipe_write`. -/
inductive WritePc where
  | loop
  | testWpos
  | testRpos (wpos : Word)
  /-- The pipe is full. -/
  | full
  /-- In `p->p_buf[p->p_wpos % PIPEBUFSIZ] = buf[i]`. -/
  | putWpos
  | putByte (wpos : Word)
  /-- In `p->p_wpos++`. -/
  | incrLoad
  | incrStore (wpos : Word)
  deriving DecidableEq, Repr

structure WriteCall where
  buf : List Byte
  i : Nat
  pc : WritePc
  deriving DecidableEq, Repr

/-- The bytes that the call has stored in the pipe. -/
def WriteCall.stored (c : WriteCall) : List Byte :=
  match c.pc with
  | .incrLoad | .incrStore _ => c.buf.take (c.i + 1)
  | _ => c.buf.take c.i

abbrev WriteNext := WriteCall ⊕ Unit

def devpipeWriteStep (closed : Bool) (p : Pipe) (c : WriteCall) : Pipe × WriteNext :=
  match c.pc with
  | .loop =>
    if c.i < c.buf.length then (p, .inl { c with pc := .testWpos }) else (p, .inr ())
  | .testWpos => (p, .inl { c with pc := .testRpos p.pWpos })
  -- `sizeof` is unsigned, and so are the sum and the comparison
  | .testRpos wpos =>
    (p, .inl { c with
      pc := if (p.pRpos + toWord pipebufsiz).toNat ≤ wpos.toNat then .full
        else .putWpos })
  | .full => if closed then (p, .inr ()) else (p, .inl { c with pc := .testWpos })
  | .putWpos => (p, .inl { c with pc := .putByte p.pWpos })
  | .putByte wpos =>
    ({ p with pBuf := Function.update p.pBuf (bufIndex wpos) (c.buf.getD c.i 0) },
      .inl { c with pc := .incrLoad })
  | .incrLoad => (p, .inl { c with pc := .incrStore p.pWpos })
  | .incrStore wpos => ({ p with pWpos := wpos + 1 }, .inl { c with i := c.i + 1, pc := .loop })

/-! ## One reader and one writer -/

/-- A reader and a writer of one pipe, each in a call or between calls. `returned` has what
the calls of the reader have returned, and `written` what those of the writer have stored. -/
structure PipeUsers where
  pipe : Pipe
  read : Option ReadCall
  write : Option WriteCall
  returned : List (List Byte)
  written : List (List Byte)

def PipeUsers.fresh : PipeUsers := ⟨.fresh, none, none, [], []⟩

/-- What may happen next: a call begins, or a call takes a step. -/
inductive PipeMove where
  | beginRead (n : Nat)
  | stepRead (closed : Bool)
  | beginWrite (buf : List Byte)
  | stepWrite (closed : Bool)
  deriving DecidableEq, Repr

def PipeUsers.move (s : PipeUsers) : PipeMove → PipeUsers
  | .beginRead n =>
    match s.read with
    | none => { s with read := some ⟨n, 0, [], .loop⟩ }
    | some _ => s
  | .stepRead closed =>
    match s.read with
    | none => s
    | some c =>
      match devpipeReadStep closed s.pipe c with
      | (p, .inl c') => { s with pipe := p, read := some c' }
      | (p, .inr bytes) =>
        { s with pipe := p, read := none, returned := s.returned ++ [bytes] }
  | .beginWrite buf =>
    match s.write with
    | none => { s with write := some ⟨buf, 0, .loop⟩ }
    | some _ => s
  | .stepWrite closed =>
    match s.write with
    | none => s
    | some c =>
      match devpipeWriteStep closed s.pipe c with
      | (p, .inl c') => { s with pipe := p, write := some c' }
      | (p, .inr ()) =>
        { s with pipe := p, write := none, written := s.written ++ [c.stored] }

def PipeUsers.run (s : PipeUsers) (moves : List PipeMove) : PipeUsers := moves.foldl .move s

def PipeUsers.stored (s : PipeUsers) : List Byte :=
  s.written.flatten ++ (s.write.map WriteCall.stored).getD []

def PipeUsers.delivered (s : PipeUsers) : List Byte :=
  s.returned.flatten ++ (s.read.map ReadCall.buf).getD []

end Jos
