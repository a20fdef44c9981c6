import Mathlib.Data.List.Induction
import Jos.Logic.Ring
import Jos.Lib.Pipe

/-!
# A pipe is a queue

Each position is changed by one party, after the byte that the change is about. Each machine keeps
what it has learned from its test: the other can only make more bytes, or more room. So every
interleaving keeps `Fifo` until 2^31 bytes have been written.
-/

namespace Jos

open Logic Function BitVec List

variable {p : Pipe} {sent got : List Byte} {a b : Nat} {x : Byte} {bytes : List Byte} {c : ReadCall}
  {old : List Byte} {p' : Pipe} {returned written : List (List Byte)}

theorem bufIndex_eq {pos : Word} (h : pos.toNat < 2 ^ 31) :
    bufIndex pos = ((pos.toNat % pipebufsiz : Nat) : Int) := by
  have hint : pos.toInt = (pos.toNat : Int) := by
    rw [toInt_eq_toNat_cond, if_pos (by omega)]
  rw [bufIndex, hint, Int.tmod_eq_emod_of_nonneg (Int.natCast_nonneg _), Int.natCast_mod]

theorem toNat_succ {w : Word} (h : w.toNat + 1 < 2 ^ 32) : (w + 1).toNat = w.toNat + 1 := by
  bv_omega

/-- The page holds the last bytes of `sent`, of which the reader has got `got`. The reader is
`a` bytes ahead of `p_rpos`, and the writer `b` bytes ahead of `p_wpos`. -/
structure Fifo (p : Pipe) (sent got : List Byte) (a b : Nat) : Prop where
  few : sent.length < 2 ^ 31
  readPos : got.length = p.pRpos.toNat + a
  writePos : sent.length = p.pWpos.toNat + b
  readable : got.length ≤ p.pWpos.toNat
  room : sent.length ≤ p.pRpos.toNat + pipebufsiz
  same : got <+: sent
  cells : RingHolds pipebufsiz (fun j => p.pBuf j) p.pRpos.toNat sent

theorem Fifo.fresh : Fifo .fresh [] [] 0 0 where
  few := by decide
  readPos := rfl
  writePos := rfl
  readable := le_refl 0
  room := Nat.zero_le _
  same := prefix_refl []
  cells := .nil

namespace Fifo

theorem takeByte (h : Fifo p sent got 0 b) (hsome : p.pRpos.toNat < p.pWpos.toNat) :
    Fifo p sent (got ++ [p.pBuf (bufIndex p.pRpos)]) 1 b := by
  have hfew := h.few
  have hread : got.length = p.pRpos.toNat := h.readPos
  have hwrite := h.writePos
  have hsame : got ++ [p.pBuf (bufIndex p.pRpos)] <+: sent := by
    obtain ⟨rest, hrest⟩ := h.same
    cases rest with
    | nil =>
      have hlen : got.length = sent.length := by rw [← hrest, List.append_nil]
      omega
    | cons y rest =>
      have hbyte : p.pBuf (bufIndex p.pRpos) = y := by
        rw [bufIndex_eq (by omega)]
        refine h.cells _ y (Nat.le_refl _) ?_
        rw [← hread, ← hrest, List.getElem?_append_right (Nat.le_refl _), Nat.sub_self]
        rfl
      rw [hbyte, ← hrest]
      exact ⟨rest, by simp⟩
  refine { h with readPos := ?_, readable := ?_, same := hsame }
  · rw [List.length_append, hread]
    rfl
  · rw [List.length_append, hread]
    exact hsome

theorem incrRpos (h : Fifo p sent got 1 b) : Fifo { p with pRpos := p.pRpos + 1 } sent got 0 b := by
  have hread := h.readPos
  have hpos : (p.pRpos + 1).toNat = p.pRpos.toNat + 1 := by
    have hle := h.same.length_le
    have hfew := h.few
    exact toNat_succ (by omega)
  have hroom := h.room
  refine { h with readPos := ?_, room := ?_, cells := ?_ }
  · exact hread.trans hpos.symm
  · rw [hpos]
    omega
  · rw [hpos]
    exact h.cells.mono (Nat.le_succ _)

theorem putByte (h : Fifo p sent got a 0) (hfew : sent.length + 1 < 2 ^ 31)
    (hroom : p.pWpos.toNat < p.pRpos.toNat + pipebufsiz) :
    Fifo { p with pBuf := update p.pBuf (bufIndex p.pWpos) x } (sent ++ [x]) got a 1 := by
  have hwrite : sent.length = p.pWpos.toNat := h.writePos
  have hindex : bufIndex p.pWpos = ((sent.length % pipebufsiz : Nat) : Int) := by
    rw [bufIndex_eq (by omega), hwrite]
  have hlen : (sent ++ [x]).length = sent.length + 1 := length_append
  constructor
  · rw [hlen]
    exact hfew
  · exact h.readPos
  · rw [hlen, hwrite]
  · exact h.readable
  · rw [hlen, hwrite]
    exact hroom
  · exact h.same.trans (prefix_append _ _)
  · apply h.cells.push
    · omega
    · simp only [hindex, update_self]
    · intro i hi
      rw [hindex]
      apply update_of_ne
      omega

theorem incrWpos (h : Fifo p sent got a 1) : Fifo { p with pWpos := p.pWpos + 1 } sent got a 0 := by
  have hwrite := h.writePos
  have hpos : (p.pWpos + 1).toNat = p.pWpos.toNat + 1 := by
    have hfew := h.few
    exact toNat_succ (by omega)
  have hread := h.readable
  refine { h with writePos := ?_, readable := ?_ }
  · exact hwrite.trans hpos.symm
  · rw [hpos]
    omega

end Fifo

/-- How many bytes the call has copied and not counted in `p_rpos`. -/
def ReadPc.ahead : ReadPc → Nat
  | .incrLoad | .incrStore _ => 1
  | _ => 0

/-- What the reader knows at each place: its copy of `p_rpos` is right, and there is a byte
once the test has found one. -/
def ReadPc.Knows (p : Pipe) : ReadPc → Prop
  | .loop | .testRpos | .empty => True
  | .testWpos rpos => rpos = p.pRpos
  | .takeRpos | .incrLoad => p.pRpos.toNat < p.pWpos.toNat
  | .takeByte rpos | .incrStore rpos => rpos = p.pRpos ∧ p.pRpos.toNat < p.pWpos.toNat

structure ReadCall.Ok (p : Pipe) (c : ReadCall) : Prop where
  length : c.buf.length = c.i + c.pc.ahead
  knows : c.pc.Knows p

theorem ReadCall.Ok.buf_eq (h : c.Ok p) (hpc : c.pc.ahead = 0) : c.buf = c.buf.take c.i := by
  apply (take_of_length_le _).symm
  rw [h.length, hpc, Nat.add_zero]

def WritePc.ahead : WritePc → Nat
  | .incrLoad | .incrStore _ => 1
  | _ => 0

/-- What the writer knows at each place. -/
def WritePc.Knows (p : Pipe) : WritePc → Prop
  | .loop | .testWpos | .full => True
  | .testRpos wpos => wpos = p.pWpos
  | .putWpos | .incrLoad => p.pWpos.toNat < p.pRpos.toNat + pipebufsiz
  | .putByte wpos | .incrStore wpos =>
    wpos = p.pWpos ∧ p.pWpos.toNat < p.pRpos.toNat + pipebufsiz

structure WriteCall.Ok (p : Pipe) (c : WriteCall) : Prop where
  byte : c.pc ≠ .loop → c.i < c.buf.length
  knows : c.pc.Knows p

theorem ReadCall.Ok.later (h : c.Ok p) (hr : p'.pRpos = p.pRpos)
    (hw : p.pWpos.toNat ≤ p'.pWpos.toNat) : c.Ok p' := by
  refine ⟨h.length, ?_⟩
  have hk := h.knows
  cases hpc : c.pc with
  | loop | testRpos | empty => trivial
  | testWpos rpos =>
    rw [hpc] at hk
    exact hk.trans hr.symm
  | takeRpos | incrLoad =>
    rw [hpc] at hk
    change p'.pRpos.toNat < _
    rw [hr]
    exact lt_of_lt_of_le hk hw
  | takeByte rpos | incrStore rpos =>
    rw [hpc] at hk
    refine ⟨hk.1.trans hr.symm, ?_⟩
    rw [hr]
    exact lt_of_lt_of_le hk.2 hw

theorem WriteCall.Ok.later {c : WriteCall} (h : c.Ok p) (hw : p'.pWpos = p.pWpos)
    (hr : p.pRpos.toNat ≤ p'.pRpos.toNat) : c.Ok p' := by
  refine ⟨h.byte, ?_⟩
  have hk := h.knows
  have hle : p.pRpos.toNat + pipebufsiz ≤ p'.pRpos.toNat + pipebufsiz := Nat.add_le_add_right hr _
  cases hpc : c.pc with
  | loop | testWpos | full => trivial
  | testRpos wpos =>
    rw [hpc] at hk
    exact hk.trans hw.symm
  | putWpos | incrLoad =>
    rw [hpc] at hk
    change p'.pWpos.toNat < _
    rw [hw]
    exact lt_of_lt_of_le hk hle
  | putByte wpos | incrStore wpos =>
    rw [hpc] at hk
    refine ⟨hk.1.trans hw.symm, ?_⟩
    rw [hw]
    exact lt_of_lt_of_le hk.2 hle

/-- What a step of the reader leaves, for the bytes `old` of the calls before. -/
def ReadGood (p : Pipe) (sent old : List Byte) (b : Nat) : ReadNext → Prop
  | .inl c => c.Ok p ∧ Fifo p sent (old ++ c.buf) c.pc.ahead b
  | .inr bytes => Fifo p sent (old ++ bytes) 0 b

/-- What a step of the writer leaves. -/
def WriteGood (p : Pipe) (old got : List Byte) (a : Nat) (c : WriteCall) : WriteNext → Prop
  | .inl c' => c'.Ok p ∧ (old.length + c'.stored.length < 2 ^ 31 →
      Fifo p (old ++ c'.stored) got a c'.pc.ahead)
  | .inr () => Fifo p (old ++ c.stored) got a 0

theorem devpipeReadStep_good (closed : Bool) (hc : c.Ok p)
    (h : Fifo p sent (old ++ c.buf) c.pc.ahead b) :
    ∃ p' next, devpipeReadStep closed p c = (p', next) ∧ p'.pWpos = p.pWpos ∧
      p.pRpos.toNat ≤ p'.pRpos.toNat ∧ ReadGood p' sent old b next := by
  obtain ⟨n, i, buf, pc⟩ := c
  have hlen := hc.length
  have hknows := hc.knows
  cases pc with
  | loop =>
    by_cases hi : i < n
    · exact ⟨p, _, if_pos hi, rfl, le_rfl, ⟨hlen, trivial⟩, h⟩
    · refine ⟨p, _, if_neg hi, rfl, le_rfl, ?_⟩
      exact hc.buf_eq rfl ▸ h
  | testRpos => exact ⟨p, _, rfl, rfl, le_rfl, ⟨hlen, rfl⟩, h⟩
  | testWpos rpos =>
    refine ⟨p, _, rfl, rfl, le_rfl, ?_⟩
    by_cases hpos : rpos = p.pWpos
    · rw [if_pos hpos]
      exact ⟨⟨hlen, trivial⟩, h⟩
    · -- the positions differ, and `p_rpos` is not ahead
      have hlt : p.pRpos.toNat < p.pWpos.toNat := by
        have hread := h.readPos
        have hle := h.readable
        have hne : p.pRpos.toNat ≠ p.pWpos.toNat := fun heq =>
          hpos (hknows.trans (BitVec.eq_of_toNat_eq heq))
        omega
      rw [if_neg hpos]
      exact ⟨⟨hlen, hlt⟩, h⟩
  | empty =>
    by_cases hi : 0 < i
    · refine ⟨p, _, if_pos hi, rfl, le_rfl, ?_⟩
      exact hc.buf_eq rfl ▸ h
    · cases closed with
      | true =>
        refine ⟨p, _, if_neg hi, rfl, le_rfl, ?_⟩
        have hbuf : buf = [] := by
          apply List.eq_nil_of_length_eq_zero
          have : buf.length = i := hlen
          omega
        rw [hbuf] at h
        exact h
      | false => exact ⟨p, _, if_neg hi, rfl, le_rfl, ⟨hlen, trivial⟩, h⟩
  | takeRpos => exact ⟨p, _, rfl, rfl, le_rfl, ⟨hlen, rfl, hknows⟩, h⟩
  | takeByte rpos =>
    obtain ⟨rfl, hlt⟩ := hknows
    refine ⟨p, _, rfl, rfl, le_rfl, ⟨?_, hlt⟩, ?_⟩
    · rw [List.length_append, hlen]
      rfl
    · rw [← List.append_assoc]
      exact h.takeByte hlt
  | incrLoad => exact ⟨p, _, rfl, rfl, le_rfl, ⟨hlen, rfl, hknows⟩, h⟩
  | incrStore rpos =>
    obtain ⟨rfl, hlt⟩ := hknows
    have hnext := h.incrRpos
    refine ⟨_, _, rfl, rfl, ?_, ⟨hlen, trivial⟩, hnext⟩
    have hread := h.readPos
    have hread' := hnext.readPos
    change (old ++ buf).length = (p.pRpos + 1).toNat at hread'
    change (old ++ buf).length = p.pRpos.toNat + 1 at hread
    change p.pRpos.toNat ≤ (p.pRpos + 1).toNat
    omega

theorem devpipeWriteStep_good {c : WriteCall} (closed : Bool) (hc : c.Ok p)
    (h : Fifo p (old ++ c.stored) got a c.pc.ahead) :
    ∃ p' next, devpipeWriteStep closed p c = (p', next) ∧ p'.pRpos = p.pRpos ∧
      p.pWpos.toNat ≤ p'.pWpos.toNat ∧ WriteGood p' old got a c next := by
  obtain ⟨buf, i, pc⟩ := c
  have hbyte := hc.byte
  have hknows := hc.knows
  cases pc with
  | loop =>
    by_cases hi : i < buf.length
    · exact ⟨p, _, if_pos hi, rfl, le_rfl, ⟨fun _ => hi, trivial⟩, fun _ => h⟩
    · exact ⟨p, _, if_neg hi, rfl, le_rfl, h⟩
  | testWpos => exact ⟨p, _, rfl, rfl, le_rfl, ⟨fun _ => hbyte nofun, rfl⟩, fun _ => h⟩
  | testRpos wpos =>
    have hi := hbyte nofun
    refine ⟨p, _, rfl, rfl, le_rfl, ?_⟩
    by_cases hpos : (p.pRpos + toWord pipebufsiz).toNat ≤ wpos.toNat
    · rw [if_pos hpos]
      exact ⟨⟨fun _ => hi, trivial⟩, fun _ => h⟩
    · -- the sum does not overflow, since `p_rpos` is at most the number of bytes written
      have hlt : p.pWpos.toNat < p.pRpos.toNat + pipebufsiz := by
        obtain rfl : wpos = p.pWpos := hknows
        have hread := h.readPos
        have hle := h.same.length_le
        have hfew := h.few
        unfold pipebufsiz at hpos ⊢
        bv_omega
      rw [if_neg hpos]
      exact ⟨⟨fun _ => hi, hlt⟩, fun _ => h⟩
  | full =>
    cases closed with
    | true => exact ⟨p, _, rfl, rfl, le_rfl, h⟩
    | false => exact ⟨p, _, rfl, rfl, le_rfl, ⟨fun _ => hbyte nofun, trivial⟩, fun _ => h⟩
  | putWpos => exact ⟨p, _, rfl, rfl, le_rfl, ⟨fun _ => hbyte nofun, rfl, hknows⟩, fun _ => h⟩
  | putByte wpos =>
    obtain ⟨rfl, hlt⟩ := hknows
    have hi : i < buf.length := hbyte nofun
    have htake : buf.take (i + 1) = buf.take i ++ [buf.getD i 0] := by
      rw [List.take_add_one, List.getElem?_eq_getElem hi, List.getD_eq_getElem _ _ hi]
      rfl
    refine ⟨_, _, rfl, rfl, le_rfl, ⟨fun _ => hi, hlt⟩, fun hfew => ?_⟩
    change old.length + (buf.take (i + 1)).length < 2 ^ 31 at hfew
    change Fifo _ (old ++ buf.take (i + 1)) got a 1
    rw [htake] at hfew ⊢
    rw [← List.append_assoc]
    apply h.putByte _ hlt
    simp only [List.length_append] at hfew ⊢
    exact hfew
  | incrLoad => exact ⟨p, _, rfl, rfl, le_rfl, ⟨fun _ => hbyte nofun, rfl, hknows⟩, fun _ => h⟩
  | incrStore wpos =>
    obtain ⟨rfl, hlt⟩ := hknows
    have hnext := h.incrWpos
    refine ⟨_, _, rfl, rfl, ?_, ⟨fun hne => absurd rfl hne, trivial⟩, fun _ => hnext⟩
    have hwrite := h.writePos
    have hwrite' := hnext.writePos
    change (old ++ buf.take (i + 1)).length = (p.pWpos + 1).toNat at hwrite'
    change (old ++ buf.take (i + 1)).length = p.pWpos.toNat + 1 at hwrite
    change p.pWpos.toNat ≤ (p.pWpos + 1).toNat
    omega

structure PipeUsers.Good (s : PipeUsers) : Prop where
  fifo : Fifo s.pipe s.stored s.delivered ((s.read.map fun c => c.pc.ahead).getD 0)
    ((s.write.map fun c => c.pc.ahead).getD 0)
  reader : ∀ c, s.read = some c → c.Ok s.pipe
  writer : ∀ c, s.write = some c → c.Ok s.pipe

theorem PipeUsers.fresh_good : PipeUsers.fresh.Good where
  fifo := .fresh
  reader := nofun
  writer := nofun

theorem PipeUsers.delivered_return {write : Option WriteCall} :
    PipeUsers.delivered ⟨p, none, write, returned ++ [bytes], written⟩ =
      returned.flatten ++ bytes := by
  simp [PipeUsers.delivered]

theorem PipeUsers.stored_return {read : Option ReadCall} :
    PipeUsers.stored ⟨p, read, none, returned, written ++ [bytes]⟩ = written.flatten ++ bytes := by
  simp [PipeUsers.stored]

theorem PipeUsers.Good.move {s : PipeUsers} (h : s.Good) (m : PipeMove)
    (hfew : (s.move m).stored.length < 2 ^ 31) : (s.move m).Good := by
  obtain ⟨p, read, write, returned, written⟩ := s
  obtain ⟨hfifo, hreader, hwriter⟩ := h
  cases m with
  | beginRead n =>
    cases read with
    | some c => exact ⟨hfifo, hreader, hwriter⟩
    | none =>
      refine ⟨hfifo, ?_, hwriter⟩
      rintro c ⟨⟩
      exact ⟨rfl, trivial⟩
  | beginWrite buf =>
    cases write with
    | some c => exact ⟨hfifo, hreader, hwriter⟩
    | none =>
      refine ⟨hfifo, hreader, ?_⟩
      rintro c ⟨⟩
      exact ⟨fun hne => absurd rfl hne, trivial⟩
  | stepRead closed =>
    cases read with
    | none => exact ⟨hfifo, hreader, hwriter⟩
    | some c =>
      obtain ⟨p', next, hstep, hw, hr, hgood⟩ := devpipeReadStep_good closed (hreader c rfl) hfifo
      cases next with
      | inl c' =>
        simp only [PipeUsers.move, hstep]
        refine ⟨hgood.2, ?_, fun d hd => (hwriter d hd).later hw hr⟩
        rintro d ⟨⟩
        exact hgood.1
      | inr bytes =>
        simp only [PipeUsers.move, hstep]
        refine ⟨?_, nofun, fun d hd => (hwriter d hd).later hw hr⟩
        rw [PipeUsers.delivered_return]
        exact hgood
  | stepWrite closed =>
    cases write with
    | none => exact ⟨hfifo, hreader, hwriter⟩
    | some c =>
      obtain ⟨p', next, hstep, hr, hw, hgood⟩ := devpipeWriteStep_good closed (hwriter c rfl) hfifo
      cases next with
      | inl c' =>
        simp only [PipeUsers.move, hstep] at hfew ⊢
        refine ⟨hgood.2 ?_, fun d hd => (hreader d hd).later hr hw, ?_⟩
        · simpa [PipeUsers.stored] using hfew
        · rintro d ⟨⟩
          exact hgood.1
      | inr _ =>
        simp only [PipeUsers.move, hstep]
        refine ⟨?_, fun d hd => (hreader d hd).later hr hw, nofun⟩
        rw [PipeUsers.stored_return]
        exact hgood

theorem devpipeWriteStep_stored_le {closed : Bool} {c c' : WriteCall}
    (h : devpipeWriteStep closed p c = (p', .inl c')) : c.stored.length ≤ c'.stored.length := by
  obtain ⟨buf, i, pc⟩ := c
  cases pc with
  | testRpos wpos =>
    cases h
    split <;> exact le_rfl
  | loop | full =>
    unfold devpipeWriteStep at h
    dsimp only at h
    split at h <;> cases h
    exact le_rfl
  | putByte wpos =>
    cases h
    simp only [WriteCall.stored, length_take]
    omega
  | testWpos | putWpos | incrLoad | incrStore =>
    cases h
    exact le_rfl

theorem PipeUsers.stored_move_le (s : PipeUsers) (m : PipeMove) :
    s.stored.length ≤ (s.move m).stored.length := by
  obtain ⟨p, read, write, returned, written⟩ := s
  cases m with
  | beginRead n => cases read <;> exact le_rfl
  | beginWrite buf => cases write <;> exact le_rfl
  | stepRead closed =>
    cases read with
    | none => exact le_rfl
    | some c =>
      unfold PipeUsers.move
      dsimp only
      split <;> exact le_rfl
  | stepWrite closed =>
    cases write with
    | none => exact le_rfl
    | some c =>
      unfold PipeUsers.move
      dsimp only
      split
      next hstep =>
        simp only [PipeUsers.stored, List.length_append]
        exact Nat.add_le_add_left (devpipeWriteStep_stored_le hstep) _
      next => rw [PipeUsers.stored_return]; exact le_rfl

theorem PipeUsers.Good.run {s : PipeUsers} (h : s.Good) (moves : List PipeMove)
    (hfew : (s.run moves).stored.length < 2 ^ 31) : (s.run moves).Good := by
  induction moves using List.reverseRecOn with
  | nil => exact h
  | append_singleton moves m ih =>
    have hrun : s.run (moves ++ [m]) = (s.run moves).move m := by
      simp [PipeUsers.run]
    rw [hrun] at hfew ⊢
    exact (ih (lt_of_le_of_lt ((s.run moves).stored_move_le m) hfew)).move m hfew

/-- Until 2^31 bytes have been written, whatever the interleaving, the reader has got the first
bytes that the writer has stored, in order, and at most `PIPEBUFSIZ` are left to read. -/
theorem pipe_fifo (moves : List PipeMove)
    (hfew : (PipeUsers.fresh.run moves).stored.length < 2 ^ 31) :
    (PipeUsers.fresh.run moves).delivered <+: (PipeUsers.fresh.run moves).stored ∧
    (PipeUsers.fresh.run moves).stored.length ≤
      (PipeUsers.fresh.run moves).delivered.length + pipebufsiz ∧
    (PipeUsers.fresh.run moves).pipe.pWpos.toNat ≤
      (PipeUsers.fresh.run moves).pipe.pRpos.toNat + pipebufsiz := by
  have h := (PipeUsers.fresh_good.run moves hfew).fifo
  have hread := h.readPos
  have hwrite := h.writePos
  have hroom := h.room
  exact ⟨h.same, by omega, by omega⟩

/-- A reader waits for three bytes, then two are written, and one is taken. -/
def twoBytes : List PipeMove :=
  [.beginRead 3, .stepRead false, .stepRead false, .beginWrite [7, 8]] ++
    List.replicate 13 (.stepWrite false) ++ List.replicate 5 (.stepRead false)

theorem pipe_fifo_two : (PipeUsers.fresh.run twoBytes).stored = [7, 8] ∧
    (PipeUsers.fresh.run twoBytes).delivered = [7] ∧
    (PipeUsers.fresh.run twoBytes).delivered <+: (PipeUsers.fresh.run twoBytes).stored :=
  ⟨by decide, by decide, (pipe_fifo twoBytes (by decide)).1⟩

/-- With `w` bytes written and `r` bytes read in all: both positions give places in the buffer, and
the tests for an empty and for a full pipe come out right. -/
structure PositionsOk (p : Pipe) (r w : Nat) : Prop where
  readIndex : 0 ≤ bufIndex p.pRpos ∧ bufIndex p.pRpos < pipebufsiz
  writeIndex : 0 ≤ bufIndex p.pWpos ∧ bufIndex p.pWpos < pipebufsiz
  empty : ∀ closed c, c.pc = .testWpos p.pRpos →
    ((devpipeReadStep closed p c).2 = .inl { c with pc := .empty } ↔ w = r)
  full : ∀ closed c, c.pc = .testRpos p.pWpos →
    ((devpipeWriteStep closed p c).2 = .inl { c with pc := .full } ↔ w = r + pipebufsiz)

theorem bufIndex_inside_iff (pos : Word) : 0 ≤ bufIndex pos ∧ bufIndex pos < pipebufsiz ↔
    pos.toNat < 2 ^ 31 ∨ pos.toNat % pipebufsiz = 0 := by
  by_cases hpos : pos.toNat < 2 ^ 31
  · have hlt := Nat.mod_lt pos.toNat (show 0 < pipebufsiz by decide)
    rw [bufIndex_eq hpos]
    omega
  · have hint : pos.toInt = -((2 ^ 32 - pos.toNat : Nat) : Int) := by
      have hlt := pos.isLt
      rw [toInt_eq_toNat_cond, if_neg (by omega)]
      omega
    have hlt := pos.isLt
    rw [bufIndex, hint, Int.neg_tmod, Int.tmod_eq_emod_of_nonneg (Int.natCast_nonneg _)]
    unfold pipebufsiz
    omega

theorem readStep_empty_iff {p : Pipe} {closed : Bool} {c : ReadCall}
    (hc : c.pc = .testWpos p.pRpos) :
    (devpipeReadStep closed p c).2 = .inl { c with pc := .empty } ↔ p.pRpos = p.pWpos := by
  unfold devpipeReadStep
  rw [hc]
  simp

theorem writeStep_full_iff {p : Pipe} {closed : Bool} {c : WriteCall}
    (hc : c.pc = .testRpos p.pWpos) :
    (devpipeWriteStep closed p c).2 = .inl { c with pc := .full } ↔
      (p.pRpos + toWord pipebufsiz).toNat ≤ p.pWpos.toNat := by
  unfold devpipeWriteStep
  rw [hc]
  simp

/-- The remainder is right while the positions are not negative, and the test for a full pipe until
the sum wraps around before `p_wpos` does. -/
theorem pipe_positions_iff (buf : Int → Byte) (r w : Nat) (hle : r ≤ w)
    (hroom : w ≤ r + pipebufsiz) :
    PositionsOk ⟨toWord r, toWord w, buf⟩ r w ↔
      (r % 2 ^ 32 < 2 ^ 31 ∨ r % pipebufsiz = 0) ∧ (w % 2 ^ 32 < 2 ^ 31 ∨ w % pipebufsiz = 0) ∧
        (r % 2 ^ 32 + pipebufsiz < 2 ^ 32 ∨ w % 2 ^ 32 < r % 2 ^ 32) := by
  have hindex : ∀ n, 0 ≤ bufIndex (toWord n) ∧ bufIndex (toWord n) < pipebufsiz ↔
      n % 2 ^ 32 < 2 ^ 31 ∨ n % pipebufsiz = 0 := by
    intro n
    rw [bufIndex_inside_iff, toNat_ofNat]
    unfold pipebufsiz
    omega
  have hempty : toWord r = toWord w ↔ w = r := by
    rw [← toNat_inj, toNat_ofNat, toNat_ofNat]
    unfold pipebufsiz at hroom
    omega
  have hfull : ((toWord r + toWord pipebufsiz).toNat ≤ (toWord w).toNat ↔
      w = r + pipebufsiz) ↔ r % 2 ^ 32 + pipebufsiz < 2 ^ 32 ∨ w % 2 ^ 32 < r % 2 ^ 32 := by
    rw [toNat_add, toNat_ofNat, toNat_ofNat, toNat_ofNat]
    unfold pipebufsiz at hroom ⊢
    omega
  rw [← hindex r, ← hindex w, ← hfull]
  constructor
  · intro h
    refine ⟨h.readIndex, h.writeIndex, ?_⟩
    have htest := h.full false ⟨[], 0, .testRpos (toWord w)⟩ rfl
    exact (writeStep_full_iff (c := ⟨[], 0, .testRpos (toWord w)⟩) rfl).symm.trans htest
  · rintro ⟨hread, hwrite, hfull⟩
    exact ⟨hread, hwrite, fun _ _ hc => (readStep_empty_iff hc).trans hempty,
      fun _ _ hc => (writeStep_full_iff hc).trans hfull⟩

/-- The positions have wrapped around, and 20 bytes are in the pipe. -/
theorem pipe_positions_iff_wrapped :
    PositionsOk ⟨5, 25, fun i => BitVec.ofInt 8 i⟩ (2 ^ 32 + 5) (2 ^ 32 + 25) :=
  (pipe_positions_iff _ (2 ^ 32 + 5) (2 ^ 32 + 25) (by decide) (by decide)).mpr (by decide)

/-- After 2^31 + 1 bytes the reader would take the byte before the buffer. -/
theorem pipe_position_outside : ¬PositionsOk ⟨0x80000001, 0x80000001, fun _ => 0⟩ (2 ^ 31 + 1)
    (2 ^ 31 + 1) :=
  fun h => absurd h.readIndex (by decide)

end Jos
