import Jos.Network.Buffers
import Mathlib.Algebra.BigOperators.Group.List.Basic

/-!
# Which pages serving a request touches

The request pages lie next to each other, so what leaves one runs into the next. Ten kinds of
requests touch fixed fields. The lengths for `lwip_recv`, `lwip_send` and `jif_input` come from the
client, and nothing compares them with the size of the page.
-/

namespace Jos

open Logic List

variable {parts parts' : List MemPart} {req x off n i : Nat} {m : Image} {args : StArgs}
  {pbufOk : Bool}

def Touches (parts : List MemPart) (x : Nat) : Prop :=
  ∃ q ∈ parts, ∃ k < q.2, (q.1 + k) % 2 ^ 32 = x

/-- Within the region of the request pages only the page at `req` is touched. -/
def StaysInPage (parts : List MemPart) (req : Nat) : Prop :=
  ∀ x, reqva ≤ x → x < reqva + queueSize * pgsize → Touches parts x →
    req ≤ x ∧ x < req + pgsize

def lastBuf : Nat := bufVa (queueSize - 1)

theorem staysInPage_append :
    StaysInPage (parts ++ parts') req ↔ StaysInPage parts req ∧ StaysInPage parts' req := by
  constructor
  · intro h
    refine ⟨fun x h1 h2 ht => h x h1 h2 ?_, fun x h1 h2 ht => h x h1 h2 ?_⟩
    · obtain ⟨q, hq, hk⟩ := ht
      exact ⟨q, mem_append_left _ hq, hk⟩
    · obtain ⟨q, hq, hk⟩ := ht
      exact ⟨q, mem_append_right _ hq, hk⟩
  · rintro ⟨h, h'⟩ x h1 h2 ⟨q, hq, hk⟩
    rcases mem_append.mp hq with hq | hq
    · exact h x h1 h2 ⟨q, hq, hk⟩
    · exact h' x h1 h2 ⟨q, hq, hk⟩

theorem bufVa_bounds (hi : i < queueSize) :
    reqva ≤ bufVa i ∧ bufVa i + pgsize ≤ reqva + queueSize * pgsize ∧
      reqva + queueSize * pgsize = 268431360 := by
  have h : reqva = 268349440 := rfl
  unfold bufVa queueSize pgsize at *
  omega

theorem staysInPage_of_within (hi : i < queueSize)
    (h : ∀ q ∈ parts, bufVa i ≤ q.1 ∧ q.1 + q.2 ≤ bufVa i + pgsize) :
    StaysInPage parts (bufVa i) := by
  rintro x _ _ ⟨q, hq, k, hk, rfl⟩
  obtain ⟨h1, h2⟩ := h q hq
  obtain ⟨_, hend, htop⟩ := bufVa_bounds hi
  rw [Nat.mod_eq_of_lt (by omega)]
  omega

theorem not_staysInPage (hi : i + 1 < queueSize) (h : Touches parts (bufVa i + pgsize)) :
    ¬StaysInPage parts (bufVa i) := by
  intro hs
  obtain ⟨hlow, _, _⟩ := bufVa_bounds (show i < queueSize by omega)
  obtain ⟨_, hend, _⟩ := bufVa_bounds hi
  have hnext : bufVa (i + 1) = bufVa i + pgsize := by
    unfold bufVa
    rw [Nat.add_mul, Nat.one_mul, Nat.add_assoc]
  have hpos : 0 < pgsize := by decide
  have := (hs _ (by omega) (by omega) h).2
  omega

theorem staysInPage_last
    (h : ∀ q ∈ parts, lastBuf ≤ q.1 ∧ q.1 + q.2 ≤ 2 ^ 32) : StaysInPage parts lastBuf := by
  rintro x _ hx ⟨q, hq, k, hk, rfl⟩
  obtain ⟨h1, h2⟩ := h q hq
  rw [Nat.mod_eq_of_lt (by omega)] at hx ⊢
  have hlast : lastBuf + pgsize = reqva + queueSize * pgsize := rfl
  omega

theorem staysInPage_part (hi : i < queueSize) (hoff : off ≤ pgsize) (hn : n < 2 ^ 31) :
    StaysInPage [(bufVa i + off, n)] (bufVa i) ↔ off + n ≤ pgsize ∨ bufVa i = lastBuf := by
  obtain ⟨_, hend, htop⟩ := bufVa_bounds hi
  constructor
  · intro h
    by_contra hc
    rw [not_or] at hc
    have hlast : i + 1 < queueSize := by
      by_contra hge
      exact hc.2 (congrArg bufVa (show i = queueSize - 1 by omega))
    refine not_staysInPage hlast ⟨_, mem_singleton_self _, pgsize - off, ?_, ?_⟩ h
    · show pgsize - off < n
      omega
    · show (bufVa i + off + (pgsize - off)) % 2 ^ 32 = bufVa i + pgsize
      rw [Nat.mod_eq_of_lt (by omega)]
      omega
  · rintro (h | h)
    · refine staysInPage_of_within hi fun q hq => ?_
      obtain rfl := mem_singleton.mp hq
      exact ⟨Nat.le_add_right _ _, by show bufVa i + off + n ≤ _; omega⟩
    · rw [h]
      refine staysInPage_last fun q hq => ?_
      obtain rfl := mem_singleton.mp hq
      have hpg : pgsize = 4096 := rfl
      exact ⟨Nat.le_add_right _ _, by show lastBuf + off + n ≤ _; omega⟩

theorem pbufLens_sum (fuel : Nat) : ∀ length, length ≤ (fuel + 1) * pbufSize →
    (pbufLens (fuel + 1) length).sum = length := by
  unfold pbufSize
  induction fuel with
  | zero =>
    intro length h
    have hz : ¬0 < length - pbufSize := by
      unfold pbufSize
      omega
    rw [pbufLens, if_neg hz]
    unfold pbufSize
    simp only [sum_cons, sum_nil]
    omega
  | succ fuel ih =>
    intro length h
    rw [pbufLens, sum_cons]
    unfold pbufSize
    split
    · rw [ih (length - 2000) (by omega)]
      omega
    · rw [sum_nil]
      omega

variable {rx c l k : Nat} {chain : List Nat}

/-- A round of the loop for a packet of `l` bytes of which `c` have been copied. -/
theorem copyChain_cons (hc : c ≤ l) (htop : rx + l < 2 ^ 32) (q : Nat) :
    copyChain rx l c (q :: chain) =
      (rx + c, min q (l - c)) :: copyChain rx l ((c + min q (l - c) : Nat) : Int) chain := by
  have hbytes :
      (if (q : Int) > l - c then (l : Int) - c else q) = ((min q (l - c) : Nat) : Int) := by
    split <;> omega
  have h1 : (BitVec.ofInt 32 ((rx : Int) + c)).toNat = rx + c := by
    rw [← Int.natCast_add, BitVec.ofInt_natCast, BitVec.toNat_ofNat]
    omega
  have h2 : (BitVec.ofInt 32 ((min q (l - c) : Nat) : Int)).toNat = min q (l - c) := by
    rw [BitVec.ofInt_natCast, BitVec.toNat_ofNat]
    omega
  rw [copyChain, hbytes, h1, h2, Int.natCast_add]

theorem copyChain_within (htop : rx + l < 2 ^ 32) (hc : c ≤ l) :
    ∀ q ∈ copyChain rx l c chain, rx ≤ q.1 ∧ q.1 + q.2 ≤ rx + l := by
  induction chain generalizing c with
  | nil => exact fun _ h => absurd h not_mem_nil
  | cons q chain ih =>
    rw [copyChain_cons hc htop]
    intro p hp
    rcases mem_cons.mp hp with rfl | hp
    · exact ⟨by show rx ≤ rx + c; omega, by show rx + c + min q (l - c) ≤ rx + l; omega⟩
    · exact ih (by omega) p hp

theorem copyChain_covers (htop : rx + l < 2 ^ 32) (hc : c ≤ k) (hk : k < l)
    (hsum : l ≤ c + chain.sum) :
    ∃ q ∈ copyChain rx l c chain, q.1 ≤ rx + k ∧ rx + k < q.1 + q.2 := by
  induction chain generalizing c with
  | nil =>
    rw [sum_nil] at hsum
    omega
  | cons q chain ih =>
    rw [copyChain_cons (by omega) htop]
    rw [sum_cons] at hsum
    by_cases hin : k < c + min q (l - c)
    · refine ⟨_, mem_cons_self, ?_, ?_⟩
      · show rx + c ≤ rx + k
        omega
      · show rx + k < rx + c + min q (l - c)
        omega
    · obtain ⟨p, hp, hpk⟩ := ih (c := c + min q (l - c)) (by omega) (by omega)
      exact ⟨p, mem_cons_of_mem _ hp, hpk⟩

/-- `jp_len`, as `low_level_input` stores it. -/
def pktLen (m : Image) (pkt : Nat) : BitVec 16 := (word m pkt).setWidth 16

theorem input_staysInPage (hi : i < queueSize) (hl : (pktLen m (bufVa i)).toInt = l) :
    StaysInPage (copyChain (bufVa i + 4) l 0 (pbufLens 33 (pktLen m (bufVa i)).toNat)) (bufVa i) ↔
      4 + l ≤ pgsize ∨ bufVa i = lastBuf := by
  obtain ⟨_, hend, htop⟩ := bufVa_bounds hi
  have hpg : pgsize = 4096 := rfl
  have hlt := (pktLen m (bufVa i)).isLt
  have hl' : (pktLen m (bufVa i)).toNat = l ∧ l < 32768 := by
    rw [BitVec.toInt_eq_toNat_cond] at hl
    split at hl <;> omega
  have hwithin : ∀ q ∈ copyChain (bufVa i + 4) l 0 (pbufLens 33 (pktLen m (bufVa i)).toNat),
      bufVa i + 4 ≤ q.1 ∧ q.1 + q.2 ≤ bufVa i + 4 + l :=
    copyChain_within (by omega) (Nat.zero_le _)
  constructor
  · intro h
    by_contra hc
    rw [not_or] at hc
    have hlast : i + 1 < queueSize := by
      by_contra hge
      exact hc.2 (congrArg bufVa (show i = queueSize - 1 by omega))
    have hsum : (pbufLens 33 (pktLen m (bufVa i)).toNat).sum = (pktLen m (bufVa i)).toNat :=
      pbufLens_sum 32 _ (by unfold pbufSize; omega)
    have hcovers : ∃ q ∈ copyChain (bufVa i + 4) l 0 (pbufLens 33 (pktLen m (bufVa i)).toNat),
        q.1 ≤ bufVa i + 4 + (pgsize - 4) ∧ bufVa i + 4 + (pgsize - 4) < q.1 + q.2 :=
      copyChain_covers (by omega) (Nat.zero_le _) (by omega) (by omega)
    obtain ⟨q, hq, h1, h2⟩ := hcovers
    refine not_staysInPage hlast ⟨q, hq, bufVa i + pgsize - q.1, by omega, ?_⟩ h
    rw [Nat.mod_eq_of_lt (by omega)]
    omega
  · rintro (h | h)
    · refine staysInPage_of_within hi fun q hq => ?_
      have := hwithin q hq
      omega
    · rw [h] at hwithin ⊢
      refine staysInPage_last fun q hq => ?_
      have := hwithin q hq
      omega

/-- A negative length is a huge number of bytes for `memcpy`. -/
theorem input_negative (hi : i < queueSize) (hneg : (pktLen m (bufVa i)).toInt < 0) :
    ¬StaysInPage (copyChain (bufVa i + 4) (pktLen m (bufVa i)).toInt 0
      (pbufLens 33 (pktLen m (bufVa i)).toNat)) (bufVa i) := by
  obtain ⟨_, hend, htop⟩ := bufVa_bounds hi
  have hreqva : reqva = 268349440 := rfl
  have hpg : pgsize = 4096 := rfl
  generalize hlen : pktLen m (bufVa i) = len at *
  have hlow : -32768 ≤ len.toInt := by
    have := BitVec.le_toInt len
    omega
  have hfirst : (bufVa i + 4, (2 ^ 32 + len.toInt).toNat) ∈
      copyChain (bufVa i + 4) len.toInt 0 (pbufLens 33 len.toNat) := by
    rw [pbufLens, copyChain, if_pos (by omega)]
    refine mem_cons.mpr (Or.inl (Prod.ext ?_ ?_))
    · dsimp only
      rw [Int.add_zero, BitVec.ofInt_natCast, BitVec.toNat_ofNat]
      omega
    · dsimp only
      rw [Int.sub_zero, BitVec.toNat_ofInt]
      omega
  by_cases hlast : i + 1 < queueSize
  · refine not_staysInPage hlast ⟨_, hfirst, pgsize - 4, by dsimp only; omega, ?_⟩
    dsimp only
    omega
  · intro hs
    have hi' : i = queueSize - 1 := by omega
    have hva : bufVa i = 268427264 := hi' ▸ rfl
    have htouch : Touches (copyChain (bufVa i + 4) len.toInt 0 (pbufLens 33 len.toNat)) reqva := by
      refine ⟨_, hfirst, 2 ^ 32 - (bufVa i + 4 - reqva), by dsimp only; omega, ?_⟩
      dsimp only
      omega
    have := (hs reqva le_rfl (by omega) htouch).1
    omega

/-- The lengths in the request page fit into the page, or the page is the last one. -/
def FitsPage (pbufOk : Bool) (m : Image) (args : StArgs) : Prop :=
  match Nsreq.ofWord args.reqno with
  | some .recv => (word m (args.req + 4)).toInt ≤ pgsize ∨ args.req = lastBuf
  | some .send => (word m (args.req + 4)).toInt ≤ pgsize - 12 ∨ args.req = lastBuf
  | some .input =>
    pbufOk = false ∨ 0 ≤ (pktLen m args.req).toInt ∧
      ((pktLen m args.req).toInt ≤ pgsize - 4 ∨ args.req = lastBuf)
  | _ => True

section

variable (hi : i < queueSize)

include hi

theorem fields_staysInPage
    (h : ∀ q ∈ parts, bufVa i ≤ q.1 ∧ q.1 + q.2 ≤ bufVa i + 24) : StaysInPage parts (bufVa i) := by
  refine staysInPage_of_within hi fun q hq => ?_
  have hpg : pgsize = 4096 := rfl
  have := h q hq
  omega

theorem recv_staysInPage (w : Word) :
    StaysInPage ([(bufVa i, 4), (bufVa i + 4, 4), (bufVa i + 8, 4)] ++ lwipRecv (bufVa i) w)
      (bufVa i) ↔ w.toInt ≤ pgsize ∨ bufVa i = lastBuf := by
  have hfields : StaysInPage [(bufVa i, 4), (bufVa i + 4, 4), (bufVa i + 8, 4)] (bufVa i) :=
    fields_staysInPage hi (by simp)
  have hpart := staysInPage_part hi (Nat.zero_le _) (toInt_toNat_lt w)
  rw [Nat.add_zero, Nat.zero_add, Int.toNat_le] at hpart
  rw [staysInPage_append, lwipRecv, hpart]
  exact and_iff_right hfields

theorem send_staysInPage (w : Word) :
    StaysInPage ([(bufVa i, 4), (bufVa i + 4, 4), (bufVa i + 8, 4)] ++ lwipSend (bufVa i + 12) w)
      (bufVa i) ↔ w.toInt ≤ pgsize - 12 ∨ bufVa i = lastBuf := by
  have hpg : pgsize = 4096 := rfl
  have hfields : StaysInPage [(bufVa i, 4), (bufVa i + 4, 4), (bufVa i + 8, 4)] (bufVa i) :=
    fields_staysInPage hi (by simp)
  have hfit : 12 + w.toInt.toNat ≤ pgsize ↔ w.toInt ≤ pgsize - 12 := by omega
  rw [staysInPage_append, lwipSend, staysInPage_part hi (by omega) (toInt_toNat_lt w), hfit]
  exact and_iff_right hfields

theorem jifInput_staysInPage : StaysInPage (jifInput pbufOk m (bufVa i)) (bufVa i) ↔
      pbufOk = false ∨ 0 ≤ (pktLen m (bufVa i)).toInt ∧
        ((pktLen m (bufVa i)).toInt ≤ pgsize - 4 ∨ bufVa i = lastBuf) := by
  have hpg : pgsize = 4096 := rfl
  have hfields : StaysInPage [(bufVa i, 4)] (bufVa i) := fields_staysInPage hi (by simp)
  unfold jifInput
  rw [← singleton_append, staysInPage_append, and_iff_right hfields]
  cases pbufOk with
  | false =>
    refine iff_of_true ?_ (Or.inl rfl)
    exact fields_staysInPage hi fun _ h => absurd h not_mem_nil
  | true =>
    rw [if_pos rfl]
    rcases Int.lt_or_le (pktLen m (bufVa i)).toInt 0 with hneg | hpos
    · refine iff_of_false (input_negative hi hneg) ?_
      rintro (h | h)
      · cases h
      · omega
    · obtain ⟨l, hl⟩ := Int.eq_ofNat_of_zero_le hpos
      have hiff := input_staysInPage hi hl
      have hfit : 4 + l ≤ pgsize ↔ (pktLen m (bufVa i)).toInt ≤ pgsize - 4 := by omega
      rw [hfit, ← hl] at hiff
      refine hiff.trans ⟨fun h => Or.inr ⟨hpos, h⟩, ?_⟩
      rintro (h | h)
      · cases h
      · exact h.2

end

/-- Serving a request touches no other request's page exactly if its lengths fit. -/
theorem serveThread_own_page (hi : i < queueSize) (hreq : args.req = bufVa i) :
    StaysInPage (serveThread pbufOk m args) args.req ↔ FitsPage pbufOk m args := by
  have hfields : ∀ parts : List MemPart, (∀ q ∈ parts, bufVa i ≤ q.1 ∧ q.1 + q.2 ≤ bufVa i + 24) →
        (StaysInPage parts (bufVa i) ↔ True) :=
    fun parts h => iff_true_intro (fields_staysInPage hi h)
  unfold serveThread FitsPage
  rw [hreq]
  cases Nsreq.ofWord args.reqno with
  | none => exact hfields _ (by simp)
  | some r =>
    cases r with
    | recv => exact recv_staysInPage hi _
    | send => exact send_staysInPage hi _
    | input => exact jifInput_staysInPage hi
    | bind => exact hfields _ (by simp [lwipName]; omega)
    | connect => exact hfields _ (by simp [lwipName]; omega)
    | _ => exact hfields _ (by simp)

/-- The page of the first buffer holds a request whose second field is `len`. -/
def pageWith (len : Word) : Image := setWord (fun _ => 0) (bufVa 0 + 4) len

/-- `NSREQ_RECV` with room for 100 bytes. -/
theorem serveThread_own_page_recv :
    StaysInPage (serveThread true (pageWith 100) ⟨7, bufVa 0⟩) (bufVa 0) := by
  refine (serveThread_own_page (i := 0) (by decide) rfl).mpr (Or.inl ?_)
  rw [pageWith, word_setWord_self]
  decide

/-- `NSREQ_RECV` with a length of two pages. -/
theorem recv_leaves_page :
    ¬StaysInPage (serveThread true (pageWith 8192) ⟨7, bufVa 0⟩) (bufVa 0) := by
  have h : serveThread true (pageWith 8192) ⟨7, bufVa 0⟩ =
      [(bufVa 0, 4), (bufVa 0 + 4, 4), (bufVa 0 + 8, 4)] ++ lwipRecv (bufVa 0) 8192 := by
    show _ ++ lwipRecv (bufVa 0) (word (pageWith 8192) (bufVa 0 + 4)) = _
    rw [pageWith, word_setWord_self]
  rw [h, recv_staysInPage (by decide)]
  decide

end Jos
