import Jos.Lib.String
import Mathlib.Tactic.IntervalCases

/-!
# The string instructions do what the loops do

Copying in rounds gives the bytes of the source as long as no round reads what an earlier one has
written: upwards if the destination does not start inside the source, downwards if it does not start
below it. Filling differs for huge lengths, which the loop keeps in an `int`.
-/

namespace Jos

open Logic Nat

variable {m : Image} {width ecx d s p n : Nat} {c eax : Word} {b : Byte}

theorem setBytes_prepend {a k : Nat} {f : Nat → Byte} :
    setBytes (setBytes m (a + n) k fun i => f (n + i)) a n f = setBytes m a (n + k) f := by
  funext x
  by_cases h1 : a ≤ x ∧ x < a + n
  · rw [setBytes_of_mem h1.1 h1.2, setBytes_of_mem (by omega) (by omega)]
  · rw [setBytes_of_not_mem (by omega)]
    by_cases h2 : a + n ≤ x ∧ x < a + n + k
    · rw [setBytes_of_mem h2.1 h2.2, setBytes_of_mem (by omega) (by omega)]
      congr 1
      omega
    · rw [setBytes_of_not_mem (by omega), setBytes_of_not_mem (by omega)]

/-- The bytes of the source have been moved. -/
def moved (m : Image) (dst src n : Nat) : Image := setBytes m dst n fun i => m (src + i)

theorem repMovs_up (hover : d ≤ s ∨ s + ecx * width ≤ d) :
    repMovs false width ecx d s m = moved m d s (ecx * width) := by
  induction ecx generalizing d s m with
  | zero => rw [zero_mul, moved, setBytes_zero, repMovs]
  | succ ecx ih =>
    rw [succ_mul] at hover ⊢
    rw [repMovs]
    show repMovs false width ecx (d + width) (s + width) _ = _
    rw [ih (by omega), moved, moved, Nat.add_comm (ecx * width), ← setBytes_append]
    refine setBytes_congr fun i hi => ?_
    rw [setBytes_of_not_mem (by omega), Nat.add_assoc]

theorem repMovs_down (hover : s ≤ d) :
    repMovs true width ecx (d + ecx * width - width) (s + ecx * width - width) m =
      moved m d s (ecx * width) := by
  induction ecx generalizing m with
  | zero => rw [zero_mul, moved, setBytes_zero, repMovs]
  | succ ecx ih =>
    rw [succ_mul, ← Nat.add_assoc, ← Nat.add_assoc, Nat.add_sub_cancel, Nat.add_sub_cancel, repMovs]
    show repMovs true width ecx (d + ecx * width - width) (s + ecx * width - width) _ = _
    rw [ih, moved, moved, ← setBytes_prepend]
    simp only [Nat.add_assoc]
    exact setBytes_congr fun i hi => setBytes_of_not_mem (.inl (by omega))

theorem repStos_eq (hb : ∀ i < width, wordByte eax i = b) :
    repStos width eax ecx p m = setBytes m p (ecx * width) fun _ => b := by
  induction ecx generalizing p m with
  | zero => rw [zero_mul, setBytes_zero, repStos]
  | succ ecx ih =>
    rw [succ_mul, repStos, ih, setBytes_congr hb, Nat.add_comm (ecx * width)]
    exact setBytes_append

theorem copyUp_eq : copyUp n d s m = repMovs false 1 n d s m := by
  induction n generalizing d s m with
  | zero => rfl
  | succ n ih =>
    rw [copyUp, ih, repMovs]
    congr 1
    refine setBytes_congr fun i hi => ?_
    rw [lt_one_iff.mp hi]
    rfl

theorem copyDown_eq : copyDown n d s m = repMovs true 1 n (d - 1) (s - 1) m := by
  induction n generalizing d s m with
  | zero => rfl
  | succ n ih =>
    rw [copyDown, ih, repMovs]
    congr 1
    refine setBytes_congr fun i hi => ?_
    rw [lt_one_iff.mp hi]
    rfl

theorem quarter_mul (h : n % 4 = 0) : n / 4 * 4 = n :=
  Nat.div_mul_cancel (dvd_of_mod_eq_zero h)

theorem moved_down (h : s < d) (hn : ecx * width = n) :
    repMovs true width ecx (d + n - width) (s + n - width) m = moved m d s n :=
  hn ▸ repMovs_down (le_of_lt h)

section

variable (hd : d + n ≤ 2 ^ 32) (hs : s + n ≤ 2 ^ 32)

include hd hs

theorem moved_up (h : ¬(s < d ∧ d < (s + n) % 2 ^ 32)) (hn : ecx * width = n) :
    repMovs false width ecx d s m = moved m d s n := by
  have hover : d ≤ s ∨ s + n ≤ d := by omega
  subst hn
  exact repMovs_up hover

theorem memmovePlain_eq : memmovePlain m d s n = moved m d s n := by
  unfold memmovePlain
  split
  · next h =>
    rw [copyDown_eq]
    exact moved_down h.1 (Nat.mul_one n)
  · next h =>
    rw [copyUp_eq]
    exact moved_up hd hs h (Nat.mul_one n)

theorem memmoveAsm_eq : memmoveAsm m d s n = moved m d s n := by
  unfold memmoveAsm
  split
  · next h =>
    dsimp only
    split
    · next h4 => exact moved_down h.1 (quarter_mul h4.2.2)
    · exact moved_down h.1 (Nat.mul_one n)
  · next h =>
    split
    · next h4 => exact moved_up hd hs h (quarter_mul h4.2.2)
    · exact moved_up hd hs h (Nat.mul_one n)

end

/-- The range has been filled with the low byte of `c`. -/
def filled (m : Image) (v : Nat) (c : Word) (n : Nat) : Image :=
  setBytes m v n fun _ => wordByte c 0

theorem wordByte_broadcast (c : Word) : ∀ i < 4, wordByte ((c &&& 0xff) <<< 24 |||
    (c &&& 0xff) <<< 16 ||| (c &&& 0xff) <<< 8 ||| c &&& 0xff) i = wordByte c 0 := by
  intro i hi
  unfold wordByte
  interval_cases i <;> ext j hj <;> interval_cases j <;> simp

theorem repStos_bytes : repStos 1 c n p m = filled m p c n := by
  have h : repStos 1 c n p m = setBytes m p (n * 1) fun _ => wordByte c 0 :=
    repStos_eq fun i hi => congrArg (wordByte c) (lt_one_iff.mp hi)
  rwa [Nat.mul_one] at h

theorem memsetAsm_eq : memsetAsm m p c n = filled m p c n := by
  unfold memsetAsm
  split
  · next h =>
    rw [h]
    exact setBytes_zero.symm
  · split
    · next h =>
      have hfill : _ = setBytes m p (n / 4 * 4) _ := repStos_eq (wordByte_broadcast c)
      rwa [quarter_mul h.2] at hfill
    · exact repStos_bytes

theorem fillLoop_eq {rounds : Nat} (hn : n ≤ rounds) (h31 : n ≤ 2 ^ 31) :
    fillLoop c rounds (toWord n) p m = repStos 1 c n p m := by
  induction n generalizing rounds p m with
  | zero =>
    cases rounds with
    | zero => rfl
    | succ rounds => rfl
  | succ n ih =>
    obtain ⟨rounds, rfl⟩ : ∃ r, rounds = r + 1 := ⟨rounds - 1, by omega⟩
    have hpred : toWord (n + 1) - 1 = toWord n := by
      rw [toWord_add]
      exact BitVec.add_sub_cancel ..
    have hpos : 0 ≤ (toWord n).toInt := by
      rw [BitVec.toInt_eq_toNat_cond, BitVec.toNat_ofNat]
      omega
    rw [fillLoop, hpred, if_pos hpos, ih (by omega) (by omega), repStos]
    congr 1
    refine setBytes_congr fun i hi => ?_
    rw [lt_one_iff.mp hi]

theorem memsetPlain_eq (hn : n ≤ 2 ^ 31) : memsetPlain m p c n = filled m p c n :=
  (fillLoop_eq hn hn).trans repStos_bytes

theorem memsetPlain_of_huge (hn : 2 ^ 31 < n) (hlt : n < 2 ^ 32) : memsetPlain m p c n = m := by
  have hneg : ¬0 ≤ (toWord n - 1).toInt := by
    rw [BitVec.toInt_eq_toNat_cond]
    bv_omega
  exact if_neg hneg

theorem filled_eq_self_iff : m = filled m p c n ↔ ∀ i < n, m (p + i) = wordByte c 0 := by
  constructor
  · intro h i hi
    rw [h]
    exact setBytes_of_mem (by omega) (by omega)
  · intro h
    funext x
    by_cases hx : p ≤ x ∧ x < p + n
    · rw [filled, setBytes_of_mem hx.1 hx.2, ← h (x - p) (by omega), Nat.add_sub_cancel' hx.1]
    · rw [filled, setBytes_of_not_mem (by omega)]

/-- Both versions do the same, which is what they are for. -/
structure FastAsPlain (m : Image) (dst src v c n : Word) : Prop where
  memmove : memmoveAsm m dst.toNat src.toNat n.toNat = memmovePlain m dst.toNat src.toNat n.toNat
  moved : memmovePlain m dst.toNat src.toNat n.toNat = moved m dst.toNat src.toNat n.toNat
  memset : memsetAsm m v.toNat c n.toNat = memsetPlain m v.toNat c n.toNat
  filled : memsetPlain m v.toNat c n.toNat = filled m v.toNat c n.toNat

/-- Both versions of `memmove` and `memset` agree, except where `memset` gets more than `2^31` bytes
that are not filled already. -/
theorem fastAsPlain_iff (m : Image) {dst src v n : Word} (c : Word)
    (hd : dst.toNat + n.toNat ≤ 2 ^ 32) (hs : src.toNat + n.toNat ≤ 2 ^ 32)
    (_ : v.toNat + n.toNat ≤ 2 ^ 32) : FastAsPlain m dst src v c n ↔
      n.toNat ≤ 2 ^ 31 ∨ ∀ i < n.toNat, m (v.toNat + i) = wordByte c 0 := by
  have hmove := memmovePlain_eq (m := m) hd hs
  rw [← filled_eq_self_iff]
  constructor
  · intro h
    by_cases hn : n.toNat ≤ 2 ^ 31
    · exact .inl hn
    · have hfill := h.filled
      rw [memsetPlain_of_huge (by omega) n.isLt] at hfill
      exact .inr hfill
  · intro h
    have hset : memsetPlain m v.toNat c n.toNat = filled m v.toNat c n.toNat := by
      by_cases hn : n.toNat ≤ 2 ^ 31
      · exact memsetPlain_eq hn
      · rw [memsetPlain_of_huge (by omega) n.isLt]
        exact h.resolve_left hn
    exact ⟨(memmoveAsm_eq hd hs).trans hmove.symm, hmove, memsetAsm_eq.trans hset.symm, hset⟩

/-- Six bytes are moved up by two, and six are filled. -/
theorem fastAsPlain_iff_six : FastAsPlain (BitVec.ofNat 8) 10 8 20 0 6 :=
  (fastAsPlain_iff _ 0 (by decide) (by decide) (by decide)).mpr (.inl (by decide))

/-- The loop stores nothing, and the instruction stores the byte 1. -/
theorem memset_differs : memsetAsm (fun _ => 0) 0 1 0x80000001 0 = 1 ∧
    memsetPlain (fun _ => 0) 0 1 0x80000001 0 = 0 := by
  constructor
  · rw [memsetAsm_eq, filled, setBytes_of_mem (by decide) (by decide)]
    decide
  · rw [memsetPlain_of_huge (by decide) (by decide)]

end Jos
