import Mathlib.Tactic.Common
import Mathlib.Data.Nat.Bitwise

/-!
# Memory as a function from addresses to bytes

`setBytes` replaces a range of addresses, and `word` reads four bytes as a little-endian number. Two
memories that agree on a range give the same words there.
-/

namespace Jos.Logic

open BitVec

abbrev Byte := BitVec 8

abbrev Image := Nat → Byte

variable {m m' : Image} {a b n k x : Nat} {f : Nat → Byte} {v : BitVec 32}

/-- Replace the bytes of the range that starts at `a` and has the length `n`. -/
def setBytes (m : Image) (a n : Nat) (f : Nat → Byte) : Image := fun x =>
  if a ≤ x ∧ x < a + n then f (x - a) else m x

theorem setBytes_of_mem (h : a ≤ x) (h' : x < a + n) : setBytes m a n f x = f (x - a) :=
  if_pos ⟨h, h'⟩

theorem setBytes_of_not_mem (h : x < a ∨ a + n ≤ x) : setBytes m a n f x = m x := by
  apply if_neg
  omega

theorem setBytes_zero : setBytes m a 0 f = m := by
  funext x
  apply setBytes_of_not_mem
  omega

theorem setBytes_congr {g : Nat → Byte} (h : ∀ i < n, f i = g i) :
    setBytes m a n f = setBytes m a n g := by
  funext x
  by_cases hx : a ≤ x ∧ x < a + n
  · rw [setBytes_of_mem hx.1 hx.2, setBytes_of_mem hx.1 hx.2, h _ (by omega)]
  · rw [setBytes_of_not_mem (by omega), setBytes_of_not_mem (by omega)]

theorem setBytes_append :
    setBytes (setBytes m a n f) (a + n) k (fun i => f (n + i)) = setBytes m a (n + k) f := by
  funext x
  by_cases h2 : a + n ≤ x ∧ x < a + n + k
  · rw [setBytes_of_mem h2.1 h2.2, setBytes_of_mem (by omega) (by omega)]
    congr 1
    omega
  · rw [setBytes_of_not_mem (by omega)]
    by_cases h1 : a ≤ x ∧ x < a + n
    · rw [setBytes_of_mem h1.1 h1.2, setBytes_of_mem (by omega) (by omega)]
    · rw [setBytes_of_not_mem (by omega), setBytes_of_not_mem (by omega)]

/-- A word that is read as a signed length, and taken as zero if it is negative. -/
theorem toInt_toNat_lt (v : BitVec 32) : v.toInt.toNat < 2 ^ 31 := by
  have := v.toInt_lt
  omega

/-- The little-endian word at `a`. -/
def word (m : Image) (a : Nat) : BitVec 32 :=
  (m (a + 3) ++ m (a + 2) ++ m (a + 1) ++ m a : BitVec (8 + 8 + 8 + 8))

/-- The little-endian half word at `a`. -/
def halfWord (m : Image) (a : Nat) : BitVec 16 := (m (a + 1) ++ m a : BitVec (8 + 8))

/-- Byte `i` of a word. -/
def wordByte (v : BitVec 32) (i : Nat) : Byte := v.extractLsb' (8 * i) 8

/-- Write the word `v` at `a`. -/
def setWord (m : Image) (a : Nat) (v : BitVec 32) : Image := setBytes m a 4 (wordByte v)

theorem word_congr (h : ∀ i < 4, m' (a + i) = m (a + i)) : word m' a = word m a := by
  unfold word
  have h0 : m' a = m a := h 0 (by omega)
  rw [h 3 (by omega), h 2 (by omega), h 1 (by omega), h0]

theorem word_of_zero (h : ∀ i < 4, m (a + i) = 0) : word m a = 0 := by
  unfold word
  have h0 : m a = 0 := h 0 (by omega)
  rw [h 3 (by omega), h 2 (by omega), h 1 (by omega), h0]
  decide

theorem wordByte_append : wordByte v 3 ++ wordByte v 2 ++ wordByte v 1 ++ wordByte v 0 = v := by
  unfold wordByte
  ext i hi
  simp only [getElem_append, getElem_extractLsb']
  split
  · rw [Nat.mul_zero, Nat.zero_add]
    exact getLsbD_eq_getElem hi
  · split
    · rw [show 8 * 1 + (i - 8) = i by omega]
      exact getLsbD_eq_getElem hi
    · split
      · rw [show 8 * 2 + (i - 8 - 8) = i by omega]
        exact getLsbD_eq_getElem hi
      · rw [show 8 * 3 + (i - 8 - 8 - 8) = i by omega]
        exact getLsbD_eq_getElem hi

theorem word_setWord_self : word (setWord m a v) a = v := by
  unfold setWord word
  rw [setBytes_of_mem (by omega) (by omega), setBytes_of_mem (by omega) (by omega),
    setBytes_of_mem (by omega) (by omega), setBytes_of_mem (by omega) (by omega)]
  simp only [Nat.add_sub_cancel_left, Nat.sub_self]
  exact wordByte_append

theorem word_setBytes_of_disjoint (h : a + n ≤ b ∨ b + 4 ≤ a) :
    word (setBytes m a n f) b = word m b := by
  apply word_congr
  intro i hi
  apply setBytes_of_not_mem
  omega

theorem word_setWord_of_disjoint (h : a + 4 ≤ b ∨ b + 4 ≤ a) : word (setWord m a v) b = word m b :=
  word_setBytes_of_disjoint h

/-- The two memories have the same bytes in a range. -/
def SameOn (m m' : Image) (a n : Nat) : Prop := ∀ x, a ≤ x → x < a + n → m' x = m x

theorem SameOn.word (h : SameOn m m' a n) (hab : a ≤ b) (hbn : b + 4 ≤ a + n) :
    word m' b = word m b := by
  apply word_congr
  intro i hi
  exact h (b + i) (by omega) (by omega)

theorem SameOn.mono (h : SameOn m m' a n) (hab : a ≤ b) (hbn : b + k ≤ a + n) :
    SameOn m m' b k := fun x hx hx' => h x (by omega) (by omega)

theorem sameOn_setBytes (h : a + n ≤ b ∨ b + k ≤ a) : SameOn m (setBytes m a n f) b k := by
  intro x hx hx'
  apply setBytes_of_not_mem
  omega

theorem setWord_of_not_mem (h : x < a ∨ a + 4 ≤ x) : setWord m a v x = m x := setBytes_of_not_mem h

theorem append_toNat {n l : Nat} (x : BitVec n) (y : BitVec l) :
    (x ++ y).toNat = x.toNat * 2 ^ l + y.toNat := by
  rw [toNat_append, ← Nat.shiftLeft_add_eq_or_of_lt y.isLt, Nat.shiftLeft_eq]

theorem shiftLeft_or_toNat {n l w : Nat} (hw : w = n + l) (x : BitVec n) (y : BitVec l) :
    (x.setWidth w <<< l ||| y.setWidth w).toNat = x.toNat * 2 ^ l + y.toNat := by
  subst hw
  have hx : x.toNat < 2 ^ (n + l) := x.isLt.trans_le (Nat.pow_le_pow_right (by decide) (by omega))
  have hy : y.toNat < 2 ^ (n + l) := y.isLt.trans_le (Nat.pow_le_pow_right (by decide) (by omega))
  have hshift : x.toNat <<< l < 2 ^ (n + l) := by
    rw [Nat.shiftLeft_eq, Nat.pow_add]
    exact Nat.mul_lt_mul_of_pos_right x.isLt (Nat.two_pow_pos l)
  rw [toNat_or, toNat_shiftLeft, toNat_setWidth, toNat_setWidth,
    Nat.mod_eq_of_lt hx, Nat.mod_eq_of_lt hy, Nat.mod_eq_of_lt hshift,
    ← Nat.shiftLeft_add_eq_or_of_lt y.isLt, Nat.shiftLeft_eq]

theorem halfWord_eq : halfWord m a = (m (a + 1)).setWidth 16 <<< 8 ||| (m a).setWidth 16 := by
  apply eq_of_toNat_eq
  rw [shiftLeft_or_toNat (n := 8) (l := 8) rfl]
  exact append_toNat _ _

theorem word_eq_halfWords :
    word m a = (halfWord m (a + 2)).setWidth 32 <<< 16 ||| (halfWord m a).setWidth 32 := by
  apply eq_of_toNat_eq
  rw [shiftLeft_or_toNat (n := 16) (l := 16) rfl]
  unfold halfWord word
  rw [show a + 2 + 1 = a + 3 from rfl]
  simp only [append_toNat]
  omega

end Jos.Logic
