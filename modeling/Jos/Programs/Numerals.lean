import Mathlib.Data.Nat.Digits.Lemmas
import Jos.Lib.Printfmt

/-!
# Numerals

`printnum` pads on the left by a recursion and on the right with the help of a buffer. The first
prints every number. The second holds it in an `int`: it prints nothing for zero, and cuts off what
does not fit.
-/

namespace Jos

open BitVec List

variable {base : Base} {num : BitVec 64} {width padc : Word} {n d : Nat}

/-- The digits of a number, zero included. -/
def digitsOf (base : Base) (n : Nat) : List Nat :=
  if n = 0 then [0] else (Nat.digits base.value n).reverse

def numeral (base : Base) (num : BitVec 64) : List Word := (digitsOf base num.toNat).map digitWord

/-- What is left of the width after so many characters. -/
def gap (width : Word) (n : Nat) : Nat := width.toInt.toNat - n

/-- The numeral in a field of the width, on its right with the padding before it or, if the
padding is `-`, on its left with blanks behind it. -/
def aligned (num : BitVec 64) (base : Base) (width padc : Word) : List Word :=
  let pad := gap width (numeral base num).length
  if padc = charWord '-' then numeral base num ++ List.replicate pad (charWord ' ')
  else List.replicate pad padc ++ numeral base num

theorem Base.le (base : Base) : base.value ≤ 16 := by
  cases base <;> decide

theorem digitsOf_of_lt (h : n < base.value) : digitsOf base n = [n] := by
  unfold digitsOf
  split
  · next h0 => rw [h0]
  · next h0 =>
    rw [Nat.digits_of_lt base.value n h0 h]
    rfl

theorem digitsOf_step (h : base.value ≤ n) :
    digitsOf base n = digitsOf base (n / base.value) ++ [n % base.value] := by
  have h2 := base.two_le
  have h0 : n / base.value ≠ 0 := (Nat.div_pos h (by omega)).ne'
  unfold digitsOf
  rw [if_neg (by omega), if_neg h0, Nat.digits_def' h2 (by omega), reverse_cons]

theorem digitsOf_length (h : n < 2 ^ 64) : (digitsOf base n).length ≤ 64 := by
  have h2 := base.two_le
  unfold digitsOf
  split
  · simp
  · rw [length_reverse, Nat.digits_length_le_iff h2]
    exact h.trans_le (Nat.pow_le_pow_left h2 64)

theorem lt_of_mem_digitsOf (h : d ∈ digitsOf base n) : d < 16 := by
  unfold digitsOf at h
  split at h
  · simp_all
  · exact (Nat.digits_lt_base base.two_le (mem_reverse.mp h)).trans_le base.le

/-- The digit that a character stands for. -/
def digitValue (c : Word) : Option Nat := (List.range 16).find? fun d => digitWord d == c

theorem digitValue_digitWord : ∀ d < 16, digitValue (digitWord d) = some d := by
  decide +kernel

/-- Blanks are no digits. -/
theorem filterMap_digitValue {l : List Nat} (h : ∀ d ∈ l, d < 16) (k : Nat) :
    (l.map digitWord ++ List.replicate k (charWord ' ')).filterMap digitValue = l := by
  have hblank : digitValue (charWord ' ') = none := by decide +kernel
  induction l with
  | nil => simp [hblank]
  | cons d l ih =>
    rw [forall_mem_cons] at h
    simpa [digitValue_digitWord d h.1] using ih h.2

/-- `int` subtraction wraps around for widths close to the smallest number. -/
theorem pad_eq_gap_iff (h : n ≤ 64) : (width - toWord n).toInt.toNat = gap width n ↔
    -2 ^ 31 ≤ width.toInt - n := by
  have hlt := width.isLt
  unfold gap
  rw [toInt_eq_toNat_cond, toInt_eq_toNat_cond, toNat_sub, toNat_ofNat]
  split <;> split <;> omega

theorem printnumDigits_eq (num : Nat) (width : Word) : printnumDigits base padc num width =
    List.replicate (width - toWord (digitsOf base num).length).toInt.toNat padc ++
      (digitsOf base num).map digitWord := by
  induction num using Nat.strong_induction_on generalizing width with
  | _ num ih =>
    have h2 := base.two_le
    unfold printnumDigits
    by_cases hle : base.value ≤ num
    · rw [if_pos hle, ih _ (Nat.div_lt_self (by omega) h2), digitsOf_step hle, List.map_append,
        List.length_append, List.append_assoc, BitVec.sub_sub]
      congr 4
      rw [List.length_singleton, Nat.add_comm, toWord_add]
      rfl
    · have hlt := Nat.lt_of_not_le hle
      rw [if_neg hle, digitsOf_of_lt hlt, Nat.mod_eq_of_lt hlt]
      rfl

theorem numRev_eq (n : Nat) : numRev base n = Nat.digits base.value n := by
  induction n using Nat.strong_induction_on with
  | _ n ih =>
    have h2 := base.two_le
    unfold numRev
    split
    · next h => rw [ih _ (Nat.div_lt_self h h2), Nat.digits_def' h2 h]
    · next h => rw [Nat.eq_zero_of_not_pos h, Nat.digits_zero]

/-- Padding on the right needs the number to be a positive `int`. -/
theorem printnumPadding_iff :
    printnumPadding num base width (charWord '-') = aligned num base width (charWord '-') ↔
      (0 < num.toNat ∧ num.toNat < 2 ^ 31) ∧
        -2 ^ 31 ≤ width.toInt - (digitsOf base num.toNat).length := by
  have hw : (num.setWidth 32).toNat = num.toNat % 2 ^ 32 := toNat_setWidth ..
  have hint := toInt_eq_toNat_cond (num.setWidth 32)
  have hval : Nat.ofDigits base.value (digitsOf base num.toNat).reverse = num.toNat := by
    unfold digitsOf
    split
    · next h0 => rw [h0]; rfl
    · rw [reverse_reverse, Nat.ofDigits_digits]
  have hrev : 0 < num.toNat ∧ num.toNat < 2 ^ 31 ↔
      (numRev base (num.setWidth 32).toInt.toNat).reverse = digitsOf base num.toNat := by
    rw [numRev_eq]
    constructor
    · rintro ⟨h0, hlt⟩
      rw [show (num.setWidth 32).toInt.toNat = num.toNat by split at hint <;> omega, digitsOf,
        if_neg (by omega)]
    · intro h
      rw [← h, reverse_reverse, Nat.ofDigits_digits] at hval
      by_cases h0 : num.toNat = 0
      · rw [hval, h0, digitsOf, if_pos rfl, Nat.digits_zero] at h
        cases h
      · split at hint <;> omega
  have hlen : (digitsOf base num.toNat).length ≤ 64 := digitsOf_length num.isLt
  have hdigits : ∀ d ∈ (numRev base (num.setWidth 32).toInt.toNat).reverse, d < 16 := by
    intro d hd
    rw [mem_reverse, numRev_eq] at hd
    exact (Nat.digits_lt_base base.two_le hd).trans_le base.le
  unfold printnumPadding aligned numeral
  generalize numRev base (num.setWidth 32).toInt.toNat = rev at hrev hdigits ⊢
  rw [if_pos rfl, if_pos rfl, hrev, length_map]
  dsimp only
  have hcount : rev.reverse = digitsOf base num.toNat →
      rev.length = (digitsOf base num.toNat).length := by
    intro heq
    rw [← heq, length_reverse]
  constructor
  · intro h
    have heq := congrArg (List.filterMap digitValue) h
    rw [filterMap_digitValue hdigits, filterMap_digitValue fun _ => lt_of_mem_digitsOf] at heq
    have hpad := congrArg List.length h
    rw [heq, hcount heq] at hpad
    simp only [length_append, length_replicate, Nat.add_left_cancel_iff] at hpad
    exact ⟨heq, (pad_eq_gap_iff hlen).mp hpad⟩
  · rintro ⟨heq, hpad⟩
    rw [heq, hcount heq, (pad_eq_gap_iff hlen).mpr hpad]

/-- Every number is printed in full, with its padding, except on the left of a field if it is not a
positive `int`. -/
theorem printnum_iff (num : BitVec 64) (base : Base) (width padc : Word) :
    printnum num base width padc = aligned num base width padc ↔
      (padc = charWord '-' → 0 < num.toNat ∧ num.toNat < 2 ^ 31) ∧
        -2 ^ 31 ≤ width.toInt - (digitsOf base num.toNat).length := by
  unfold printnum
  by_cases hp : padc = charWord '-'
  · subst hp
    rw [if_pos rfl, printnumPadding_iff]
    simp
  · have hlen : (numeral base num).length = (digitsOf base num.toNat).length := List.length_map ..
    rw [if_neg hp, printnumDigits_eq, aligned, if_neg hp, hlen, numeral, List.append_left_inj,
      List.replicate_inj, pad_eq_gap_iff (digitsOf_length num.isLt)]
    simp [hp]

/-- Zero on the left of a field: nothing but the padding is printed. -/
theorem printnum_drops_zero :
    printnum 0 .decimal 3 (charWord '-') = List.replicate 3 (charWord ' ') ∧
      aligned 0 .decimal 3 (charWord '-') = [charWord '0', charWord ' ', charWord ' '] := by
  refine ⟨?_, by decide +kernel⟩
  rw [printnum, if_pos rfl, printnumPadding, numRev_eq]
  decide +kernel

end Jos
