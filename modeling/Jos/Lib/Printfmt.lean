import Jos.Inc.Mmu

/-!
# Printing numbers (`lib/printfmt.c`)

`putch` takes an `int`: what is printed is a list of words. `vprintfmt` asks for three bases.
-/

namespace Jos

/-- The values of `base`. -/
inductive Base where
  | octal
  | decimal
  | hexadecimal

def Base.value : Base → Nat
  | .octal => 8
  | .decimal => 10
  | .hexadecimal => 16

theorem Base.two_le (base : Base) : 2 ≤ base.value := by
  cases base <;> decide

def charWord (c : Char) : Word := toWord c.toNat

/-- `"0123456789abcdef"[d]`. -/
def digitWord (d : Nat) : Word := ("0123456789abcdef".toList.map charWord).getD d 0

/-- The first loop of `printnum_padding`, with the digits that it puts into `num_rev`. -/
def numRev (base : Base) (numTmp : Nat) : List Nat :=
  if 0 < numTmp then numTmp % base.value :: numRev base (numTmp / base.value) else []
decreasing_by exact Nat.div_lt_self ‹_› base.two_le

/-- The number is held in an `int`. -/
def printnumPadding (num : BitVec 64) (base : Base) (width padc : Word) : List Word :=
  let rev := numRev base (num.setWidth 32).toInt.toNat
  let widthPadding := width - toWord rev.length
  let padcPadding := if padc = charWord '-' then charWord ' ' else charWord '0'
  rev.reverse.map digitWord ++ List.replicate widthPadding.toInt.toNat padcPadding

/-- The recursion of `printnum`. -/
def printnumDigits (base : Base) (padc : Word) (num : Nat) (width : Word) : List Word :=
  (if base.value ≤ num then printnumDigits base padc (num / base.value) (width - 1)
  else List.replicate (width - 1).toInt.toNat padc) ++ [digitWord (num % base.value)]
decreasing_by exact Nat.div_lt_self (by have := base.two_le; omega) base.two_le

def printnum (num : BitVec 64) (base : Base) (width padc : Word) : List Word :=
  if padc = charWord '-' then printnumPadding num base width padc
  else printnumDigits base padc num.toNat width

end Jos
