import Jos.Inc.Mmu

/-!
# The search in a table of stabs (`kern/kdebug.c`)

The table is partial: the search fails if it reads an entry that is not there. It fails as well when
the fuel, a bound on the rounds of each loop, is used up.
-/

namespace Jos

structure Stab where
  nType : BitVec 8
  nValue : Word

/-- The value of an `int` after an operation that may overflow. -/
def int32 (x : Int) : Int := x.bmod (2 ^ 32)

variable (stabs : Int → Option Stab) (type : Int)

/-- The loop that goes down from `m` to `l` until it finds the type. -/
def seekType (l : Int) : Nat → Int → Option Int
  | 0, _ => none
  | fuel + 1, m =>
    if m < l then some m
    else do
      let stab ← stabs m
      if stab.nType.toNat = type then return m
      seekType l fuel (int32 (m - 1))

/-- The binary search, with the values of `*region_left`, `*region_right` and `any_matches`. -/
def searchLoop : Nat → Int → Int → Word → Int × Int × Bool → Option (Int × Int × Bool)
  | 0, _, _, _, _ => none
  | fuel + 1, l, r, addr, (left, right, anyMatches) =>
    if r < l then some (left, right, anyMatches)
    else do
      let trueM := (int32 (l + r)).tdiv 2
      let m ← seekType stabs type l fuel trueM
      if m < l then searchLoop fuel (int32 (trueM + 1)) r addr (left, right, anyMatches)
      else
        let stab ← stabs m
        if stab.nValue < addr then
          searchLoop fuel (int32 (trueM + 1)) r addr (m, right, true)
        else if addr < stab.nValue then
          searchLoop fuel l (int32 (m - 1)) addr (left, int32 (m - 1), true)
        else searchLoop fuel m r (addr + 1) (m, right, true)

def stabBinsearch (left right : Int) (addr : Word) (fuel : Nat) : Option (Int × Int) := do
  let (left, right, anyMatches) ← searchLoop stabs type fuel left right addr (left, right, false)
  if anyMatches = false then return (left, int32 (left - 1))
  let l ← seekType stabs type (int32 (left + 1)) fuel right
  return (l, right)

end Jos
