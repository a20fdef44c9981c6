import Mathlib.Tactic.Common
import Mathlib.Data.Int.ModEq

/-!
# A ring that holds the end of a history

Value number `j` of a history is kept in cell `j % n`, from number `r` on. A value that is added
replaces one that is older than `n` places.
-/

namespace Jos.Logic

variable {α : Type} {n r r' j : Nat} {cell : Nat → α} {hist : List α} {x : α}

/-- The cells hold the values of the history from number `r` on. -/
def RingHolds (n : Nat) (cell : Nat → α) (r : Nat) (hist : List α) : Prop :=
  ∀ j x, r ≤ j → hist[j]? = some x → cell (j % n) = x

namespace RingHolds

theorem nil : RingHolds n cell r [] := by
  intro j x _ hx
  cases hx

theorem mono (h : RingHolds n cell r hist) (hr : r ≤ r') : RingHolds n cell r' hist :=
  fun j x hj hx => h j x (le_trans hr hj) hx

theorem mod_ne_mod {i j : Nat} (hlt : i < j) (hnear : j < i + n) : i % n ≠ j % n := by
  intro h
  have hdvd : n ∣ j - i := (Nat.modEq_iff_dvd' hlt.le).mp h
  have := Nat.le_of_dvd (by omega) hdvd
  omega

theorem push (h : RingHolds n cell r hist) (hroom : hist.length < r + n) {cell' : Nat → α}
    (hnew : cell' (hist.length % n) = x)
    (hold : ∀ i, i ≠ hist.length % n → cell' i = cell i) :
    RingHolds n cell' r (hist ++ [x]) := by
  intro j y hj hy
  rcases Nat.lt_trichotomy j hist.length with hlt | rfl | hgt
  · rw [List.getElem?_append_left hlt] at hy
    rw [hold _ (mod_ne_mod hlt (by omega))]
    exact h j y hj hy
  · rw [List.getElem?_concat_length] at hy
    cases hy
    exact hnew
  · rw [List.getElem?_eq_none (by rw [List.length_append]; exact hgt)] at hy
    cases hy

end RingHolds

end Jos.Logic
