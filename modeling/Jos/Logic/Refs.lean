import Mathlib.Data.Finset.Card
import Mathlib.Data.Finset.Prod
import Mathlib.Algebra.BigOperators.Group.Finset.Basic
import Mathlib.Algebra.BigOperators.Group.Finset.Piecewise

/-!
# Counting references

`f i` is the object that the place `i` refers to, or `none`, and `refs S f q` is the number of
places in `S` that refer to `q`. The lemmas say how it changes when one place is rewritten and when
a block of places is added.
-/

namespace Jos.Logic

open Finset

variable {ι κ : Type} [DecidableEq κ]

/-- The number of places in `S` that refer to `q`. -/
def refs (S : Finset ι) (f : ι → Option κ) (q : κ) : Nat := #{i ∈ S | f i = some q}

variable {S T : Finset ι} {f g : ι → Option κ} {q : κ}

theorem refs_eq_zero_iff : refs S f q = 0 ↔ ∀ i ∈ S, f i ≠ some q := by
  simp [refs, filter_eq_empty_iff]

theorem refs_pos_iff : 0 < refs S f q ↔ ∃ i ∈ S, f i = some q := by
  simp [refs, card_pos, Finset.Nonempty, mem_filter]

theorem refs_congr (h : ∀ i ∈ S, f i = g i) : refs S f q = refs S g q := by
  unfold refs
  congr 1
  apply filter_congr
  intro i hi
  rw [h i hi]

theorem refs_mono (h : ∀ i ∈ S, f i = some q → i ∈ T ∧ g i = some q) : refs S f q ≤ refs T g q := by
  apply card_le_card
  intro i hi
  rw [mem_filter] at hi ⊢
  exact h i hi.1 hi.2

theorem refs_eq_one {i : ι} (hi : i ∈ S) (h : f i = some q)
    (hother : ∀ j ∈ S, f j = some q → j = i) : refs S f q = 1 := by
  unfold refs
  rw [card_eq_one]
  refine ⟨i, ?_⟩
  ext j
  rw [mem_filter, mem_singleton]
  constructor
  · rintro ⟨hj, hq⟩
    exact hother j hj hq
  · rintro rfl
    exact ⟨hi, h⟩

/-- Rewriting the one place `i` moves one reference from its old to its new object. -/
theorem refs_rewrite [DecidableEq ι] {i : ι} (hi : i ∈ S) (h : ∀ j ∈ S, j ≠ i → g j = f j) :
    refs S g q + (if f i = some q then 1 else 0) =
      refs S f q + (if g i = some q then 1 else 0) := by
  have hrest : ∑ j ∈ S.erase i, (if g j = some q then 1 else 0) =
      ∑ j ∈ S.erase i, (if f j = some q then 1 else 0) := by
    refine sum_congr rfl fun j hj => ?_
    rw [h j (mem_of_mem_erase hj) (ne_of_mem_erase hj)]
  unfold refs
  rw [card_filter, card_filter, ← add_sum_erase S _ hi,
    ← add_sum_erase S (fun j => if f j = some q then 1 else 0) hi, hrest]
  omega

theorem refs_subset (hST : S ⊆ T) (h : ∀ i ∈ T, i ∉ S → f i = none) : refs T f q = refs S f q := by
  unfold refs
  congr 1
  ext i
  simp only [mem_filter]
  constructor
  · rintro ⟨hi, hq⟩
    refine ⟨?_, hq⟩
    by_contra hn
    rw [h i hi hn] at hq
    cases hq
  · rintro ⟨hi, hq⟩
    exact ⟨hST hi, hq⟩

/-- The places of two disjoint families are counted apart. -/
theorem refs_union [DecidableEq ι] (h : Disjoint S T) :
    refs (S ∪ T) f q = refs S f q + refs T f q := by
  unfold refs
  rw [filter_union, card_union_of_disjoint (disjoint_filter_filter h)]

end Jos.Logic
