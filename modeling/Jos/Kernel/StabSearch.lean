import Jos.Kern.Kdebug

/-!
# The search in a table of stabs ends

After an exact match the interval may stay as it is, but then the first entry does not match in the
next round. So twice its length, and one more while the first entry matches, decreases.
-/

namespace Jos

variable {stabs : Int → Option Stab} {L R l r m : Int} {addr : Word} {fuel : Nat}
  {res : Int × Int × Bool}

theorem int32_eq {x : Int} (h : -2 ^ 31 ≤ x) (h' : x < 2 ^ 31) : int32 x = x := by
  rw [int32, Int.bmod_def]
  omega

/-- The table has the entries from `L` to `R`. -/
def Covers (stabs : Int → Option Stab) (L R : Int) : Prop :=
  ∀ i, L ≤ i → i ≤ R → ∃ stab, stabs i = some stab

theorem Covers.seekType (htab : Covers stabs l m) (type : Int) (hl : 0 ≤ l) (hm : m < 2 ^ 31)
    (hpos : 0 < fuel) (hfuel : m + 1 - l < fuel) :
    ∃ m', Jos.seekType stabs type l fuel m = some m' ∧ m' ≤ m := by
  induction fuel generalizing m with
  | zero => omega
  | succ fuel ih =>
    unfold Jos.seekType
    by_cases hlt : m < l
    · exact ⟨m, if_pos hlt, Int.le_refl _⟩
    · obtain ⟨stab, hstab⟩ := htab m (by omega) (Int.le_refl _)
      simp only [if_neg hlt, hstab, Option.bind_eq_bind, Option.bind_some]
      by_cases htype : (stab.nType.toNat : Int) = type
      · exact ⟨m, if_pos htype, Int.le_refl _⟩
      · rw [if_neg htype, int32_eq (by omega) (by omega)]
        obtain ⟨m', hm', hle⟩ := ih (m := m - 1) (fun i h h' => htab i h (by omega)) (by omega)
          (by omega) (by omega)
        exact ⟨m', hm', by omega⟩

/-- What the search leaves in the variables: the region is inside the one that was given. -/
def Inner (L R : Int) (res : Int × Int × Bool) : Prop :=
  L ≤ res.1 ∧ res.1 < 2 ^ 30 ∧ res.2.1 ≤ R

/-- `fuel` bounds the measure. -/
def Enough (stabs : Int → Option Stab) (l r : Int) (addr : Word) (fuel : Nat) : Prop :=
  2 * (r + 1 - l) + 3 ≤ fuel ∨
    2 * (r + 1 - l) + 2 ≤ fuel ∧ ∀ stab, stabs l = some stab → stab.nValue ≠ addr

theorem Covers.searchLoop (htab : Covers stabs L R) (type : Int) (hL : 0 ≤ L) (hR : R < 2 ^ 30)
    (hl : L ≤ l) (hl' : l ≤ 2 ^ 30) (hr : r ≤ R) (hres : Inner L R res) (hpos : 0 < fuel)
    (hfuel : Enough stabs l r addr fuel) :
    ∃ res', Jos.searchLoop stabs type fuel l r addr res = some res' ∧ Inner L R res' := by
  induction fuel generalizing l r addr res with
  | zero => omega
  | succ fuel ih =>
    obtain ⟨left, right, anyMatches⟩ := res
    obtain ⟨hleft, hleft', hright⟩ := hres
    have hmeasure : 2 * (r + 1 - l) + 1 ≤ fuel := by
      rcases hfuel with h | h <;> omega
    unfold Jos.searchLoop
    by_cases hlt : r < l
    · exact ⟨_, if_pos hlt, hleft, hleft', hright⟩
    · have hmid : (int32 (l + r)).tdiv 2 = (l + r) / 2 := by
        rw [int32_eq (by omega) (by omega), Int.tdiv_eq_ediv_of_nonneg (by omega)]
      have hpart : Covers stabs l ((l + r) / 2) := fun i h h' => htab i (by omega) (by omega)
      obtain ⟨m, hm, hhigh⟩ := hpart.seekType type (by omega) (by omega)
        (show 0 < fuel by omega) (by omega)
      have hnext : int32 ((l + r) / 2 + 1) = (l + r) / 2 + 1 := int32_eq (by omega) (by omega)
      simp only [if_neg hlt, hmid, hm, hnext, Option.bind_eq_bind, Option.bind_some]
      by_cases hml : m < l
      · rw [if_pos hml]
        exact ih (by omega) (by omega) hr ⟨hleft, hleft', hright⟩ (by omega) (.inl (by omega))
      · obtain ⟨stab, hstab⟩ := htab m (by omega) (by omega)
        rw [if_neg hml, hstab, Option.bind_some]
        have hprev : int32 (m - 1) = m - 1 := int32_eq (by omega) (by omega)
        by_cases hbelow : stab.nValue < addr
        · rw [if_pos hbelow]
          exact ih (by omega) (by omega) hr ⟨by dsimp; omega, by dsimp; omega, hright⟩ (by omega)
            (.inl (by omega))
        · rw [if_neg hbelow]
          by_cases habove : addr < stab.nValue
          · rw [if_pos habove, hprev]
            exact ih hl hl' (by omega) ⟨hleft, hleft', by dsimp; omega⟩ (by omega)
              (.inl (by omega))
          · -- an exact match: the interval is smaller, or `m` is its first entry
            rw [if_neg habove]
            refine ih (by omega) (by omega) hr ⟨by dsimp; omega, by dsimp; omega, hright⟩
              (by omega) ?_
            rcases (show l < m ∨ l = m by omega) with hlm | rfl
            · exact .inl (by omega)
            · have heq : stab.nValue = addr := by bv_omega
              refine .inr ⟨?_, fun stab' hstab' => ?_⟩
              · rcases hfuel with h | ⟨-, h⟩
                · omega
                · exact absurd heq (h stab hstab)
              · rw [hstab] at hstab'
                cases hstab'
                rw [heq]
                bv_omega

/-- In every table, whatever it holds: the search ends, and reads entries of the region only, since
no other entries need be there. -/
theorem stabBinsearch_ends (stabs : Int → Option Stab) (type L R : Int) (addr : Word)
    (hL : 0 ≤ L) (hL' : L < 2 ^ 30) (hR : R < 2 ^ 30) (htab : Covers stabs L R) :
    ∃ fuel region, stabBinsearch stabs type L R addr fuel = some region := by
  have hbound : 2 * (R + 1 - L) + 3 ≤ ((2 * (R + 1 - L) + 3).toNat + 1 : Nat) := by omega
  have hstart : Inner L R (L, R, false) := ⟨Int.le_refl _, hL', Int.le_refl _⟩
  obtain ⟨⟨left, right, anyMatches⟩, hres, hleft, hleft', hright⟩ := htab.searchLoop type hL hR
    (Int.le_refl _) (Int.le_of_lt hL') (Int.le_refl _) hstart (Nat.succ_pos _)
    (show Enough stabs L R addr _ from .inl hbound)
  refine ⟨(2 * (R + 1 - L) + 3).toNat + 1, ?_⟩
  dsimp only at hleft hleft' hright
  have hpart : Covers stabs (left + 1) right := fun i h h' => htab i (by omega) (by omega)
  obtain ⟨l, hl, -⟩ := hpart.seekType type (by omega) (by omega)
    (Nat.succ_pos (2 * (R + 1 - L) + 3).toNat) (by omega)
  have hnext : int32 (left + 1) = left + 1 := int32_eq (by omega) (by omega)
  cases anyMatches with
  | false => exact ⟨_, by rw [stabBinsearch, hres]; rfl⟩
  | true => exact ⟨(l, right), by simp [stabBinsearch, hres, hnext, hl]⟩

/-- Two entries with the last address. -/
theorem stabBinsearch_ends_last : ∃ fuel region, stabBinsearch
    (fun i => if 0 ≤ i ∧ i ≤ 1 then some ⟨0x24, 0xffffffff⟩ else none) 0x24 0 1 0xffffffff fuel =
      some region :=
  stabBinsearch_ends _ _ 0 1 _ (by decide) (by decide) (by decide) fun _ h h' =>
    ⟨_, if_pos ⟨h, h'⟩⟩

end Jos
