import Mathlib.Data.Nat.Find
import Mathlib.Data.Nat.ModEq

/-!
# Turns in a circle

`First` is the first slot that asks for a turn in circular order from a start slot. If every tour
starts just after the slot served last, fewer than `n` tours in a row pass over a slot that keeps
asking (`First.passed_lt`).
-/

namespace Jos.Logic

/-- `e` is the first slot with `p`, in circular order from the slot `s`. -/
def First (n s : Nat) (p : Nat → Prop) (e : Nat) : Prop :=
  ∃ j < n, e = (s + j) % n ∧ p e ∧ ∀ i < j, ¬ p ((s + i) % n)

variable {n s e r : Nat} {p : Nat → Prop}

theorem First.lt (h : First n s p e) : e < n := by
  obtain ⟨j, hj, rfl, -, -⟩ := h
  exact Nat.mod_lt _ (by omega)

theorem First.holds (h : First n s p e) : p e := by
  obtain ⟨j, -, -, hp, -⟩ := h
  exact hp

/-- The number of slots between the start and `r`. -/
def toGo (n s r : Nat) : Nat := (r + n - s % n) % n

theorem toGo_lt (hn : 0 < n) : toGo n s r < n := Nat.mod_lt _ hn

theorem toGo_reaches (hr : r < n) : (s + toGo n s r) % n = r := by
  have hs : s % n < n := Nat.mod_lt _ (by omega)
  have hle : s % n ≤ r + n := by omega
  unfold toGo
  calc (s + (r + n - s % n) % n) % n = (s % n + (r + n - s % n)) % n := by
        rw [Nat.add_mod, Nat.mod_mod, ← Nat.add_mod, ← Nat.mod_add_mod]
    _ = (r + n) % n := by rw [Nat.add_sub_cancel' hle]
    _ = r := by rw [Nat.add_mod_right, Nat.mod_eq_of_lt hr]

theorem toGo_eq {j : Nat} (hj : j < n) (h : (s + j) % n = r) : toGo n s r = j := by
  have hr : r < n := h ▸ Nat.mod_lt _ (by omega)
  have hsame : (s + toGo n s r) % n = (s + j) % n := by rw [toGo_reaches hr, h]
  have hmod : toGo n s r % n = j % n := Nat.ModEq.add_left_cancel' s hsame
  rwa [Nat.mod_eq_of_lt (toGo_lt (by omega)), Nat.mod_eq_of_lt hj] at hmod

theorem First.exists (hr : r < n) (hp : p r) : ∃ e, First n s p e := by
  classical
  have hex : ∃ j, p ((s + j) % n) := ⟨toGo n s r, by rwa [toGo_reaches hr]⟩
  refine ⟨(s + Nat.find hex) % n, Nat.find hex, ?_, rfl, Nat.find_spec hex, ?_⟩
  · have hle : Nat.find hex ≤ toGo n s r := Nat.find_min' hex (by rwa [toGo_reaches hr])
    exact lt_of_le_of_lt hle (toGo_lt (by omega))
  · exact fun i hi => Nat.find_min hex hi

/-- A turn that another slot takes brings the next start nearer to `r`. -/
theorem First.nearer (h : First n s p e) (hr : r < n) (hp : p r) (hne : e ≠ r) :
    toGo n (e + 1) r < toGo n s r := by
  obtain ⟨j, hj, rfl, -, hbefore⟩ := h
  have hreach := toGo_reaches (s := s) hr
  have hjr : j < toGo n s r := by
    rcases lt_trichotomy j (toGo n s r) with hlt | heq | hgt
    · exact hlt
    · exact absurd (heq ▸ hreach) hne
    · exact absurd (hreach.symm ▸ hp) (hbefore _ hgt)
  have hrest : toGo n ((s + j) % n + 1) r = toGo n s r - (j + 1) := by
    refine toGo_eq (lt_of_le_of_lt (Nat.sub_le _ _) (toGo_lt (by omega))) ?_
    rw [Nat.add_assoc, Nat.mod_add_mod]
    have hsum : s + j + (1 + (toGo n s r - (j + 1))) = s + toGo n s r := by omega
    rw [hsum, hreach]
  omega

/-- Fewer than `n` tours in a row pass over a slot that asks. -/
theorem First.passed_lt {tours : Nat} {start served : Nat → Nat} {asks : Nat → Nat → Prop}
    (hfirst : ∀ t < tours, First n (start t) (asks t) (served t))
    (hnext : ∀ t < tours, start (t + 1) = served t + 1) (hr : r < n)
    (hasks : ∀ t < tours, asks t r) (hpassed : ∀ t < tours, served t ≠ r) : tours < n := by
  have hbound : ∀ t ≤ tours, toGo n (start t) r + t < n := by
    intro t
    induction t with
    | zero => exact fun _ => toGo_lt (by omega)
    | succ t ih =>
      intro ht
      have hlt := (hfirst t ht).nearer hr (hasks t ht) (hpassed t ht)
      rw [← hnext t ht] at hlt
      have := ih (by omega)
      omega
  have := hbound tours le_rfl
  omega

end Jos.Logic
