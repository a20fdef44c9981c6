import Mathlib.Data.List.Nodup

/-!
# Singly linked lists

`Chain next head l` says that following the links from `head` visits exactly the nodes of `l`, in
this order, and then ends. A change of links outside the list leaves the list alone.
-/

namespace Jos.Logic

variable {α : Type} {head : Option α} {next : α → Option α}

/-- Following `next` from `head` visits the nodes of the list and then stops. -/
def Chain (next : α → Option α) : Option α → List α → Prop
  | head, [] => head = none
  | head, a :: l => head = some a ∧ Chain next (next a) l

namespace Chain

variable {next next' : α → Option α} {head : Option α} {l l' : List α} {a : α}

@[simp] theorem nil_iff : Chain next head [] ↔ head = none := Iff.rfl

theorem exists_cons (h : Chain next (some a) l) : ∃ l', l = a :: l' ∧ Chain next (next a) l' := by
  cases l with
  | nil => cases h
  | cons b l =>
    obtain rfl := Option.some.inj h.1
    exact ⟨l, rfl, h.2⟩

theorem unique (h : Chain next head l) (h' : Chain next head l') : l = l' := by
  induction l generalizing head l' with
  | nil =>
    cases l' with
    | nil => rfl
    | cons b l' =>
      rw [nil_iff] at h
      rw [h] at h'
      cases h'.1
  | cons a l ih =>
    obtain ⟨rfl, hl⟩ := h
    obtain ⟨l', rfl, hl'⟩ := h'.exists_cons
    rw [ih hl hl']

theorem congr (h : Chain next head l) (heq : ∀ b ∈ l, next' b = next b) : Chain next' head l := by
  induction l generalizing head with
  | nil => exact h
  | cons a l ih =>
    obtain ⟨ha, hl⟩ := h
    refine ⟨ha, ?_⟩
    rw [heq a List.mem_cons_self]
    exact ih hl fun b hb => heq b (List.mem_cons_of_mem _ hb)

theorem push (h : Chain next head l) (hlink : next' a = head)
    (heq : ∀ b ∈ l, next' b = next b) : Chain next' (some a) (a :: l) :=
  ⟨rfl, hlink ▸ h.congr heq⟩

theorem snoc {b : α} (h : Chain next head (l ++ [b])) (hlast : next' b = some a)
    (hend : next' a = none) (heq : ∀ c ∈ l, next' c = next c) :
    Chain next' head (l ++ [b] ++ [a]) := by
  induction l generalizing head with
  | nil => exact ⟨h.1, hlast, hend⟩
  | cons c l ih =>
    obtain ⟨hc, hl⟩ := h
    refine ⟨hc, ?_⟩
    rw [heq c List.mem_cons_self]
    exact ih hl fun d hd => heq d (List.mem_cons_of_mem _ hd)

end Chain

/-- The node `a` lies on the list that starts at `head`. -/
def OnChain (next : α → Option α) (head : Option α) (a : α) : Prop :=
  ∃ l, Chain next head l ∧ a ∈ l

theorem OnChain.mem {a : α} {l : List α}
    (h : OnChain next head a) (hl : Chain next head l) : a ∈ l := by
  obtain ⟨l', hl', ha⟩ := h
  rwa [hl.unique hl']

/-- The nodes that are visited from `head`, if there are at most `fuel` of them. -/
def follow (next : α → Option α) : Nat → Option α → Option (List α)
  | _, none => some []
  | 0, some _ => none
  | fuel + 1, some a => (follow next fuel (next a)).map (a :: ·)

theorem Chain.of_follow {fuel : Nat} {l : List α}
    (h : follow next fuel head = some l) : Chain next head l := by
  induction fuel generalizing head l with
  | zero =>
    cases head with
    | none =>
      cases h
      rfl
    | some a => cases h
  | succ fuel ih =>
    cases head with
    | none =>
      cases h
      rfl
    | some a =>
      obtain ⟨l', hl', rfl⟩ := Option.map_eq_some_iff.mp h
      exact ⟨rfl, ih hl'⟩

/-- A list of consecutive numbers, threaded through a link field. -/
def upTo (n i : Nat) : Option Nat := if i + 1 < n then some (i + 1) else none

theorem chain_upTo {n : Nat} (m : Nat) : ∀ i, i + m = n →
    Chain (upTo n) (if i < n then some i else none) (List.range' i m) := by
  induction m with
  | zero =>
    intro i hi
    rw [if_neg (by omega)]
    rfl
  | succ m ih =>
    intro i hi
    rw [if_pos (by omega), List.range'_succ]
    exact ⟨rfl, ih (i + 1) (by omega)⟩

end Jos.Logic
