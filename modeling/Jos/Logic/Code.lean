import Mathlib.Tactic.Common
import Mathlib.Logic.Function.Basic

/-!
# Code that returns, leaves or panics

Code run in a state of type `σ` returns a value, leaves for good (a call that never comes back), or
panics. `Code ε σ α` is the monad of such code, and `wp` its weakest precondition: a return
satisfies `Q` and a departure `E`. A panic satisfies every postcondition, because no state follows
it.
-/

namespace Jos.Logic

/-- How a piece of code ends. -/
inductive Outcome (ε σ α : Type) where
  | ret (value : α) (state : σ)
  | exit (state : σ)
  | panic (reason : ε)

namespace Outcome

variable {ε σ α : Type} {o : Outcome ε σ α}

/-- The state that an outcome leaves, or `s` if it leaves none. -/
def after (o : Outcome ε σ α) (s : σ) : σ :=
  match o with
  | .ret _ s' => s'
  | .exit s' => s'
  | .panic _ => s

/-- The returned value satisfies `f`. -/
def returns (o : Outcome ε σ α) (f : α → Bool) : Bool :=
  match o with
  | .ret a _ => f a
  | _ => false

/-- The returned value and the state that is left satisfy `f`. -/
def check (o : Outcome ε σ α) (f : α → σ → Bool) : Bool :=
  match o with
  | .ret a s => f a s
  | _ => false

def panics (o : Outcome ε σ α) (f : ε → Bool) : Bool :=
  match o with
  | .panic e => f e
  | _ => false

def leaves (o : Outcome ε σ α) : Bool :=
  match o with
  | .exit _ => true
  | _ => false

theorem panic_of_panics {f : ε → Bool} (h : o.panics f) : ∃ e, o = .panic e ∧ f e = true := by
  cases o with
  | ret a s' => cases h
  | exit s' => cases h
  | panic e => exact ⟨e, rfl, h⟩

theorem eq_panic [DecidableEq ε] {e : ε} (h : o.panics (· = e)) : o = .panic e := by
  obtain ⟨e', hpanic, he⟩ := panic_of_panics h
  cases of_decide_eq_true he
  exact hpanic

theorem ret_of_returns {f : α → Bool} (h : o.returns f) (s : σ) :
    ∃ a, o = .ret a (o.after s) ∧ f a := by
  cases o with
  | ret a s' => exact ⟨a, rfl, h⟩
  | exit s' => cases h
  | panic e => cases h

/-- How a run on a fixed input is evaluated. -/
theorem eq_ret [DecidableEq α] {a : α} (s : σ) (h : o.returns (· = a)) :
    o = .ret a (o.after s) := by
  obtain ⟨b, hret, hb⟩ := ret_of_returns h s
  cases of_decide_eq_true hb
  exact hret

theorem ret_of_check {f : α → σ → Bool} (h : o.check f) : ∃ a s, o = .ret a s ∧ f a s := by
  cases o with
  | ret a s => exact ⟨a, s, rfl, h⟩
  | exit s => cases h
  | panic e => cases h

theorem exit_of_leaves (h : o.leaves) (s : σ) : o = .exit (o.after s) := by
  cases o with
  | ret a s' => cases h
  | exit s' => rfl
  | panic e => cases h

end Outcome

/-- Code that reads and writes a state of type `σ`. -/
def Code (ε σ α : Type) : Type := σ → Outcome ε σ α

namespace Code

variable {ε σ τ α β : Type}

/-- Sequential composition: only a return reaches the continuation. -/
protected def bind (m : Code ε σ α) (f : α → Code ε σ β) : Code ε σ β := fun s =>
  match m s with
  | .ret a s' => f a s'
  | .exit s' => .exit s'
  | .panic e => .panic e

instance : Monad (Code ε σ) where
  pure a := fun s => .ret a s
  bind := Code.bind

def panic (e : ε) : Code ε σ α := fun _ => .panic e

def exit : Code ε σ α := fun s => .exit s

def get : Code ε σ σ := fun s => .ret s s

def modify (f : σ → σ) : Code ε σ Unit := fun s => .ret () (f s)

/-- Run code on the part of the state selected by `view`; `put` writes the part back. -/
def zoom (view : σ → τ) (put : σ → τ → σ) (m : Code ε τ α) : Code ε σ α := fun s =>
  match m (view s) with
  | .ret a t => .ret a (put s t)
  | .exit t => .exit (put s t)
  | .panic e => .panic e

/-- Run `body 0`, …, `body (n - 1)` in this order. -/
def times : Nat → (Nat → Code ε σ Unit) → Code ε σ Unit
  | 0, _ => pure ()
  | n + 1, body => do
      times n body
      body n

theorem pure_apply (a : α) (s : σ) : (pure a : Code ε σ α) s = .ret a s := rfl

theorem bind_apply (m : Code ε σ α) (f : α → Code ε σ β) (s : σ) : (m >>= f) s = match m s with
      | .ret a s' => f a s'
      | .exit s' => .exit s'
      | .panic e => .panic e := rfl

theorem get_apply (s : σ) : (get : Code ε σ σ) s = .ret s s := rfl

theorem modify_apply (f : σ → σ) (s : σ) : (modify f : Code ε σ Unit) s = .ret () (f s) := rfl

/-- Executing a sequence: the first part returns, and the rest gives the outcome. -/
theorem bind_run {m : Code ε σ α} {f : α → Code ε σ β} {s s' : σ} {a : α} {r : Outcome ε σ β}
    (h : m s = .ret a s') (hr : f a s' = r) : (m >>= f) s = r := by
  rw [bind_apply, h]
  exact hr

theorem bind_panic {m : Code ε σ α} {f : α → Code ε σ β} {s : σ} {e : ε} (h : m s = .panic e) :
    (m >>= f) s = .panic e := by
  rw [bind_apply, h]

theorem bind_exit {m : Code ε σ α} {f : α → Code ε σ β} {s s' : σ} (hm : m s = .exit s') :
    (m >>= f) s = .exit s' := by
  rw [bind_apply, hm]

theorem ret_of_bind {m : Code ε σ α} {f : α → Code ε σ β} {s s'' : σ} {b : β}
    (h : (m >>= f) s = .ret b s'') : ∃ a s', m s = .ret a s' ∧ f a s' = .ret b s'' := by
  rw [bind_apply] at h
  cases hm : m s with
  | ret a s' =>
    rw [hm] at h
    exact ⟨a, s', rfl, h⟩
  | exit s' =>
    rw [hm] at h
    cases h
  | panic e =>
    rw [hm] at h
    cases h

/-- A counted loop whose rounds all return: `I i` holds before the round `i`. -/
theorem times_run {n : Nat} {body : Nat → Code ε σ Unit} {s : σ} (I : Nat → σ → Prop) (h0 : I 0 s)
    (hbody : ∀ i, i < n → ∀ s', I i s' → ∃ s'', body i s' = .ret () s'' ∧ I (i + 1) s'') :
    ∃ s', times n body s = .ret () s' ∧ I n s' := by
  induction n with
  | zero => exact ⟨s, rfl, h0⟩
  | succ n ih =>
    obtain ⟨s', hs', hI⟩ := ih fun i hi => hbody i (by omega)
    obtain ⟨s'', hs'', hI'⟩ := hbody n (by omega) s' hI
    exact ⟨s'', bind_run hs' hs'', hI'⟩

theorem zoom_of_ret {view : σ → τ} {put : σ → τ → σ} {m : Code ε τ α} {s : σ} {a : α} {t : τ}
    (h : m (view s) = .ret a t) : zoom view put m s = .ret a (put s t) := by
  unfold zoom
  rw [h]

theorem zoom_of_panic {view : σ → τ} {put : σ → τ → σ} {m : Code ε τ α} {s : σ} {e : ε}
    (h : m (view s) = .panic e) : zoom view put m s = .panic e := by
  unfold zoom
  rw [h]

/-- Every return satisfies `Q` and every departure satisfies `E`. -/
def wp (m : Code ε σ α) (Q : α → σ → Prop) (E : σ → Prop) (s : σ) : Prop :=
  match m s with
  | .ret a s' => Q a s'
  | .exit s' => E s'
  | .panic _ => True

variable {Q : α → σ → Prop} {E : σ → Prop} {s : σ}

@[simp] theorem wp_pure {a : α} : wp (pure a : Code ε σ α) Q E s ↔ Q a s := Iff.rfl

@[simp] theorem wp_panic {e : ε} : wp (panic e : Code ε σ α) Q E s := trivial

@[simp] theorem wp_exit : wp (exit : Code ε σ α) Q E s ↔ E s := Iff.rfl

@[simp] theorem wp_get {Q : σ → σ → Prop} : wp (get : Code ε σ σ) Q E s ↔ Q s s := Iff.rfl

@[simp] theorem wp_modify {f : σ → σ} {Q : Unit → σ → Prop} :
    wp (modify f : Code ε σ Unit) Q E s ↔ Q () (f s) := Iff.rfl

@[simp] theorem wp_bind {m : Code ε σ α} {f : α → Code ε σ β} {Q : β → σ → Prop} :
    wp (m >>= f) Q E s ↔ wp m (fun a s' => wp (f a) Q E s') E s := by
  unfold wp
  rw [bind_apply]
  cases m s <;> rfl

@[simp] theorem wp_zoom {view : σ → τ} {put : σ → τ → σ} {m : Code ε τ α} :
    wp (zoom view put m) Q E s ↔
      wp m (fun a t => Q a (put s t)) (fun t => E (put s t)) (view s) := by
  unfold wp zoom
  cases m (view s) <;> rfl

@[simp] theorem wp_ite {c : Prop} [Decidable c] {m m' : Code ε σ α} :
    wp (if c then m else m') Q E s ↔ (c → wp m Q E s) ∧ (¬c → wp m' Q E s) := by
  by_cases h : c <;> simp [h]

theorem wp_congr {m m' : Code ε σ α} (h : m s = m' s) : wp m Q E s ↔ wp m' Q E s := by
  unfold wp
  rw [h]

theorem wp_of_ret {m : Code ε σ α} {a : α} {s' : σ} (h : m s = .ret a s') :
    wp m Q E s ↔ Q a s' := by
  unfold wp
  rw [h]

theorem ret_of_wp {m : Code ε σ α} {a : α} {s' : σ} (h : wp m Q E s)
    (hr : m s = .ret a s') : Q a s' := (wp_of_ret hr).mp h

theorem exit_of_wp {m : Code ε σ α} {s' : σ} (h : wp m Q E s) (hr : m s = .exit s') : E s' := by
  unfold wp at h
  rw [hr] at h
  exact h

-- From here on preconditions are taken apart by the rules above and not by unfolding.
attribute [irreducible] wp

theorem wp_mono {m : Code ε σ α} {Q' : α → σ → Prop} {E' : σ → Prop} (h : wp m Q E s)
    (hQ : ∀ a s', Q a s' → Q' a s') (hE : ∀ s', E s' → E' s') : wp m Q' E' s := by
  unfold wp at h ⊢
  cases hm : m s with
  | ret a s' => rw [hm] at h; exact hQ a s' h
  | exit s' => rw [hm] at h; exact hE s' h
  | panic e => trivial

theorem wp_imp {m : Code ε σ α} {Q' : α → σ → Prop} (h : wp m Q E s)
    (hQ : ∀ a s', Q a s' → Q' a s') : wp m Q' E s :=
  wp_mono h hQ fun _ h => h

theorem wp_and {m : Code ε σ α} {Q' : α → σ → Prop} {E' : σ → Prop} (h : wp m Q E s)
    (h' : wp m Q' E' s) : wp m (fun a s' => Q a s' ∧ Q' a s') (fun s' => E s' ∧ E' s') s := by
  unfold wp at h h' ⊢
  cases hm : m s with
  | ret a s' => rw [hm] at h h'; exact ⟨h, h'⟩
  | exit s' => rw [hm] at h h'; exact ⟨h, h'⟩
  | panic e => trivial

/-- The loop rule: `I i` holds before the round `i`. -/
theorem wp_times {n : Nat} {body : Nat → Code ε σ Unit} (I : Nat → σ → Prop) (h0 : I 0 s)
    (hbody : ∀ i, i < n → ∀ s', I i s' → wp (body i) (fun _ => I (i + 1)) E s') :
    wp (times n body) (fun _ => I n) E s := by
  induction n with
  | zero => exact wp_pure.mpr h0
  | succ n ih =>
    rw [times, wp_bind]
    refine wp_imp (ih fun i hi => hbody i (by omega)) ?_
    intro _ s' hs'
    exact hbody n (by omega) s' hs'

/-- The code, started in `s`, ends in `s'`, by returning or by leaving. -/
def Leads (m : Code ε σ α) (s s' : σ) : Prop := (∃ a, m s = .ret a s') ∨ m s = .exit s'

theorem Leads.of_wp {m : Code ε σ α} {P : σ → Prop} {s' : σ} (h : Leads m s s')
    (hw : wp m (fun _ => P) P s) : P s' := by
  rcases h with ⟨a, hr⟩ | hr
  · exact ret_of_wp hw hr
  · exact exit_of_wp hw hr

/-- No run leaves. -/
structure NoExit (m : Code ε σ α) : Prop where
  stays : ∀ s, wp m (fun _ _ => True) (fun _ => False) s

namespace NoExit

theorem wp {m : Code ε σ α} (h : NoExit m) (hQ : ∀ a s', m s = .ret a s' → Q a s') :
    wp m Q E s := by
  have hs := h.stays s
  unfold Code.wp at hs ⊢
  cases hm : m s with
  | ret a s' => exact hQ a s' hm
  | exit s' =>
    rw [hm] at hs
    exact hs.elim
  | panic e => trivial

theorem bind {m : Code ε σ α} {f : α → Code ε σ β} (h : NoExit m) (hf : ∀ a, NoExit (f a)) :
    NoExit (m >>= f) := ⟨fun _ => wp_bind.mpr (h.wp fun a s' _ => (hf a).stays s')⟩

theorem pure (a : α) : NoExit (Pure.pure a : Code ε σ α) := ⟨fun _ => wp_pure.mpr trivial⟩

theorem get : NoExit (get : Code ε σ σ) := ⟨fun _ => wp_get.mpr trivial⟩

theorem modify (f : σ → σ) : NoExit (modify f : Code ε σ Unit) := ⟨fun _ => wp_modify.mpr trivial⟩

theorem panic (e : ε) : NoExit (panic e : Code ε σ α) := ⟨fun _ => wp_panic⟩

theorem ite {c : Prop} [Decidable c] {m m' : Code ε σ α} (h : NoExit m) (h' : NoExit m') :
    NoExit (if c then m else m') := by
  split
  · exact h
  · exact h'

theorem times {n : Nat} {body : Nat → Code ε σ Unit} (h : ∀ i, NoExit (body i)) :
    NoExit (times n body) := by
  induction n with
  | zero => exact .pure ()
  | succ n ih => exact ih.bind fun _ => h n

end NoExit

end Code

export Code (wp wp_bind wp_pure wp_ite wp_of_ret wp_imp wp_mono wp_modify wp_get wp_panic wp_zoom
  wp_times wp_exit wp_and bind_run get_apply modify_apply bind_apply pure_apply exit_of_wp
  ret_of_wp ret_of_bind zoom_of_ret bind_panic times_run)

end Jos.Logic
