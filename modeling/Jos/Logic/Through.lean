import Jos.Logic.Code

/-!
# Runs seen through a projection

`Code.Runs π m g a g'` says that the code `m`, started in any state that the projection `π` shows as
`g`, returns `a` in a state that `π` shows as `g'`. Such runs compose, and they are total.
-/

namespace Jos.Logic.Code

variable {ε σ γ α β : Type} {π : σ → γ}

/-- Started where `π` shows `g`, the code returns `a` where `π` shows `g'`. -/
def Runs (π : σ → γ) (m : Code ε σ α) (g : γ) (a : α) (g' : γ) : Prop :=
  ∀ s, π s = g → ∃ s', m s = .ret a s' ∧ π s' = g'

/-- Started where `π` shows `g`, the code panics. -/
def Panics (π : σ → γ) (m : Code ε σ α) (g : γ) : Prop := ∀ s, π s = g → ∃ e, m s = .panic e

namespace Runs

variable {m : Code ε σ α} {f : α → Code ε σ β} {g g' g'' : γ} {a : α} {b : β}

theorem pure (a : α) (g : γ) : Runs π (Pure.pure a : Code ε σ α) g a g := fun s hs => ⟨s, rfl, hs⟩

theorem bind (h : Runs π m g a g') (h' : Runs π (f a) g' b g'') : Runs π (m >>= f) g b g'' := by
  intro s hs
  obtain ⟨s', hm, hs'⟩ := h s hs
  obtain ⟨s'', hf, hs''⟩ := h' s' hs'
  exact ⟨s'', bind_run hm hf, hs''⟩

/-- Reading the state gives one that the projection shows as the present one. -/
theorem get_bind {f : σ → Code ε σ β} (h : ∀ s, π s = g → Runs π (f s) g b g') :
    Runs π (Code.get >>= f) g b g' := fun s hs => h s hs s hs

theorem modify {u : σ → σ} (h : ∀ s, π s = g → π (u s) = g') :
    Runs π (Code.modify u : Code ε σ Unit) g () g' := fun s hs => ⟨u s, rfl, h s hs⟩

theorem ite_pos {c : Prop} [Decidable c] {m' : Code ε σ α} (hc : c) (h : Runs π m g a g') :
    Runs π (if c then m else m') g a g' := by
  rw [if_pos hc]
  exact h

theorem ite_neg {c : Prop} [Decidable c] {m' : Code ε σ α} (hc : ¬c) (h : Runs π m' g a g') :
    Runs π (if c then m else m') g a g' := by
  rw [if_neg hc]
  exact h

/-- A branch whose result is a branch on the same condition. -/
theorem ite {c : Prop} [Decidable c] {m' : Code ε σ α} {a' : α} (h : c → Runs π m g a g')
    (h' : ¬c → Runs π m' g a' g') :
    Runs π (if c then m else m') g (if c then a else a') g' := by
  by_cases hc : c
  · rw [if_pos hc, if_pos hc]
    exact h hc
  · rw [if_neg hc, if_neg hc]
    exact h' hc

/-- A counted loop: `I i` holds of what is visible before the round `i`. -/
theorem times {n : Nat} (body : Nat → Code ε σ Unit) (I : Nat → γ → Prop) (h0 : I 0 g)
    (hbody : ∀ i, i < n → ∀ x, I i x → ∃ x', Runs π (body i) x () x' ∧ I (i + 1) x') :
    ∃ g', Runs π (Code.times n body) g () g' ∧ I n g' := by
  induction n with
  | zero => exact ⟨g, pure () g, h0⟩
  | succ n ih =>
    obtain ⟨x, hx, hI⟩ := ih fun i hi => hbody i (by omega)
    obtain ⟨x', hx', hI'⟩ := hbody n (by omega) x hI
    exact ⟨x', bind hx hx', hI'⟩

theorem panics (h : Runs π m g a g') (h' : Panics π (f a) g') : Panics π (m >>= f) g := by
  intro s hs
  obtain ⟨s', hm, hs'⟩ := h s hs
  obtain ⟨e, hf⟩ := h' s' hs'
  exact ⟨e, bind_run hm hf⟩

/-- What a run returns and shows at the end is determined. -/
theorem eq_of_ret {s s' : σ} {a' : α} (h : Runs π m g a g') (hs : π s = g)
    (hr : m s = .ret a' s') : a' = a ∧ π s' = g' := by
  obtain ⟨s1, hm, hs1⟩ := h s hs
  rw [hm] at hr
  cases hr
  exact ⟨rfl, hs1⟩

end Runs

theorem wp_of_forall {m : Code ε σ α} {Q : α → σ → Prop} {E : σ → Prop} {s : σ}
    (hQ : ∀ a s', Q a s') (hE : ∀ s', E s') : wp m Q E s := by
  unfold wp
  cases m s with
  | ret a s' => exact hQ a s'
  | exit s' => exact hE s'
  | panic e => trivial

/-- After every return the projection shows what it showed before. -/
structure Keeps (π : σ → γ) (m : Code ε σ α) : Prop where
  same : ∀ s, wp m (fun _ s' => π s' = π s) (fun _ => True) s

namespace Keeps

variable {m : Code ε σ α} {f : α → Code ε σ β} {Q : α → σ → Prop} {s : σ}

theorem wp (h : Keeps π m) (hQ : ∀ a s', π s' = π s → Q a s') : wp m Q (fun _ => True) s :=
  wp_imp (h.same s) hQ

theorem seq {Q : β → σ → Prop} (h : Keeps π m)
    (hf : ∀ a s', π s' = π s → Code.wp (f a) Q (fun _ => True) s') :
    Code.wp (m >>= f) Q (fun _ => True) s := wp_bind.mpr (h.wp hf)

theorem bind (h : Keeps π m) (hf : ∀ a, Keeps π (f a)) : Keeps π (m >>= f) :=
  ⟨fun _ => wp_bind.mpr (h.wp fun a _ hs => (hf a).wp fun _ _ hs' => hs'.trans hs)⟩

theorem comp {δ : Type} (h : Keeps π m) (g : γ → δ) : Keeps (fun s => g (π s)) m :=
  ⟨fun _ => h.wp fun _ _ hs => congrArg g hs⟩

theorem pure (a : α) : Keeps π (Pure.pure a : Code ε σ α) := ⟨fun _ => wp_pure.mpr rfl⟩

theorem get : Keeps π (get : Code ε σ σ) := ⟨fun _ => wp_get.mpr rfl⟩

theorem modify {g : σ → σ} (h : ∀ s, π (g s) = π s) : Keeps π (modify g : Code ε σ Unit) :=
  ⟨fun s => wp_modify.mpr (h s)⟩

theorem panic (e : ε) : Keeps π (panic e : Code ε σ α) := ⟨fun _ => wp_panic⟩

theorem ite {c : Prop} [Decidable c] {m' : Code ε σ α} (h : Keeps π m) (h' : Keeps π m') :
    Keeps π (if c then m else m') := by
  split
  · exact h
  · exact h'

theorem times {n : Nat} {body : Nat → Code ε σ Unit} (h : ∀ i, Keeps π (body i)) :
    Keeps π (times n body) := by
  induction n with
  | zero => exact .pure ()
  | succ n ih => exact ih.bind fun _ => h n

end Keeps

end Jos.Logic.Code
