import Jos.Logic.Code

/-!
# Two runs side by side

`Code.Twin m m' Q E s s'` says that `m` from `s` and `m'` from `s'` both return, with results and
states that `Q` relates, or both leave, with states that `E` relates, or panic with the same
message. `Code.Alike R P m m'` says this of all states that `R` relates.
-/

namespace Jos.Logic

variable {ε σ τ α β : Type} {m m' : Code ε σ α}

/-- Two outcomes of the same kind. -/
inductive Outcome.Match (Q : α → α → σ → σ → Prop) (E : σ → σ → Prop) :
    Outcome ε σ α → Outcome ε σ α → Prop where
  | ret {a a' : α} {t t' : σ} (h : Q a a' t t') : Match Q E (.ret a t) (.ret a' t')
  | exit {t t' : σ} (h : E t t') : Match Q E (.exit t) (.exit t')
  | panic (e : ε) : Match Q E (.panic e) (.panic e)

namespace Code

def Twin (m m' : Code ε σ α) (Q : α → α → σ → σ → Prop) (E : σ → σ → Prop) (s s' : σ) : Prop :=
  Outcome.Match Q E (m s) (m' s')

section Rules

variable {Q Q' : α → α → σ → σ → Prop} {E E' : σ → σ → Prop} {s s' : σ}

theorem twin_bind {f f' : α → Code ε σ β} {Q : β → β → σ → σ → Prop}
    (h : Twin m m' (fun a a' t t' => Twin (f a) (f' a') Q E t t') E s s') :
    Twin (m >>= f) (m' >>= f') Q E s s' := by
  unfold Twin at h ⊢
  rw [bind_apply, bind_apply]
  generalize m s = o at h ⊢
  generalize m' s' = o' at h ⊢
  cases h with
  | ret h => exact h
  | exit h => exact .exit h
  | panic e => exact .panic e

theorem twin_mono (h : Twin m m' Q E s s')
    (hQ : ∀ a a' t t', Q a a' t t' → Q' a a' t t') (hE : ∀ t t', E t t' → E' t t') :
    Twin m m' Q' E' s s' := by
  unfold Twin at h ⊢
  generalize m s = o at h ⊢
  generalize m' s' = o' at h ⊢
  cases h with
  | ret h => exact .ret (hQ _ _ _ _ h)
  | exit h => exact .exit (hE _ _ h)
  | panic e => exact .panic e

theorem twin_ite {c c' : Prop} [Decidable c] [Decidable c'] {m m' m1 m1' : Code ε σ α}
    (hc : c' ↔ c) (h : c → Twin m m' Q E s s') (h1 : ¬c → Twin m1 m1' Q E s s') :
    Twin (if c then m else m1) (if c' then m' else m1') Q E s s' := by
  by_cases hcase : c
  · rw [if_pos hcase, if_pos (hc.mpr hcase)]
    exact h hcase
  · rw [if_neg hcase, if_neg (fun h' => hcase (hc.mp h'))]
    exact h1 hcase

theorem twin_zoom {view : σ → τ} {put : σ → τ → σ} (m : Code ε τ α) (hview : view s' = view s)
    (hQ : ∀ a t, Q a a (put s t) (put s' t)) (hE : ∀ t, E (put s t) (put s' t)) :
    Twin (zoom view put m) (zoom view put m) Q E s s' := by
  unfold Twin zoom
  rw [hview]
  cases m (view s) with
  | ret a t => exact .ret (hQ a t)
  | exit t => exact .exit (hE t)
  | panic e => exact .panic e

/-- If the first run leaves, so does the second. -/
theorem Twin.of_exit {t : σ} (h : Twin m m' Q E s s') (hm : m s = .exit t) :
    ∃ t', m' s' = .exit t' ∧ E t t' := by
  unfold Twin at h
  rw [hm] at h
  generalize m' s' = o at h
  cases h with
  | exit h => exact ⟨_, rfl, h⟩

end Rules

structure Alike (R : σ → σ → Prop) (P : α → Prop) (m m' : Code ε σ α) : Prop where
  twin : ∀ s s', R s s' → Twin m m' (fun a a' t t' => a' = a ∧ P a ∧ R t t') R s s'

namespace Alike

variable {R : σ → σ → Prop} {P : α → Prop} {Q : β → Prop} {m m' : Code ε σ α}
  {f f' : α → Code ε σ β}

theorem pure {a : α} (h : P a) : Alike R P (Pure.pure a : Code ε σ α) (Pure.pure a) :=
  ⟨fun _ _ hR => .ret ⟨rfl, h, hR⟩⟩

theorem panic (e : ε) : Alike R P (Code.panic e : Code ε σ α) (Code.panic e) :=
  ⟨fun _ _ _ => .panic e⟩

theorem exit : Alike R P (Code.exit : Code ε σ α) Code.exit := ⟨fun _ _ hR => .exit hR⟩

theorem modify {u u' : σ → σ} {P : Unit → Prop} (h : ∀ s s', R s s' → R (u s) (u' s'))
    (hP : P ()) : Alike R P (Code.modify u : Code ε σ Unit) (Code.modify u') :=
  ⟨fun s s' hR => .ret ⟨rfl, hP, h s s' hR⟩⟩

theorem bind (h : Alike R P m m') (hf : ∀ a, P a → Alike R Q (f a) (f' a)) :
    Alike R Q (m >>= f) (m' >>= f') := by
  refine ⟨fun s s' hR => twin_bind (twin_mono (h.twin s s' hR) ?_ fun _ _ hE => hE)⟩
  rintro a a' t t' ⟨rfl, hP, hR'⟩
  exact (hf _ hP).twin t t' hR'

theorem seq (h : Alike R (fun _ => True) m m') (hf : ∀ a, Alike R Q (f a) (f' a)) :
    Alike R Q (m >>= f) (m' >>= f') := h.bind fun a _ => hf a

/-- What is done with the present state may depend on what is related only. -/
theorem get_bind {f f' : σ → Code ε σ β} (h : ∀ s s', R s s' → Alike R Q (f s) (f' s')) :
    Alike R Q (Code.get >>= f) (Code.get >>= f') :=
  ⟨fun s s' hR => twin_bind (.ret ((h s s' hR).twin s s' hR))⟩

theorem ite {c c' : Prop} [Decidable c] [Decidable c'] {m1 m1' : Code ε σ α} (hc : c' ↔ c)
    (h : c → Alike R P m m') (h1 : ¬c → Alike R P m1 m1') :
    Alike R P (if c then m else m1) (if c' then m' else m1') :=
  ⟨fun s s' hR => twin_ite hc (fun hcase => (h hcase).twin s s' hR)
    fun hcase => (h1 hcase).twin s s' hR⟩

/-- Code that is done first under a condition. -/
theorem ite_seq {c c' : Prop} [Decidable c] [Decidable c'] {u u' : Code ε σ Unit}
    {f f' : Unit → Code ε σ β} (hc : c' ↔ c) (hu : Alike R (fun _ => True) u u')
    (h : Alike R Q (f ()) (f' ())) :
    Alike R Q (if c then u >>= f else f ()) (if c' then u' >>= f' else f' ()) :=
  .ite hc (fun _ => hu.seq fun _ => h) fun _ => h

theorem times {n : Nat} {body body' : Nat → Code ε σ Unit}
    (h : ∀ i, Alike R (fun _ => True) (body i) (body' i)) :
    Alike R (fun _ => True) (Code.times n body) (Code.times n body') := by
  induction n with
  | zero => exact .pure trivial
  | succ n ih => exact .seq ih fun _ => h n

end Alike

end Code

export Code (twin_ite twin_bind twin_mono)

end Jos.Logic
