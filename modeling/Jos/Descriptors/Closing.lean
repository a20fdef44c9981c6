import Jos.Lib.Sockets
import Jos.Logic.Runs

/-!
# Who closes a shared socket

A call of `close` that has read the number of references has decided whether it closes the
socket. Unless another call has decided and not yet unmapped its descriptor, that is the number of
open descriptors, and the last closer closes the socket. Otherwise two closers can both read 2.
-/

namespace Jos

open Logic Relation Finset

variable {s s' : SockUsers} {e e' : Fin nenv} {fd : Fin maxfd} {mapped : Finset FdSlot}

/-- The environment has read the number of references and has not unmapped the page yet. -/
def SockUsers.Decided (s : SockUsers) (e : Fin nenv) : Prop :=
  ∃ c, s.calls e = some c ∧ c.pc ≠ .pageref

/-- A call reads the number of references while no other call has decided. -/
def Undisturbed (s : SockUsers) : SockMove → Prop
  | .beginClose _ _ => True
  | .step e => (∃ fd, s.calls e = some ⟨fd, .pageref⟩) → ∀ e', ¬s.Decided e'

/-- A run in which all steps meet the condition. -/
def UndisturbedRun (s s' : SockUsers) : Prop :=
  ReflTransGen (fun s s' => ∃ m, Undisturbed s m ∧ s.move m = s') s s'

def SockEvent.isClose : SockEvent → Bool
  | .nsipcClose _ => true
  | .unmap _ _ => false

def SockUsers.closes (s : SockUsers) : Nat := (s.log.filter SockEvent.isClose).length

theorem card_slots_lt (mapped : Finset FdSlot) : mapped.card < 65536 := by
  have h := mapped.card_le_univ
  rw [Fintype.card_prod, Fintype.card_fin, Fintype.card_fin] at h
  unfold nenv maxfd at h
  omega

theorem pageref_eq_one_iff (h : (e, fd) ∈ s.mapped) :
    s.pageref e fd = 1 ↔ s.mapped = {(e, fd)} := by
  have hlt := card_slots_lt s.mapped
  unfold SockUsers.pageref
  rw [if_pos h, ← BitVec.toNat_inj, BitVec.toNat_ofNat, Nat.mod_eq_of_lt hlt]
  constructor
  · intro hc
    obtain ⟨x, hx⟩ := card_eq_one.mp hc
    rw [hx] at h ⊢
    rw [mem_singleton.mp h]
  · intro hm
    rw [hm]
    rfl

/-- The socket is open while somebody who has not closed it has a descriptor, and when no descriptor
is left the last two events are its close and the last unmapping. -/
structure SockOk (s : SockUsers) : Prop where
  held : ∀ e c, s.calls e = some c → (e, c.fd) ∈ s.mapped
  one : ∀ e e', s.Decided e → s.Decided e' → e = e'
  idle : (∀ e, ¬s.Decided e) → s.mapped.Nonempty → s.closes = 0
  closing : ∀ e fd, s.calls e = some ⟨fd, .nsipcClose⟩ → s.mapped = {(e, fd)} ∧ s.closes = 0
  unmapping : ∀ e fd, s.calls e = some ⟨fd, .unmap⟩ →
    (1 < s.mapped.card ∧ s.closes = 0) ∨
      (s.mapped = {(e, fd)} ∧ s.closes = 1 ∧ ∃ l, s.log = l ++ [.nsipcClose e])
  done : s.mapped = ∅ → s.closes = 1 ∧ ∃ l e fd, s.log = l ++ [.nsipcClose e, .unmap e fd]

theorem SockOk.start (h : mapped.Nonempty) : SockOk (.start mapped) where
  held _ _ hc := by cases hc
  one _ _ hd := by
    obtain ⟨_, hc, _⟩ := hd
    cases hc
  idle _ _ := rfl
  closing _ _ hc := by cases hc
  unmapping _ _ hc := by cases hc
  done hm := absurd hm h.ne_empty

theorem calls_setCall_self (c : Option CloseCall) : (s.setCall e c).calls e = c :=
  Function.update_self ..

theorem calls_setCall_of_ne (c : Option CloseCall) (h : e' ≠ e) :
    (s.setCall e c).calls e' = s.calls e' := Function.update_of_ne h ..

/-- If only one environment can have decided, its call is the only one to look at. -/
theorem SockOk.of_alone {t : SockUsers} (hcalls : ∀ e', e' ≠ e → t.calls e' = s.calls e')
    (halone : ∀ e', e' ≠ e → ¬s.Decided e')
    (held : ∀ e' c, t.calls e' = some c → (e', c.fd) ∈ t.mapped)
    (idle : ¬t.Decided e → t.mapped.Nonempty → t.closes = 0)
    (closing : ∀ fd, t.calls e = some ⟨fd, .nsipcClose⟩ → t.mapped = {(e, fd)} ∧ t.closes = 0)
    (unmapping : ∀ fd, t.calls e = some ⟨fd, .unmap⟩ → (1 < t.mapped.card ∧ t.closes = 0) ∨
      (t.mapped = {(e, fd)} ∧ t.closes = 1 ∧ ∃ l, t.log = l ++ [.nsipcClose e]))
    (done : t.mapped = ∅ → t.closes = 1 ∧ ∃ l e fd, t.log = l ++ [.nsipcClose e, .unmap e fd]) :
    SockOk t := by
  have honly : ∀ e' c, t.calls e' = some c → c.pc ≠ .pageref → e' = e := by
    intro e' c hc hne
    by_contra he
    exact halone e' he ⟨c, (hcalls e' he).symm.trans hc, hne⟩
  refine ⟨held, ?_, fun hno => idle (hno e), ?_, ?_, done⟩
  · rintro e1 e2 ⟨c1, h1, hne1⟩ ⟨c2, h2, hne2⟩
    rw [honly e1 c1 h1 hne1, honly e2 c2 h2 hne2]
  · intro e' fd' hc
    obtain rfl := honly e' _ hc nofun
    exact closing fd' hc
  · intro e' fd' hc
    obtain rfl := honly e' _ hc nofun
    exact unmapping fd' hc

theorem closes_append {t : SockUsers} (ev : SockEvent) (h : t.log = s.log ++ [ev]) :
    t.closes = s.closes + if ev.isClose then 1 else 0 := by
  unfold SockUsers.closes
  rw [h, List.filter_append, List.length_append]
  cases ev <;> rfl

section

variable (h : SockOk s)

include h

theorem SockOk.beginClose : SockOk (s.beginClose e fd) := by
  unfold SockUsers.beginClose
  split
  · next hb =>
    obtain ⟨hnone, hm⟩ := hb
    have hcall : ∀ e' c, (s.setCall e (some ⟨fd, .pageref⟩)).calls e' = some c →
        s.calls e' = some c ∨ (e' = e ∧ c = ⟨fd, .pageref⟩) := by
      intro e' c hc
      by_cases he : e' = e
      · subst he
        rw [calls_setCall_self] at hc
        exact Or.inr ⟨rfl, (Option.some.inj hc).symm⟩
      · rw [calls_setCall_of_ne _ he] at hc
        exact Or.inl hc
    have hold : ∀ e' c, (s.setCall e (some ⟨fd, .pageref⟩)).calls e' = some c →
        c.pc ≠ .pageref → s.calls e' = some c := by
      intro e' c hc hne
      rcases hcall e' c hc with hc | ⟨_, rfl⟩
      · exact hc
      · exact absurd rfl hne
    have hdec : ∀ e', (s.setCall e (some ⟨fd, .pageref⟩)).Decided e' ↔ s.Decided e' := by
      intro e'
      constructor
      · rintro ⟨c, hc, hne⟩
        exact ⟨c, hold e' c hc hne, hne⟩
      · rintro ⟨c, hc, hne⟩
        have he : e' ≠ e := by
          rintro rfl
          rw [hnone] at hc
          cases hc
        exact ⟨c, (calls_setCall_of_ne _ he).trans hc, hne⟩
    refine ⟨?_, ?_, ?_, ?_, ?_, h.done⟩
    · intro e' c hc
      rcases hcall e' c hc with hc | ⟨rfl, rfl⟩
      · exact h.held e' c hc
      · exact hm
    · intro e1 e2 h1 h2
      exact h.one e1 e2 ((hdec e1).mp h1) ((hdec e2).mp h2)
    · intro hno
      exact h.idle fun e' hd => hno e' ((hdec e').mpr hd)
    · intro e' fd' hc
      exact h.closing e' fd' (hold e' _ hc nofun)
    · intro e' fd' hc
      exact h.unmapping e' fd' (hold e' _ hc nofun)
  · exact h

theorem held_setCall {c : CloseCall} (hc : s.calls e = some c) (pc : ClosePc) :
    ∀ e' c', (s.setCall e (some ⟨c.fd, pc⟩)).calls e' = some c' → (e', c'.fd) ∈ s.mapped := by
  intro e' c' hc'
  by_cases he : e' = e
  · subst he
    rw [calls_setCall_self] at hc'
    cases hc'
    exact h.held e' c hc
  · rw [calls_setCall_of_ne _ he] at hc'
    exact h.held e' c' hc'

/-- The number of references is read: the call decides. -/
theorem SockOk.pageref_step (hc : s.calls e = some ⟨fd, .pageref⟩)
    (hno : ∀ e', ¬s.Decided e') : SockOk (s.closeStep e) := by
  have hm : (e, fd) ∈ s.mapped := h.held e _ hc
  have hzero : s.closes = 0 := h.idle hno ⟨_, hm⟩
  have hdone : s.mapped = ∅ → s.closes = 1 ∧ ∃ l e fd, s.log = l ++ [.nsipcClose e, .unmap e fd] :=
    fun hempty => absurd hm (hempty ▸ notMem_empty _)
  unfold SockUsers.closeStep
  rw [hc]
  dsimp only
  split
  · next hone =>
    have hsingle := (pageref_eq_one_iff hm).mp hone
    refine SockOk.of_alone (fun e' he => calls_setCall_of_ne _ he) (fun e' _ => hno e')
      (held_setCall h hc _) (fun _ _ => hzero) ?_ ?_ hdone
    · intro fd' hc'
      rw [calls_setCall_self] at hc'
      cases hc'
      exact ⟨hsingle, hzero⟩
    · intro fd' hc'
      rw [calls_setCall_self] at hc'
      cases hc'
  · next hmany =>
    have hcard : 1 < s.mapped.card := by
      have hpos : 0 < s.mapped.card := card_pos.mpr ⟨_, hm⟩
      have hne : s.mapped.card ≠ 1 := by
        intro h1
        obtain ⟨x, hx⟩ := card_eq_one.mp h1
        rw [hx, mem_singleton] at hm
        exact hmany ((pageref_eq_one_iff (h.held e _ hc)).mpr (hm ▸ hx))
      omega
    refine SockOk.of_alone (fun e' he => calls_setCall_of_ne _ he) (fun e' _ => hno e')
      (held_setCall h hc _) (fun _ _ => hzero) ?_ ?_ hdone
    · intro fd' hc'
      rw [calls_setCall_self] at hc'
      cases hc'
    · intro fd' hc'
      exact Or.inl ⟨hcard, hzero⟩

theorem SockOk.alone (hd : s.Decided e) : ∀ e', e' ≠ e → ¬s.Decided e' :=
  fun e' he hd' => he (h.one e' e hd' hd)

theorem SockOk.nsipcClose_step (hc : s.calls e = some ⟨fd, .nsipcClose⟩) :
    SockOk (s.closeStep e) := by
  obtain ⟨hsingle, hzero⟩ := h.closing e fd hc
  have hcloses : (s.closeStep e).closes = 1 := by
    rw [closes_append (s := s) (.nsipcClose e)]
    · rw [hzero]
      rfl
    · unfold SockUsers.closeStep
      rw [hc]
  unfold SockUsers.closeStep at hcloses ⊢
  rw [hc] at hcloses ⊢
  dsimp only at hcloses ⊢
  refine SockOk.of_alone (fun e' he => calls_setCall_of_ne _ he) (h.alone ⟨_, hc, nofun⟩)
    (held_setCall h hc _) ?_ ?_ ?_ ?_
  · intro hnot
    exact absurd ⟨_, calls_setCall_self _, nofun⟩ hnot
  · intro fd' hc'
    rw [show _ = _ from calls_setCall_self _] at hc'
    cases hc'
  · intro fd' hc'
    rw [show _ = _ from calls_setCall_self _] at hc'
    cases hc'
    exact Or.inr ⟨hsingle, hcloses, s.log, rfl⟩
  · intro hempty
    exact absurd (hsingle.symm.trans hempty) (singleton_ne_empty _)

theorem SockOk.unmap_step (hc : s.calls e = some ⟨fd, .unmap⟩) : SockOk (s.closeStep e) := by
  have hcloses : (s.closeStep e).closes = s.closes := by
    rw [closes_append (s := s) (.unmap e fd)]
    · rfl
    · unfold SockUsers.closeStep
      rw [hc]
  unfold SockUsers.closeStep at hcloses ⊢
  rw [hc] at hcloses ⊢
  dsimp only at hcloses ⊢
  have hnone : ({ s.setCall e none with
      mapped := s.mapped.erase (e, fd), log := s.log ++ [.unmap e fd] } : SockUsers).calls e =
        none :=
    calls_setCall_self none
  refine SockOk.of_alone (fun e' he => calls_setCall_of_ne _ he) (h.alone ⟨_, hc, nofun⟩) ?_ ?_
    ?_ ?_ ?_
  · intro e' c' hc'
    have he : e' ≠ e := by
      rintro rfl
      rw [hnone] at hc'
      cases hc'
    have hc'' : s.calls e' = some c' := (calls_setCall_of_ne none he).symm.trans hc'
    exact mem_erase.mpr ⟨fun heq => he (Prod.mk.inj heq).1, h.held e' c' hc''⟩
  · intro _ hne
    rw [hcloses]
    rcases h.unmapping e fd hc with ⟨_, hzero⟩ | ⟨hsingle, _⟩
    · exact hzero
    · dsimp only at hne
      rw [hsingle, erase_singleton] at hne
      exact absurd hne not_nonempty_empty
  · intro fd' hc'
    rw [hnone] at hc'
    cases hc'
  · intro fd' hc'
    rw [hnone] at hc'
    cases hc'
  · intro hempty
    rw [hcloses]
    rcases h.unmapping e fd hc with ⟨hcard, _⟩ | ⟨_, hone, l, hl⟩
    · have := card_erase_of_mem (h.held e _ hc)
      rw [show s.mapped.erase (e, fd) = ∅ from hempty, card_empty] at this
      omega
    · refine ⟨hone, l, e, fd, ?_⟩
      rw [hl, List.append_assoc]
      rfl

theorem SockOk.move {m : SockMove} (hm : Undisturbed s m) : SockOk (s.move m) := by
  cases m with
  | beginClose e fd => exact h.beginClose
  | step e =>
    cases hc : s.calls e with
    | none =>
      have hsame : s.closeStep e = s := by
        unfold SockUsers.closeStep
        rw [hc]
      show SockOk (s.closeStep e)
      rw [hsame]
      exact h
    | some c =>
      obtain ⟨fd, pc⟩ := c
      cases pc with
      | pageref => exact h.pageref_step hc (hm ⟨fd, hc⟩)
      | nsipcClose => exact h.nsipcClose_step hc
      | unmap => exact h.unmap_step hc

end

/-- If no closer reads the number of references between another one's reading and unmapping:
`nsipc_close` is called at most once, by the holder of the last descriptor, and it has been called
when no descriptor is left. -/
theorem socket_closed_once (hne : mapped.Nonempty) (hrun : UndisturbedRun (.start mapped) s) :
    s.closes ≤ 1 ∧
      (∀ e fd, s.calls e = some ⟨fd, .nsipcClose⟩ → s.mapped = {(e, fd)} ∧ s.closes = 0) ∧
      (s.mapped = ∅ → s.closes = 1 ∧ ∃ l e fd, s.log = l ++ [.nsipcClose e, .unmap e fd]) := by
  have h : SockOk s := by
    refine run_invariant hrun (SockOk.start hne) ?_
    rintro s1 s2 h1 ⟨m, hm, rfl⟩
    exact h1.move hm
  refine ⟨?_, h.closing, h.done⟩
  by_cases hempty : s.mapped = ∅
  · exact (h.done hempty).1.le
  by_cases hd : ∃ e, s.Decided e
  · obtain ⟨e, ⟨fd, pc⟩, hc, hpc⟩ := hd
    cases pc with
    | pageref => exact absurd rfl hpc
    | nsipcClose => exact (h.closing e fd hc).2.le.trans (Nat.zero_le 1)
    | unmap =>
      rcases h.unmapping e fd hc with ⟨_, hz⟩ | ⟨_, hone, _⟩
      · exact hz.le.trans (Nat.zero_le 1)
      · exact hone.le
  · have hz := h.idle (fun e he => hd ⟨e, he⟩) (nonempty_iff_ne_empty.mpr hempty)
    exact hz.le.trans (Nat.zero_le 1)

instance : Decidable (s.Decided e) :=
  decidable_of_iff ((s.calls e).any fun c => decide (c.pc ≠ .pageref))
    (by simp [SockUsers.Decided, Option.any_eq_true])

instance : (m : SockMove) → Decidable (Undisturbed s m)
  | .beginClose _ _ => .isTrue trivial
  | .step e => inferInstanceAs (Decidable ((∃ fd, s.calls e = some ⟨fd, .pageref⟩) → _))

def SockUsers.moves (s : SockUsers) (ms : List SockMove) : SockUsers := ms.foldl .move s

def UndisturbedMoves (s : SockUsers) : List SockMove → Prop
  | [] => True
  | m :: ms => Undisturbed s m ∧ UndisturbedMoves (s.move m) ms

instance UndisturbedMoves.decidable (s : SockUsers) :
    (ms : List SockMove) → Decidable (UndisturbedMoves s ms)
  | [] => .isTrue trivial
  | m :: ms =>
    have := UndisturbedMoves.decidable (s.move m) ms
    inferInstanceAs (Decidable (Undisturbed s m ∧ _))

theorem UndisturbedMoves.run {ms : List SockMove} (h : UndisturbedMoves s ms) :
    UndisturbedRun s (s.moves ms) := by
  induction ms generalizing s with
  | nil => exact .refl
  | cons m ms ih => exact ReflTransGen.head ⟨m, h.1, rfl⟩ (ih h.2)

def alice : Fin nenv := ⟨0, by decide⟩
def bob : Fin nenv := ⟨1, by decide⟩
def sockFd : Fin maxfd := ⟨0, by decide⟩
def sharedFds : Finset FdSlot := {(alice, sockFd), (bob, sockFd)}

def inTurn : List SockMove :=
  [.beginClose alice sockFd, .step alice, .step alice, .beginClose bob sockFd, .step bob,
    .step bob, .step bob]

theorem socket_closed_once_in_turn : ((SockUsers.start sharedFds).moves inTurn).mapped = ∅ ∧
    ((SockUsers.start sharedFds).moves inTurn).closes = 1 := by
  have hm : UndisturbedMoves (.start sharedFds) inTurn := by decide +kernel
  have hempty : ((SockUsers.start sharedFds).moves inTurn).mapped = ∅ := by decide
  have hne : sharedFds.Nonempty := ⟨(alice, sockFd), by decide⟩
  exact ⟨hempty, ((socket_closed_once hne hm.run).2.2 hempty).1⟩

def atOnce : List SockMove :=
  [.beginClose alice sockFd, .beginClose bob sockFd, .step alice, .step bob, .step alice,
    .step bob]

/-- No descriptor is left, and nobody has closed the socket. -/
theorem socket_never_closed : ((SockUsers.start sharedFds).moves atOnce).mapped = ∅ ∧
    ((SockUsers.start sharedFds).moves atOnce).closes = 0 := by
  decide

end Jos
