import Jos.Logic.Ring
import Jos.Kern.Console

/-!
# The console buffer is a queue

Character number `j` is in cell `j % 512`. The two positions are numbers of characters modulo 512,
so they agree only if nothing is pending, as long as fewer than 512 characters are.
-/

namespace Jos

open Logic Function List

variable {cons : Cons} {pending cs : List Byte} {c : Byte} {n : Nat}

/-- The characters that are kept. -/
def typed (cs : List Byte) : List Byte := cs.filter (· ≠ 0)

/-- What `cons_getc` is to return, for a queue of pending characters. -/
def queueRun (pending : List Byte) : List ConsEvent → List Byte
  | [] => []
  | .intr cs :: es => queueRun (pending ++ typed cs) es
  | .getc serial kbd :: es =>
    match pending ++ typed serial ++ typed kbd with
    | [] => 0 :: queueRun [] es
    | c :: rest => c :: queueRun rest es

/-- Fewer than `CONSBUFSIZE` characters are pending at any time. -/
def NeverFull (pending : List Byte) : List ConsEvent → Prop
  | [] => True
  | .intr cs :: es =>
    (pending ++ typed cs).length < consbufsize ∧ NeverFull (pending ++ typed cs) es
  | .getc serial kbd :: es =>
    (pending ++ typed serial ++ typed kbd).length < consbufsize ∧
      NeverFull (pending ++ typed serial ++ typed kbd).tail es

/-- The buffer holds the pending characters, the last ones of all that were typed. -/
def ConsHolds (cons : Cons) (pending : List Byte) : Prop :=
  ∃ old, RingHolds consbufsize cons.buf old.length (old ++ pending) ∧
    cons.rpos = old.length % consbufsize ∧ cons.wpos = (old ++ pending).length % consbufsize

theorem consHolds_start : ConsHolds .start [] := ⟨[], .nil, rfl, rfl⟩

theorem nextPos_mod (n : Nat) : nextPos (n % consbufsize) = (n + 1) % consbufsize := by
  unfold nextPos consbufsize
  split <;> omega

theorem ConsHolds.inside (h : ConsHolds cons pending) :
    cons.rpos < consbufsize ∧ cons.wpos < consbufsize := by
  obtain ⟨old, -, hr, hw⟩ := h
  rw [hr, hw]
  exact ⟨Nat.mod_lt _ (by decide), Nat.mod_lt _ (by decide)⟩

theorem ConsHolds.put (h : ConsHolds cons pending) (hc : c ≠ 0)
    (hroom : pending.length < consbufsize) : ConsHolds (consPut cons c) (pending ++ [c]) := by
  obtain ⟨old, hring, hr, hw⟩ := h
  refine ⟨old, ?_, ?_, ?_⟩ <;> rw [consPut, if_neg hc]
  · rw [← append_assoc]
    apply hring.push
    · rw [length_append]
      omega
    · rw [← hw]
      exact update_self ..
    · intro i hi
      rw [← hw] at hi
      exact update_of_ne hi ..
  · exact hr
  · rw [hw, nextPos_mod, ← append_assoc]
    simp only [length_append, length_singleton]

theorem ConsHolds.take (h : ConsHolds cons (c :: pending))
    (hroom : (c :: pending).length < consbufsize) : cons.rpos ≠ cons.wpos ∧ cons.buf cons.rpos = c ∧
      ConsHolds { cons with rpos := nextPos cons.rpos } pending := by
  obtain ⟨old, hring, hr, hw⟩ := h
  refine ⟨?_, ?_, old ++ [c], ?_, ?_, ?_⟩
  · rw [hr, hw]
    apply RingHolds.mod_ne_mod <;> rw [length_append]
    · simp
    · omega
  · rw [hr]
    exact hring _ c (Nat.le_refl _) (by simp)
  · rw [append_assoc]
    exact hring.mono (by simp)
  · rw [hr, nextPos_mod, length_append]
    rfl
  · rw [hw, append_assoc]
    rfl

/-- A queue for any number of characters: the one that fills the buffer makes the two positions
agree, so that nothing is pending any more. -/
def lossyPush (pending : List Byte) (c : Byte) : List Byte :=
  if c = 0 then pending
  else if pending.length + 1 = consbufsize then []
  else pending ++ [c]

/-- What `cons_getc` returns, for any number of characters. -/
def lossyRun (pending : List Byte) : List ConsEvent → List Byte
  | [] => []
  | .intr cs :: es => lossyRun (cs.foldl lossyPush pending) es
  | .getc serial kbd :: es =>
    match kbd.foldl lossyPush (serial.foldl lossyPush pending) with
    | [] => 0 :: lossyRun [] es
    | c :: rest => c :: lossyRun rest es

/-- The buffer holds the pending characters, and they are fewer than it has cells. -/
def ConsPending (cons : Cons) (pending : List Byte) : Prop :=
  ConsHolds cons pending ∧ pending.length < consbufsize

theorem ConsHolds.forget (h : ConsHolds cons pending) (hfull : pending.length = consbufsize) :
    ConsHolds cons [] := by
  obtain ⟨old, -, hr, hw⟩ := h
  refine ⟨old ++ pending, ?_, ?_, ?_⟩
  · intro j x hj hx
    rw [append_nil, getElem?_eq_none hj] at hx
    cases hx
  · rw [hr, length_append, hfull, Nat.add_mod_right]
  · rw [hw, append_nil]

theorem ConsPending.put (h : ConsPending cons pending) (c : Byte) :
    ConsPending (consPut cons c) (lossyPush pending c) := by
  obtain ⟨hholds, hlt⟩ := h
  unfold lossyPush
  split
  · next hc => simpa [consPut, hc, ConsPending] using And.intro hholds hlt
  · next hc =>
    have hput := hholds.put hc hlt
    split
    · next hfull => exact ⟨hput.forget (by simpa using hfull), by decide⟩
    · next hfull =>
      refine ⟨hput, ?_⟩
      rw [length_append, length_singleton]
      omega

theorem ConsPending.intr (h : ConsPending cons pending) (cs : List Byte) :
    ConsPending (consIntr cons cs) (cs.foldl lossyPush pending) := by
  induction cs generalizing cons pending with
  | nil => exact h
  | cons c cs ih => exact ih (h.put c)

theorem ConsPending.run (h : ConsPending cons pending) (es : List ConsEvent) :
    (cons.run es).2 = lossyRun pending es ∧
      ∃ pending', ConsHolds (cons.run es).1 pending' := by
  induction es generalizing cons pending with
  | nil => exact ⟨rfl, pending, h.1⟩
  | cons e es ih =>
    cases e with
    | intr cs => exact ih (h.intr cs)
    | getc serial kbd =>
      have hpolled := (h.intr serial).intr kbd
      unfold Cons.run consGetc lossyRun
      dsimp only
      cases hall : kbd.foldl lossyPush (serial.foldl lossyPush pending) with
      | nil =>
        rw [hall] at hpolled
        obtain ⟨old, -, hr, hw⟩ := hpolled.1
        rw [append_nil] at hw
        rw [if_neg (not_not.mpr (hr.trans hw.symm))]
        obtain ⟨hout, hend⟩ := ih hpolled
        exact ⟨congrArg _ hout, hend⟩
      | cons c rest =>
        rw [hall] at hpolled
        obtain ⟨hne, hc, hnext⟩ := hpolled.1.take hpolled.2
        rw [if_pos hne]
        obtain ⟨hout, hend⟩ := ih ⟨hnext, Nat.lt_of_succ_lt hpolled.2⟩
        exact ⟨congrArg₂ _ hc hout, hend⟩

theorem consPending_start : ConsPending .start [] := ⟨consHolds_start, by decide⟩

/-- As long as the buffer does not fill up, nothing is lost. -/
theorem foldl_lossyPush (hroom : (pending ++ typed cs).length < consbufsize) :
    cs.foldl lossyPush pending = pending ++ typed cs := by
  induction cs generalizing pending with
  | nil => simp [typed]
  | cons c cs ih =>
    by_cases hc : c = 0
    · have hcons : typed (c :: cs) = typed cs := by simp [typed, hc]
      rw [hcons] at hroom ⊢
      rw [foldl_cons, lossyPush, if_pos hc]
      exact ih hroom
    · have hcons : pending ++ typed (c :: cs) = pending ++ [c] ++ typed cs := by
        rw [typed, filter_cons_of_pos (by simpa using hc), append_cons]
        rfl
      rw [hcons] at hroom ⊢
      have hlen : pending.length + 1 ≠ consbufsize := by
        simp only [length_append, length_singleton] at hroom
        omega
      rw [foldl_cons, lossyPush, if_neg hc, if_neg hlen]
      exact ih hroom

theorem lossyRun_eq (es : List ConsEvent) (hfits : NeverFull pending es) :
    lossyRun pending es = queueRun pending es := by
  induction es generalizing pending with
  | nil => rfl
  | cons e es ih =>
    cases e with
    | intr cs =>
      unfold lossyRun queueRun
      rw [foldl_lossyPush hfits.1]
      exact ih hfits.2
    | getc serial kbd =>
      obtain ⟨hroom, hrest⟩ := hfits
      have hroom1 : (pending ++ typed serial).length < consbufsize := by
        rw [length_append] at hroom
        omega
      unfold lossyRun queueRun
      rw [foldl_lossyPush hroom1, foldl_lossyPush hroom]
      cases hall : pending ++ typed serial ++ typed kbd with
      | nil =>
        rw [hall] at hrest
        exact congrArg _ (ih hrest)
      | cons c rest =>
        rw [hall] at hrest
        exact congrArg _ (ih hrest)

/-- While fewer than `CONSBUFSIZE` characters are pending, `cons_getc` returns what a queue of the
characters that are not zero gives, and 0 if the queue is empty. -/
theorem console_queue (es : List ConsEvent) (hfits : NeverFull [] es) :
    (Cons.start.run es).2 = queueRun [] es ∧ (Cons.start.run es).1.rpos < consbufsize ∧
      (Cons.start.run es).1.wpos < consbufsize := by
  obtain ⟨hout, pending, hend⟩ := consPending_start.run es
  exact ⟨hout.trans (lossyRun_eq es hfits), hend.inside⟩

/-- Three codes arrive, one of them zero, and `cons_getc` is called three times. -/
theorem console_queue_three :
    (Cons.start.run [.intr [65, 0], .getc [] [66], .getc [] [], .getc [] []]).2 = [65, 66, 0] :=
  (console_queue _ (by simp [NeverFull, typed, consbufsize])).1.trans (by decide)

/-- For any events: the console is a queue that forgets all it holds when its last cell is filled,
and the two positions never leave the buffer. -/
theorem console_lossy (es : List ConsEvent) : (Cons.start.run es).2 = lossyRun [] es ∧
    (Cons.start.run es).1.rpos < consbufsize ∧ (Cons.start.run es).1.wpos < consbufsize := by
  obtain ⟨hout, pending, hend⟩ := consPending_start.run es
  exact ⟨hout, hend.inside⟩

end Jos
