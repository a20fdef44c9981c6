import Jos.Network.Threads

/-!
# Waiting for semaphores

A thread that waits and has not been woken has found the counter at zero and set its flag. Both stay
until a signal, which wakes all threads that wait: they are in the queue.
-/

namespace Jos

open Function

namespace Lwip

variable {s s' : Lwip} {l k : List Nat} {t tid m x : Nat} {w : SemWait}
  {tc tc' : ThreadContext}

/-- The semaphores of a mailbox. -/
def Uses (mb : SysMbox) (x : Nat) : Prop := x = mb.queuedMsg ∨ x = mb.freeMsg

/-- Live mailboxes have their own semaphores, and what the free lists hold is free. -/
structure Wired (s : Lwip) : Prop where
  ne : ∀ m, (s.mboxes m).freed = false → (s.mboxes m).queuedMsg ≠ (s.mboxes m).freeMsg
  live : ∀ m x, (s.mboxes m).freed = false → Uses (s.mboxes m) x → (s.sems x).freed = false
  sep : ∀ m m' x, (s.mboxes m).freed = false → (s.mboxes m').freed = false →
    Uses (s.mboxes m) x → Uses (s.mboxes m') x → m = m'
  semFree : ∀ x ∈ s.semFree, (s.sems x).freed = true
  mboxFree : ∀ m ∈ s.mboxFree, (s.mboxes m).freed = true
  semFree_nodup : s.semFree.Nodup
  mboxFree_nodup : s.mboxFree.Nodup

/-- What no mailbox function changes. -/
structure Static (s s' : Lwip) : Prop where
  mbox : ∀ m, (s'.mboxes m).freed = (s.mboxes m).freed ∧
    (s'.mboxes m).queuedMsg = (s.mboxes m).queuedMsg ∧
    (s'.mboxes m).freeMsg = (s.mboxes m).freeMsg
  sem : ∀ x, (s'.sems x).freed = (s.sems x).freed ∧ (s'.sems x).gen = (s.sems x).gen
  semFree : s'.semFree = s.semFree
  mboxFree : s'.mboxFree = s.mboxFree

theorem Static.of_eq (hm : s'.mboxes = s.mboxes) (hs : s'.sems = s.sems)
    (hsf : s'.semFree = s.semFree) (hmf : s'.mboxFree = s.mboxFree) : Static s s' where
  mbox m := by
    rw [hm]
    exact ⟨rfl, rfl, rfl⟩
  sem x := by
    rw [hs]
    exact ⟨rfl, rfl⟩
  semFree := hsf
  mboxFree := hmf

theorem Static.uses (h : Static s s') : Uses (s'.mboxes m) x ↔ Uses (s.mboxes m) x := by
  obtain ⟨-, hq, hf⟩ := h.mbox m
  unfold Uses
  rw [hq, hf]

theorem Wired.static (hw : Wired s) (h : Static s s') : Wired s' where
  ne m hm := by
    obtain ⟨hfreed, hq, hf⟩ := h.mbox m
    rw [hq, hf]
    exact hw.ne m (hfreed ▸ hm)
  live m x hm hx := by
    rw [(h.sem x).1]
    exact hw.live m x ((h.mbox m).1 ▸ hm) (h.uses.mp hx)
  sep m m' x hm hm' hx hx' :=
    hw.sep m m' x ((h.mbox m).1 ▸ hm) ((h.mbox m').1 ▸ hm') (h.uses.mp hx) (h.uses.mp hx')
  semFree x hx := by
    rw [(h.sem x).1]
    exact hw.semFree x (h.semFree ▸ hx)
  mboxFree m hm := by
    rw [(h.mbox m).1]
    exact hw.mboxFree m (h.mboxFree ▸ hm)
  semFree_nodup := h.semFree ▸ hw.semFree_nodup
  mboxFree_nodup := h.mboxFree ▸ hw.mboxFree_nodup

theorem Wired.ne_of_freed (hw : Wired s) (hm : (s.mboxes m).freed = false)
    (hx : Uses (s.mboxes m) x) {y : Nat} (hy : (s.sems y).freed = true) : x ≠ y := by
  rintro rfl
  rw [hw.live m x hm hx] at hy
  cases hy

theorem call_uses (c : MboxCall) (mb : SysMbox) : Uses mb (c.sem mb) := by
  cases c with
  | post msg => exact .inr rfl
  | trypost msg => exact .inr rfl
  | fetch tm => exact .inl rfl
  | tryfetch => exact .inl rfl

/-- What a thread in a mailbox function knows of its semaphore. -/
structure CallOk (s : Lwip) (w : SemWait) : Prop where
  live : (s.mboxes w.mbox).freed = false
  sem : w.sem = w.call.sem (s.mboxes w.mbox)
  gen : w.gen = (s.sems w.sem).gen
  even : w.waited.toNat % 2 = 0

/-- No unit, and a signal will wake those that wait. -/
def Hushed (s : Lwip) (x : Nat) : Prop := (s.sems x).counter = 0 ∧ (s.sems x).waiters ≠ 0

/-- The thread waits for the semaphore. -/
def Parked (s : Lwip) (x : Nat) (tc : ThreadContext) : Prop :=
  tc.waitAddr = some x ∧ (tc.wakeup = true ∨ Hushed s x)

def PcOk (s : Lwip) (w : SemWait) (tc : ThreadContext) : WaitPc → Prop
  | .test => tc.waitAddr = none
  | .enter a _ _ => tc.waitAddr = none ∧ a.toNat % 2 = 0 ∧ Hushed s w.sem
  | .loop a _ _ _ _ => a.toNat % 2 = 0 ∧ Parked s w.sem tc
  | .yielded a _ _ _ => a.toNat % 2 = 0 ∧ Parked s w.sem tc
  | .leave a => tc.waitAddr = none ∧ a.toNat % 2 = 0

def PlaceOk (s : Lwip) (tc : ThreadContext) : ThreadPlace → Prop
  | .idle => tc.waitAddr = none
  | .semWait w pc => CallOk s w ∧ PcOk s w tc pc

/-- A thread that does not run is outside the mailbox functions or in the `thread_yield` of
`thread_wait`. -/
def Resting (s : Lwip) (tc : ThreadContext) : Prop :=
  (tc.place = .idle ∧ tc.waitAddr = none) ∨
    ∃ w a sleepUntil curV t, tc.place = .semWait w (.yielded a sleepUntil curV t) ∧
      CallOk s w ∧ a.toNat % 2 = 0 ∧ Parked s w.sem tc

theorem Resting.placeOk (h : Resting s tc) : PlaceOk s tc tc.place := by
  rcases h with ⟨hplace, hwait⟩ | ⟨w, a, su, cv, t, hplace, hcall, heven, hparked⟩
  · rw [hplace]
    exact hwait
  · rw [hplace]
    exact ⟨hcall, heven, hparked⟩

theorem CallOk.static (h : CallOk s w) (hst : Static s s') : CallOk s' w where
  live := (hst.mbox _).1 ▸ h.live
  sem := by
    obtain ⟨-, hq, hf⟩ := hst.mbox w.mbox
    rw [h.sem]
    unfold MboxCall.sem
    rw [hq, hf]
  gen := (hst.sem _).2 ▸ h.gen
  even := h.even

theorem Resting.keep (h : Resting s tc) (hst : Static s s') (hwait : tc'.waitAddr = tc.waitAddr)
    (hplace : tc'.place = tc.place) (hwake : tc.wakeup = true → tc'.wakeup = true)
    (hsem : ∀ x, tc.waitAddr = some x → tc'.wakeup = true ∨ (Hushed s x → Hushed s' x)) :
    Resting s' tc' := by
  rcases h with ⟨hidle, hnone⟩ | ⟨w, a, su, cv, t, hyield, hcall, heven, haddr, hpark⟩
  · exact .inl ⟨hplace.trans hidle, hwait.trans hnone⟩
  · refine .inr ⟨w, a, su, cv, t, hplace.trans hyield, hcall.static hst, heven,
      hwait.trans haddr, ?_⟩
    rcases hpark with hpark | hpark
    · exact .inl (hwake hpark)
    · rcases hsem w.sem haddr with hsem | hsem
      · exact .inl hsem
      · exact .inr (hsem hpark)

theorem Resting.relink (h : Resting s tc) (hst : Static s s') (hsems : s'.sems = s.sems)
    (link : Option Nat) : Resting s' { tc with link := link } := by
  refine h.keep hst rfl rfl id fun x _ => .inr fun hx => ?_
  unfold Hushed
  rw [hsems]
  exact hx

/-- The invariant of queues, semaphores and the threads that do not run. -/
structure Shape (s : Lwip) (l k : List Nat) : Prop where
  queue : QueueOk s l k
  wired : Wired s
  rest : ∀ t, s.curTc ≠ some t → Resting s (s.tcs t)
  inQueue : ∀ t, s.curTc ≠ some t → (s.tcs t).place ≠ .idle → t ∈ l

theorem Shape.keep (h : Shape s l k) (hst : Static s s') (hq : s'.queue = s.queue)
    (hk : s'.killQueue = s.killQueue) (hn : s'.maxTid = s.maxTid) (hc : s'.curTc = s.curTc)
    (hlink : ∀ t, (s'.tcs t).link = (s.tcs t).link)
    (htcs : ∀ t, s.curTc ≠ some t → (s'.tcs t).waitAddr = (s.tcs t).waitAddr ∧
      (s'.tcs t).place = (s.tcs t).place ∧ ((s.tcs t).wakeup = true → (s'.tcs t).wakeup = true))
    (hsem : ∀ t x, s.curTc ≠ some t → (s.tcs t).waitAddr = some x →
      (s'.tcs t).wakeup = true ∨ (Hushed s x → Hushed s' x)) : Shape s' l k where
  queue := h.queue.congr hq hk hn hc hlink
  wired := h.wired.static hst
  rest t ht := by
    rw [hc] at ht
    obtain ⟨hwait, hplace, hwake⟩ := htcs t ht
    exact (h.rest t ht).keep hst hwait hplace hwake fun x hx => hsem t x ht hx
  inQueue t ht hp := by
    rw [hc] at ht
    exact h.inQueue t ht ((htcs t ht).2.1 ▸ hp)

theorem Shape.mem_of_waitAddr (h : Shape s l k) (ht : s.curTc ≠ some t)
    (hx : (s.tcs t).waitAddr = some x) : t ∈ l := by
  refine h.inQueue t ht fun hidle => ?_
  rcases h.rest t ht with ⟨-, hnone⟩ | ⟨w, a, su, cv, t', hplace, -⟩
  · rw [hx] at hnone
    cases hnone
  · rw [hplace] at hidle
    cases hidle

theorem setTc_of_ne {f : ThreadContext → ThreadContext} (ht : t ≠ tid) :
    (s.setTc tid f).tcs t = s.tcs t :=
  update_of_ne ht ..

theorem setTc_self {f : ThreadContext → ThreadContext} : (s.setTc tid f).tcs tid = f (s.tcs tid) :=
  update_self ..

theorem setSem_of_ne {f : SysSem → SysSem} {y : Nat} (hy : y ≠ x) :
    (s.setSem x f).sems y = s.sems y :=
  update_of_ne hy ..

theorem setSem_self {f : SysSem → SysSem} : (s.setSem x f).sems x = f (s.sems x) := update_self ..

theorem Static.setSem {f : SysSem → SysSem}
    (hf : ∀ e, (f e).freed = e.freed ∧ (f e).gen = e.gen) : Static s (s.setSem x f) where
  mbox _ := ⟨rfl, rfl, rfl⟩
  sem y := by
    by_cases hy : y = x
    · subst hy
      rw [setSem_self]
      exact hf _
    · rw [setSem_of_ne hy]
      exact ⟨rfl, rfl⟩
  semFree := rfl
  mboxFree := rfl

theorem Shape.setTc {f : ThreadContext → ThreadContext} (h : Shape s l k)
    (hc : s.curTc = some tid) (hf : ∀ tc, (f tc).link = tc.link) :
    Shape (s.setTc tid f) l k := by
  have hsame : ∀ t, s.curTc ≠ some t → (s.setTc tid f).tcs t = s.tcs t := by
    intro t ht
    exact setTc_of_ne fun heq => ht (heq ▸ hc)
  refine h.keep (.of_eq rfl rfl rfl rfl) rfl rfl rfl rfl ?_ ?_ ?_
  · intro t
    by_cases ht : t = tid
    · subst ht
      rw [setTc_self, hf]
    · rw [setTc_of_ne ht]
  · intro t ht
    rw [hsame t ht]
    exact ⟨rfl, rfl, id⟩
  · exact fun t x _ _ => .inr id

theorem Shape.setSem {f : SysSem → SysSem} (h : Shape s l k)
    (hf : ∀ e, (f e).freed = e.freed ∧ (f e).gen = e.gen)
    (hh : Hushed s x → Hushed (s.setSem x f) x) : Shape (s.setSem x f) l k := by
  refine h.keep (Static.setSem hf) rfl rfl rfl rfl (fun _ => rfl) (fun _ _ => ⟨rfl, rfl, id⟩) ?_
  intro t y _ _
  refine .inr fun hy => ?_
  by_cases hyx : y = x
  · subst hyx
    exact hh hy
  · unfold Hushed
    rw [setSem_of_ne hyx]
    exact hy

/-- What a signal does. -/
structure Signalled (s s' : Lwip) (x : Nat) : Prop where
  mboxes : s'.mboxes = s.mboxes
  curTc : s'.curTc = s.curTc
  panicked : s'.panicked = s.panicked
  done : s'.done = s.done
  counter : (s'.sems x).counter = (s.sems x).counter + 1
  others : ∀ y, y ≠ x → s'.sems y = s.sems y
  cur : ∀ t, s.curTc = some t → s'.tcs t = s.tcs t

theorem Shape.signal_eq (h : Shape s l k) (hlive : (s.sems x).freed = false) :
    ∃ n tcs, s.sysSemSignal x = { s.setSem x fun e =>
        { e with counter := e.counter + 1, waiters := n } with tcs := tcs } ∧
      (∀ t, tcs t = s.tcs t ∨ t ∈ l ∧ tcs t = { s.tcs t with wakeup := true }) ∧
      (Hushed s x → ∀ t ∈ l, (s.tcs t).waitAddr = some x → (tcs t).wakeup = true) := by
  by_cases hw : (s.sems x).waiters = 0
  · refine ⟨(s.sems x).waiters, s.tcs, ?_, fun t => .inl rfl, fun hh => absurd hw hh.2⟩
    unfold sysSemSignal
    rw [hlive]
    dsimp only
    rw [if_neg (by decide), setSem_self, if_neg (not_not.mpr hw)]
    rfl
  · have hwake : ∀ t, threadWakeup x s.maxTid s.queue.first s.tcs t = _ :=
      threadWakeup_eq h.queue.queue.chain h.queue.length_le
    refine ⟨0, threadWakeup x s.maxTid s.queue.first s.tcs, ?_, fun t => ?_, fun _ t ht hx => ?_⟩
    · unfold sysSemSignal
      rw [hlive]
      dsimp only
      rw [if_neg (by decide), setSem_self, if_pos hw]
      unfold Lwip.setSem
      simp
    · rw [hwake]
      split
      · next hm => exact .inr ⟨hm.1, rfl⟩
      · exact .inl rfl
    · rw [hwake, if_pos ⟨ht, hx⟩]

theorem Shape.signal (h : Shape s l k) (hlive : (s.sems x).freed = false) :
    Signalled s (s.sysSemSignal x) x ∧ Shape (s.sysSemSignal x) l k := by
  obtain ⟨n, tcs, heq, htcs, hwake⟩ := h.signal_eq hlive
  have hset : Static s (s.setSem x fun e =>
      { e with counter := e.counter + 1, waiters := n }) := Static.setSem fun _ => ⟨rfl, rfl⟩
  have hst : Static s { s.setSem x fun e =>
      { e with counter := e.counter + 1, waiters := n } with tcs := tcs } :=
    ⟨hset.mbox, hset.sem, rfl, rfl⟩
  have hother : ∀ t, ∃ b, tcs t = { s.tcs t with wakeup := b } ∧
      ((s.tcs t).wakeup = true → b = true) := by
    intro t
    rcases htcs t with ht | ⟨-, ht⟩
    · exact ⟨_, ht, id⟩
    · exact ⟨true, ht, fun _ => rfl⟩
  rw [heq]
  refine ⟨⟨rfl, rfl, rfl, rfl, ?_, fun y hy => update_of_ne hy .., ?_⟩,
    h.keep hst rfl rfl rfl rfl ?_ ?_ ?_⟩
  · dsimp only
    rw [setSem_self]
  · intro t ht
    refine (htcs t).resolve_right fun hm => ?_
    exact (h.queue.cur t ht).1 (List.mem_append_left _ hm.1)
  · intro t
    obtain ⟨b, hb, -⟩ := hother t
    dsimp only
    rw [hb]
  · intro t _
    obtain ⟨b, hb, hmono⟩ := hother t
    dsimp only
    rw [hb]
    exact ⟨rfl, rfl, hmono⟩
  · intro t y ht hy
    by_cases hyx : y = x
    · subst hyx
      by_cases hh : Hushed s y
      · exact .inl (hwake hh t (h.mem_of_waitAddr ht hy) hy)
      · exact .inr fun hh' => absurd hh' hh
    · refine .inr fun hh => ?_
      unfold Hushed at hh ⊢
      dsimp only
      rw [setSem_of_ne hyx]
      exact hh

end Lwip

end Jos
