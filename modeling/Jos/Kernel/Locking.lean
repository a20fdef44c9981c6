import Jos.Kern.Spinlock

/-!
# The kernel lock

At each place a processor owns the lock or does not. So each `lock_kernel` comes from a processor
without the lock, and each `unlock_kernel` from the one that has it. The exception is `sysenter`,
whose handler calls `syscall` without the lock.
-/

namespace Jos

variable {i j : Nat} {s s' : Smp} {t t' : Share} {w : Way} {lk lk' : Spinlock} {c : CpuPlace}
  {call : LockCall}

/-- The processor has set `locked`, and has not reset it. -/
def Place.owns : Place → Bool
  | .lock .record _ | .unlock _ _ | .trapCs false => true
  | .syscall .sysenterHandler => false
  | p => p.inKernel

/-- The processor is also the recorded owner. -/
def Place.holds : Place → Bool
  | .lock _ _ | .unlock .release _ => false
  | p => p.owns

/-- The value of `cpu_status`, where it matters. -/
def Place.status : Place → Option CpuStatus
  | .start | .monitor | .dead => none
  | .halted | .sti | .unlock _ .schedHalt | .trap false => some .halted
  | _ => some .started

/-- The places that are reached without `sysenter`. -/
def Place.ordinary : Place → Bool
  | .syscall .sysenterHandler | .lock _ (.halted true) => false
  | _ => true

/-- What holds of a processor at its place. -/
structure CpuPlace.Ok (lk : Spinlock) (i : Nat) (c : CpuPlace) : Prop where
  locked : c.place.owns → lk.locked
  holder : c.place.holds → lk.cpu = some i
  status : ∀ st, c.place.status = some st → c.cpuStatus = st
  ordinary : c.place.ordinary

theorem CpuPlace.Ok.of_not_owns (h : c.Ok lk i) (ho : c.place.owns = false) : c.Ok lk' i := by
  have hholds : c.place.holds = false := by
    unfold Place.holds
    split
    · rfl
    · rfl
    · exact ho
  refine ⟨fun h1 => ?_, fun h1 => ?_, h.status, h.ordinary⟩
  · rw [ho] at h1
    cases h1
  · rw [hholds] at h1
    cases h1

/-- What a step of the processor `i` does: it keeps what is known of the processor, and while
another one owns the lock, it changes nothing about that. -/
structure GoodStep (i : Nat) (t t' : Share) : Prop where
  ok : t'.cpu.Ok t'.lock i
  other : t.lock.locked → t.cpu.place.owns = false →
    t'.lock = t.lock ∧ t'.cpu.place.owns = false

/-- A step that does not touch the lock, to a place where no more is known of it. -/
theorem GoodStep.quiet (h : t.cpu.Ok t.lock i) (hlock : t'.lock = t.lock)
    (howns : t'.cpu.place.owns → t.cpu.place.owns)
    (hholds : t'.cpu.place.holds → t.cpu.place.holds)
    (hstatus : ∀ st, t'.cpu.place.status = some st → t'.cpu.cpuStatus = st)
    (hord : t'.cpu.place.ordinary) : GoodStep i t t' := by
  refine ⟨⟨fun ho => ?_, fun ho => ?_, hstatus, hord⟩, fun _ hfalse => ⟨hlock, ?_⟩⟩
  · rw [hlock]
    exact h.locked (howns ho)
  · rw [hlock]
    exact h.holder (hholds ho)
  · rw [Bool.eq_false_iff]
    intro ho
    rw [howns ho] at hfalse
    cases hfalse

/-- No more is known of the lock and of the status at `p'` than at `p`. -/
def Place.leadsTo (p p' : Place) : Bool :=
  (!p'.owns || p.owns) && (!p'.holds || p.holds) && (p'.status = none || p'.status = p.status) &&
    p'.ordinary

theorem lock_ordinary {pc pc' : SpinLockPc}
    (h : (Place.lock pc call).ordinary) : (Place.lock pc' call).ordinary := by
  cases call with
  | halted fromUser => cases fromUser <;> exact h
  | init | user => rfl

section

variable (h : t.cpu.Ok t.lock i)

include h

theorem Share.goto_good {p p' : Place} (hp : t.cpu.place = p)
    (hleads : p.leadsTo p') : GoodStep i t (t.goto p') := by
  subst hp
  simp only [Place.leadsTo, Bool.and_eq_true, Bool.or_eq_true, Bool.not_eq_true',
    decide_eq_true_eq] at hleads
  obtain ⟨⟨⟨howns, hholds⟩, hstatus⟩, hord⟩ := hleads
  refine .quiet h rfl (fun ho => ?_) (fun ho => ?_) (fun st hst => ?_) hord
  · exact howns.resolve_left (by rw [show p'.owns = true from ho]; decide)
  · exact hholds.resolve_left (by rw [show p'.holds = true from ho]; decide)
  · rcases hstatus with hnone | hsame
    · rw [show p'.status = some st from hst] at hnone
      cases hnone
    · exact h.status st (hsame ▸ hst)

theorem Share.panic_good : GoodStep i t t.panic := .quiet h rfl nofun nofun nofun rfl

theorem Share.spinLock_good {pc : SpinLockPc}
    (hp : t.cpu.place = .lock pc call) : GoodStep i t (t.spinLock i call pc) := by
  have hord := hp ▸ h.ordinary
  have hstatus : ∀ st, some .started = some st → t.cpu.cpuStatus = st := by
    have := h.status
    rw [hp] at this
    exact this
  cases pc with
  | check =>
    by_cases hself : t.lock.holding i
    · simp only [Share.spinLock, hself, if_true]
      exact Share.panic_good h
    · simp only [Share.spinLock, hself]
      exact .quiet h rfl nofun nofun hstatus (lock_ordinary hord)
  | spin =>
    by_cases hlocked : t.lock.locked
    · simp only [Share.spinLock, hlocked, if_true]
      exact .quiet h rfl id id h.status h.ordinary
    · simp only [Share.spinLock, hlocked]
      exact ⟨⟨fun _ => rfl, nofun, hstatus, lock_ordinary hord⟩, fun hl => absurd hl hlocked⟩
  | record =>
    have hlocked := h.locked (by rw [hp]; rfl)
    refine ⟨⟨fun _ => hlocked, fun _ => rfl, ?_, ?_⟩, fun _ ho => ?_⟩
    · cases call <;> exact hstatus
    · cases call <;> rfl
    · rw [hp] at ho
      cases ho

theorem Share.spinUnlock_good {call : UnlockCall} {pc : SpinUnlockPc}
    (hp : t.cpu.place = .unlock pc call) : GoodStep i t (t.spinUnlock i call pc) := by
  have howns : t.cpu.place.owns = true := by
    rw [hp]
    rfl
  have hlocked := h.locked howns
  have hstatus := h.status
  rw [hp] at hstatus
  cases pc with
  | check =>
    by_cases hself : t.lock.holding i
    · simp only [Share.spinUnlock, hself, if_true]
      refine .quiet h rfl (fun _ => howns) (fun _ => ?_) ?_ rfl
      · rw [hp]
        rfl
      · cases call <;> exact hstatus
    · simp only [Share.spinUnlock, hself]
      exact Share.panic_good h
  | clear =>
    refine ⟨⟨fun _ => hlocked, nofun, ?_, rfl⟩, fun _ ho => ?_⟩
    · cases call <;> exact hstatus
    · cases howns.symm.trans ho
  | release =>
    refine ⟨⟨?_, ?_, ?_, ?_⟩, fun _ ho => ?_⟩
    · cases call <;> exact nofun
    · cases call <;> exact nofun
    · cases call <;> exact hstatus
    · cases call <;> rfl
    · cases howns.symm.trans ho

/-- A processor enters `trap` with `cpu_status` as its place says, so it takes the lock there if
and only if it has been halted. -/
theorem Share.trap_good {fromUser : Bool}
    (hp : t.cpu.place = .trap fromUser) (hnext : t.walk i .step = some t') :
    GoodStep i t t' := by
  have hstatus := h.status
  unfold Share.walk at hnext
  rw [hp] at hnext hstatus
  dsimp only at hnext
  by_cases hpanic : t.panicstr
  · rw [if_pos hpanic] at hnext
    cases hnext
    exact .quiet h rfl nofun nofun nofun rfl
  rw [if_neg hpanic] at hnext
  have hstarted : ∀ st, some CpuStatus.started = some st → CpuStatus.started = st :=
    fun _ => Option.some.inj
  cases fromUser with
  | true =>
    rw [if_neg (by rw [hstatus .started rfl]; decide)] at hnext
    cases hnext
    exact .quiet h rfl nofun nofun hstarted rfl
  | false =>
    rw [if_pos (hstatus .halted rfl)] at hnext
    cases hnext
    exact .quiet h rfl nofun nofun hstarted rfl

theorem Share.walk_good (hw : w ≠ .sysenter) (hnext : t.walk i w = some t') : GoodStep i t t' := by
  obtain ⟨lk, panicstr, status, place⟩ := t
  cases place with
  | start =>
    cases w <;> cases hnext
    exact .quiet h rfl nofun nofun (fun _ => Option.some.inj) rfl
  | lock pc call =>
    cases w <;> cases hnext
    exact Share.spinLock_good h rfl
  | unlock pc call =>
    cases w <;> cases hnext
    exact Share.spinUnlock_good h rfl
  | trap fromUser =>
    cases w
    case step => exact Share.trap_good h rfl hnext
    all_goals cases hnext
  | syscall caller =>
    cases caller with
    | sysenterHandler => cases h.ordinary
    | trapDispatch =>
      cases w <;> cases hnext
      all_goals exact Share.goto_good h rfl rfl
  | schedHalt =>
    cases w with
    | step =>
      cases hnext
      exact .quiet h rfl (fun _ => rfl) (fun _ => rfl) (fun _ => Option.some.inj) rfl
    | monitor =>
      cases hnext
      exact Share.goto_good h rfl rfl
    | _ => cases hnext
  | user =>
    cases w with
    | interrupt =>
      cases hnext
      exact Share.goto_good h rfl rfl
    | sysenter => exact absurd rfl hw
    | _ => cases hnext
  | trapCs fromUser =>
    cases fromUser <;> cases w <;> cases hnext
    all_goals exact Share.goto_good h rfl rfl
  | init | trapUser | trapEnd | trapDispatch | schedYield | envRun | halted | envPopTf | sti =>
    cases w <;> cases hnext
    all_goals exact Share.goto_good h rfl rfl
  | monitor | dead => cases w <;> cases hnext

theorem Share.next_good {w : Option Way} (hw : w ≠ some .sysenter)
    (hnext : t.next i w = some t') : GoodStep i t t' := by
  cases w with
  | some w => exact Share.walk_good h (fun heq => hw (congrArg some heq)) hnext
  | none =>
    by_cases hk : t.cpu.place.inKernel
    · rw [Share.next, if_pos hk] at hnext
      cases hnext
      exact Share.panic_good h
    · rw [Share.next, if_neg hk] at hnext
      cases hnext

end

/-- Every processor is as its place says, and at most one owns the lock. -/
structure Smp.Serial (s : Smp) : Prop where
  ok : ∀ i, (s.cpus i).Ok s.kernelLock i
  one : ∀ i j, (s.cpus i).place.owns → (s.cpus j).place.owns → i = j

theorem Smp.start_serial : Smp.start.Serial := ⟨fun _ => ⟨nofun, nofun, nofun, rfl⟩, nofun⟩

theorem Smp.Serial.put (h : s.Serial) (hgood : GoodStep i (s.share i) t) : (s.put i t).Serial := by
  -- another processor that owns the lock keeps `i` from changing it
  have hother : ∀ j, j ≠ i → (s.cpus j).place.owns →
      t.lock = s.kernelLock ∧ t.cpu.place.owns = false := by
    intro j hj ho
    apply hgood.other ((h.ok j).locked ho)
    rw [Bool.eq_false_iff]
    intro hi
    exact hj (h.one j i ho hi)
  have hcpu : (s.put i t).cpus i = t.cpu := Function.update_self ..
  have hcpus : ∀ j, j ≠ i → (s.put i t).cpus j = s.cpus j := fun j hj =>
    Function.update_of_ne hj ..
  constructor
  · intro j
    by_cases hj : j = i
    · subst hj
      rw [hcpu]
      exact hgood.ok
    · rw [hcpus j hj]
      cases ho : (s.cpus j).place.owns with
      | false => exact (h.ok j).of_not_owns ho
      | true =>
        have hlock : (s.put i t).kernelLock = s.kernelLock := (hother j hj ho).1
        rw [hlock]
        exact h.ok j
  · intro j j' ho ho'
    by_cases hj : j = i <;> by_cases hj' : j' = i
    · exact hj.trans hj'.symm
    · subst hj
      rw [hcpu] at ho
      rw [hcpus j' hj'] at ho'
      rw [(hother j' hj' ho').2] at ho
      cases ho
    · subst hj'
      rw [hcpu] at ho'
      rw [hcpus j hj] at ho
      rw [(hother j hj ho).2] at ho'
      cases ho'
    · rw [hcpus j hj] at ho
      rw [hcpus j' hj'] at ho'
      exact h.one j j' ho ho'

theorem Smp.Serial.step {m : SmpMove} (h : s.Serial) (hm : m.way ≠ some .sysenter)
    (hstep : s.step m = some s') : s'.Serial := by
  unfold Smp.step at hstep
  split at hstep
  · obtain ⟨t, hnext, rfl⟩ := Option.map_eq_some_iff.mp hstep
    exact h.put (Share.next_good (h.ok _) hm hnext)
  · cases hstep

theorem Smp.Serial.run {moves : List SmpMove} (h : s.Serial)
    (hm : ∀ m ∈ moves, m.way ≠ some .sysenter) (hrun : s.run moves = some s') : s'.Serial := by
  induction moves generalizing s with
  | nil =>
    cases hrun
    exact h
  | cons m moves ih =>
    obtain ⟨s1, hstep, hrest⟩ := Option.bind_eq_some_iff.mp hrun
    exact ih (h.step (hm m List.mem_cons_self) hstep)
      (fun m' hm' => hm m' (List.mem_cons_of_mem _ hm')) hrest

/-- The lock serialises the kernel: one processor at most is in the code that needs the lock,
it holds the lock, and whoever calls `unlock_kernel` holds the lock. -/
structure Smp.Serialised (s : Smp) : Prop where
  one : ∀ i j, (s.cpus i).place.inKernel → (s.cpus j).place.inKernel → i = j
  holding : ∀ i, (s.cpus i).place.inKernel → s.kernelLock.holding i
  unlock : ∀ i call, (s.cpus i).place = .unlock .check call → s.kernelLock.holding i

theorem CpuPlace.Ok.holding (h : c.Ok lk i) (ho : c.place.owns) (hh : c.place.holds) :
    lk.holding i := by
  unfold Spinlock.holding
  rw [h.locked ho, h.holder hh]
  simp

theorem Place.holds_of_inKernel {p : Place} (h : p.inKernel) (hord : p.ordinary) :
    p.owns ∧ p.holds := by
  cases p with
  | syscall caller =>
    cases caller with
    | trapDispatch => exact ⟨rfl, rfl⟩
    | sysenterHandler => cases hord
  | init | trapUser | trapEnd | trapDispatch | schedYield | schedHalt | envRun => exact ⟨rfl, rfl⟩
  | _ => cases h

theorem Smp.Serial.serialised (h : s.Serial) : s.Serialised where
  one i j hi hj := h.one i j (Place.holds_of_inKernel hi (h.ok i).ordinary).1
    (Place.holds_of_inKernel hj (h.ok j).ordinary).1
  holding i hi :=
    have hp := Place.holds_of_inKernel hi (h.ok i).ordinary
    (h.ok i).holding hp.1 hp.2
  unlock i call hp := by
    apply (h.ok i).holding
    · rw [hp]
      rfl
    · rw [hp]
      rfl

/-- As long as no user code executes `sysenter`, the kernel is serialised after any number of
steps of the processors. -/
theorem kernel_serialised {moves : List SmpMove} (hm : ∀ m ∈ moves, m.way ≠ some .sysenter)
    (hrun : Smp.start.run moves = some s) : s.Serialised :=
  (Smp.start_serial.run hm hrun).serialised

def walks (i : Nat) (ways : List Way) : List SmpMove := ways.map fun w => ⟨i, some w⟩

/-- A processor comes up, finds an environment, and runs it. -/
def comeUp (i : Nat) : List SmpMove :=
  walks i [.step, .step, .step, .step, .schedYield, .envRun, .step, .step, .step, .step, .step]

/-- Two processors run user code; then the first makes a system call, for which it gets the
lock, and the second spins at the lock. -/
def oneCalls : List SmpMove :=
  comeUp 0 ++ comeUp 1 ++
    walks 0 [.interrupt, .step, .step, .step, .step, .step, .step, .syscall] ++
    walks 1 [.interrupt, .step, .step, .step, .step]

def Smp.places (s : Smp) : Place × Place := ((s.cpus 0).place, (s.cpus 1).place)

theorem kernel_serialised_syscall : ∃ s, Smp.start.run oneCalls = some s ∧
    s.places = (.syscall .trapDispatch, .lock .spin .user) ∧ s.Serialised := by
  have hplaces : (Smp.start.run oneCalls).map Smp.places =
      some (.syscall .trapDispatch, .lock .spin .user) := by decide +kernel
  obtain ⟨s, hs, hp⟩ := Option.map_eq_some_iff.mp hplaces
  exact ⟨s, hs, hp, kernel_serialised (by decide) hs⟩

/-- Two processors come through `sysenter`. -/
def bothEnter : List SmpMove := comeUp 0 ++ comeUp 1 ++ walks 0 [.sysenter] ++ walks 1 [.sysenter]

/-- Both processors are in `syscall`, and neither holds the lock. If the first one then calls
`sched_yield`, it calls `unlock_kernel` without holding the lock. -/
theorem sysenter_not_serialised : (∃ s, Smp.start.run bothEnter = some s ∧
      s.places = (.syscall .sysenterHandler, .syscall .sysenterHandler) ∧
      s.kernelLock.holding 0 = false ∧ s.kernelLock.holding 1 = false) ∧
    ∃ s, Smp.start.run (bothEnter ++ walks 0 [.schedYield, .envRun, .step]) = some s ∧
      (s.cpus 0).place = .unlock .check .envRun ∧ s.kernelLock.holding 0 = false := by
  have hboth : (Smp.start.run bothEnter).map (fun s => (s.places, s.kernelLock.holding 0,
      s.kernelLock.holding 1)) =
      some ((.syscall .sysenterHandler, .syscall .sysenterHandler), false, false) := by
    decide +kernel
  have hunlock : (Smp.start.run (bothEnter ++ walks 0 [.schedYield, .envRun, .step])).map
      (fun s => ((s.cpus 0).place, s.kernelLock.holding 0)) =
      some (.unlock .check .envRun, false) := by
    decide +kernel
  constructor
  · obtain ⟨s, hs, hp⟩ := Option.map_eq_some_iff.mp hboth
    simp only [Prod.mk.injEq] at hp
    exact ⟨s, hs, hp.1, hp.2.1, hp.2.2⟩
  · obtain ⟨s, hs, hp⟩ := Option.map_eq_some_iff.mp hunlock
    simp only [Prod.mk.injEq] at hp
    exact ⟨s, hs, hp.1, hp.2⟩

end Jos
