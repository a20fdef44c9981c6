import Jos.Kernel.Processors
import Jos.Kernel.Snapshot
import Jos.Logic.Runs

/-!
# One processor for an environment

`Orderly` holds in every run of `Careful` steps: no call writes the status of an environment that
another processor runs, frees such an environment, or lets one go on with `ENV_RUNNABLE`.
-/

namespace Jos

open Logic

variable {k k' k1 k0 : Kernel} {e cur : Nat} {c : Call} {tf : Trapframe} {cpu : Nat} {f : Env → Env}

/-- No other processor has `e` as its current environment. -/
def NotElsewhere (k : Kernel) (e : Nat) : Prop :=
  ∀ i < ncpu, i ≠ k.cpunum → (k.cpus i).cpuEnv ≠ some e

/-- The search that `e` starts when it gives up the processor finds another environment. -/
def FindsAnother (k : Kernel) (e : Nat) : Prop :=
  ∃ x ∈ scanFrom nenv (e + 1), x ≠ e ∧ (k.envs x).envStatus = .runnable

/-- The calls that write a status name an environment that no other processor runs; if the caller
makes itself runnable, the scheduler finds another one; and a marked environment is not destroyed
again. -/
def SafeCall (k : Kernel) (c : Call) : Prop :=
  match c.sysno with
  | some .envSetStatus => ∀ e s, Names k c.a1 true e → settableStatus c.a2 = some s →
      NotElsewhere k e ∧ (s = .runnable → k.curenv = some e → FindsAnother k e)
  | some .ipcTrySend => ∀ e, Names k c.a1 false e → (k.envs e).envIpcRecving →
      NotElsewhere k e ∧ (k.curenv = some e → FindsAnother k e)
  | some .envDestroy | some .envSetTrapframe => ∀ e, Names k c.a1 true e →
      (k.envs e).envStatus = .dying → NotElsewhere k e
  | _ => True

/-- The condition on a step. An environment in the last slot enters the kernel only while
the memory behind the table does not look like a runnable environment. -/
def Careful (k : Kernel) : Event → Prop
  | .trap cpu tf _ => ((k.cpus cpu).cpuEnv = some (nenv - 1) →
      (k.envs nenv).envStatus ≠ .runnable) ∧
      (tf.tfTrapno = tSyscall → ∀ c, (k.cpus cpu).cpuEnv = some c →
        SafeCall (k.on cpu) (tf.call cpu c))
  | _ => True

/-- The two states agree on all that identifiers are resolved with. -/
structure SameNames (k k' : Kernel) : Prop where
  cpunum : k'.cpunum = k.cpunum
  cpuEnv : ∀ i, (k'.cpus i).cpuEnv = (k.cpus i).cpuEnv
  status : ∀ e, (k'.envs e).envStatus = (k.envs e).envStatus
  id : ∀ e, (k'.envs e).envId = (k.envs e).envId
  parent : ∀ e, (k'.envs e).envParentId = (k.envs e).envParentId
  recving : ∀ e, (k'.envs e).envIpcRecving = (k.envs e).envIpcRecving

theorem SameNames.curenv (h : SameNames k k') : k'.curenv = k.curenv := by
  unfold Kernel.curenv
  rw [h.cpunum, h.cpuEnv]

theorem SameNames.names (h : SameNames k k') (envid : Word) (checkperm : Bool) (e : Nat) :
    Names k' envid checkperm e ↔ Names k envid checkperm e := by
  unfold Names
  simp only [h.curenv, h.status, h.id, h.parent]

theorem SafeCall.congr (h : SafeCall k c) (hs : SameNames k k') : SafeCall k' c := by
  unfold SafeCall NotElsewhere FindsAnother at *
  simp only [hs.names, hs.recving, hs.status, hs.curenv, hs.cpunum, hs.cpuEnv]
  exact h

theorem Kernel.save_sameNames (k : Kernel) (c : Nat) (tf : Trapframe) :
    SameNames k (k.save c tf) where
  cpunum := rfl
  cpuEnv i := by
    by_cases hi : i = k.cpunum
    · subst hi
      simp [Kernel.save, Kernel.started]
    · unfold Kernel.save Kernel.started
      rw [Kernel.setEnv_cpus, k.setCpu_of_ne _ hi]
  status e := k.started.setEnv_field c _ Env.envStatus rfl e
  id e := k.started.setEnv_field c _ Env.envId rfl e
  parent e := k.started.setEnv_field c _ Env.envParentId rfl e
  recving e := k.started.setEnv_field c _ Env.envIpcRecving rfl e

inductive LogStep (k : Kernel) : List EnvEvent → Prop where
  | same : LogStep k k.envLog
  | alloc (e : Nat) : LogStep k (k.envLog ++ [.alloc e])
  | free (e : Nat) (h : NotElsewhere k e) : LogStep k (k.envLog ++ [.free k.cpunum e])

theorem NotElsewhere.all (h : NotElsewhere k e) (ho : Ordered k) (i : Nat)
    (hi : i ≠ k.cpunum) : (k.cpus i).cpuEnv ≠ some e := by
  by_cases hlt : i < ncpu
  · exact h i hlt hi
  · rw [ho.absent i (by omega)]
    exact fun hc => by cases hc

theorem NotElsewhere.steady (h : NotElsewhere k1 e) (hs : Steady k k1) : NotElsewhere k e := by
  intro i hlt hi
  rw [← hs.cpuEnv]
  exact h i hlt (hs.cpunum.symm ▸ hi)

theorem LogStep.steady {l : List EnvEvent} (h : LogStep k1 l) (hs : Steady k k1) : LogStep k l := by
  cases h with
  | same =>
    rw [hs.envLog]
    exact .same
  | alloc e =>
    rw [hs.envLog]
    exact .alloc e
  | free e hne =>
    rw [hs.envLog, hs.cpunum]
    exact .free e (hne.steady hs)

/-- A step that leads to an orderly state and frees nothing that runs elsewhere. -/
structure Done (k k' : Kernel) : Prop where
  orderly : Orderly k'
  log : LogStep k k'.envLog

theorem Done.steady (h : Done k1 k') (hs : Steady k k1) : Done k k' := ⟨h.orderly, h.log.steady hs⟩

/-- The system call has returned: the caller is still there, and if it has become runnable
then it will not be picked. -/
structure Answered (k : Kernel) (cur : Nat) (k' : Kernel) : Prop where
  inside : Inside k'
  curenv : k'.curenv = some cur
  again : (k'.envs cur).envStatus = .runnable → FindsAnother k' cur
  log : LogStep k k'.envLog

theorem Answered.of_running (hi : Inside k') (hcur : k'.curenv = some cur)
    (hrun : (k'.envs cur).envStatus = .running) (hlog : LogStep k k'.envLog) :
    Answered k cur k' :=
  ⟨hi, hcur, fun hr => absurd (hrun.symm.trans hr) (by decide), hlog⟩

theorem Inside.woken (h : Inside k) (hcur : k.curenv = some cur)
    (hrun : (k.envs cur).envStatus = .running) (he : k.Live e) {s : EnvStatus}
    (hf : ∀ env, (f env).envPgdir = env.envPgdir ∧ (f env).envLink = env.envLink ∧
      (f env).envId = env.envId ∧ (f env).envStatus = s) (hs : s ≠ .free)
    (hne : NotElsewhere k e) (hfind : s = .runnable → k.curenv = some e → FindsAnother k e) :
    Answered k cur (k.setEnv e f) := by
  obtain ⟨hp, hl, hid, hst⟩ := hf (k.envs e)
  have hi : Inside (k.setEnv e f) := h.setStatus he hp hl hid (by rw [hst]; exact hs)
    (hne.all h.toOrdered)
  refine ⟨hi, hcur, fun hrunnable => ?_, .same⟩
  by_cases hec : cur = e
  · subst hec
    rw [Kernel.setEnv_self, hst] at hrunnable
    obtain ⟨x, hmem, hxe, hx⟩ := hfind hrunnable hcur
    refine ⟨x, hmem, hxe, ?_⟩
    rw [k.setEnv_of_ne cur f hxe]
    exact hx
  · rw [k.setEnv_of_ne e f hec, hrun] at hrunnable
    cases hrunnable

theorem Destroyed.answered (h : Inside k) (hcur : k.curenv = some cur)
    (hrun : (k.envs cur).envStatus = .running) (he : k.Live e)
    (hne : (k.envs e).envStatus = .dying → NotElsewhere k e) (hd : Destroyed k e k') :
    Answered k cur k' := by
  cases hd with
  | mark hnc hst =>
    have hec : cur ≠ e := fun hc => hnc (hc ▸ hcur)
    have hsteady : Steady k (k.setEnv e fun env => { env with envStatus := .dying }) :=
      Kernel.setEnv_steady he.1 rfl rfl rfl ⟨fun hf => (by cases hf), fun hf => absurd hf he.2⟩
    refine .of_running (h.steady hsteady fun i x hi hx => ?_) hcur ?_ .same
    · by_cases hxe : x = e
      · rw [hxe, Kernel.setEnv_self]
        exact Or.inr rfl
      · rw [k.setEnv_of_ne e _ hxe]
        exact (h.others i hi).onCpu hx
    · rw [k.setEnv_of_ne e _ hec]
      exact hrun
  | free hnc hst hf =>
    have hec : cur ≠ e := fun hc => hnc (hc ▸ hcur)
    -- A processor that runs `e` has found it running or dying.
    have hother : NotElsewhere k e := by
      intro i hlt hi hc
      rcases (h.others i hi).onCpu hc with hr | hr
      · exact hst hr
      · exact hne hr i hlt hi hc
    have hin := h.freed hf he (hother.all h.toOrdered) (g := fun c => c) fun x hx => by
      obtain ⟨cr3, hcpu⟩ := hf.cpu
      rw [hcpu] at hx
      exact ⟨hx, fun hxe => hnc (hxe ▸ hx)⟩
    rw [Kernel.setCpu_id] at hin
    refine .of_running hin (hf.curenv.trans hcur) ?_ ?_
    · rw [hf.other cur hec]
      exact hrun
    · rw [hf.envLog]
      exact .free e hother

theorem Answered.steady (h : Answered k1 cur k') (hs : Steady k k1) : Answered k cur k' :=
  ⟨h.inside, h.curenv, h.again, h.log.steady hs⟩

theorem settableStatus_ne_free {status : Word} {s : EnvStatus}
    (h : settableStatus status = some s) : s ≠ .free := by
  unfold settableStatus at h
  grind

theorem Inside.done (h : Inside k1) (hlog : LogStep k k1.envLog) (hs : Scheduled k1 k')
    (hx : ∀ e, k1.curenv = some e → (k1.envs e).envStatus = .runnable → FindsAnother k1 e) :
    Done k k' := by
  refine ⟨h.scheduled hs hx, ?_⟩
  rw [hs.elsewhere.envLog]
  exact hlog

section

variable (h : Answered k cur k1)

include h

theorem Answered.then (hi : Inside k') (hs : Steady k1 k')
    (hst : ∀ x, (k'.envs x).envStatus = (k1.envs x).envStatus) : Answered k cur k' := by
  refine ⟨hi, hs.curenv.trans h.curenv, fun hrun => ?_, hs.envLog ▸ h.log⟩
  rw [hst] at hrun
  obtain ⟨x, hmem, hne, hx⟩ := h.again hrun
  exact ⟨x, hmem, hne, (hst x).trans hx⟩

theorem Answered.sameEnvs (hs : SameEnvs k1 k') : Answered k cur k' :=
  h.then (h.inside.sameEnvs hs) hs.steady fun x => by rw [hs.envs]

theorem Answered.setEnv (he : e < nenv)
    (hf : ∀ env, (f env).envPgdir = env.envPgdir ∧ (f env).envLink = env.envLink ∧
      (f env).envId = env.envId ∧ (f env).envStatus = env.envStatus) :
    Answered k cur (k1.setEnv e f) := by
  obtain ⟨hp, hl, hid, hst⟩ := hf (k1.envs e)
  exact h.then (h.inside.setEnv he hf) (Kernel.setEnv_steady he hp hl hid (by rw [hst]))
    fun x => k1.setEnv_field e f Env.envStatus hst x

theorem Back.done (hb : Back k1 k') : Done k k' := by
  cases hb with
  | resume hcur hrun => exact ⟨h.inside.resume hcur hrun, h.log⟩
  | sched hsched =>
    refine h.inside.done h.log hsched fun e he hr => ?_
    obtain rfl : cur = e := Option.some.inj (h.curenv.symm.trans he)
    exact h.again hr

end

theorem Kernel.started_steady (k : Kernel) : Steady k k.started := k.setCpu_steady fun _ => rfl

theorem Settled.idle (h : Settled k e) (hmode : (k.cpus e).mode ≠ .user) :
    (k.cpus e).cpuEnv = none := by
  unfold Settled at h
  cases hc : (k.cpus e).cpuEnv with
  | none => rfl
  | some x =>
    rw [hc] at h
    exact absurd h.1 hmode

section

variable (h : Inside k)

include h

theorem SelfDestroyed.done (hd : SelfDestroyed k e k') : Done k k' := by
  obtain ⟨hcur, hfree, hsched⟩ := hd
  refine (h.freed_self hfree hcur).done ?_ hsched fun x hx => ?_
  · rw [Kernel.setCpu_envLog, hfree.envLog]
    exact .free e fun i _ hi hc => hi (h.distinct hc hcur)
  · rw [Kernel.setCpu_curenv] at hx
    cases hx

section

variable (hcur : k.curenv = some cur)

include hcur

section

variable (hrun : (k.envs cur).envStatus = .running)

include hrun

theorem Returned.answered (hsafe : SafeCall k c) (hret : Returned c k k') : Answered k cur k' := by
  have hlive : k.LiveCur := fun x hx => h.live hx
  have hrefl : Answered k cur k := .of_running h hcur hrun .same
  cases hret with
  | quiet hs => exact hrefl.sameEnvs hs
  | @field _ e f hm hf hs =>
    have hlt : e < nenv := by
      obtain ⟨x, hx, he⟩ := hm
      rcases he with rfl | he
      · exact (h.live hx).1
      · exact he.1
    refine (hrefl.setEnv hlt fun env => ?_).sameEnvs hs
    obtain ⟨u, b, hu⟩ := hf env
    rw [hu]
    exact ⟨rfl, rfl, rfl, rfl⟩
  | status hno hnames hs =>
    unfold SafeCall at hsafe
    rw [hno] at hsafe
    obtain ⟨hne, hfind⟩ := hsafe _ _ hnames hs
    exact h.woken hcur hrun (hnames.live hlive) (fun _ => ⟨rfl, rfl, rfl, rfl⟩)
      (settableStatus_ne_free hs) hne hfind
  | @sent _ cur' e p1 hno hcur' hnames hrecv hsent hk' =>
    unfold SafeCall at hsafe
    rw [hno] at hsafe
    obtain ⟨hne, hfind⟩ := hsafe _ hnames hrecv
    have hans : Answered k cur (k.deliver cur' e c.a2 c.a4) :=
      h.woken (s := .runnable) hcur hrun (hnames.live hlive) (fun _ => ⟨rfl, rfl, rfl, rfl⟩)
        (by decide) hne fun _ => hfind
    rw [hk']
    exact hans.sameEnvs ⟨rfl, rfl, rfl, rfl, rfl⟩
  | @forked cur' e q k1 hno hcur' ha =>
    obtain ⟨hlt, hfree⟩ := h.freeSlots.head ha.head
    have hec : cur ≠ e := fun hc => (h.live hcur).2 (hc ▸ hfree)
    have hin := h.allocated ha
    have hne : NotElsewhere k1 e := by
      intro i _ hi hc
      rw [ha.cpus] at hc
      exact (h.live hc).2 hfree
    have hcur1 : k1.curenv = some cur := by
      unfold Kernel.curenv
      rw [ha.cpus, ha.cpunum]
      exact hcur
    have hrun1 : (k1.envs cur).envStatus = .running := by
      rw [ha.other cur hec]
      exact hrun
    have hans := hin.woken (s := .notRunnable) hcur1 hrun1 ((ha.live_iff hlt).mpr (Or.inl rfl))
      (f := fun env => { env with
        envStatus := .notRunnable, envTf := (k1.envs cur').envTf.withEax 0 })
      (fun _ => ⟨rfl, rfl, rfl, rfl⟩) (by decide) hne fun hf => absurd hf (by decide)
    refine ⟨hans.inside, hans.curenv, hans.again, ?_⟩
    rw [Kernel.setEnv_envLog, ha.envLog]
    exact .alloc e
  | destroyed hno hnames hd =>
    unfold SafeCall at hsafe
    rw [hno] at hsafe
    exact hd.answered h hcur hrun (hnames.live hlive) (hsafe _ hnames)
  | @loaded e k1 k2 frame hno hnames ha hs =>
    unfold SafeCall at hsafe
    rw [hno] at hsafe
    have hlv := hnames.live hlive
    have hans : Answered k cur k1 := by
      cases ha with
      | ok hs => exact hrefl.sameEnvs hs
      | @destroyed k0 _ hs hd =>
        have hst : (k0.envs e).envStatus = .dying → NotElsewhere k0 e := by
          intro hst i hlt hi
          rw [hs.cpus]
          exact hsafe e hnames (by rw [← hs.envs]; exact hst) i hlt (hs.cpunum ▸ hi)
        refine (hd.answered (h.sameEnvs hs) (hs.curenv.trans hcur) ?_ ?_ hst).steady hs.steady
        · rw [hs.envs]
          exact hrun
        · exact (SameSlots.of_sameEnvs hs).live_iff.mpr hlv
    exact (hans.sameEnvs hs).setEnv hlv.1 fun _ => ⟨rfl, rfl, rfl, rfl⟩

theorem Left.done (hleft : Left c k k') : Done k k' := by
  cases hleft with
  | yield hsched =>
    refine h.done .same hsched fun e he hr => ?_
    obtain rfl : cur = e := Option.some.inj (hcur.symm.trans he)
    rw [hrun] at hr
    cases hr
  | @recv c' dstva hno hc hsched =>
    have hin := h.setStatus (f := fun env =>
      { env with envIpcRecving := true, envIpcDstva := dstva, envStatus := .notRunnable })
      (h.live hc) rfl rfl rfl (fun hf => (by cases hf)) fun i hi hx => hi (h.distinct hx hc)
    refine hin.done .same hsched fun e he hr => ?_
    obtain rfl : c' = e := Option.some.inj (hc.symm.trans he)
    rw [Kernel.setEnv_self] at hr
    cases hr
  | destroyed hs hd => exact (hd.done (h.sameEnvs hs)).steady hs.steady

theorem Handled.done (hsafe : tf.tfTrapno = tSyscall → SafeCall k (tf.call k.cpunum cur))
    (hh : Handled tf cur k k') : Done k k' := by
  have hrefl : Answered k cur k := .of_running h hcur hrun .same
  have hlt := (h.live hcur).1
  cases hh with
  | monitor => exact ⟨h.monitored, .same⟩
  | back hs hb => exact hb.done (hrefl.sameEnvs hs)
  | timer hs hsched => exact (Back.sched hsched).done (hrefl.sameEnvs hs)
  | upcall eip esp hs =>
    have hans := (hrefl.sameEnvs hs).setEnv hlt (f := fun env =>
      { env with envTf := { env.envTf with tfEip := eip, tfEsp := esp } })
      fun _ => ⟨rfl, rfl, rfl, rfl⟩
    refine (Back.resume hans.curenv ?_).done hans
    rw [Kernel.setEnv_self, hs.envs]
    exact hrun
  | destroyed hs hd => exact (hd.done (h.sameEnvs hs)).steady hs.steady
  | @returned k1 _ r hno hret hb =>
    have hans := hret.answered h hcur hrun (hsafe hno)
    exact hb.done (hans.setEnv hlt (f := fun env => { env with envTf := env.envTf.withEax r })
      fun _ => ⟨rfl, rfl, rfl, rfl⟩)
  | left hno hleft => exact hleft.done h hcur hrun

end

end

theorem Trapped.done (hst : ∀ c, k.curenv = some c → (k.envs c).envStatus.OnCpu)
    (hsafe : tf.tfTrapno = tSyscall → ∀ c, k.curenv = some c → SafeCall k (tf.call k.cpunum c))
    (ht : Trapped tf k k') : Done k k' := by
  have hstart : Inside k.started := h.setCpu fun _ => rfl
  cases ht with
  | dying hcur _ hfree hsched =>
    have hd : SelfDestroyed k.started _ k' := .mk (k.started_steady.curenv.trans hcur) hfree hsched
    exact (hd.done hstart).steady k.started_steady
  | @saved c _ hcur hnd hh =>
    have hrun := (hst c hcur).resolve_right hnd
    have hlt := (h.live hcur).1
    have hsave : Steady k (k.save c tf) := by
      have hset : Steady k.started (k.save c tf) := Kernel.setEnv_steady hlt rfl rfl rfl Iff.rfl
      exact k.started_steady.trans hset
    have hin : Inside (k.save c tf) := hstart.setEnv hlt fun _ => ⟨rfl, rfl, rfl, rfl⟩
    have hnames := k.save_sameNames c tf
    refine (hh.done hin (hsave.curenv.trans hcur) ?_ fun hno => ?_).steady hsave
    · rw [hnames.status]
      exact hrun
    · exact (hsafe hno c hcur).congr hnames

theorem EnvCreated.done (hmode : (k.cpus k.cpunum).mode = .boot)
    (hcur : k.curenv = none) (hc : EnvCreated k k') : Done k k' := by
  obtain ⟨cr3, type, brk, eip, fl, ha, _, hs⟩ := hc
  have hlt := (h.freeSlots.head ha.head).1
  have hset := (h.allocated ha).setCpu (f := fun c => { c with cr3 := cr3 }) fun _ => rfl
  have hin : Inside k' := by
    refine (hset.setEnv hlt ?_).sameEnvs hs
    exact fun _ => ⟨rfl, rfl, rfl, rfl⟩
  have hcpu : k'.cpus k'.cpunum = { k.cpus k.cpunum with cr3 := cr3 } := by
    rw [hs.cpus, hs.cpunum, Kernel.setEnv_cpus, Kernel.setEnv_cpunum, Kernel.setCpu_cpunum,
      Kernel.setCpu_self, ha.cpus, ha.cpunum]
  refine ⟨hin.leave ?_, ?_⟩
  · unfold Settled
    rw [hcpu, show (k.cpus k.cpunum).cpuEnv = none from hcur]
    exact Or.inl hmode
  · rw [hs.envLog]
    rw [Kernel.setEnv_envLog, Kernel.setCpu_envLog, ha.envLog]
    exact .alloc _

end

section

variable (h : Orderly k)

include h

theorem Orderly.unlocked (hlock : k.Unlocked) (i : Nat) : Settled k i :=
  (h.settled i).resolve_right fun hm => hlock i hm.1 hm.2

theorem Orderly.inside (hlock : k.Unlocked) (hcpu : cpu < ncpu)
    (htail : (k.cpus cpu).cpuEnv = some (nenv - 1) → (k.envs nenv).envStatus ≠ .runnable) :
    Inside (k.on cpu) where
  toOrdered := ⟨h.freeSlots, h.ids, h.lifetimes, h.live, h.distinct, h.absent⟩
  cpu := hcpu
  others i _ := h.unlocked hlock i
  tail := htail

/-- A processor that has no current environment can always enter the scheduler. -/
theorem Orderly.inside_idle (hlock : k.Unlocked) (hcpu : cpu < ncpu)
    (hidle : (k.cpus cpu).cpuEnv = none) : Inside (k.on cpu) := by
  refine h.inside hlock hcpu fun hc => ?_
  rw [hidle] at hc
  cases hc

theorem Outside.orderly (ho : Outside k k') : Orderly k' := by
  have hslots : SameSlots k k' := by
    refine ⟨ho.envFreeList, ?_, ?_, ?_⟩ <;> intro e he <;> rw [ho.envs e he]
  have hlive : ∀ {x}, k'.Live x ↔ k.Live x := hslots.live_iff
  refine ⟨⟨hslots.freeSlots h.freeSlots, ?_, ?_, ?_, ?_, ?_⟩, fun i => ?_⟩
  · intro e he
    rw [ho.envs e he.1]
    exact h.ids (hlive.mp he)
  · intro e he
    rw [ho.envLog, decide_eq_decide.mpr hlive]
    exact h.lifetimes e he
  · intro i e he
    rw [ho.cpus] at he
    exact hlive.mpr (h.live he)
  · intro i j e hi hj
    rw [ho.cpus] at hi hj
    exact h.distinct hi hj
  · rw [ho.cpus]
    exact h.absent
  · refine (h.settled i).imp (fun hset => ?_) fun hm => by rw [ho.cpus]; exact hm
    refine hset.congr (by rw [ho.cpus]) (by rw [ho.cpus]) fun e he => ?_
    rw [ho.envs e (h.live he).1]
    exact hset.onCpu he

/-- A careful step keeps the invariant, and frees no environment that another processor
runs. -/
theorem MachineStep.done {ev : Event} (hstep : MachineStep k ev k')
    (hcare : Careful k ev) : ∃ cpu, Done (k.on cpu) k' := by
  cases hstep with
  | @create binary type _ hlock hmode hrun =>
    have hidle := (h.unlocked hlock 0).idle (by rw [hmode]; decide)
    have hw : wp (envCreate binary type) (fun _ => EnvCreated (k.on 0)) (fun _ => False)
        (k.on 0) := envCreate_wp binary type
    exact ⟨0, ((wp_of_ret hrun).mp hw).done (h.inside_idle hlock (by decide) hidle) hmode hidle⟩
  | @boot cpu _ hcpu hlock hmode _ hrun =>
    have hidle := (h.unlocked hlock cpu).idle (by rw [hmode]; decide)
    refine ⟨cpu, (h.inside_idle hlock hcpu hidle).done .same
      (exit_of_wp schedYield_wp hrun) fun e he => ?_⟩
    cases hidle.symm.trans he
  | @trap cpu tf cr2 _ hcpu hlock hmode htf hrun =>
    obtain ⟨htail, hsafe⟩ := hcare
    refine ⟨cpu, Trapped.done (h.inside hlock hcpu htail) (fun c hc => ?_) hsafe
      (exit_of_wp (trap_wp htf.cs) hrun)⟩
    exact (h.unlocked hlock cpu).onCpu hc
  | @irq cpu tf cr2 _ hcpu hlock hmode htf hrun =>
    have hidle := (h.unlocked hlock cpu).idle (by rw [hmode]; decide)
    have hcur : (k.on cpu).curenv = none := hidle
    obtain ⟨k1, hs, hsched⟩ := exit_of_wp (trap_idle_wp htf hcur) hrun
    have hstart : Inside (k.on cpu).started := (h.inside_idle hlock hcpu hidle).setCpu fun _ => rfl
    have hin := hstart.sameEnvs hs
    have hsteady := (k.on cpu).started_steady.trans hs.steady
    refine ⟨cpu, hin.done (hsteady.envLog ▸ .same) hsched fun e he => ?_⟩
    cases hidle.symm.trans (hsteady.curenv.symm.trans he)
  | outside ho =>
    refine ⟨0, ho.orderly h, ?_⟩
    rw [ho.envLog]
    exact .same

end

theorem PoweredOn.orderly (h : PoweredOn k) : Orderly k where
  freeSlots := by
    obtain ⟨l, hl, hnd, hlt⟩ := h.free_list
    exact ⟨l, hl, hnd, fun e he => ⟨hlt e he, h.free e (hlt e he)⟩⟩
  ids he := absurd (h.free _ he.1) he.2
  lifetimes e he := by
    rw [h.envLog, decide_eq_false fun hl : k.Live e => hl.2 (h.free e he)]
    exact .nil
  live := by
    intro i e he
    rw [(h.cpus i).2] at he
    cases he
  distinct := by
    intro i j e hi
    rw [(h.cpus i).2] at hi
    cases hi
  absent i _ := (h.cpus i).2
  settled i := by
    unfold Settled
    rw [(h.cpus i).2]
    exact Or.inl (Or.inl (h.cpus i).1)

theorem MachineRun.orderly (h0 : PoweredOn k0) (hrun : MachineRun Careful k0 k) : Orderly k := by
  refine run_invariant hrun h0.orderly ?_
  rintro s s' hs ⟨ev, hstep, hcare⟩
  obtain ⟨cpu, hdone⟩ := hstep.done hs hcare
  exact hdone.orderly

/-- No environment is current on two processors, and what a processor in user mode runs is
an environment that the scheduler does not pick. -/
structure Exclusive (k : Kernel) : Prop where
  one : ∀ {i j e}, (k.cpus i).cpuEnv = some e → (k.cpus j).cpuEnv = some e → i = j
  user : ∀ i, (k.cpus i).mode = .user → ∃ e, (k.cpus i).cpuEnv = some e ∧
    ((k.envs e).envStatus = .running ∨ (k.envs e).envStatus = .dying)

theorem Settled.user (h : Settled k e) (hmode : (k.cpus e).mode = .user) :
    ∃ x, (k.cpus e).cpuEnv = some x ∧ (k.envs x).envStatus.OnCpu := by
  unfold Settled at h
  cases hc : (k.cpus e).cpuEnv with
  | none =>
    rw [hc, hmode] at h
    rcases h with h | h <;> cases h
  | some x =>
    rw [hc] at h
    exact ⟨x, rfl, h.2⟩

/-- Every run of careful steps from power on keeps the environments on one processor. -/
theorem machineRun_exclusive (h0 : PoweredOn k0) (hrun : MachineRun Careful k0 k) :
    Exclusive k := by
  have h := hrun.orderly h0
  refine ⟨h.distinct, fun i hmode => ?_⟩
  refine ((h.settled i).resolve_right fun hm => ?_).user hmode
  rw [hmode] at hm
  cases hm.2

/-- Every run of careful steps takes down an environment once for each time it was allocated, and
never while another processor runs it. No current environment is on the free list. -/
theorem machineRun_teardown (h0 : PoweredOn k0) (hrun : MachineRun Careful k0 k) :
    (∀ e < nenv, Lifetimes e k.envLog (decide (k.Live e))) ∧
    (∃ l, Chain (fun e => (k.envs e).envLink) k.envFreeList l ∧ l.Nodup ∧
      ∀ i e, (k.cpus i).cpuEnv = some e → e ∉ l) ∧
    (∀ ev k', MachineStep k ev k' → Careful k ev → ∃ new, k'.envLog = k.envLog ++ new ∧
      new.length ≤ 1 ∧
      ∀ cpu e, .free cpu e ∈ new → ∀ i < ncpu, i ≠ cpu → (k.cpus i).cpuEnv ≠ some e) := by
  have h := hrun.orderly h0
  refine ⟨h.lifetimes, ?_, ?_⟩
  · obtain ⟨l, hl, hnd, hfree⟩ := h.freeSlots
    exact ⟨l, hl, hnd, fun i e he hm => (h.live he).2 (hfree e hm).2⟩
  · intro ev k' hstep hcare
    obtain ⟨cpu, hdone⟩ := hstep.done h hcare
    have hlog := hdone.log
    generalize k'.envLog = l at hlog
    cases hlog with
    | same => exact ⟨[], (List.append_nil _).symm, Nat.zero_le 1, fun _ _ hm => by cases hm⟩
    | alloc e => exact ⟨[.alloc e], rfl, le_rfl, fun _ _ hm => by simp at hm⟩
    | free e hne =>
      refine ⟨[.free cpu e], rfl, le_rfl, fun cpu' e' hm i hi hic => ?_⟩
      obtain ⟨rfl, rfl⟩ : cpu' = cpu ∧ e' = e := by simpa using hm
      exact hne i hi hic

theorem snapshot_poweredOn : PoweredOn snapshot where
  free := snapshot_booted.free
  free_list := snapshot_booted.free_list
  links e _ x hx := by
    change upTo nenv e = some x at hx
    unfold upTo at hx
    split at hx
    · cases hx
      assumption
    · cases hx
  cpus _ := ⟨rfl, rfl⟩
  envLog := rfl

/-- The state after the code `m` on a processor, if it leaves the kernel. -/
def Kernel.exec (k : Kernel) (cpu : Nat) (m : Kern Unit) : Kernel := (m (k.on cpu)).after k

/-- The frame of a system call with two arguments. -/
def callTf (no a1 a2 : Word) : Trapframe :=
  { initialTf with
    tfTrapno := tSyscall
    tfRegs := { initialTf.tfRegs with regEax := no, regEdx := a1, regEcx := a2 } }

@[irreducible] def solo : Kernel := single.exec 0 schedYield

@[irreducible] def forked : Kernel := solo.exec 0 (trap (callTf 7 0 0) 0)

@[irreducible] def woken : Kernel := forked.exec 0 (trap (callTf 8 0x1001 2) 0)

@[irreducible] def both : Kernel := woken.exec 1 schedYield

theorem MachineStep.of_boot (h : cpu < ncpu ∧ k.Unlocked ∧ (k.cpus cpu).mode = .boot ∧
    (cpu = 0 ∨ (k.cpus 0).mode ≠ .boot) ∧ (schedYield (k.on cpu)).leaves) :
    MachineStep k (.boot cpu) (k.exec cpu schedYield) := by
  obtain ⟨hcpu, hlock, hmode, hfirst, hl⟩ := h
  exact .boot hcpu hlock hmode hfirst (Outcome.exit_of_leaves hl k)

theorem MachineStep.of_trap {cr2 : Word} (h : cpu < ncpu ∧ k.Unlocked ∧
    (k.cpus cpu).mode = .user ∧ FromUser (k.cpus cpu).userTf tf ∧
    (Jos.trap tf cr2 (k.on cpu)).leaves) :
    MachineStep k (.trap cpu tf cr2) (k.exec cpu (Jos.trap tf cr2)) := by
  obtain ⟨hcpu, hlock, hmode, hfrom, hl⟩ := h
  exact .trap hcpu hlock hmode hfrom (Outcome.exit_of_leaves hl k)

theorem single_step : MachineStep snapshot (.create hello .user) single :=
  .create (by decide) rfl single_run

theorem solo_step : MachineStep single (.boot 0) solo := by
  unfold solo
  exact .of_boot (by decide +kernel)

theorem forked_step : MachineStep solo (.trap 0 (callTf 7 0 0) 0) forked := by
  unfold forked
  exact .of_trap (by decide +kernel)

theorem child_of_names (h : Names k 0x1001 true e) : e = 1 := by
  rcases h with ⟨h0, _⟩ | ⟨_, he, _⟩
  · cases h0
  · exact he.trans (show envx 0x1001 = 1 by decide)

theorem both_run : MachineRun Careful snapshot both := by
  have hwoken : MachineStep forked (.trap 0 (callTf 8 0x1001 2) 0) woken := by
    unfold woken
    exact .of_trap (by decide +kernel)
  have hboth : MachineStep woken (.boot 1) both := by
    unfold both
    exact .of_boot (by decide +kernel)
  have hfork : Careful solo (.trap 0 (callTf 7 0 0) 0) :=
    ⟨fun hc => absurd hc (by decide +kernel), fun _ _ _ => trivial⟩
  have hwake : Careful forked (.trap 0 (callTf 8 0x1001 2) 0) := by
    refine ⟨fun hc => absurd hc (by decide +kernel), fun _ c _ e s hnames hs => ?_⟩
    have hnot : NotElsewhere (forked.on 0) 1 := by
      unfold NotElsewhere
      decide +kernel
    obtain rfl := child_of_names hnames
    exact ⟨hnot, fun _ hc => absurd hc (by decide +kernel)⟩
  have h1 := Relation.ReflTransGen.single (r := fun k k' => ∃ ev, MachineStep k ev k' ∧
    Careful k ev) ⟨_, single_step, trivial⟩
  have h2 := (h1.tail ⟨_, solo_step, trivial⟩).tail ⟨_, forked_step, hfork⟩
  exact (h2.tail ⟨_, hwoken, hwake⟩).tail ⟨_, hboth, trivial⟩

/-- Two processors run a parent and its child. -/
theorem machineRun_exclusive_both : ∃ k, MachineRun Careful snapshot k ∧
    (k.cpus 0).cpuEnv = some 0 ∧ (k.cpus 1).cpuEnv = some 1 ∧ Exclusive k :=
  ⟨both, both_run, by decide +kernel, by decide +kernel,
    machineRun_exclusive snapshot_poweredOn both_run⟩

/-- The parent has destroyed the child that runs on the second processor. -/
@[irreducible] def marked : Kernel := both.exec 0 (trap (callTf 3 0x1001 0) 0)

/-- The child has made a system call, and the kernel has freed it. -/
@[irreducible] def buried : Kernel := marked.exec 1 (trap (callTf 0 0 0) 0)

theorem marked_step : MachineStep both (.trap 0 (callTf 3 0x1001 0) 0) marked := by
  unfold marked
  exact .of_trap (by decide +kernel)

/-- The same run goes on: the child is destroyed while it runs, and freed when it enters the
kernel. -/
theorem machineRun_teardown_buried : ∃ k, MachineRun Careful snapshot k ∧
    k.envLog = [.alloc 0, .alloc 1, .free 1 1] ∧ Lifetimes 1 k.envLog false := by
  have hmark : Careful both (.trap 0 (callTf 3 0x1001 0) 0) := by
    refine ⟨fun hc => absurd hc (by decide +kernel), fun _ c _ e hnames hdying => ?_⟩
    obtain rfl := child_of_names hnames
    exact absurd hdying (by decide +kernel)
  have hburied : MachineStep marked (.trap 1 (callTf 0 0 0) 0) buried := by
    unfold buried
    exact .of_trap (by decide +kernel)
  have hbury : Careful marked (.trap 1 (callTf 0 0 0) 0) :=
    ⟨fun hc => absurd hc (by decide +kernel), fun _ _ _ => trivial⟩
  have hrun := (both_run.tail ⟨_, marked_step, hmark⟩).tail ⟨_, hburied, hbury⟩
  have hlive : ¬buried.Live 1 := by decide +kernel
  have hlife := (machineRun_teardown snapshot_poweredOn hrun).1 1 (by decide)
  rw [decide_eq_false hlive] at hlife
  exact ⟨buried, hrun, by decide +kernel, hlife⟩

@[irreducible] def ready : Kernel := solo.exec 0 (trap (callTf 8 0 2) 0)

/-- The second processor has entered the scheduler. -/
@[irreducible] def shared : Kernel := ready.exec 1 schedYield

/-- An environment that makes itself runnable while it runs ends up on two processors. -/
theorem set_status_self_runs_twice : ∃ k, MachineRun (fun _ _ => True) snapshot k ∧
    (k.cpus 0).cpuEnv = some 0 ∧ (k.cpus 0).mode = .user ∧
    (k.cpus 1).cpuEnv = some 0 ∧ (k.cpus 1).mode = .user ∧ ¬Exclusive k := by
  have hready : MachineStep solo (.trap 0 (callTf 8 0 2) 0) ready := by
    unfold ready
    exact .of_trap (by decide +kernel)
  have hshared : MachineStep ready (.boot 1) shared := by
    unfold shared
    exact .of_boot (by decide +kernel)
  have hrun : MachineRun (fun _ _ => True) snapshot shared :=
    (((Relation.ReflTransGen.single ⟨_, single_step, trivial⟩).tail
      ⟨_, solo_step, trivial⟩).tail ⟨_, hready, trivial⟩).tail ⟨_, hshared, trivial⟩
  have h0 : (shared.cpus 0).cpuEnv = some 0 := by decide +kernel
  have h1 : (shared.cpus 1).cpuEnv = some 0 := by decide +kernel
  exact ⟨shared, hrun, h0, by decide +kernel, h1, by decide +kernel,
    fun hex => absurd (hex.one h0 h1) (by decide)⟩

/-- The parent has destroyed the child once more. -/
@[irreducible] def torn : Kernel := marked.exec 0 (trap (callTf 3 0x1001 0) 0)

/-- The second of two calls of `sys_env_destroy` frees an environment while another
processor runs it, and puts it on the free list. -/
theorem second_destroy_frees_running : ∃ k k', MachineRun (fun _ _ => True) snapshot k ∧
    MachineStep k (.trap 0 (callTf 3 0x1001 0) 0) k' ∧
    (k.cpus 1).cpuEnv = some 1 ∧ (k.cpus 1).mode = .user ∧
    k'.envLog = k.envLog ++ [.free 0 1] ∧
    k'.envFreeList = some 1 ∧ (k'.cpus 1).cpuEnv = some 1 ∧ (k'.cpus 1).mode = .user := by
  have htorn : MachineStep marked (.trap 0 (callTf 3 0x1001 0) 0) torn := by
    unfold torn
    exact .of_trap (by decide +kernel)
  have hboth := both_run.weaken fun _ _ _ => trivial
  refine ⟨marked, torn, hboth.tail ⟨_, marked_step, trivial⟩, htorn, ?_⟩
  decide +kernel

/-- After any run of careful steps, the identifier of a live environment names its slot, the free
list holds free slots, and a processor that is not in its monitor is in user mode with an
environment marked as running, or has none. -/
theorem machineRun_settled (h0 : PoweredOn k0) (hrun : MachineRun Careful k0 k) :
    (∀ e, k.Live e → envx (k.envs e).envId = e) ∧ FreeSlots k ∧
      ∀ i, Settled k i ∨ i < ncpu ∧ (k.cpus i).mode = .monitor := by
  have h := hrun.orderly h0
  exact ⟨fun _ he => h.ids he, h.freeSlots, h.settled⟩

theorem machineRun_settled_both : Settled both 0 ∨ 0 < ncpu ∧ (both.cpus 0).mode = .monitor :=
  (machineRun_settled snapshot_poweredOn both_run).2.2 0

end Jos
