import Jos.Kernel.Rules

/-!
# What the scheduler does

`env_run` and `sched_yield` never return; this module gives the states in which they leave the
kernel. `pick` is the environment that the search loop finds.
-/

namespace Jos

open Logic

variable {k k' : Kernel} {e d : Nat}

namespace Kernel

def resume (k : Kernel) (e : Nat) : Kernel :=
  (k.setEnv e fun env => { env with envCpunum := k.cpunum }).setCpu fun c =>
    { c with mode := .user, userTf := (k.envs e).envTf }

def preempt (k : Kernel) : Kernel :=
  match k.curenv with
  | none => k
  | some cur =>
    if (k.envs cur).envStatus = .running then
      k.setEnv cur fun env => { env with envStatus := .runnable }
    else k

/-- The environment `e` with the directory `d` becomes the current one. -/
def switchTo (k : Kernel) (e d : Nat) : Kernel :=
  (((k.preempt.setCpu fun c => { c with cpuEnv := some e }).setEnv e fun env =>
    { env with envStatus := .running }).setEnv e fun env =>
      { env with envRuns := env.envRuns + 1 }).setCpu fun c => { c with cr3 := d }

def halted (k : Kernel) : Kernel :=
  ((k.setCpu fun c => { c with cpuEnv := none }).setCpu fun c =>
    { c with cr3 := k.phys.kernPgdir }).setCpu fun c =>
      { c with cpuStatus := .halted, mode := .halt }

def monitored (k : Kernel) : Kernel := k.setCpu fun c => { c with mode := .monitor }

end Kernel

theorem envPopTf_eq (e : Nat) (k : Kernel) : envPopTf e k = .exit (k.resume e) := by
  refine bind_run (get_apply k) ?_
  refine bind_run (modify_apply _ k) ?_
  refine bind_run (modify_apply _ _) ?_
  rw [Kernel.setEnv_self]
  rfl

theorem envRun_of_cur (h : k.curenv = some e) : envRun e k = .exit (k.resume e) := by
  refine bind_run (get_apply k) ?_
  rw [if_neg (not_not.mpr h)]
  exact envPopTf_eq e k

theorem Kernel.preempt_pgdir (k : Kernel) (x : Nat) :
    (k.preempt.envs x).envPgdir = (k.envs x).envPgdir := by
  unfold Kernel.preempt
  split
  · rfl
  · split
    · exact k.setEnv_field _ _ Env.envPgdir rfl x
    · rfl

theorem envRun_switch (hne : k.curenv ≠ some e) : envRun e k =
    match (k.envs e).envPgdir with
    | none => .panic "PADDR called with invalid kva 00000000"
    | some d => .exit ((k.switchTo e d).resume e) := by
  have htail : ∀ k1 : Kernel, (k1.envs e).envPgdir = (k.envs e).envPgdir → (do
      setCurenv (some e)
      setEnv e fun env => { env with envStatus := .running }
      setEnv e fun env => { env with envRuns := env.envRuns + 1 }
      let pa ← paddr (← env e).envPgdir
      lcr3 pa
      envPopTf e : Kern Unit) k1 =
      match (k.envs e).envPgdir with
      | none => .panic "PADDR called with invalid kva 00000000"
      | some d => .exit (((((k1.setCpu fun c => { c with cpuEnv := some e }).setEnv e
          fun env => { env with envStatus := .running }).setEnv e
          fun env => { env with envRuns := env.envRuns + 1 }).setCpu
          fun c => { c with cr3 := d }).resume e) := by
    intro k1 hk1
    iterate 3 refine bind_run (modify_apply _ _) ?_
    refine bind_run (bind_run (get_apply _) rfl) ?_
    simp only [Kernel.setEnv_self, Kernel.setCpu_envs, hk1]
    cases (k.envs e).envPgdir with
    | none => rfl
    | some d =>
      refine bind_run (pure_apply d _) ?_
      exact bind_run (modify_apply _ _) (envPopTf_eq e _)
  refine bind_run (get_apply k) ?_
  rw [if_pos hne]
  have hpre := htail k.preempt (k.preempt_pgdir e)
  unfold Kernel.switchTo
  unfold Kernel.preempt at hpre ⊢
  cases hcur : k.curenv with
  | none =>
    rw [hcur] at hpre
    exact hpre
  | some cur =>
    rw [hcur] at hpre
    by_cases hs : (k.envs cur).envStatus = .running
    · simp only [hs, if_true] at hpre ⊢
      exact bind_run (modify_apply _ k) hpre
    · simp only [hs, if_false] at hpre ⊢
      exact hpre

theorem envRun_not_ret (e : Nat) (k k' : Kernel) (u : Unit) : envRun e k ≠ .ret u k' := by
  by_cases h : k.curenv = some e
  · rw [envRun_of_cur h]
    exact fun hc => by cases hc
  · rw [envRun_switch h]
    cases (k.envs e).envPgdir with
    | none => exact fun hc => by cases hc
    | some d => exact fun hc => by cases hc

theorem schedHalt_wp : wp schedHalt (fun _ _ => False)
    (fun k' => k' = k.halted ∨ k' = k.monitored) k := by
  unfold schedHalt
  rw [wp_bind, wp_get, wp_ite]
  constructor
  · intro _
    simp only [monitor, wp_bind, wp_modify, wp_exit]
    exact .inr rfl
  · intro _
    simp only [wp_bind, wp_modify, wp_exit, wp_setCurenv, wp_lcr3]
    exact .inl rfl

/-- The indices that the search loop visits in the given number of rounds. -/
def scanFrom : Nat → Nat → List Nat
  | 0, _ => []
  | rounds + 1, i => i :: scanFrom rounds ((i + 1) % nenv)

def Kernel.pick (k : Kernel) : Option Nat :=
  (scanFrom nenv k.schedStart).find? fun i => (k.envs i).envStatus = .runnable

theorem scanFrom_succ (n : Nat) : ∀ i, 0 < n →
    scanFrom (n + 1) i = scanFrom n i ++ [(i + n) % nenv] := by
  induction n with
  | zero =>
    intro i h
    exact absurd h (by omega)
  | succ n ih =>
    intro i _
    by_cases hn : 0 < n
    · have hlast : ((i + 1) % nenv + n) % nenv = (i + (n + 1)) % nenv := by
        unfold nenv
        omega
      calc scanFrom (n + 2) i = i :: scanFrom (n + 1) ((i + 1) % nenv) := rfl
        _ = i :: (scanFrom n ((i + 1) % nenv) ++ [(i + (n + 1)) % nenv]) := by rw [ih _ hn, hlast]
        _ = scanFrom (n + 1) i ++ [(i + (n + 1)) % nenv] := rfl
    · obtain rfl : n = 0 := by omega
      rfl

theorem mem_scanFrom {x : Nat} : ∀ {n i}, x ∈ scanFrom n i →
    x = i ∨ ∃ j, 0 < j ∧ j < n ∧ x = (i + j) % nenv := by
  intro n
  induction n with
  | zero =>
    intro i h
    cases h
  | succ n ih =>
    intro i h
    by_cases hn : 0 < n
    · rw [scanFrom_succ n i hn, List.mem_append, List.mem_singleton] at h
      rcases h with h | h
      · refine (ih h).imp_right fun ⟨j, hj, hlt, hx⟩ => ⟨j, hj, by omega, hx⟩
      · exact .inr ⟨n, hn, by omega, h⟩
    · obtain rfl : n = 0 := by omega
      exact .inl (List.mem_singleton.mp h)

theorem schedLoop_eq (n : Nat) : ∀ i, schedLoop n i k =
    match (scanFrom n i).find? fun i => (k.envs i).envStatus = .runnable with
    | some e => envRun e k
    | none => .ret () k := by
  induction n with
  | zero => exact fun _ => rfl
  | succ n ih =>
    intro i
    refine bind_run (bind_run (get_apply k) rfl) ?_
    by_cases hi : (k.envs i).envStatus = .runnable
    · rw [if_pos hi, scanFrom, List.find?_cons_of_pos (by simpa using hi), bind_apply]
      change _ = envRun i k
      cases hr : envRun i k with
      | ret u k' => exact absurd hr (envRun_not_ret i k k' u)
      | exit k' => rfl
      | panic s => rfl
    · rw [if_neg hi, scanFrom, List.find?_cons_of_neg (by simpa using hi)]
      exact ih _

theorem schedLoop_of_pick (h : k.pick = some e) : schedLoop nenv k.schedStart k = envRun e k := by
  unfold Kernel.pick at h
  rw [schedLoop_eq, h]

theorem schedLoop_of_none (h : k.pick = none) : schedLoop nenv k.schedStart k = .ret () k := by
  unfold Kernel.pick at h
  rw [schedLoop_eq, h]

inductive Scheduled (k : Kernel) : Kernel → Prop where
  | again {e : Nat} (hcur : k.curenv = some e) (hpick : k.pick = some e) :
      Scheduled k (k.resume e)
  | idle {e : Nat} (hcur : k.curenv = some e) (hpick : k.pick = none)
      (hrun : (k.envs e).envStatus = .running) : Scheduled k (k.resume e)
  | switch {e d : Nat} (hcur : k.curenv ≠ some e) (hpick : k.pick = some e)
      (hd : (k.envs e).envPgdir = some d) : Scheduled k ((k.switchTo e d).resume e)
  | halt : Scheduled k k.halted
  | monitor : Scheduled k k.monitored

theorem envRun_wp {P : Kernel → Prop} (hcur : k.curenv = some e → P (k.resume e))
    (hswitch : ∀ d, k.curenv ≠ some e → (k.envs e).envPgdir = some d →
      P ((k.switchTo e d).resume e)) :
    wp (envRun e) (fun _ _ => False) P k := by
  unfold wp
  by_cases h : k.curenv = some e
  · rw [envRun_of_cur h]
    exact hcur h
  · rw [envRun_switch h]
    cases hd : (k.envs e).envPgdir with
    | none => trivial
    | some d => exact hswitch d h hd

theorem schedYield_wp : wp schedYield (fun _ _ => False) (Scheduled k) k := by
  unfold schedYield
  rw [wp_bind, wp_get, wp_bind]
  cases hpick : k.pick with
  | some e =>
    rw [Code.wp_congr (schedLoop_of_pick hpick)]
    refine wp_imp (envRun_wp ?_ ?_) fun _ _ hf => hf.elim
    · exact fun hcur => .again hcur hpick
    · exact fun d hcur hd => .switch hcur hpick hd
  | none =>
    rw [wp_of_ret (schedLoop_of_none hpick)]
    have hhalt : wp schedHalt (fun _ _ => False) (Scheduled k) k := by
      refine wp_mono schedHalt_wp (fun _ _ hf => hf) ?_
      rintro k' (rfl | rfl)
      · exact .halt
      · exact .monitor
    cases hcur : k.curenv with
    | none => exact hhalt
    | some e =>
      refine wp_bind.mpr (wp_env.mpr (wp_ite.mpr ⟨fun hrun => ?_, fun _ => hhalt⟩))
      rw [wp_bind]
      refine wp_imp (envRun_wp ?_ ?_) fun _ _ hf => hf.elim
      · exact fun _ => .idle hcur hpick hrun
      · exact fun d hne => absurd hcur hne

theorem pick_spec (h : k.pick = some e) :
    (k.envs e).envStatus = .runnable ∧ (e = k.schedStart ∨ e < nenv) := by
  refine ⟨by simpa using List.find?_some h, ?_⟩
  refine (mem_scanFrom (List.mem_of_find?_eq_some h)).imp_right fun ⟨j, _, _, hx⟩ => ?_
  rw [hx]
  exact Nat.mod_lt _ (by decide)

/-- The two statuses between which the scheduler moves an environment. -/
def EnvStatus.Ready (s : EnvStatus) : Prop := s = .runnable ∨ s = .running

/-- `b` is `a` except for what the scheduler writes. -/
structure SchedOnly (a b : Env) : Prop where
  rest : b = { a with
    envStatus := b.envStatus, envRuns := b.envRuns, envCpunum := b.envCpunum }
  status : b.envStatus = a.envStatus ∨ a.envStatus.Ready ∧ b.envStatus.Ready

theorem SchedOnly.refl (a : Env) : SchedOnly a a := ⟨rfl, .inl rfl⟩

theorem SchedOnly.trans {a b c : Env} (h : SchedOnly a b) (h' : SchedOnly b c) : SchedOnly a c where
  rest := h'.rest.trans (congrArg (fun x : Env => { x with
    envStatus := c.envStatus, envRuns := c.envRuns, envCpunum := c.envCpunum }) h.rest)
  status := by
    rcases h'.status with hc | ⟨hb, hc⟩
    · rw [hc]
      exact h.status
    · rcases h.status with ha | ⟨ha, _⟩
      · exact .inr ⟨ha ▸ hb, hc⟩
      · exact .inr ⟨ha, hc⟩

theorem SchedOnly.field {a b : Env} {α : Type} (h : SchedOnly a b) (proj : Env → α)
    (hp : ∀ s r c, proj { a with envStatus := s, envRuns := r, envCpunum := c } = proj a) :
    proj b = proj a := by
  rw [h.rest, hp]

theorem SchedOnly.free_iff {a b : Env} (h : SchedOnly a b) :
    b.envStatus = .free ↔ a.envStatus = .free := by
  rcases h.status with hs | ⟨ha, hb⟩
  · rw [hs]
  · unfold EnvStatus.Ready at ha hb
    grind

theorem Kernel.setEnv_schedOnly {f : Env → Env} (h : SchedOnly (k.envs e) (f (k.envs e)))
    (x : Nat) : SchedOnly (k.envs x) ((k.setEnv e f).envs x) := by
  by_cases hx : x = e
  · rw [hx, Kernel.setEnv_self]
    exact h
  · rw [k.setEnv_of_ne e f hx]
    exact .refl _

theorem Kernel.resume_schedOnly (k : Kernel) (e x : Nat) :
    SchedOnly (k.envs x) ((k.resume e).envs x) := by
  unfold Kernel.resume
  rw [Kernel.setCpu_envs]
  exact Kernel.setEnv_schedOnly ⟨rfl, .inl rfl⟩ x

theorem Kernel.preempt_schedOnly (k : Kernel) (x : Nat) :
    SchedOnly (k.envs x) (k.preempt.envs x) := by
  unfold Kernel.preempt
  split
  · exact .refl _
  · split
    · next hrun => exact Kernel.setEnv_schedOnly ⟨rfl, .inr ⟨.inr hrun, .inl rfl⟩⟩ x
    · exact .refl _

theorem Kernel.switchTo_schedOnly (hrun : (k.envs e).envStatus.Ready) (d x : Nat) :
    SchedOnly (k.envs x) ((k.switchTo e d).envs x) := by
  have hready : (k.preempt.envs e).envStatus.Ready := by
    rcases (k.preempt_schedOnly e).status with hs | ⟨_, hs⟩
    · rw [hs]
      exact hrun
    · exact hs
  unfold Kernel.switchTo
  rw [Kernel.setCpu_envs]
  refine (k.preempt_schedOnly x).trans ?_
  refine .trans ?_ (Kernel.setEnv_schedOnly ⟨rfl, .inl rfl⟩ x)
  exact Kernel.setEnv_schedOnly (k := k.preempt.setCpu fun c => { c with cpuEnv := some e })
    ⟨rfl, .inr ⟨hready, .inr rfl⟩⟩ x

theorem Scheduled.envs (h : Scheduled k k') (x : Nat) : SchedOnly (k.envs x) (k'.envs x) := by
  cases h with
  | again hcur hpick => exact k.resume_schedOnly _ x
  | idle hcur hpick hrun => exact k.resume_schedOnly _ x
  | switch hcur hpick hd =>
    have hready := (pick_spec hpick).1
    exact (Kernel.switchTo_schedOnly (.inl hready) _ x).trans (Kernel.resume_schedOnly _ _ x)
  | halt => exact .refl _
  | monitor => exact .refl _

/-- Nothing but environments and the processor that executes is touched. -/
structure Elsewhere (k k' : Kernel) : Prop where
  phys : k'.phys = k.phys
  envFreeList : k'.envFreeList = k.envFreeList
  cpunum : k'.cpunum = k.cpunum
  envLog : k'.envLog = k.envLog
  cpus : ∀ i, i ≠ k.cpunum → k'.cpus i = k.cpus i

theorem Elsewhere.refl (k : Kernel) : Elsewhere k k := ⟨rfl, rfl, rfl, rfl, fun _ _ => rfl⟩

theorem Elsewhere.trans {k'' : Kernel} (h : Elsewhere k k') (h' : Elsewhere k' k'') :
    Elsewhere k k'' :=
  ⟨h'.phys.trans h.phys, h'.envFreeList.trans h.envFreeList, h'.cpunum.trans h.cpunum,
    h'.envLog.trans h.envLog,
    fun i hi => (h'.cpus i (h.cpunum ▸ hi)).trans (h.cpus i hi)⟩

theorem Kernel.setEnv_elsewhere (k : Kernel) (e : Nat) (f : Env → Env) :
    Elsewhere k (k.setEnv e f) := ⟨rfl, rfl, rfl, rfl, fun _ _ => rfl⟩

theorem Kernel.setCpu_elsewhere (k : Kernel) (f : Cpu → Cpu) : Elsewhere k (k.setCpu f) :=
  ⟨rfl, rfl, rfl, rfl, fun _ hi => k.setCpu_of_ne f hi⟩

theorem Kernel.resume_elsewhere (k : Kernel) (e : Nat) : Elsewhere k (k.resume e) :=
  (k.setEnv_elsewhere _ _).trans (Kernel.setCpu_elsewhere _ _)

theorem Kernel.resume_cpu (k : Kernel) (e : Nat) : (k.resume e).cpus k.cpunum =
    { k.cpus k.cpunum with mode := .user, userTf := (k.envs e).envTf } := by
  simp [Kernel.resume, Kernel.setCpu, Kernel.setEnv]

theorem Kernel.preempt_elsewhere (k : Kernel) : Elsewhere k k.preempt := by
  unfold Kernel.preempt
  split
  · exact .refl k
  · split
    · exact k.setEnv_elsewhere _ _
    · exact .refl k

theorem Kernel.switchTo_elsewhere (k : Kernel) (e d : Nat) : Elsewhere k (k.switchTo e d) :=
  k.preempt_elsewhere.trans <| (Kernel.setCpu_elsewhere _ _).trans <|
    (Kernel.setEnv_elsewhere _ _ _).trans <| (Kernel.setEnv_elsewhere _ _ _).trans <|
    Kernel.setCpu_elsewhere _ _

theorem Scheduled.elsewhere (h : Scheduled k k') : Elsewhere k k' := by
  cases h with
  | again hcur hpick => exact k.resume_elsewhere _
  | idle hcur hpick hrun => exact k.resume_elsewhere _
  | switch hcur hpick hd => exact (k.switchTo_elsewhere _ _).trans (Kernel.resume_elsewhere _ _)
  | halt =>
    exact (k.setCpu_elsewhere _).trans <| (Kernel.setCpu_elsewhere _ _).trans <|
      Kernel.setCpu_elsewhere _ _
  | monitor => exact k.setCpu_elsewhere _

end Jos
