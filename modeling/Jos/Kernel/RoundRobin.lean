import Jos.Kernel.Snapshot
import Jos.Logic.Rotation

/-!
# Round robin

`sched_yield` is to run the first runnable environment in circular slot order after the current one.
The loop starts at `ENVX(curenv->env_id) + 1`, not reduced modulo `NENV`: after the last slot it
reads behind the table and never comes to slot 0.
-/

namespace Jos

open Logic

variable {k k' : Kernel} {e c : Nat}

namespace Kernel

def RunnableAt (k : Kernel) (i : Nat) : Prop := (k.envs i).envStatus = .runnable

instance (k : Kernel) (i : Nat) : Decidable (k.RunnableAt i) :=
  inferInstanceAs (Decidable ((k.envs i).envStatus = .runnable))

/-- The slot after that of the current environment. -/
def afterCurrent (k : Kernel) : Nat :=
  match k.curenv with
  | none => 0
  | some c => c + 1

/-- The same kernel with `f` in the memory behind the table of environments. -/
def behind (k : Kernel) (f : Nat → Env) : Kernel :=
  { k with envs := fun i => if i < nenv then k.envs i else f i }

end Kernel

/-- The current environment has a slot, and its identifier names that slot. -/
def CurrentNamed (k : Kernel) : Prop :=
  ∀ c, k.curenv = some c → c < nenv ∧ envx (k.envs c).envId = c

structure RoundRobin (k : Kernel) : Prop where
  next : ∀ e, First nenv k.afterCurrent k.RunnableAt e → schedYield k = envRun e k
  stay : (∀ i < nenv, ¬ k.RunnableAt i) → ∀ c, k.curenv = some c →
    (k.envs c).envStatus = .running → schedYield k = envRun c k
  halt : (∀ i < nenv, ¬ k.RunnableAt i) →
    (∀ c, k.curenv = some c → (k.envs c).envStatus ≠ .running) → schedYield k = schedHalt k

/-- The scheduler works as a round robin and looks only at the table: it does the same
whatever lies behind it. -/
def RoundRobinOnTable (k : Kernel) : Prop := ∀ f, RoundRobin (k.behind f)

theorem schedYield_of_pick (h : k.pick = some e) : schedYield k = envRun e k := by
  refine bind_run (get_apply k) ?_
  rw [bind_apply, schedLoop_of_pick h]
  cases hr : envRun e k with
  | ret u k' => exact absurd hr (envRun_not_ret e k k' u)
  | exit k' => rfl
  | panic s => rfl

theorem schedYield_of_running (h : k.pick = none) (hcur : k.curenv = some c)
    (hrun : (k.envs c).envStatus = .running) : schedYield k = envRun c k := by
  refine bind_run (get_apply k) (bind_run (schedLoop_of_none h) ?_)
  simp only [hcur]
  refine bind_run (bind_run (get_apply k) rfl) ?_
  rw [if_pos hrun, bind_apply]
  cases hr : envRun c k with
  | ret u k' => exact absurd hr (envRun_not_ret c k k' u)
  | exit k' => rfl
  | panic s => rfl

theorem schedYield_of_idle (h : k.pick = none)
    (hidle : ∀ c, k.curenv = some c → (k.envs c).envStatus ≠ .running) :
    schedYield k = schedHalt k := by
  refine bind_run (get_apply k) (bind_run (schedLoop_of_none h) ?_)
  cases hcur : k.curenv with
  | none => rfl
  | some c =>
    refine bind_run (bind_run (get_apply k) rfl) ?_
    rw [if_neg (hidle c hcur)]

theorem scanFrom_eq (n i : Nat) (hi : i < nenv) :
    scanFrom n i = (List.range n).map fun j => (i + j) % nenv := by
  induction n with
  | zero => rfl
  | succ n ih =>
    rcases Nat.eq_zero_or_pos n with rfl | hn
    · simp [scanFrom, Nat.mod_eq_of_lt hi]
    · rw [scanFrom_succ n i hn, ih, List.range_succ, List.map_append]
      rfl

theorem CurrentNamed.schedStart (h : CurrentNamed k) : k.schedStart = k.afterCurrent := by
  unfold Kernel.schedStart Kernel.afterCurrent
  cases hcur : k.curenv with
  | none => rfl
  | some c => exact congrArg (· + 1) (h c hcur).2

theorem pick_of_first (hs : k.schedStart < nenv) (h : First nenv k.schedStart k.RunnableAt e) :
    k.pick = some e := by
  obtain ⟨j, hj, rfl, hrun, hbefore⟩ := h
  unfold Kernel.pick
  rw [scanFrom_eq nenv _ hs, List.find?_map, Option.map_eq_some_iff]
  refine ⟨j, ?_, rfl⟩
  rw [List.find?_range_eq_some]
  unfold Kernel.RunnableAt at hrun hbefore
  refine ⟨by simpa using hrun, List.mem_range.mpr hj, fun i hi => ?_⟩
  simpa using hbefore i hi

theorem pick_none (hs : k.schedStart < nenv) (h : ∀ i < nenv, ¬ k.RunnableAt i) :
    k.pick = none := by
  unfold Kernel.pick
  rw [List.find?_eq_none]
  intro i hi
  rw [scanFrom_eq nenv _ hs] at hi
  obtain ⟨j, -, rfl⟩ := List.mem_map.mp hi
  have hnot := h _ (Nat.mod_lt (k.schedStart + j) (by decide))
  simpa [Kernel.RunnableAt] using hnot

theorem roundRobin_of_start (hs : k.schedStart = k.afterCurrent) (hlt : k.schedStart < nenv) :
    RoundRobin k where
  next _ h := schedYield_of_pick (pick_of_first hlt (hs.symm ▸ h))
  stay h _ hcur hrun := schedYield_of_running (pick_none hlt h) hcur hrun
  halt h hidle := schedYield_of_idle (pick_none hlt h) hidle

theorem Kernel.resume_curenv (k : Kernel) (e : Nat) : (k.resume e).curenv = k.curenv :=
  Kernel.setCpu_curenv _ _

theorem Kernel.switchTo_curenv (k : Kernel) (e d : Nat) : (k.switchTo e d).curenv = some e :=
  calc (k.switchTo e d).curenv
      = (k.preempt.setCpu fun c => { c with cpuEnv := some e }).curenv := Kernel.setCpu_curenv _ _
    _ = some e := Kernel.setCpu_curenv _ _

theorem Kernel.halted_curenv (k : Kernel) : k.halted.curenv = none := by
  unfold Kernel.halted
  rw [Kernel.setCpu_setCpu, Kernel.setCpu_setCpu, Kernel.setCpu_curenv]

theorem envRun_curenv (e : Nat) (k : Kernel) :
    wp (envRun e) (fun _ _ => False) (fun k' => k'.curenv = some e) k := by
  refine envRun_wp (fun hcur => ?_) fun d _ _ => ?_
  · exact (k.resume_curenv e).trans hcur
  · exact (Kernel.resume_curenv _ e).trans (k.switchTo_curenv e d)

theorem schedHalt_curenv (k : Kernel) :
    wp schedHalt (fun _ _ => False) (fun k' => k'.curenv = none ∨ k'.curenv = k.curenv) k := by
  refine wp_mono schedHalt_wp (fun _ _ hf => hf) ?_
  rintro k' (rfl | rfl)
  · exact Or.inl k.halted_curenv
  · exact Or.inr (Kernel.setCpu_curenv _ _)

theorem RoundRobin.curenv (h : RoundRobin k) (hcur : ∀ c, k.curenv = some c → c < nenv)
    (hend : schedYield k = .exit k') (hc : k'.curenv = some c) : c < nenv := by
  by_cases hex : ∃ i < nenv, k.RunnableAt i
  · obtain ⟨i, hi, hrun⟩ := hex
    obtain ⟨e, he⟩ := First.exists (s := k.afterCurrent) hi hrun
    have hexit := exit_of_wp (envRun_curenv e k) ((h.next e he).symm.trans hend)
    cases hc.symm.trans hexit
    exact he.lt
  · have hnone : ∀ i < nenv, ¬ k.RunnableAt i := fun i hi hrun => hex ⟨i, hi, hrun⟩
    by_cases hrun : ∃ c, k.curenv = some c ∧ (k.envs c).envStatus = .running
    · obtain ⟨b, hb, hrun⟩ := hrun
      have hexit := exit_of_wp (envRun_curenv b k) ((h.stay hnone b hb hrun).symm.trans hend)
      cases hc.symm.trans hexit
      exact hcur c hb
    · have hidle : ∀ c, k.curenv = some c → (k.envs c).envStatus ≠ .running :=
        fun b hb hr => hrun ⟨b, hb, hr⟩
      rcases exit_of_wp (schedHalt_curenv k) ((h.halt hnone hidle).symm.trans hend) with
        hn | hn
      · cases hc.symm.trans hn
      · exact hcur c (hn.symm.trans hc)

theorem CurrentNamed.behind (h : CurrentNamed k) (f : Nat → Env) : CurrentNamed (k.behind f) := by
  intro c hc
  obtain ⟨hlt, hid⟩ := h c hc
  refine ⟨hlt, ?_⟩
  simpa [Kernel.behind, hlt] using hid

/-- An environment that an entry behind the table seems to hold. -/
def strayEnv : Env := { snapshotEnv 0 with envStatus := .runnable, envPgdir := some 0 }

theorem pick_stray (h : CurrentNamed k) (hcur : k.curenv = some (nenv - 1)) :
    (k.behind fun _ => strayEnv).pick = some nenv := by
  have hstart : (k.behind fun _ => strayEnv).schedStart = nenv := by
    rw [(h.behind _).schedStart]
    have hcur' : (k.behind fun _ => strayEnv).curenv = some (nenv - 1) := hcur
    simp only [Kernel.afterCurrent, hcur']
    decide
  unfold Kernel.pick
  rw [hstart, show nenv = 1023 + 1 from rfl, scanFrom]
  exact List.find?_cons_of_pos (by simp [Kernel.behind, strayEnv, nenv])

theorem not_roundRobin_last (h : CurrentNamed k) (hcur : k.curenv = some (nenv - 1)) :
    ¬ RoundRobinOnTable k := by
  intro hrr
  have hne : (k.behind fun _ => strayEnv).curenv ≠ some nenv := by
    have hcur' : (k.behind fun _ => strayEnv).curenv = some (nenv - 1) := hcur
    rw [hcur']
    decide
  have hdir : ((k.behind fun _ => strayEnv).envs nenv).envPgdir = some 0 := by
    simp [Kernel.behind, strayEnv]
  have hrun : envRun nenv (k.behind fun _ => strayEnv) =
      .exit (((k.behind fun _ => strayEnv).switchTo nenv 0).resume nenv) := by
    rw [envRun_switch hne, hdir]
  have hend := (schedYield_of_pick (pick_stray h hcur)).trans hrun
  have hstray := exit_of_wp (envRun_curenv nenv _) hrun
  have hlt := (hrr _).curenv (fun c hc => ((h.behind _) c hc).1) hend hstray
  exact absurd hlt (lt_irrefl nenv)

/-- The calls `ks 0, …` of `sched_yield` pass over the runnable environment `r`. Each is made by the
environment that the call before it chose, and never by the last slot. -/
structure PassedOver (r calls : Nat) (ks : Nat → Kernel) : Prop where
  named : ∀ t < calls, CurrentNamed (ks t)
  notLast : ∀ t < calls, (ks t).curenv ≠ some (nenv - 1)
  runnable : ∀ t < calls, (ks t).RunnableAt r
  passed : ∀ t < calls, ∃ k', schedYield (ks t) = .exit k' ∧ k'.curenv ≠ some r ∧
    (ks (t + 1)).curenv = k'.curenv

theorem afterCurrent_lt (h : CurrentNamed k) (hcur : k.curenv ≠ some (nenv - 1)) :
    k.afterCurrent < nenv := by
  unfold Kernel.afterCurrent
  cases hc : k.curenv with
  | none => decide
  | some c =>
    have hlt := (h c hc).1
    have hne : c ≠ nenv - 1 := fun heq => hcur (heq ▸ hc)
    change c + 1 < nenv
    omega

theorem CurrentNamed.roundRobin (h : CurrentNamed k) (hcur : k.curenv ≠ some (nenv - 1)) :
    RoundRobin k :=
  roundRobin_of_start h.schedStart (h.schedStart.symm ▸ afterCurrent_lt h hcur)

theorem PassedOver.calls_lt {r calls : Nat} {ks : Nat → Kernel} (hr : r < nenv)
    (h : PassedOver r calls ks) : calls < nenv := by
  have hserved : ∀ t, ∃ e, t < calls →
      First nenv (ks t).afterCurrent (ks t).RunnableAt e ∧ (ks (t + 1)).curenv = some e ∧
        e ≠ r := by
    intro t
    by_cases ht : t < calls
    · obtain ⟨e, he⟩ := First.exists (s := (ks t).afterCurrent) hr (h.runnable t ht)
      obtain ⟨k', hend, hne, hnext⟩ := h.passed t ht
      have hrun := (((h.named t ht).roundRobin (h.notLast t ht)).next e he).symm.trans hend
      have hcur := exit_of_wp (envRun_curenv e (ks t)) hrun
      exact ⟨e, fun _ => ⟨he, hnext.trans hcur, fun heq => hne (heq ▸ hcur)⟩⟩
    · exact ⟨0, fun hlt => absurd hlt ht⟩
  choose served hserved using hserved
  refine First.passed_lt (fun t ht => (hserved t ht).1) (fun t ht => ?_) hr h.runnable
    fun t ht => (hserved t ht).2.2
  simp only [Kernel.afterCurrent, (hserved t ht).2.1]

/-- The scan is round robin on the table exactly if the current environment is not in the last slot,
and no runnable environment is passed over `NENV` times. -/
theorem sched_yield_round_robin (h : CurrentNamed k) :
    (RoundRobinOnTable k ↔ k.curenv ≠ some (nenv - 1)) ∧
    ∀ r calls ks, r < nenv → PassedOver r calls ks → calls < nenv := by
  refine ⟨⟨fun hrr hcur => not_roundRobin_last h hcur hrr, fun hcur f => ?_⟩,
    fun r calls ks hr hpass => hpass.calls_lt hr⟩
  exact (h.behind f).roundRobin hcur

/-- The first environment runs, and the second one is runnable. -/
theorem round_robin_nursery : nursery.curenv = some 0 ∧ nursery.RunnableAt 1 ∧
    nursery.pick = some 1 ∧ RoundRobinOnTable nursery := by
  have hcur : nursery.curenv = some 0 := by decide +kernel
  have hnamed : CurrentNamed nursery := by
    intro c hc
    cases hcur.symm.trans hc
    decide +kernel
  have hlast : nursery.curenv ≠ some (nenv - 1) := by decide +kernel
  exact ⟨hcur, by decide +kernel, by decide +kernel, (sched_yield_round_robin hnamed).1.mpr hlast⟩

/-- The environment in slot 0 is runnable, and the one in the last slot runs. -/
def crowded : Kernel :=
  (((snapshot.setEnv 0 fun env => { env with envStatus := .runnable, envId := 0x1000 }).setEnv
    (nenv - 1) fun env => { env with envStatus := .running, envId := 0x13ff }).setCpu fun c =>
      { c with cpuEnv := some (nenv - 1) })

structure Starving (k : Kernel) : Prop where
  cur : k.curenv = some (nenv - 1)
  named : CurrentNamed k
  running : (k.envs (nenv - 1)).envStatus = .running
  waits : k.RunnableAt 0
  others : ∀ i, i ≠ 0 → ¬ k.RunnableAt i

theorem Starving.pick (h : Starving k) : k.pick = none := by
  have hstart : k.schedStart = nenv := by
    rw [h.named.schedStart]
    simp only [Kernel.afterCurrent, h.cur]
    decide
  unfold Kernel.pick
  rw [List.find?_eq_none, hstart]
  intro i hi
  have hne : i ≠ 0 := by
    rcases mem_scanFrom hi with rfl | ⟨j, hpos, hlt, rfl⟩
    · decide
    · unfold nenv at hlt ⊢
      omega
  have hnot := h.others i hne
  simpa [Kernel.RunnableAt] using hnot

theorem Starving.schedYield (h : Starving k) : schedYield k = .exit (k.resume (nenv - 1)) :=
  (schedYield_of_running h.pick h.cur h.running).trans (envRun_of_cur h.cur)

theorem Starving.resume (h : Starving k) : Starving (k.resume (nenv - 1)) := by
  have hfield : ∀ {β : Type} (g : Env → β) (i : Nat),
      (∀ env n, g { env with envCpunum := n } = g env) →
      g ((k.resume (nenv - 1)).envs i) = g (k.envs i) :=
    fun g i hg => k.setEnv_field (nenv - 1) (fun env => { env with envCpunum := k.cpunum }) g
      (hg _ _) i
  have hcur := k.resume_curenv (nenv - 1)
  refine ⟨hcur.trans h.cur, fun c hc => ?_, ?_, ?_, fun i hi hrun => h.others i hi ?_⟩
  · rw [hfield Env.envId c fun _ _ => rfl]
    exact h.named c (hcur.symm.trans hc)
  · exact (hfield Env.envStatus _ fun _ _ => rfl).trans h.running
  · exact (hfield Env.envStatus _ fun _ _ => rfl).trans h.waits
  · exact (hfield Env.envStatus _ fun _ _ => rfl).symm.trans hrun

theorem crowded_starving : Starving crowded := by
  refine ⟨rfl, ?_, by decide, by decide, ?_⟩
  · intro c hc
    cases hc
    decide
  · intro i hi hrun
    unfold Kernel.RunnableAt crowded at hrun
    by_cases hl : i = nenv - 1
    · subst hl
      exact absurd hrun (by decide)
    · simp [Kernel.setEnv, hi, hl, snapshot, snapshotEnv] at hrun

/-- Slot 0 comes first after the last slot and is runnable, but each call returns to the
environment in the last slot. -/
theorem slot_zero_starves : ∃ ks : Nat → Kernel,
    First nenv (ks 0).afterCurrent (ks 0).RunnableAt 0 ∧
    ∀ t, (ks t).RunnableAt 0 ∧ (ks t).curenv = some (nenv - 1) ∧
      schedYield (ks t) = .exit (ks (t + 1)) := by
  have hstarving : ∀ t, Starving ((fun k => k.resume (nenv - 1))^[t] crowded) := by
    intro t
    induction t with
    | zero => exact crowded_starving
    | succ t ih =>
      rw [Function.iterate_succ_apply']
      exact ih.resume
  refine ⟨fun t => (fun k => k.resume (nenv - 1))^[t] crowded,
    ⟨0, by decide, by decide, crowded_starving.waits, fun i hi => absurd hi (by omega)⟩,
    fun t => ⟨(hstarving t).waits, (hstarving t).cur, ?_⟩⟩
  simp only [Function.iterate_succ_apply']
  exact (hstarving t).schedYield

end Jos
