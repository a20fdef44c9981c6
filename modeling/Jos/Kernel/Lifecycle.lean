import Jos.Kernel.Scheduling
import Jos.Paging.Spaces

/-!
# Finding, allocating and freeing environments

One rule for each function of `kern/env.c` that the system calls use: what holds of the state in
which it returns and of the states in which it leaves the kernel.
-/

namespace Jos

open Logic

variable {E : Kernel → Prop} {k k' : Kernel} {e d q : Nat} {envid parentId : Word}
  {checkperm : Bool}

/-- The slot `e` is the one that `envid` names, and with `checkperm` the current
environment may manage it. -/
def Names (k : Kernel) (envid : Word) (checkperm : Bool) (e : Nat) : Prop :=
  (envid = 0 ∧ k.curenv = some e) ∨
  (envid ≠ 0 ∧ e = envx envid ∧ (k.envs e).envStatus ≠ .free ∧ (k.envs e).envId = envid ∧
    (checkperm → ∃ cur, k.curenv = some cur ∧
      (e = cur ∨ (k.envs e).envParentId = (k.envs cur).envId)))

theorem envid2env_wp {Q : Except Int Nat → Kernel → Prop}
    (herr : Q (.error (-eBadEnv)) k) (hok : ∀ e, Names k envid checkperm e → Q (.ok e) k) :
    wp (envid2env envid checkperm) Q E k := by
  unfold envid2env
  by_cases h0 : envid = 0
  · rw [if_pos h0, wp_bind, wp_curenv]
    intro e he
    exact wp_pure.mpr (hok e (.inl ⟨h0, he⟩))
  · rw [if_neg h0, wp_bind, wp_env]
    by_cases hbad : (k.envs (envx envid)).envStatus = .free ∨ (k.envs (envx envid)).envId ≠ envid
    · rw [if_pos hbad]
      exact wp_pure.mpr herr
    · rw [if_neg hbad]
      obtain ⟨hlive, hid⟩ := not_or.mp hbad
      have hid := not_not.mp hid
      cases checkperm with
      | false =>
        refine wp_pure.mpr (hok _ (.inr ⟨h0, rfl, hlive, hid, ?_⟩))
        exact fun hf => absurd hf Bool.false_ne_true
      | true =>
        rw [if_pos rfl, wp_bind, wp_curenv]
        intro cur hcur
        rw [wp_bind, wp_env]
        by_cases hperm : envx envid ≠ cur ∧ (k.envs (envx envid)).envParentId ≠ (k.envs cur).envId
        · rw [if_pos hperm]
          exact wp_pure.mpr herr
        · rw [if_neg hperm]
          refine wp_pure.mpr (hok _ (.inr ⟨h0, rfl, hlive, hid, fun _ => ⟨cur, hcur, ?_⟩⟩))
          by_cases hne : envx envid = cur
          · exact .inl hne
          · exact .inr (not_not.mp fun hp => hperm ⟨hne, hp⟩)

theorem Names.unique {e' : Nat} (h : Names k envid checkperm e)
    (h' : Names k envid checkperm e') : e = e' := by
  rcases h with ⟨h0, hc⟩ | ⟨h0, rfl, _⟩
  · rcases h' with ⟨_, hc'⟩ | ⟨h0', _⟩
    · exact Option.some.inj (hc.symm.trans hc')
    · exact absurd h0 h0'
  · rcases h' with ⟨h0', _⟩ | ⟨_, rfl, _⟩
    · exact absurd h0' h0
    · rfl

theorem envx_lt (envid : Word) : envx envid < nenv := by
  unfold envx nenv
  rw [BitVec.toNat_and]
  exact Nat.and_lt_two_pow (n := 10) _ (by decide)

/-- `env_alloc` has taken the slot `e` and given it the directory `q`. -/
structure EnvAllocated (k : Kernel) (parentId : Word) (e q : Nat) (k' : Kernel) : Prop where
  head : k.envFreeList = some e
  phys : setupVm k.phys = .ret (some q) k'.phys
  entry : k'.envs e = { k.envs e with
    envPgdir := some q
    envId := nextEnvId (k.envs e).envId e
    envParentId := parentId
    envType := .user
    envStatus := .runnable
    envRuns := 0
    envTf := initialTf
    envPgfaultUpcall := 0
    envIpcRecving := false }
  other : ∀ x, x ≠ e → k'.envs x = k.envs x
  envFreeList : k'.envFreeList = (k.envs e).envLink
  cpus : k'.cpus = k.cpus
  cpunum : k'.cpunum = k.cpunum
  envLog : k'.envLog = k.envLog ++ [.alloc e]

theorem envAlloc_wp {Q : Except Int Nat → Kernel → Prop}
    (herr : ∀ r k', SameEnvs k k' → k'.phys = k.phys ∨ setupVm k.phys = .ret none k'.phys →
      Q (.error r) k')
    (hok : ∀ e q k', EnvAllocated k parentId e q k' → Q (.ok e) k') :
    wp (envAlloc parentId) Q E k := by
  unfold envAlloc
  rw [wp_bind, wp_get]
  cases hhead : k.envFreeList with
  | none => exact wp_pure.mpr (herr _ k (.refl k) (.inl rfl))
  | some e =>
    unfold envSetupVm
    rw [wp_bind, wp_bind, wp_onPhys]
    refine setupVm_noExit.wp fun r p' hrun => ?_
    cases r with
    | none =>
      rw [wp_pure, if_pos (by decide)]
      exact wp_pure.mpr (herr _ _ ⟨rfl, rfl, rfl, rfl, rfl⟩ (.inr hrun))
    | some q =>
      rw [wp_bind, wp_setEnv, wp_pure, if_neg (by decide)]
      simp only [wp_bind, wp_setEnv, wp_pure, wp_modify]
      refine hok e q _ ⟨hhead, hrun, ?_, fun x hx => ?_, ?_, rfl, rfl, rfl⟩
      · simp [Kernel.setEnv]
      · simp [Kernel.setEnv, hx]
      · simp [Kernel.setEnv]

/-- `env_free` has released the slot `e` with the directory `d`. -/
structure EnvFreed (k : Kernel) (e d : Nat) (k' : Kernel) : Prop where
  pgdir : (k.envs e).envPgdir = some d
  phys : freeSpace d k.phys = .ret () k'.phys
  entry : k'.envs e = { k.envs e with
    envPgdir := none, envStatus := .free, envLink := k.envFreeList }
  other : ∀ x, x ≠ e → k'.envs x = k.envs x
  envFreeList : k'.envFreeList = some e
  cpunum : k'.cpunum = k.cpunum
  cpus : ∀ i, i ≠ k.cpunum → k'.cpus i = k.cpus i
  cpu : ∃ c, k'.cpus k.cpunum = { k.cpus k.cpunum with cr3 := c }
  envLog : k'.envLog = k.envLog ++ [.free k.cpunum e]

theorem EnvFreed.curenv (h : EnvFreed k e d k') : k'.curenv = k.curenv := by
  obtain ⟨c, hc⟩ := h.cpu
  unfold Kernel.curenv
  rw [h.cpunum, hc]

theorem envFree_wp {Q : Unit → Kernel → Prop} (h : ∀ d k', EnvFreed k e d k' → Q () k') :
    wp (envFree e) Q E k := by
  unfold envFree
  rw [wp_bind, wp_get]
  cases hpgdir : (k.envs e).envPgdir with
  | none =>
    by_cases hcur : k.curenv = some e
    · rw [if_pos hcur, wp_bind, wp_lcr3]
      exact wp_panic
    · rw [if_neg hcur]
      exact wp_panic
  | some d =>
    have hdecref : (do pageDecref (← pa2page d) : PhysM Unit).NoExit :=
      .bind (pa2page_noExit d) fun _ => pageDecref_noExit _
    -- The switch to `kern_pgdir` changes `cr3` only, whether it happens or not.
    have htail : ∀ f : Cpu → Cpu, (∃ c, f (k.cpus k.cpunum) = { k.cpus k.cpunum with cr3 := c }) →
        wp (envFreeSpace e d) Q E (k.setCpu f) := by
      intro f hf
      unfold envFreeSpace
      rw [wp_bind, wp_onPhys]
      refine (Code.NoExit.times fun i => envFreePde_noExit d i).wp fun _ p1 hloop => ?_
      rw [wp_bind, wp_setEnv, wp_bind, wp_onPhys]
      refine hdecref.wp fun _ p2 hdec => ?_
      simp only [wp_bind, wp_setEnv, wp_modify]
      refine h d _ ⟨hpgdir, bind_run hloop hdec, ?_, fun x hx => ?_, rfl, rfl, ?_, ?_, rfl⟩
      · simp [Kernel.setEnv, Kernel.setCpu]
      · simp [Kernel.setEnv, Kernel.setCpu, hx]
      · exact fun i hi => k.setCpu_of_ne f hi
      · obtain ⟨c, hc⟩ := hf
        exact ⟨c, (k.setCpu_self f).trans hc⟩
    by_cases hcur : k.curenv = some e
    · rw [if_pos hcur, wp_bind, wp_lcr3]
      exact htail _ ⟨_, rfl⟩
    · rw [if_neg hcur]
      have := htail (fun c => c) ⟨(k.cpus k.cpunum).cr3, rfl⟩
      rwa [k.setCpu_id] at this

/-- How `env_destroy` ends. An environment that runs on another processor is marked, and
every other one is freed. -/
theorem envDestroy_wp {Q : Unit → Kernel → Prop}
    (hmark : (k.envs e).envStatus = .running → k.curenv ≠ some e →
      Q () (k.setEnv e fun env => { env with envStatus := .dying }))
    (hfree : ∀ d k', ¬((k.envs e).envStatus = .running ∧ k.curenv ≠ some e) →
      k.curenv ≠ some e → EnvFreed k e d k' → Q () k')
    (hself : ∀ d k1 k', k.curenv = some e → EnvFreed k e d k1 →
      Scheduled (k1.setCpu fun c => { c with cpuEnv := none }) k' → E k') :
    wp (envDestroy e) Q E k := by
  unfold envDestroy
  rw [wp_bind, wp_get]
  by_cases hrun : (k.envs e).envStatus = .running ∧ k.curenv ≠ some e
  · rw [if_pos hrun, wp_setEnv]
    exact hmark hrun.1 hrun.2
  · rw [if_neg hrun, wp_bind]
    refine envFree_wp fun d k1 hfreed => ?_
    rw [wp_bind, wp_get, hfreed.curenv]
    by_cases hcur : k.curenv = some e
    · rw [if_pos hcur, wp_bind, wp_setCurenv]
      refine wp_mono schedYield_wp (fun _ _ hf => hf.elim) fun k' hk' => ?_
      exact hself d k1 k' hcur hfreed hk'
    · rw [if_neg hcur]
      exact wp_pure.mpr (hfree d k1 hrun hcur hfreed)

end Jos
