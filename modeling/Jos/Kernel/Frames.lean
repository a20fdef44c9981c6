import Jos.Kernel.Exclusion

/-!
# Saved registers

What `iret` restores must lead to user mode with interrupts on. `Framed` says so of the frames of
all live environments. The only call that breaks it is `sys_env_set_trapframe`, whose mask clears
every flag; environments with I/O privilege level 3 can break it themselves.
-/

namespace Jos

open Logic

variable {k k' k1 k0 : Kernel} {e d q cur : Nat} {c : Call} {tf u : Trapframe} {parentId : Word}
  {cpu : Nat}

/-- The frame leads to user mode with interrupts on. -/
structure Preemptible (tf : Trapframe) : Prop where
  cs : tf.tfCs &&& 3 = 3
  intr : tf.tfEflags &&& flIf = flIf

theorem Preemptible.withEax (h : Preemptible tf) (eax : Word) : Preemptible (tf.withEax eax) :=
  ⟨h.cs, h.intr⟩

theorem initialTf_preemptible : Preemptible initialTf := ⟨by decide, by decide⟩

/-- User code that was entered in order traps in order, unless it may turn interrupts off
and has done so. -/
theorem FromUser.preemptible (h : FromUser u tf) (hu : Preemptible u)
    (hoff : u.tfEflags &&& flIoplMask = flIoplMask → tf.tfEflags &&& flIf = flIf) :
    Preemptible tf := by
  refine ⟨h.cs, ?_⟩
  by_cases hiopl : u.tfEflags &&& flIoplMask = flIoplMask
  · exact hoff hiopl
  · exact (h.intr hiopl).trans hu.intr

/-- The part of the invariant that holds inside the kernel and outside. -/
structure FramedTable (k : Kernel) : Prop where
  head : ∀ e, k.envFreeList = some e → e < nenv
  links : ∀ e < nenv, ∀ x, (k.envs e).envLink = some x → x < nenv
  ids : ∀ e, k.Live e → envx (k.envs e).envId = e
  cur : ∀ i e, (k.cpus i).cpuEnv = some e → e < nenv ∧ envx (k.envs e).envId = e
  frames : ∀ e, k.Live e → Preemptible (k.envs e).envTf

/-- A processor in user mode was entered with a frame in order, and one that boots or
waits has no current environment. -/
structure FramedCpu (c : Cpu) : Prop where
  user : c.mode = .user → Preemptible c.userTf
  idle : c.mode = .boot ∨ c.mode = .halt → c.cpuEnv = none

structure Framed (k : Kernel) : Prop extends FramedTable k where
  cpu : ∀ i, FramedCpu (k.cpus i)

/-- What holds while one processor is in the kernel, whose current environment has had its
frame saved. -/
structure FramedInside (k : Kernel) : Prop extends FramedTable k where
  cpu : ∀ i, i ≠ k.cpunum → FramedCpu (k.cpus i)
  saved : ∀ e, k.curenv = some e → Preemptible (k.envs e).envTf
  tail : k.curenv = some (nenv - 1) → (k.envs nenv).envStatus ≠ .runnable

/-- A change of the table that breaks no frame. The current environment may become live
again if it was not. -/
structure Mild (k k' : Kernel) : Prop where
  envFreeList : k'.envFreeList = k.envFreeList
  link : ∀ e < nenv, (k'.envs e).envLink = (k.envs e).envLink
  id : ∀ e < nenv, (k'.envs e).envId = (k.envs e).envId
  live : ∀ e, k'.Live e → k.Live e ∨ k.curenv = some e
  frame : ∀ e < nenv, Preemptible (k.envs e).envTf → Preemptible (k'.envs e).envTf
  cpunum : k'.cpunum = k.cpunum
  cpuEnv : ∀ i, (k'.cpus i).cpuEnv = (k.cpus i).cpuEnv
  cpus : ∀ i, i ≠ k.cpunum → k'.cpus i = k.cpus i
  tail : (k'.envs nenv).envStatus = (k.envs nenv).envStatus

theorem SameEnvs.mild (h : SameEnvs k k') : Mild k k' where
  envFreeList := h.envFreeList
  link e _ := by rw [h.envs]
  id e _ := by rw [h.envs]
  live e he := .inl ((SameSlots.of_sameEnvs h).live_iff.mp he)
  frame e _ hf := by rw [h.envs]; exact hf
  cpunum := h.cpunum
  cpuEnv _ := by rw [h.cpus]
  cpus _ _ := by rw [h.cpus]
  tail := by rw [h.envs]

theorem Kernel.setCpu_mild (k : Kernel) {f : Cpu → Cpu} (hf : ∀ c, (f c).cpuEnv = c.cpuEnv) :
    Mild k (k.setCpu f) where
  envFreeList := rfl
  link _ _ := rfl
  id _ _ := rfl
  live _ he := .inl he
  frame _ _ hf := hf
  cpunum := rfl
  cpuEnv := (k.setCpu_steady hf).cpuEnv
  cpus _ hi := k.setCpu_of_ne f hi
  tail := rfl

/-- A slot of the table is changed, but neither its identifier nor its link, and it comes to
life only if it is the current one. -/
theorem Kernel.setEnv_mild {f : Env → Env} (he : e < nenv)
    (hl : (f (k.envs e)).envLink = (k.envs e).envLink)
    (hid : (f (k.envs e)).envId = (k.envs e).envId)
    (hs : (f (k.envs e)).envStatus ≠ .free → k.Live e ∨ k.curenv = some e)
    (hf : Preemptible (k.envs e).envTf → Preemptible (f (k.envs e)).envTf) :
    Mild k (k.setEnv e f) where
  envFreeList := rfl
  link x _ := k.setEnv_field e f Env.envLink hl x
  id x _ := k.setEnv_field e f Env.envId hid x
  live x hx := by
    by_cases hxe : x = e
    · subst hxe
      obtain ⟨_, hst⟩ := hx
      rw [Kernel.setEnv_self] at hst
      exact hs hst
    · obtain ⟨hlt, hst⟩ := hx
      rw [k.setEnv_of_ne e f hxe] at hst
      exact .inl ⟨hlt, hst⟩
  frame x _ hx := by
    by_cases hxe : x = e
    · subst hxe
      rw [Kernel.setEnv_self]
      exact hf hx
    · rw [k.setEnv_of_ne e f hxe]
      exact hx
  cpunum := rfl
  cpuEnv _ := rfl
  cpus _ _ := rfl
  tail := by rw [k.setEnv_of_ne e f (by omega)]

theorem FramedCpu.of_user {cpu : Cpu} (hm : cpu.mode = .user) (hu : Preemptible cpu.userTf) :
    FramedCpu cpu := by
  refine ⟨fun _ => hu, fun hi => ?_⟩
  rw [hm] at hi
  rcases hi with hi | hi <;> cases hi

section

variable (h : FramedInside k)

include h

theorem FramedInside.mild (hm : Mild k k') : FramedInside k' := by
  have hcur : k'.curenv = k.curenv := by
    unfold Kernel.curenv
    rw [hm.cpunum, hm.cpuEnv]
  refine ⟨⟨?_, ?_, ?_, ?_, ?_⟩, ?_, ?_, ?_⟩
  · rw [hm.envFreeList]
    exact h.head
  · intro e he x hx
    rw [hm.link e he] at hx
    exact h.links e he x hx
  · intro e he
    rw [hm.id e he.1]
    rcases hm.live e he with hl | hc
    · exact h.ids e hl
    · exact (h.cur _ e hc).2
  · intro i e he
    rw [hm.cpuEnv] at he
    obtain ⟨hlt, hid⟩ := h.cur i e he
    exact ⟨hlt, (hm.id e hlt).symm ▸ hid⟩
  · intro e he
    rcases hm.live e he with hl | hc
    · exact hm.frame e he.1 (h.frames e hl)
    · exact hm.frame e he.1 (h.saved e hc)
  · intro i hi
    rw [hm.cpunum] at hi
    rw [hm.cpus i hi]
    exact h.cpu i hi
  · intro e he
    rw [hcur] at he
    exact hm.frame e (h.cur _ e he).1 (h.saved e he)
  · rw [hcur, hm.tail]
    exact h.tail

theorem FramedInside.allocated (ha : EnvAllocated k parentId e q k') : FramedInside k' := by
  have hlt := h.head e ha.head
  have hcur : k'.curenv = k.curenv := by
    unfold Kernel.curenv
    rw [ha.cpus, ha.cpunum]
  have hid : envx (k'.envs e).envId = e := by
    rw [ha.entry]
    exact envx_nextEnvId _ hlt
  have hframe : Preemptible (k'.envs e).envTf := by
    rw [ha.entry]
    exact initialTf_preemptible
  refine ⟨⟨?_, ?_, ?_, ?_, ?_⟩, ?_, ?_, ?_⟩
  · intro x hx
    rw [ha.envFreeList] at hx
    exact h.links e hlt x hx
  · intro x hx y hy
    by_cases hxe : x = e
    · rw [hxe, ha.entry] at hy
      exact h.links e hlt y hy
    · rw [ha.other x hxe] at hy
      exact h.links x hx y hy
  · intro x hx
    by_cases hxe : x = e
    · rw [hxe]
      exact hid
    · rw [ha.other x hxe]
      exact h.ids x (((ha.live_iff hlt).mp hx).resolve_left hxe)
  · intro i x hx
    rw [ha.cpus] at hx
    by_cases hxe : x = e
    · rw [hxe]
      exact ⟨hlt, hid⟩
    · rw [ha.other x hxe]
      exact h.cur i x hx
  · intro x hx
    by_cases hxe : x = e
    · rw [hxe]
      exact hframe
    · rw [ha.other x hxe]
      exact h.frames x (((ha.live_iff hlt).mp hx).resolve_left hxe)
  · rw [ha.cpus, ha.cpunum]
    exact h.cpu
  · intro x hx
    rw [hcur] at hx
    by_cases hxe : x = e
    · rw [hxe]
      exact hframe
    · rw [ha.other x hxe]
      exact h.saved x hx
  · rw [hcur, ha.other nenv (by omega)]
    exact h.tail

theorem FramedInside.freed (hf : EnvFreed k e d k1) (he : e < nenv) {g : Cpu → Cpu}
    (hg : ∀ x, (g (k1.cpus k.cpunum)).cpuEnv = some x → k.curenv = some x ∧ x ≠ e) :
    FramedInside (k1.setCpu g) := by
  have hlive : ∀ {x}, k1.Live x → x ≠ e ∧ k.Live x := fun hx => hf.live_iff.mp hx
  have hcpu : ∀ i, i ≠ k.cpunum → (k1.setCpu g).cpus i = k.cpus i := fun i hi =>
    (k1.setCpu_of_ne g (hf.cpunum.symm ▸ hi)).trans (hf.cpus i hi)
  have hcur : ∀ x, (k1.setCpu g).curenv = some x → k.curenv = some x ∧ x ≠ e := by
    intro x hx
    rw [Kernel.setCpu_curenv, hf.cpunum] at hx
    exact hg x hx
  have hid : ∀ x, (k1.envs x).envId = (k.envs x).envId := by
    intro x
    by_cases hxe : x = e
    · rw [hxe, hf.entry]
    · rw [hf.other x hxe]
  refine ⟨⟨?_, ?_, ?_, ?_, ?_⟩, ?_, ?_, ?_⟩
  · intro x hx
    rw [Kernel.setCpu_envFreeList, hf.envFreeList] at hx
    exact Option.some.inj hx ▸ he
  · intro x hx y hy
    rw [Kernel.setCpu_envs] at hy
    by_cases hxe : x = e
    · rw [hxe, hf.entry] at hy
      exact h.head y hy
    · rw [hf.other x hxe] at hy
      exact h.links x hx y hy
  · intro x hx
    rw [Kernel.setCpu_envs, hid]
    exact h.ids x (hlive hx).2
  · intro i x hx
    rw [Kernel.setCpu_envs, hid]
    by_cases hi : i = k.cpunum
    · subst hi
      rw [← hf.cpunum, Kernel.setCpu_self, hf.cpunum] at hx
      exact h.cur _ x (hg x hx).1
    · rw [hcpu i hi] at hx
      exact h.cur i x hx
  · intro x hx
    obtain ⟨hne, hx⟩ := hlive hx
    rw [Kernel.setCpu_envs, hf.other x hne]
    exact h.frames x hx
  · intro i hi
    have hi : i ≠ k.cpunum := hf.cpunum ▸ hi
    rw [hcpu i hi]
    exact h.cpu i hi
  · intro x hx
    obtain ⟨hx, hne⟩ := hcur x hx
    rw [Kernel.setCpu_envs, hf.other x hne]
    exact h.saved x hx
  · intro hx
    rw [Kernel.setCpu_envs, hf.other nenv (by omega)]
    exact h.tail (hcur _ hx).1

theorem FramedInside.pick_lt (hpick : k.pick = some e) : e < nenv :=
  Jos.pick_lt (fun c hc => h.cur _ c hc) h.tail hpick

theorem FramedInside.leave (hc : FramedCpu (k.cpus k.cpunum)) : Framed k := by
  refine ⟨h.toFramedTable, fun i => ?_⟩
  by_cases hi : i = k.cpunum
  · rw [hi]
    exact hc
  · exact h.cpu i hi

theorem FramedInside.monitored : Framed k.monitored := by
  have hin : FramedInside k.monitored := h.mild (k.setCpu_mild fun _ => rfl)
  refine hin.leave ?_
  change FramedCpu ((k.setCpu fun c => { c with mode := .monitor }).cpus k.cpunum)
  rw [Kernel.setCpu_self]
  refine ⟨fun hm => (by cases hm), fun hm => ?_⟩
  rcases hm with hm | hm <;> cases hm

theorem FramedInside.resume (hcur : k.curenv = some e) : Framed (k.resume e) := by
  have hset := h.mild (Kernel.setEnv_mild (f := fun env => { env with envCpunum := k.cpunum })
    (h.cur _ e hcur).1 rfl rfl (fun _ => .inr hcur) fun hp => hp)
  have hin : FramedInside (k.resume e) := hset.mild (Kernel.setCpu_mild _ fun _ => rfl)
  refine hin.leave ?_
  change FramedCpu ((k.resume e).cpus k.cpunum)
  rw [k.resume_cpu e]
  exact .of_user rfl (h.saved e hcur)

theorem FramedInside.scheduled (hs : Scheduled k k') : Framed k' := by
  have helse := hs.elsewhere
  have hslots := hs.sameSlots
  have hid : ∀ x, (k'.envs x).envId = (k.envs x).envId := fun x =>
    (hs.envs x).field Env.envId fun _ _ _ => rfl
  have htf : ∀ x, (k'.envs x).envTf = (k.envs x).envTf := fun x =>
    (hs.envs x).field Env.envTf fun _ _ _ => rfl
  have hrest : (∀ x, (k'.cpus k.cpunum).cpuEnv = some x → x < nenv ∧ envx (k.envs x).envId = x) →
      FramedCpu (k'.cpus k.cpunum) → Framed k' := by
    intro hcur hcpu
    refine ⟨⟨?_, ?_, ?_, ?_, ?_⟩, fun i => ?_⟩
    · rw [hslots.envFreeList]
      exact h.head
    · intro e he x hx
      rw [hslots.link e he] at hx
      exact h.links e he x hx
    · intro e he
      rw [hid]
      exact h.ids e (hslots.live_iff.mp he)
    · intro i e he
      rw [hid]
      by_cases hi : i = k.cpunum
      · exact hcur e (hi ▸ he)
      · rw [helse.cpus i hi] at he
        exact h.cur i e he
    · intro e he
      rw [htf]
      exact h.frames e (hslots.live_iff.mp he)
    · by_cases hi : i = k.cpunum
      · rw [hi]
        exact hcpu
      · rw [helse.cpus i hi]
        exact h.cpu i hi
  cases hs with
  | again hcur hpick => exact h.resume hcur
  | idle hcur hpick hrun => exact h.resume hcur
  | @switch e d hcur hpick hd =>
    have hlive : k.Live e := by
      refine ⟨h.pick_lt hpick, ?_⟩
      rw [(pick_spec hpick).1]
      decide
    obtain ⟨henv, hmode, _⟩ := k.switch_cpu e d
    refine hrest (fun x hx => ?_) (.of_user hmode ?_)
    · obtain rfl : e = x := Option.some.inj (henv.symm.trans hx)
      exact ⟨hlive.1, h.ids e hlive⟩
    · have hcpu := (k.switchTo e d).resume_cpu e
      rw [(k.switchTo_elsewhere e d).cpunum] at hcpu
      rw [hcpu]
      rw [(Kernel.switchTo_schedOnly (.inl (pick_spec hpick).1) d e).field Env.envTf
        fun _ _ _ => rfl]
      exact h.frames e hlive
  | halt =>
    have henv : (k.halted.cpus k.cpunum).cpuEnv = none ∧ (k.halted.cpus k.cpunum).mode = .halt := by
      simp [Kernel.halted, Kernel.setCpu]
    refine hrest (fun x hx => ?_) ⟨fun hm => ?_, fun _ => henv.1⟩
    · rw [henv.1] at hx
      cases hx
    · rw [henv.2] at hm
      cases hm
  | monitor => exact h.monitored

end

/-- No frame is loaded from user memory. -/
def Call.LoadsFrame (c : Call) (k : Kernel) : Prop :=
  c.sysno = some .envSetTrapframe ∧ ∃ e, Names k c.a1 true e

/-- The condition on a step: no call of `sys_env_set_trapframe` finds its target, user code does not
trap with interrupts off, and the memory behind the table does not look like a runnable environment.
-/
def KeepsFrames (k : Kernel) : Event → Prop
  | .trap cpu tf _ => ((k.cpus cpu).cpuEnv = some (nenv - 1) →
      (k.envs nenv).envStatus ≠ .runnable) ∧
      ((k.cpus cpu).userTf.tfEflags &&& flIoplMask = flIoplMask →
        tf.tfEflags &&& flIf = flIf) ∧
      (tf.tfTrapno = tSyscall → ∀ c, (k.cpus cpu).cpuEnv = some c →
        ¬(tf.call cpu c).LoadsFrame (k.on cpu))
  | _ => True

section

variable (h : FramedInside k)

include h

theorem FramedInside.names_lt {envid : Word} {checkperm : Bool}
    (hn : Names k envid checkperm e) : e < nenv ∧ (k.Live e ∨ k.curenv = some e) := by
  rcases hn with ⟨_, hc⟩ | ⟨_, rfl, hst, _⟩
  · exact ⟨(h.cur _ e hc).1, .inr hc⟩
  · exact ⟨envx_lt envid, .inl ⟨envx_lt envid, hst⟩⟩

theorem Destroyed.framed (he : e < nenv) (hd : Destroyed k e k') : FramedInside k' := by
  cases hd with
  | mark _ hst =>
    refine h.mild (Kernel.setEnv_mild he rfl rfl (fun _ => .inl ⟨he, ?_⟩) fun hp => hp)
    rw [hst]
    decide
  | free hne _ hf =>
    have hin := h.freed hf he (g := fun c => c) fun x hx => by
      obtain ⟨cr3, hcpu⟩ := hf.cpu
      rw [hcpu] at hx
      exact ⟨hx, fun hxe => hne (hxe ▸ hx)⟩
    rwa [Kernel.setCpu_id] at hin

theorem Returned.framed (hload : ¬c.LoadsFrame k) (hret : Returned c k k') : FramedInside k' := by
  cases hret with
  | quiet hs => exact h.mild hs.mild
  | @field _ e f hm hf hs =>
    have hlt : e < nenv := by
      obtain ⟨x, hx, he⟩ := hm
      rcases he with rfl | he
      · exact (h.cur _ e hx).1
      · exact he.1
    obtain ⟨u, b, hu⟩ := hf (k.envs e)
    have hmild : Mild k (k.setEnv e f) := by
      refine Kernel.setEnv_mild hlt ?_ ?_ ?_ ?_ <;> rw [hu]
      · exact fun hst => .inl ⟨hlt, hst⟩
      · exact fun hp => hp
    exact (h.mild hmild).mild hs.mild
  | status hno hnames hs =>
    obtain ⟨hlt, hlive⟩ := h.names_lt hnames
    exact h.mild (Kernel.setEnv_mild hlt rfl rfl (fun _ => hlive) fun hp => hp)
  | @sent _ cur e p1 hno hcur hnames hrecv hsent hk' =>
    obtain ⟨hlt, hlive⟩ := h.names_lt hnames
    have hmild : Mild k (k.deliver cur e c.a2 c.a4) :=
      Kernel.setEnv_mild hlt rfl rfl (fun _ => hlive) fun hp => hp.withEax 0
    rw [hk']
    have hs : SameEnvs (k.deliver cur e c.a2 c.a4)
        ({ k with phys := p1 }.deliver cur e c.a2 c.a4) := ⟨rfl, rfl, rfl, rfl, rfl⟩
    exact (h.mild hmild).mild hs.mild
  | @forked cur e q k1 hno hcur ha =>
    have hin := h.allocated ha
    have hlt := h.head e ha.head
    have hcur1 : k1.curenv = some cur := by
      unfold Kernel.curenv
      rw [ha.cpus, ha.cpunum]
      exact hcur
    refine hin.mild (Kernel.setEnv_mild hlt rfl rfl (fun _ => .inl ?_) fun _ => ?_)
    · exact (ha.live_iff hlt).mpr (.inl rfl)
    · exact (hin.saved cur hcur1).withEax 0
  | destroyed hno hnames hd => exact hd.framed h (h.names_lt hnames).1
  | loaded hno hnames ha hs => exact absurd ⟨hno, _, hnames⟩ hload

theorem SelfDestroyed.framed (hd : SelfDestroyed k e k') : Framed k' := by
  obtain ⟨hcur, hfree, hsched⟩ := hd
  refine (h.freed hfree (h.cur _ e hcur).1 fun x hx => ?_).scheduled hsched
  cases hx

theorem Left.framed (hleft : Left c k k') : Framed k' := by
  cases hleft with
  | yield hsched => exact h.scheduled hsched
  | @recv cur dstva hno hcur hsched =>
    have hmild : Mild k (k.setEnv cur fun env =>
        { env with envIpcRecving := true, envIpcDstva := dstva, envStatus := .notRunnable }) :=
      Kernel.setEnv_mild (h.cur _ _ hcur).1 rfl rfl (fun _ => .inr hcur) fun hp => hp
    exact (h.mild hmild).scheduled hsched
  | destroyed hs hd => exact hd.framed (h.mild hs.mild)

theorem Back.framed (hb : Back k k') : Framed k' := by
  cases hb with
  | resume hcur _ => exact h.resume hcur
  | sched hsched => exact h.scheduled hsched

theorem Handled.framed (hcur : k.curenv = some cur)
    (hload : tf.tfTrapno = tSyscall → ¬(tf.call k.cpunum cur).LoadsFrame k)
    (hh : Handled tf cur k k') : Framed k' := by
  have hlt := (h.cur _ cur hcur).1
  cases hh with
  | monitor => exact h.monitored
  | back hs hb => exact hb.framed (h.mild hs.mild)
  | timer hs hsched => exact (h.mild hs.mild).scheduled hsched
  | @upcall k1 eip esp hs =>
    have hcur1 : k1.curenv = some cur := hs.curenv.trans hcur
    have hmild : Mild k1 (k1.setEnv cur fun env =>
        { env with envTf := { env.envTf with tfEip := eip, tfEsp := esp } }) :=
      Kernel.setEnv_mild hlt rfl rfl (fun _ => .inr hcur1) fun hp => ⟨hp.cs, hp.intr⟩
    exact ((h.mild hs.mild).mild hmild).resume hcur1
  | destroyed hs hd => exact hd.framed (h.mild hs.mild)
  | @returned k1 _ r hno hret hb =>
    have hin := hret.framed h (hload hno)
    have hmild : Mild k1 (k1.setEnv cur fun env => { env with envTf := env.envTf.withEax r }) :=
      Kernel.setEnv_mild hlt rfl rfl (fun hst => .inl ⟨hlt, hst⟩) fun hp => hp.withEax r
    exact hb.framed (hin.mild hmild)
  | left hno hleft => exact hleft.framed h

theorem EnvCreated.framed (hcpu : FramedCpu (k.cpus k.cpunum))
    (hc : EnvCreated k k') : Framed k' := by
  obtain ⟨cr3, type, brk, eip, fl, ha, hfl, hs⟩ := hc
  have hlt := h.head _ ha.head
  have hset := (h.allocated ha).mild (Kernel.setCpu_mild _ (f := fun c => { c with cr3 := cr3 })
    fun _ => rfl)
  have hin : FramedInside k' := by
    refine (hset.mild (Kernel.setEnv_mild hlt ?_ ?_ ?_ ?_)).mild hs.mild
    · rfl
    · rfl
    · exact fun hst => .inl ⟨hlt, hst⟩
    · refine fun _ => ⟨initialTf_preemptible.cs, ?_⟩
      change fl &&& flIf = flIf
      rcases hfl with rfl | rfl
      · decide
      · decide
  refine hin.leave ?_
  rw [hs.cpus, hs.cpunum, Kernel.setEnv_cpus, Kernel.setEnv_cpunum, Kernel.setCpu_cpunum,
    Kernel.setCpu_self, ha.cpus, ha.cpunum]
  exact ⟨hcpu.user, hcpu.idle⟩

end

section

variable (h : Framed k)

include h

theorem Framed.inside (hsaved : ∀ e, (k.cpus cpu).cpuEnv = some e → Preemptible (k.envs e).envTf)
    (htail : (k.cpus cpu).cpuEnv = some (nenv - 1) → (k.envs nenv).envStatus ≠ .runnable) :
    FramedInside (k.on cpu) where
  toFramedTable := ⟨h.head, h.links, h.ids, h.cur, h.frames⟩
  cpu i _ := h.cpu i
  saved := hsaved
  tail := htail

theorem Framed.inside_idle (hidle : (k.cpus cpu).cpuEnv = none) : FramedInside (k.on cpu) := by
  refine h.inside (fun e he => ?_) fun hc => ?_
  · rw [hidle] at he
    cases he
  · rw [hidle] at hc
    cases hc

theorem Framed.saveFrame (e : Nat) (htf : Preemptible tf) :
    Framed (k.setEnv e fun env => { env with envTf := tf }) := by
  have hlive : ∀ x, (k.setEnv e fun env => { env with envTf := tf }).Live x → k.Live x := by
    intro x hx
    refine ⟨hx.1, ?_⟩
    rw [← k.setEnv_field e (fun env => { env with envTf := tf }) Env.envStatus rfl x]
    exact hx.2
  refine ⟨⟨h.head, ?_, ?_, ?_, ?_⟩, h.cpu⟩
  · intro x hx y hy
    rw [k.setEnv_field e _ Env.envLink rfl x] at hy
    exact h.links x hx y hy
  · intro x hx
    rw [k.setEnv_field e _ Env.envId rfl x]
    exact h.ids x (hlive x hx)
  · intro i x hx
    rw [k.setEnv_field e _ Env.envId rfl x]
    exact h.cur i x hx
  · intro x hx
    by_cases hxe : x = e
    · rw [hxe, Kernel.setEnv_self]
      exact htf
    · rw [k.setEnv_of_ne e _ hxe]
      exact h.frames x (hlive x hx)

theorem Trapped.framed (htf : Preemptible tf)
    (htail : (k.cpus cpu).cpuEnv = some (nenv - 1) → (k.envs nenv).envStatus ≠ .runnable)
    (hload : tf.tfTrapno = tSyscall → ∀ c, (k.cpus cpu).cpuEnv = some c →
      ¬(tf.call cpu c).LoadsFrame (k.on cpu)) (ht : Trapped tf (k.on cpu) k') : Framed k' := by
  cases ht with
  | @dying c d k1 _ hcur hst hfree hsched =>
    have hin : FramedInside (k.on cpu) := by
      refine h.inside (fun e he => ?_) htail
      obtain rfl : c = e := Option.some.inj (hcur.symm.trans he)
      refine h.frames c ⟨(h.cur _ c he).1, ?_⟩
      rw [show (k.envs c).envStatus = .dying from hst]
      decide
    have hstart : FramedInside (k.on cpu).started := hin.mild (Kernel.setCpu_mild _ fun _ => rfl)
    have hd : SelfDestroyed (k.on cpu).started c k' :=
      .mk ((Kernel.setCpu_curenv _ _).trans hcur) hfree hsched
    exact hd.framed hstart
  | @saved c _ hcur hnd hh =>
    have hlt := (h.cur cpu c hcur).1
    have hsave : FramedInside ((k.setEnv c fun env => { env with envTf := tf }).on cpu) := by
      refine (h.saveFrame c htf).inside (fun e he => ?_) ?_
      · obtain rfl : c = e := Option.some.inj (hcur.symm.trans he)
        rw [Kernel.setEnv_self]
        exact htf
      · rw [k.setEnv_of_ne c _ (by omega)]
        exact htail
    have hin := hsave.mild (Kernel.setCpu_mild _ (f := fun c => { c with cpuStatus := .started })
        fun _ => rfl)
    have hnames := (k.on cpu).save_sameNames c tf
    refine hh.framed hin (hnames.curenv.trans hcur) fun hno hl => ?_
    obtain ⟨hs, e, he⟩ := hl
    exact hload hno c hcur ⟨hs, e, (hnames.names _ _ _).mp he⟩

theorem Outside.framed (ho : Outside k k') : Framed k' := by
  have hlive : ∀ e, k'.Live e → k.Live e := by
    intro e he
    exact ⟨he.1, ho.envs e he.1 ▸ he.2⟩
  refine ⟨⟨?_, ?_, ?_, ?_, ?_⟩, ?_⟩
  · rw [ho.envFreeList]
    exact h.head
  · intro e he
    rw [ho.envs e he]
    exact h.links e he
  · intro e he
    rw [ho.envs e he.1]
    exact h.ids e (hlive e he)
  · intro i e he
    rw [ho.cpus] at he
    obtain ⟨hlt, hid⟩ := h.cur i e he
    rw [ho.envs e hlt]
    exact ⟨hlt, hid⟩
  · intro e he
    rw [ho.envs e he.1]
    exact h.frames e (hlive e he)
  · rw [ho.cpus]
    exact h.cpu

theorem MachineStep.framed {ev : Event} (hstep : MachineStep k ev k')
    (hkeep : KeepsFrames k ev) : Framed k' := by
  cases hstep with
  | @create binary type _ hlock hmode hrun =>
    have hidle := (h.cpu 0).idle (.inl hmode)
    have hw : wp (envCreate binary type) (fun _ => EnvCreated (k.on 0)) (fun _ => False)
        (k.on 0) := envCreate_wp binary type
    exact ((wp_of_ret hrun).mp hw).framed (h.inside_idle hidle) (h.cpu 0)
  | @boot cpu _ hcpu hlock hmode _ hrun =>
    have hidle := (h.cpu cpu).idle (.inl hmode)
    exact (h.inside_idle hidle).scheduled (exit_of_wp schedYield_wp hrun)
  | @trap cpu tf cr2 _ hcpu hlock hmode htf hrun =>
    obtain ⟨htail, hoff, hload⟩ := hkeep
    have hpre := htf.preemptible ((h.cpu cpu).user hmode) hoff
    exact Trapped.framed h hpre htail hload (exit_of_wp (trap_wp htf.cs) hrun)
  | @irq cpu tf cr2 _ hcpu hlock hmode htf hrun =>
    have hcur : (k.on cpu).curenv = none := (h.cpu cpu).idle (.inr hmode)
    obtain ⟨k1, hs, hsched⟩ := exit_of_wp (trap_idle_wp htf hcur) hrun
    have hstart : FramedInside (k.on cpu).started :=
      (h.inside_idle hcur).mild (Kernel.setCpu_mild _ fun _ => rfl)
    exact (hstart.mild hs.mild).scheduled hsched
  | outside ho => exact ho.framed h

end

theorem PoweredOn.framed (h : PoweredOn k) : Framed k where
  head := by
    intro e he
    obtain ⟨l, hl, _, hlt⟩ := h.free_list
    rw [he] at hl
    obtain ⟨l, rfl, -⟩ := hl.exists_cons
    exact hlt e List.mem_cons_self
  links := h.links
  ids e he := absurd (h.free e he.1) he.2
  cur i e he := by
    rw [(h.cpus i).2] at he
    cases he
  frames e he := absurd (h.free e he.1) he.2
  cpu i := ⟨fun hm => absurd ((h.cpus i).1.symm.trans hm) (by decide), fun _ => (h.cpus i).2⟩

theorem sysEnvSetTrapframe_clears {envid va : Word}
    (hrun : sysEnvSetTrapframe envid va k = .ret 0 k') (hnames : Names k envid true e) :
    (k'.envs e).envTf.tfEflags = 0 := by
  have hw : wp (sysEnvSetTrapframe envid va) (fun r k' => r = 0 → ∀ e,
      Names k envid true e → (k'.envs e).envTf.tfEflags = 0) (fun _ => True) k := by
    unfold sysEnvSetTrapframe storeFrame
    rw [wp_bind]
    refine envid2env_wp (wp_pure.mpr fun hr => absurd hr (by decide)) fun e' hnames' => ?_
    rw [wp_bind]
    refine wp_mono (userMemAssert_ends _ _ _) (fun _ k1 _ => ?_) fun _ _ => trivial
    rw [wp_bind]
    refine (loadTrapframe_quiet _).wp fun frame k2 _ => ?_
    simp only [wp_bind, wp_setEnv, wp_pure, Kernel.setEnv_setEnv]
    intro _ e hn
    rw [hn.unique hnames', Kernel.setEnv_self]
    exact BitVec.and_zero
  exact (wp_of_ret hrun).mp hw rfl e hnames

/-- In every run that keeps to the condition, all saved frames lead back to user mode with
interrupts on. A call of `sys_env_set_trapframe` that succeeds leaves its target without the
interrupt flag. -/
theorem machineRun_preemptible (h0 : PoweredOn k0) (hrun : MachineRun KeepsFrames k0 k) :
    (∀ e, k.Live e → Preemptible (k.envs e).envTf) ∧
    ∀ envid va k' e, sysEnvSetTrapframe envid va k = .ret 0 k' → Names k envid true e →
      (k'.envs e).envTf.tfEflags = 0 := by
  have h : Framed k := by
    refine run_invariant hrun h0.framed ?_
    rintro s s' hs ⟨ev, hstep, hkeep⟩
    exact hstep.framed hs hkeep
  exact ⟨h.frames, fun _ _ _ _ hset hnames => sysEnvSetTrapframe_clears hset hnames⟩

/-- A parent has made a child, and both have frames in order. -/
theorem machineRun_preemptible_both : ∃ k, MachineRun KeepsFrames snapshot k ∧
    k.Live 0 ∧ k.Live 1 ∧ Preemptible (k.envs 0).envTf ∧ Preemptible (k.envs 1).envTf := by
  have hfork : KeepsFrames solo (.trap 0 (callTf 7 0 0) 0) := by
    refine ⟨fun hc => absurd hc (by decide +kernel), fun hc => absurd hc (by decide +kernel), ?_⟩
    rintro _ c _ ⟨hno, _⟩
    cases hno
  have hrun : MachineRun KeepsFrames snapshot forked :=
    ((Relation.ReflTransGen.single ⟨_, single_step, trivial⟩).tail
      ⟨_, solo_step, trivial⟩).tail ⟨_, forked_step, hfork⟩
  have h0 : forked.Live 0 := by decide +kernel
  have h1 : forked.Live 1 := by decide +kernel
  have h := (machineRun_preemptible snapshot_poweredOn hrun).1
  exact ⟨forked, hrun, h0, h1, h 0 h0, h 1 h1⟩

/-- A program that holds a trap frame with the interrupt flag set. The image has the flags
only, and the rest of the frame is zero. -/
def frameImage : Elf where
  eEntry := 0x800000
  ph := [⟨elfProgLoad, 0, 0x800038, 4, 4040⟩]
  byte i := if i = 1 then 2 else 0

@[irreducible] def loaded : Kernel := (envCreate frameImage .user snapshot).after snapshot

@[irreducible] def started : Kernel := loaded.exec 0 schedYield

/-- It has asked for the frame in its image. -/
@[irreducible] def cleared : Kernel := started.exec 0 (trap (callTf 9 0 0x800000) 0)

/-- An environment passes a frame with the interrupt flag set to `sys_env_set_trapframe`,
and goes on without it. -/
theorem set_trapframe_clears_intr : ∃ k k', MachineRun (fun _ _ => True) snapshot k ∧
    MachineStep k (.trap 0 (callTf 9 0 0x800000) 0) k' ∧
    (load32 (0x800000 + 56) (k.on 0)).returns (· == flIf) ∧
    k'.Live 0 ∧ (k'.envs 0).envTf.tfEflags = 0 ∧ ¬Preemptible (k'.envs 0).envTf := by
  have hload : MachineStep snapshot (.create frameImage .user) loaded := by
    unfold loaded
    exact .create (by decide) rfl (Outcome.eq_ret snapshot (by decide +kernel))
  have hstart : MachineStep loaded (.boot 0) started := by
    unfold started
    exact .of_boot (by decide +kernel)
  have hclear : MachineStep started (.trap 0 (callTf 9 0 0x800000) 0) cleared := by
    unfold cleared
    exact .of_trap (by decide +kernel)
  have hfl : (cleared.envs 0).envTf.tfEflags = 0 := by decide +kernel
  refine ⟨started, cleared, (Relation.ReflTransGen.single ⟨_, hload, trivial⟩).tail
    ⟨_, hstart, trivial⟩, hclear, by decide +kernel, by decide +kernel, hfl, fun hp => ?_⟩
  have hi := hp.intr
  rw [hfl] at hi
  exact absurd hi (by decide)

end Jos
