import Mathlib.Logic.Relation
import Jos.Kernel.Effects

/-!
# The machine as a transition system

A step is what one processor does between taking the kernel lock and releasing it: it starts to
schedule, or takes a trap or an interrupt. The first processor creates environments while it boots,
and user code and devices change memory in between. `Trapped` lists how a trap from user mode ends.
-/

namespace Jos

open Logic Kernel

variable {k k' k1 : Kernel} {e c : Nat} {tf : Trapframe} {cr2 : Word}

/-- The kernel, entered on the processor `cpu`. -/
def Kernel.on (k : Kernel) (cpu : Nat) : Kernel := { k with cpunum := cpu }

/-- The kernel lock can be taken. -/
def Kernel.Unlocked (k : Kernel) : Prop := ∀ i < ncpu, (k.cpus i).mode ≠ .monitor

instance (k : Kernel) : Decidable k.Unlocked := inferInstanceAs (Decidable (∀ i < ncpu, _))

/-- A frame that the hardware pushes when it leaves user code that was entered with the registers
`u`: user code cannot change the I/O privilege level, nor the interrupt flag below level 3. -/
structure FromUser (u tf : Trapframe) : Prop where
  cs : tf.tfCs &&& 3 = 3
  iopl : tf.tfEflags &&& flIoplMask = u.tfEflags &&& flIoplMask
  intr : u.tfEflags &&& flIoplMask ≠ flIoplMask → tf.tfEflags &&& flIf = u.tfEflags &&& flIf

instance (u tf : Trapframe) : Decidable (FromUser u tf) :=
  decidable_of_iff (tf.tfCs &&& 3 = 3 ∧
      tf.tfEflags &&& flIoplMask = u.tfEflags &&& flIoplMask ∧
      (u.tfEflags &&& flIoplMask ≠ flIoplMask → tf.tfEflags &&& flIf = u.tfEflags &&& flIf))
    ⟨fun h => ⟨h.1, h.2.1, h.2.2⟩, fun h => ⟨h.cs, h.iopl, h.intr⟩⟩

/-- A frame that the hardware pushes when a device interrupts the idle loop. -/
structure FromIdle (tf : Trapframe) : Prop where
  cs : tf.tfCs = gdKt
  irq : irqOffset.toNat ≤ tf.tfTrapno.toNat ∧ tf.tfTrapno.toNat < irqOffset.toNat + 16

inductive Event where
  | create (binary : Elf) (type : EnvType)
  | boot (cpu : Nat)
  | trap (cpu : Nat) (tf : Trapframe) (cr2 : Word)
  | irq (cpu : Nat) (tf : Trapframe) (cr2 : Word)
  | outside

/-- What user code and devices leave alone: the environment table and the processors'
share of the kernel state. The memory behind the table may change. -/
structure Outside (k k' : Kernel) : Prop where
  envs : ∀ e < nenv, k'.envs e = k.envs e
  envFreeList : k'.envFreeList = k.envFreeList
  cpus : k'.cpus = k.cpus
  envLog : k'.envLog = k.envLog

inductive MachineStep (k : Kernel) : Event → Kernel → Prop where
  | create {binary : Elf} {type : EnvType} {k' : Kernel} (hlock : k.Unlocked)
      (hmode : (k.cpus 0).mode = .boot) (hrun : envCreate binary type (k.on 0) = .ret () k') :
      MachineStep k (.create binary type) k'
  | boot {cpu : Nat} {k' : Kernel} (hcpu : cpu < ncpu) (hlock : k.Unlocked)
      (hmode : (k.cpus cpu).mode = .boot) (hfirst : cpu = 0 ∨ (k.cpus 0).mode ≠ .boot)
      (hrun : schedYield (k.on cpu) = .exit k') : MachineStep k (.boot cpu) k'
  | trap {cpu : Nat} {tf : Trapframe} {cr2 : Word} {k' : Kernel} (hcpu : cpu < ncpu)
      (hlock : k.Unlocked) (hmode : (k.cpus cpu).mode = .user)
      (htf : FromUser (k.cpus cpu).userTf tf) (hrun : trap tf cr2 (k.on cpu) = .exit k') :
      MachineStep k (.trap cpu tf cr2) k'
  | irq {cpu : Nat} {tf : Trapframe} {cr2 : Word} {k' : Kernel} (hcpu : cpu < ncpu)
      (hlock : k.Unlocked) (hmode : (k.cpus cpu).mode = .halt) (htf : FromIdle tf)
      (hrun : trap tf cr2 (k.on cpu) = .exit k') : MachineStep k (.irq cpu tf cr2) k'
  | outside {k' : Kernel} (h : Outside k k') : MachineStep k .outside k'

/-- The runs whose steps all meet the condition `A`. -/
def MachineRun (A : Kernel → Event → Prop) : Kernel → Kernel → Prop :=
  Relation.ReflTransGen fun k k' => ∃ ev, MachineStep k ev k' ∧ A k ev

theorem MachineRun.weaken {A B : Kernel → Event → Prop} (h : MachineRun A k k')
    (hAB : ∀ k ev, A k ev → B k ev) : MachineRun B k k' := by
  induction h with
  | refl => exact .refl
  | tail _ hstep ih =>
    obtain ⟨ev, hstep, hA⟩ := hstep
    exact ih.tail ⟨ev, hstep, hAB _ _ hA⟩

/-- The state after `env_init`, with no processor in the scheduler yet. -/
structure PoweredOn (k : Kernel) : Prop where
  free : ∀ e < nenv, (k.envs e).envStatus = .free
  free_list : ∃ l, Chain (fun e => (k.envs e).envLink) k.envFreeList l ∧ l.Nodup ∧
    ∀ e ∈ l, e < nenv
  links : ∀ e < nenv, ∀ x, (k.envs e).envLink = some x → x < nenv
  cpus : ∀ i, (k.cpus i).mode = .boot ∧ (k.cpus i).cpuEnv = none
  envLog : k.envLog = []

def Kernel.started (k : Kernel) : Kernel := k.setCpu fun c => { c with cpuStatus := .started }

def Kernel.save (k : Kernel) (c : Nat) (tf : Trapframe) : Kernel :=
  k.started.setEnv c fun env => { env with envTf := tf }

/-- The system call that a trap frame asks for. -/
def Trapframe.call (tf : Trapframe) (cpu c : Nat) : Call where
  cpu := cpu
  caller := c
  syscallno := tf.tfRegs.regEax
  a1 := tf.tfRegs.regEdx
  a2 := tf.tfRegs.regEcx
  a3 := tf.tfRegs.regEbx
  a4 := tf.tfRegs.regEdi
  a5 := tf.tfRegs.regEsi

/-- The end of `trap`: back to the current environment, or to the scheduler. -/
inductive Back (k : Kernel) : Kernel → Prop where
  | resume {e : Nat} (hcur : k.curenv = some e) (hrun : (k.envs e).envStatus = .running) :
      Back k (k.resume e)
  | sched {k' : Kernel} (hsched : Scheduled k k') : Back k k'

/-- How the trap `tf` of `c` ends once its frame has been saved in `k`. -/
inductive Handled (tf : Trapframe) (c : Nat) (k : Kernel) : Kernel → Prop where
  | monitor : Handled tf c k k.monitored
  | back {k1 k' : Kernel} (hs : SameEnvs k k1) (hb : Back k1 k') : Handled tf c k k'
  | timer {k1 k' : Kernel} (hs : SameEnvs k k1) (hsched : Scheduled k1 k') : Handled tf c k k'
  | upcall {k1 : Kernel} (eip esp : Word) (hs : SameEnvs k k1) :
      Handled tf c k ((k1.setEnv c fun env =>
        { env with envTf := { env.envTf with tfEip := eip, tfEsp := esp } }).resume c)
  | destroyed {k1 k' : Kernel} (hs : SameEnvs k k1) (hd : SelfDestroyed k1 c k') :
      Handled tf c k k'
  | returned {k1 k' : Kernel} {r : Word} (hno : tf.tfTrapno = tSyscall)
      (hret : Returned (tf.call k.cpunum c) k k1)
      (hb : Back (k1.setEnv c fun env => { env with envTf := env.envTf.withEax r }) k') :
      Handled tf c k k'
  | left {k' : Kernel} (hno : tf.tfTrapno = tSyscall) (hleft : Left (tf.call k.cpunum c) k k') :
      Handled tf c k k'

/-- How a trap from user mode ends. -/
inductive Trapped (tf : Trapframe) (k : Kernel) : Kernel → Prop where
  | dying {c d : Nat} {k1 k' : Kernel} (hcur : k.curenv = some c)
      (hst : (k.envs c).envStatus = .dying) (hfree : EnvFreed k.started c d k1)
      (hsched : Scheduled (k1.setCpu fun c => { c with cpuEnv := none }) k') : Trapped tf k k'
  | saved {c : Nat} {k' : Kernel} (hcur : k.curenv = some c)
      (hst : (k.envs c).envStatus ≠ .dying) (h : Handled tf c (k.save c tf) k') : Trapped tf k k'

theorem trapReturn_wp : wp trapReturn (fun _ _ => False) (Back k) k := by
  have hsched : wp schedYield (fun _ _ => False) (Back k) k :=
    wp_mono schedYield_wp (fun _ _ hf => hf) fun _ hk' => .sched hk'
  unfold trapReturn
  rw [wp_bind, wp_get]
  cases hcur : k.curenv with
  | none => exact hsched
  | some e =>
    refine wp_ite.mpr ⟨fun hrun => ?_, fun _ => hsched⟩
    exact envRun_wp (fun _ => .resume hcur hrun) fun d hne => absurd hcur hne

theorem envDestroy_self (hcur : k.curenv = some c) :
    wp (envDestroy c) (fun _ _ => False) (SelfDestroyed k c) k := by
  refine wp_imp envDestroy_ends fun _ k' hd => ?_
  cases hd with
  | mark hne _ => exact hne hcur
  | free hne _ _ => exact hne hcur

theorem SameEnvs.selfDestroyed (hs : SameEnvs k k1) (hcur : k.curenv = some c) :
    wp (envDestroy c) (fun _ _ => False) (Handled tf c k) k1 :=
  wp_mono (envDestroy_self (hs.curenv.trans hcur)) (fun _ _ hf => hf) fun _ hd => .destroyed hs hd

section

variable (hcs : tf.tfCs &&& 3 = 3)

include hcs

theorem pageFaultHandler_wp (hcur : k.curenv = some c) :
    wp (pageFaultHandler tf cr2) (fun _ _ => False) (Handled tf c k) k := by
  unfold pageFaultHandler
  have hne : ¬tf.tfCs &&& 3 = 0 := by
    rw [hcs]
    decide
  rw [if_neg hne, wp_bind, wp_curenv]
  intro c' hc'
  obtain rfl : c = c' := Option.some.inj (hcur.symm.trans hc')
  rw [wp_bind, wp_env]
  refine wp_ite.mpr ⟨fun _ => ?_, fun _ => (SameEnvs.refl k).selfDestroyed hcur⟩
  rw [wp_bind]
  refine wp_mono (userMemAssert_ends _ _ _) (fun _ k1 ha => ?_)
    fun k' ⟨k1, hs, hd⟩ => .destroyed hs hd
  rw [wp_bind]
  refine (storeUTrapframe_quiet _ _ _).wp fun _ k2 hs2 => ?_
  have hs := (ha.of_cur hcur).trans hs2
  rw [wp_bind, wp_setEnv, wp_bind, wp_setEnv, wp_bind]
  refine wp_mono (envRun_wp (P := Handled tf c k) (fun _ => ?_) fun d hne _ => ?_)
    (fun _ _ hf => hf.elim) fun _ h => h
  · rw [setEnv_setEnv]
    exact .upcall (k2.envs c).envPgfaultUpcall (utfAddr tf.tfEsp) hs
  · exact absurd (hs.curenv.trans hcur) hne

theorem trapDispatch_wp (hcur : k.curenv = some c) :
    wp (do trapDispatch tf (some c) cr2; trapReturn) (fun _ _ => False) (Handled tf c k) k := by
  have hback : ∀ k1, SameEnvs k k1 →
      wp trapReturn (fun _ _ => False) (Handled tf c k) k1 := fun k1 hs =>
    wp_mono trapReturn_wp (fun _ _ hf => hf) fun _ hb => .back hs hb
  have hsched : ∀ k1, SameEnvs k k1 →
      wp schedYield (fun _ k2 => wp trapReturn (fun _ _ => False) (Handled tf c k) k2)
        (Handled tf c k) k1 := fun k1 hs =>
    wp_mono schedYield_wp (fun _ _ hf => hf.elim) fun _ hk' => .timer hs hk'
  unfold trapDispatch
  rw [wp_bind]
  refine wp_ite.mpr ⟨fun _ => ?_, fun _ => ?_⟩
  · exact wp_imp (pageFaultHandler_wp hcs hcur) fun _ _ hf => hf.elim
  refine wp_ite.mpr ⟨fun _ => ?_, fun _ => ?_⟩
  · simp only [monitor, wp_bind, wp_modify, wp_exit]
    exact .monitor
  refine wp_ite.mpr ⟨fun hno => ?_, fun _ => ?_⟩
  · rw [wp_bind]
    have hcall : wp (tf.call k.cpunum c).run (fun _ => Returned (tf.call k.cpunum c) k)
        (Left (tf.call k.cpunum c) k) k := Call.run_ends
    refine wp_mono hcall (fun r k1 hret => ?_) fun _ hleft => .left hno hleft
    rw [wp_setEnv]
    exact wp_mono trapReturn_wp (fun _ _ hf => hf) fun _ hb => .returned hno hret hb
  refine wp_ite.mpr ⟨fun _ => wp_pure.mpr (hback k (.refl k)), fun _ => ?_⟩
  refine wp_ite.mpr ⟨fun _ => ?_, fun _ => ?_⟩
  · rw [wp_bind, wp_get]
    refine wp_ite.mpr ⟨fun _ => ?_, fun _ => hsched k (.refl k)⟩
    rw [wp_bind]
    exact timeTick_quiet.wp fun _ k1 hs => hsched k1 hs
  refine wp_ite.mpr ⟨fun _ => wp_pure.mpr (hback k (.refl k)), fun _ => ?_⟩
  refine wp_ite.mpr ⟨fun _ => wp_pure.mpr (hback k (.refl k)), fun _ => ?_⟩
  refine wp_ite.mpr ⟨fun _ => wp_panic, fun _ => ?_⟩
  rw [wp_bind, wp_curenv]
  intro c' hc'
  obtain rfl : c = c' := Option.some.inj (hcur.symm.trans hc')
  exact wp_imp ((SameEnvs.refl k).selfDestroyed hcur) fun _ _ hf => hf.elim

theorem trap_wp : wp (trap tf cr2) (fun _ _ => False) (Trapped tf k) k := by
  unfold trap
  rw [wp_bind, wp_modify, if_pos hcs, wp_bind, wp_get]
  have hcurenv : (k.setCpu fun c => { c with cpuStatus := .started }).curenv = k.curenv :=
    k.setCpu_curenv _
  rw [hcurenv]
  cases hcur : k.curenv with
  | none => exact wp_panic
  | some c =>
    rw [wp_bind, wp_env]
    refine wp_ite.mpr ⟨fun hst => ?_, fun hst => ?_⟩
    · rw [wp_bind]
      refine envFree_wp fun d k1 hfree => ?_
      rw [wp_bind, wp_setCurenv, wp_bind]
      refine wp_mono schedYield_wp (fun _ _ hf => hf.elim) fun k' hk' => ?_
      exact .dying hcur hst hfree hk'
    · rw [wp_bind, wp_setEnv]
      have hsave := hcurenv.trans hcur
      exact wp_mono (trapDispatch_wp hcs hsave) (fun _ _ hf => hf) fun _ hh => .saved hcur hst hh

end

theorem trap_idle_wp (htf : FromIdle tf) (hcur : k.curenv = none) :
    wp (trap tf cr2) (fun _ _ => False)
      (fun k' => ∃ k1, SameEnvs k.started k1 ∧ Scheduled k1 k') k := by
  have hsched : ∀ k1, SameEnvs k.started k1 → wp schedYield (fun _ _ => False)
      (fun k' => ∃ k1, SameEnvs k.started k1 ∧ Scheduled k1 k') k1 := fun k1 hs =>
    wp_mono schedYield_wp (fun _ _ hf => hf) fun _ hk' => ⟨k1, hs, hk'⟩
  have hcur' : k.started.curenv = none := (k.setCpu_curenv _).trans hcur
  have hback : ∀ k1, SameEnvs k.started k1 → wp trapReturn (fun _ _ => False)
      (fun k' => ∃ k1, SameEnvs k.started k1 ∧ Scheduled k1 k') k1 := by
    intro k1 hs
    refine wp_mono trapReturn_wp (fun _ _ hf => hf) fun k' hb => ?_
    cases hb with
    | resume hc _ =>
      rw [hs.curenv, hcur'] at hc
      cases hc
    | sched hk' => exact ⟨k1, hs, hk'⟩
  have hnot : ∀ n : Word, n.toNat < irqOffset.toNat ∨ irqOffset.toNat + 16 ≤ n.toNat →
      tf.tfTrapno ≠ n := by
    intro n hn hc
    have := htf.irq
    rw [hc] at this
    omega
  have hrefl := SameEnvs.refl k.started
  unfold trap trapDispatch
  rw [wp_bind, wp_modify, htf.cs, if_neg (by decide), wp_bind,
    if_neg (hnot tPgflt (by decide)), if_neg (hnot tBrkpt (by decide)),
    if_neg (hnot tSyscall (by decide))]
  refine wp_ite.mpr ⟨fun _ => wp_pure.mpr (hback _ hrefl), fun _ => ?_⟩
  refine wp_ite.mpr ⟨fun _ => ?_, fun _ => ?_⟩
  · rw [wp_bind, wp_get]
    refine wp_ite.mpr ⟨fun _ => ?_, fun _ => ?_⟩
    · rw [wp_bind]
      exact timeTick_quiet.wp fun _ k1 hs => wp_imp (hsched k1 hs) fun _ _ hf => hf.elim
    · exact wp_imp (hsched _ hrefl) fun _ _ hf => hf.elim
  refine wp_ite.mpr ⟨fun _ => wp_pure.mpr (hback _ hrefl), fun _ => ?_⟩
  refine wp_ite.mpr ⟨fun _ => wp_pure.mpr (hback _ hrefl), fun _ => ?_⟩
  rw [if_pos rfl]
  exact wp_panic

/-- `env_create` has made a new environment: it is allocated, and then only its slot and
the page directory in force change. -/
inductive EnvCreated (k : Kernel) : Kernel → Prop where
  | mk {e q : Nat} {k1 k' : Kernel} (cr3 : Nat) (type : EnvType) (brk eip fl : Word)
      (ha : EnvAllocated k 0 e q k1) (hfl : fl = flIf ∨ fl = flIf ||| flIoplMask)
      (hs : SameEnvs ((k1.setCpu fun c => { c with cr3 := cr3 }).setEnv e fun env =>
        { env with
          envType := type
          envBreak := brk
          envTf := { initialTf with tfEip := eip, tfEflags := fl } }) k') : EnvCreated k k'

theorem loadSegments_quiet (pgdir : Option Nat) (binary : Elf) (segs : List Proghdr) :
    Quiet (loadSegments pgdir binary segs) := by
  induction segs with
  | nil => exact .pure _
  | cons ph segs ih =>
    refine .ite ?_ ih
    exact .bind (.onPhys (regionAlloc_noExit _ _ _)) fun _ => .bind (copyOut_quiet _ _ _)
      fun _ => ih

theorem loadIcode_wp (e : Nat) (binary : Elf) : wp (loadIcode e binary)
    (fun _ k' => ∃ cr3 brk, SameEnvs ((k.setCpu fun c => { c with cr3 := cr3 }).setEnv e fun env =>
      { env with
        envTf := { env.envTf with tfEip := binary.eEntry }
        envBreak := brk }) k') (fun _ => False) k := by
  unfold loadIcode
  rw [wp_bind, wp_env, wp_bind, wp_paddr]
  intro d _
  rw [wp_bind, wp_lcr3, wp_bind]
  refine (loadSegments_quiet _ _ _).wp fun _ k1 hs1 => ?_
  rw [wp_bind, wp_get, wp_bind, wp_lcr3, wp_bind, wp_setEnv, wp_bind]
  refine (Quiet.onPhys (regionAlloc_noExit _ _ _)).wp fun _ k2 hs2 => ?_
  rw [wp_setEnv]
  have hs := ((hs1.setCpu fun c => { c with cr3 := k1.phys.kernPgdir }).setEnv e fun env =>
    { env with envTf := { env.envTf with tfEip := binary.eEntry } }).trans hs2
  have hfinal := hs.setEnv e fun env =>
    { env with envBreak := rounddown (toWord (ustacktop - pgsize)) }
  rw [setCpu_setCpu, setEnv_setEnv] at hfinal
  exact ⟨_, _, hfinal⟩

theorem envCreate_wp (binary : Elf) (type : EnvType) :
    wp (envCreate binary type) (fun _ => EnvCreated k) (fun _ => False) k := by
  unfold envCreate
  rw [wp_bind]
  refine envAlloc_wp (fun _ _ _ _ => wp_panic) fun e q k1 ha => ?_
  rw [wp_bind]
  refine wp_imp (loadIcode_wp e binary) ?_
  rintro _ k2 ⟨cr3, brk, hs⟩
  rw [wp_bind, wp_setEnv]
  have htf : (k1.envs e).envTf = initialTf := by rw [ha.entry]
  have hs' := hs.setEnv e fun env => { env with envType := type }
  rw [setEnv_setEnv] at hs'
  refine wp_ite.mpr ⟨fun _ => wp_setEnv.mpr ?_, fun _ => wp_pure.mpr ?_⟩
  · have hs'' := hs'.setEnv e fun env =>
      { env with envTf := { env.envTf with tfEflags := env.envTf.tfEflags ||| flIoplMask } }
    rw [setEnv_setEnv] at hs''
    refine .mk cr3 type brk binary.eEntry _ ha (Or.inr rfl) (.trans (.of_entry ?_) hs'')
    simp only [setCpu_envs, htf]
    rfl
  · refine .mk cr3 type brk binary.eEntry _ ha (Or.inl rfl) (.trans (.of_entry ?_) hs')
    simp only [setCpu_envs, htf]
    rfl

end Jos
