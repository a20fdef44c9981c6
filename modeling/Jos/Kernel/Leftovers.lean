import Jos.Logic.Twins
import Jos.Kernel.Exclusion

/-!
# What a free slot leaves behind

Two kernels that differ only in what the last occupant of a free slot has left there. Once
`env_alloc` has taken the slot, the two entries agree on all that the kernel reads, except for
`env_break`, which nobody sets for an environment that `sys_exofork` makes.
-/

namespace Jos

open Logic Function Kernel

variable {α β : Type} {k k' : Kernel} {e x c : Nat} {b : Bool} {u v : Env}
  {E : Kernel → Kernel → Prop} {Q : β → β → Kernel → Kernel → Prop} {f f' : Env → Kern β}
  {parentId : Word}

/-- The entries agree on everything that the kernel reads of an environment. -/
structure Env.Alike (u v : Env) : Prop where
  envTf : v.envTf = u.envTf
  envLink : v.envLink = u.envLink
  envId : v.envId = u.envId
  envParentId : v.envParentId = u.envParentId
  envType : v.envType = u.envType
  envStatus : v.envStatus = u.envStatus
  envRuns : v.envRuns = u.envRuns
  envPgdir : v.envPgdir = u.envPgdir
  envPgfaultUpcall : v.envPgfaultUpcall = u.envPgfaultUpcall
  envIpcRecving : v.envIpcRecving = u.envIpcRecving
  envBreak : v.envBreak = u.envBreak
  envIpcDstva : u.envIpcRecving = true → v.envIpcDstva = u.envIpcDstva

theorem Env.Alike.refl (u : Env) : u.Alike u :=
  ⟨rfl, rfl, rfl, rfl, rfl, rfl, rfl, rfl, rfl, rfl, rfl, fun _ => rfl⟩

/-- The slot `e` is free in both tables, and no processor runs it. -/
structure Unused (e : Nat) (envs envs' : Nat → Env) (cpus : Nat → Cpu) : Prop where
  free : (envs e).envStatus = .free
  envStatus : (envs' e).envStatus = (envs e).envStatus
  envId : (envs' e).envId = (envs e).envId
  envLink : (envs' e).envLink = (envs e).envLink
  envBreak : (envs' e).envBreak = (envs e).envBreak
  idle : ∀ i, (cpus i).cpuEnv ≠ some e

/-- The slots that the kernel may use: all but `e`, until `e` has been allocated. -/
def Usable (b : Bool) (e x : Nat) : Prop := b = true ∨ x ≠ e

theorem Usable.ne (h : Usable b e x) (hb : b = false) : e ≠ x := by
  rcases h with h | h
  · exact absurd (hb.symm.trans h) Bool.false_ne_true
  · exact h.symm

theorem Unused.congr {envs envs' envs1 envs1' : Nat → Env} {cpus : Nat → Cpu}
    (h : Unused e envs envs' cpus) (h1 : envs1 e = envs e) (h1' : envs1' e = envs' e) :
    Unused e envs1 envs1' cpus := by
  constructor
  · rw [h1]
    exact h.free
  · rw [h1, h1']
    exact h.envStatus
  · rw [h1, h1']
    exact h.envId
  · rw [h1, h1']
    exact h.envLink
  · rw [h1, h1']
    exact h.envBreak
  · exact h.idle

/-- The kernels are alike but for the slot `e`, which is unused unless `b` says that it has
been allocated. -/
structure Like (b : Bool) (e : Nat) (k k' : Kernel) : Prop where
  phys : k'.phys = k.phys
  envFreeList : k'.envFreeList = k.envFreeList
  cpus : k'.cpus = k.cpus
  cpunum : k'.cpunum = k.cpunum
  ticks : k'.ticks = k.ticks
  cons : k'.cons = k.cons
  e1000 : k'.e1000 = k.e1000
  envLog : k'.envLog = k.envLog
  entry : ∀ x, Usable b e x → (k.envs x).Alike (k'.envs x)
  unused : b = false → Unused e k.envs k'.envs k.cpus

namespace Like

variable (h : Like b e k k')
include h

theorem curenv : k'.curenv = k.curenv := by
  unfold Kernel.curenv
  rw [h.cpus, h.cpunum]

theorem usable_or (x : Nat) : Usable b e x ∨ x = e ∧ Unused e k.envs k'.envs k.cpus := by
  by_cases hx : Usable b e x
  · exact .inl hx
  · obtain ⟨hb, hxe⟩ := not_or.mp hx
    exact .inr ⟨not_not.mp hxe, h.unused (Bool.eq_false_of_not_eq_true hb)⟩

theorem envStatus (x : Nat) : (k'.envs x).envStatus = (k.envs x).envStatus := by
  rcases h.usable_or x with hx | ⟨rfl, hu⟩
  · exact (h.entry x hx).envStatus
  · exact hu.envStatus

theorem envId (x : Nat) : (k'.envs x).envId = (k.envs x).envId := by
  rcases h.usable_or x with hx | ⟨rfl, hu⟩
  · exact (h.entry x hx).envId
  · exact hu.envId

theorem usable_of_live (hx : (k.envs x).envStatus ≠ .free) : Usable b e x := by
  rcases h.usable_or x with hu | ⟨rfl, hu⟩
  · exact hu
  · exact absurd hu.free hx

theorem usable_of_cpu {i : Nat} (hx : (k.cpus i).cpuEnv = some x) : Usable b e x := by
  rcases h.usable_or x with hu | ⟨rfl, hu⟩
  · exact hu
  · exact absurd hx (hu.idle i)

theorem withPhys (p : Phys) : Like b e { k with phys := p } { k' with phys := p } :=
  { h with phys := rfl }

theorem setEnv {g g' : Env → Env} (hx : Usable b e x) (hg : (g (k.envs x)).Alike (g' (k'.envs x))) :
    Like b e (k.setEnv x g) (k'.setEnv x g') := by
  refine { h with entry := fun y hy => ?_, unused := fun hb => ?_ }
  · by_cases hyx : y = x
    · rw [hyx, setEnv_self, setEnv_self]
      exact hg
    · rw [k.setEnv_of_ne x g hyx, k'.setEnv_of_ne x g' hyx]
      exact h.entry y hy
  · have hne := hx.ne hb
    exact (h.unused hb).congr (k.setEnv_of_ne x g hne) (k'.setEnv_of_ne x g' hne)

theorem setCpu {g : Cpu → Cpu} (hg : ∀ x, (g (k.cpus k.cpunum)).cpuEnv = some x → Usable b e x) :
    Like b e (k.setCpu g) (k'.setCpu g) := by
  refine { h with cpus := ?_, unused := fun hb => { h.unused hb with idle := fun i hi => ?_ } }
  · unfold Kernel.setCpu
    rw [h.cpus, h.cpunum]
  · by_cases hcpu : i = k.cpunum
    · rw [hcpu, setCpu_self] at hi
      exact (hg e hi).ne hb rfl
    · rw [k.setCpu_of_ne g hcpu] at hi
      exact (h.unused hb).idle i hi

end Like

/-- From kernels that are alike, the two pieces of code give the same result and kernels that
are alike. -/
abbrev Same (b : Bool) (e : Nat) (P : α → Prop) (m m' : Kern α) : Prop :=
  Code.Alike (Like b e) P m m'

/-- The same code on both sides. -/
abbrev Twice (b : Bool) (e : Nat) (P : α → Prop) (m : Kern α) : Prop := Same b e P m m

/-- The same code on both sides, with any result. -/
abbrev Blind (b : Bool) (e : Nat) (m : Kern α) : Prop := Twice b e (fun _ => True) m

section Rules

variable {P : α → Prop} {Q : β → Prop}

theorem onPhys_blind (m : PhysM α) : Blind b e (onPhys m) :=
  ⟨fun _ _ h => Code.twin_zoom m h.phys (fun _ p => ⟨rfl, trivial, h.withPhys p⟩) h.withPhys⟩

theorem env_bind_same (hx : Usable b e x) (h : ∀ u v, u.Alike v → Same b e Q (f u) (f' v)) :
    Same b e Q (env x >>= f) (env x >>= f') :=
  ⟨fun k k' hl => twin_bind (.ret ((h _ _ (hl.entry x hx)).twin k k' hl))⟩

theorem setEnv_same {g g' : Env → Env} (hx : Usable b e x)
    (hg : ∀ u v, u.Alike v → (g u).Alike (g' v)) :
    Same b e (fun _ => True) (setEnv x g) (setEnv x g') :=
  .modify (fun _ _ hl => hl.setEnv hx (hg _ _ (hl.entry x hx))) trivial

theorem curenv_same : Twice b e (Usable b e) curenv := by
  refine ⟨fun k k' hl => twin_bind (.ret ?_)⟩
  rw [hl.curenv]
  cases hcur : k.curenv with
  | none => exact .panic _
  | some c => exact .ret ⟨rfl, hl.usable_of_cpu hcur, hl⟩

theorem setCpu_same {g : Cpu → Cpu}
    (hg : ∀ c x, (g c).cpuEnv = some x → c.cpuEnv = some x ∨ Usable b e x) :
    Blind b e (Code.modify fun k => k.setCpu g) :=
  .modify (fun _ _ hl => hl.setCpu fun x hx => (hg _ x hx).elim hl.usable_of_cpu id) trivial

theorem lcr3_blind (pgdir : Nat) : Blind b e (lcr3 pgdir) := setCpu_same fun _ _ hx => .inl hx

theorem paddr_blind (pgdir : Option Nat) : Blind b e (paddr pgdir) := by
  cases pgdir with
  | none => exact .panic _
  | some d => exact .pure trivial

theorem envid2env_same (envid : Word) (checkperm : Bool) :
    Twice b e (fun r => ∀ x, r = .ok x → Usable b e x) (envid2env envid checkperm) := by
  refine .ite Iff.rfl (fun _ => .bind curenv_same fun c hc => .pure ?_) fun _ => ?_
  · rintro x ⟨⟩
    exact hc
  · refine ⟨fun k k' hl => twin_bind (.ret ?_)⟩
    have hstatus := hl.envStatus (envx envid)
    have hid := hl.envId (envx envid)
    have herr : ∀ r : Int, Twice b e (fun r => ∀ x, r = .ok x → Usable b e x)
        (pure (.error r) : Kern (Except Int Nat)) := fun r => .pure nofun
    refine Code.Alike.twin (.ite (by rw [hstatus, hid]) (fun _ => herr _) fun hbad => ?_) k k' hl
    have hx : Usable b e (envx envid) := hl.usable_of_live (not_or.mp hbad).1
    have hok : Twice b e (fun r => ∀ x, r = .ok x → Usable b e x)
        (pure (.ok (envx envid)) : Kern (Except Int Nat)) := by
      refine .pure ?_
      rintro x ⟨⟩
      exact hx
    refine .ite Iff.rfl (fun _ => ?_) fun _ => hok
    refine .bind curenv_same fun c hc => env_bind_same hc fun u v huv => ?_
    refine .ite ?_ (fun _ => herr _) fun _ => hok
    rw [huv.envId, (hl.entry _ hx).envParentId]

end Rules

theorem loadByte_blind (va : Word) : Blind b e (loadByte va) := by
  refine .get_bind fun k k' hl => ?_
  rw [hl.phys, hl.cpus, hl.cpunum]
  cases k.phys.translate (k.cpus k.cpunum).cr3 va false with
  | none => exact .panic _
  | some page => exact .pure trivial

theorem storeByte_blind (va : Word) (w : BitVec 8) : Blind b e (storeByte va w) := by
  refine .get_bind fun k k' hl => ?_
  rw [hl.phys, hl.cpus, hl.cpunum]
  cases k.phys.translate (k.cpus k.cpunum).cr3 va true with
  | none => exact .panic _
  | some page =>
    refine .modify (fun _ _ hl => ?_) trivial
    rw [hl.phys]
    exact hl.withPhys _

theorem load16_blind (va : Word) : Blind b e (load16 va) :=
  .seq (loadByte_blind _) fun _ => .seq (loadByte_blind _) fun _ => .pure trivial

theorem load32_blind (va : Word) : Blind b e (load32 va) :=
  .seq (load16_blind _) fun _ => .seq (load16_blind _) fun _ => .pure trivial

theorem store32_blind (va w : Word) : Blind b e (store32 va w) :=
  .seq (storeByte_blind _ _) fun _ => .seq (storeByte_blind _ _) fun _ =>
    .seq (storeByte_blind _ _) fun _ => storeByte_blind _ _

theorem loadPushRegs_blind (va : Word) : Blind b e (loadPushRegs va) := by
  unfold loadPushRegs
  iterate 8 refine .seq (load32_blind _) fun _ => ?_
  exact .pure trivial

theorem storePushRegs_blind (va : Word) (regs : PushRegs) : Blind b e (storePushRegs va regs) := by
  unfold storePushRegs
  iterate 7 refine .seq (store32_blind _ _) fun _ => ?_
  exact store32_blind _ _

theorem loadTrapframe_blind (va : Word) : Blind b e (loadTrapframe va) := by
  refine .seq (loadPushRegs_blind _) fun _ => ?_
  iterate 2 refine .seq (load16_blind _) fun _ => ?_
  iterate 3 refine .seq (load32_blind _) fun _ => ?_
  refine .seq (load16_blind _) fun _ => ?_
  iterate 2 refine .seq (load32_blind _) fun _ => ?_
  exact .seq (load16_blind _) fun _ => .pure trivial

theorem copyOut_blind (va : Word) (len : Nat) (bytes : Nat → BitVec 8) :
    Blind b e (copyOut va len bytes) := .times fun _ => storeByte_blind _ _

theorem copyIn_blind (va : Word) (len : Nat) : Blind b e (copyIn va len) := by
  induction len generalizing va with
  | zero => exact .pure trivial
  | succ len ih => exact .seq (loadByte_blind _) fun _ => .seq (ih _) fun _ => .pure trivial

theorem cprintfChars_blind (fuel : Nat) (p : Word) (precision : Int) :
    Blind b e (cprintfChars fuel p precision) := by
  induction fuel generalizing p precision with
  | zero => exact .pure trivial
  | succ fuel ih =>
    exact .seq (loadByte_blind _) fun _ => .ite Iff.rfl (fun _ => .pure trivial) fun _ =>
      .ite Iff.rfl (fun _ => ih _ _) fun _ => .ite Iff.rfl (fun _ => ih _ _) fun _ => .pure trivial

variable {P : Unit → Prop}

theorem envPopTf_blind (hx : Usable b e x) : Twice b e P (envPopTf x) := by
  refine .get_bind fun k k' hl => .seq (setEnv_same hx fun u v huv => { huv with }) fun _ => ?_
  refine .seq (.modify (fun k k' hl => ?_) trivial) fun _ => .exit
  rw [(hl.entry x hx).envTf]
  exact hl.setCpu fun _ hx => hl.usable_of_cpu hx

theorem setCurenv_blind {c : Option Nat} (hc : ∀ x, c = some x → Usable b e x) :
    Blind b e (setCurenv c) := setCpu_same fun _ x hx => .inr (hc x hx)

theorem envRun_blind (hx : Usable b e x) : Twice b e P (envRun x) := by
  have hrun : Twice b e P (do
      setCurenv (some x)
      setEnv x fun env => { env with envStatus := .running }
      setEnv x fun env => { env with envRuns := env.envRuns + 1 }
      let pa ← paddr (← env x).envPgdir
      lcr3 pa
      envPopTf x : Kern Unit) := by
    refine .seq (setCurenv_blind ?_) fun _ => ?_
    · rintro y ⟨⟩
      exact hx
    refine .seq (setEnv_same hx fun u v huv => { huv with envStatus := rfl }) fun _ => ?_
    refine .seq (setEnv_same hx fun u v huv => { huv with envRuns := ?_ }) fun _ => ?_
    · rw [huv.envRuns]
    refine env_bind_same hx fun u v huv => ?_
    rw [huv.envPgdir]
    exact .seq (paddr_blind _) fun _ => .seq (lcr3_blind _) fun _ => envPopTf_blind hx
  refine .get_bind fun k k' hl => ?_
  rw [hl.curenv]
  refine .ite Iff.rfl (fun _ => ?_) fun _ => envPopTf_blind hx
  cases hcur : k.curenv with
  | none => exact hrun
  | some c =>
    have hc := hl.usable_of_cpu hcur
    refine .ite ?_ (fun _ => ?_) fun _ => hrun
    · rw [hl.envStatus]
    · exact .seq (setEnv_same hc fun u v huv => { huv with envStatus := rfl }) fun _ => hrun

theorem monitor_blind : Twice b e P monitor :=
  .seq (setCpu_same fun _ _ hx => .inl hx) fun _ => .exit

theorem schedHalt_blind : Twice b e P schedHalt := by
  refine .get_bind fun k k' hl => ?_
  rw [hl.phys]
  refine .ite_seq ?_ monitor_blind ?_
  · simp only [hl.envStatus]
  · exact .seq (setCurenv_blind nofun) fun _ => .seq (lcr3_blind _) fun _ =>
      .seq (setCpu_same fun _ _ hx => .inl hx) fun _ => .exit

theorem schedLoop_blind (rounds i : Nat) : Blind b e (schedLoop rounds i) := by
  induction rounds generalizing i with
  | zero => exact .pure trivial
  | succ rounds ih =>
    refine ⟨fun k k' hl => twin_bind (.ret ?_)⟩
    refine Code.Alike.twin (.ite (by rw [hl.envStatus]) (fun hrun => ?_) fun _ => ih _) k k' hl
    have hx : Usable b e i := hl.usable_of_live (by rw [hrun]; nofun)
    exact .seq (envRun_blind hx) fun _ => ih _

theorem schedYield_blind : Twice b e P schedYield := by
  refine .get_bind fun k k' hl => ?_
  have hstart : k'.schedStart = k.schedStart := by
    unfold Kernel.schedStart
    rw [hl.curenv]
    cases k.curenv with
    | none => rfl
    | some idle => exact congrArg (fun w => envx w + 1) (hl.envId idle)
  rw [hstart, hl.curenv]
  refine .seq (schedLoop_blind _ _) fun _ => ?_
  cases hcur : k.curenv with
  | none => exact schedHalt_blind
  | some idle =>
    have hidle := hl.usable_of_cpu hcur
    refine env_bind_same hidle fun u v huv => ?_
    rw [huv.envStatus]
    exact .ite Iff.rfl (fun _ => .seq (envRun_blind hidle) fun _ => schedHalt_blind) fun _ =>
      schedHalt_blind

theorem envFree_blind (hx : Usable b e x) : Blind b e (envFree x) := by
  refine .get_bind fun k k' hl => ?_
  rw [hl.curenv, hl.phys, (hl.entry x hx).envPgdir]
  refine .ite_seq Iff.rfl (lcr3_blind _) ?_
  cases (k.envs x).envPgdir with
  | none => exact .panic _
  | some pgdir =>
    refine .seq (onPhys_blind _) fun _ => ?_
    refine .seq (setEnv_same hx fun u v huv => { huv with envPgdir := rfl }) fun _ => ?_
    refine .seq (onPhys_blind _) fun _ => ?_
    refine .seq (setEnv_same hx fun u v huv => { huv with envStatus := rfl }) fun _ => ?_
    refine .seq (.modify (fun k k' hl => hl.setEnv hx ?_) trivial) fun _ => ?_
    · exact { hl.entry x hx with envLink := hl.envFreeList }
    refine .seq (.modify (fun k k' hl => { hl with envFreeList := rfl }) trivial) fun _ => ?_
    refine .modify (fun k k' hl => { hl with envLog := ?_ }) trivial
    rw [hl.envLog, hl.cpunum]

theorem envDestroy_blind (hx : Usable b e x) : Blind b e (envDestroy x) := by
  refine .get_bind fun k k' hl => ?_
  refine .ite ?_ (fun _ => setEnv_same hx fun u v huv => { huv with envStatus := rfl }) fun _ => ?_
  · rw [hl.envStatus, hl.curenv]
  refine .seq (envFree_blind hx) fun _ => .get_bind fun k k' hl => ?_
  refine .ite (by rw [hl.curenv]) (fun _ => ?_) fun _ => .pure trivial
  exact .seq (setCurenv_blind nofun) fun _ => schedYield_blind

theorem userMemAssert_blind (hx : Usable b e x) (va len perm : Word) :
    Blind b e (userMemAssert x va len perm) := by
  refine env_bind_same hx fun u v huv => ?_
  rw [huv.envPgdir]
  exact .seq (onPhys_blind _) fun _ =>
    .ite Iff.rfl (fun _ => envDestroy_blind hx) fun _ => .pure trivial

theorem sysCputs_blind (s len : Word) : Blind b e (sysCputs s len) :=
  .bind curenv_same fun _ hc => .seq (userMemAssert_blind hc _ _ _) fun _ =>
    .ite Iff.rfl (fun _ => cprintfChars_blind _ _ _) fun _ => .pure trivial

theorem sysCgetc_blind : Blind b e sysCgetc := by
  refine .get_bind fun k k' hl => ?_
  rw [hl.cons]
  cases k.cons with
  | nil => exact .pure trivial
  | cons c rest =>
    exact .seq (.modify (fun _ _ hl => { hl with cons := rfl }) trivial) fun _ => .pure trivial

theorem sysGetenvid_blind : Blind b e sysGetenvid := by
  refine .bind curenv_same fun c hc => env_bind_same hc fun u v huv => ?_
  rw [huv.envId]
  exact .pure trivial

theorem found_blind {P : α → Prop} {f : Except Int Nat → Kern α} (envid : Word) (checkperm : Bool)
    (herr : ∀ r, Twice b e P (f (.error r)))
    (hok : ∀ x, Usable b e x → Twice b e P (f (.ok x))) :
    Twice b e P (envid2env envid checkperm >>= f) := by
  refine .bind (envid2env_same envid checkperm) fun r hr => ?_
  cases r with
  | error r => exact herr r
  | ok x => exact hok x (hr x rfl)

theorem sysEnvDestroy_blind (envid : Word) : Blind b e (sysEnvDestroy envid) :=
  found_blind envid true (fun _ => .pure trivial) fun _ hx =>
    .seq (envDestroy_blind hx) fun _ => .pure trivial

theorem sysEnvSetStatus_blind (envid status : Word) : Blind b e (sysEnvSetStatus envid status) := by
  unfold sysEnvSetStatus
  cases settableStatus status with
  | none => exact .pure trivial
  | some status =>
    exact found_blind envid true (fun _ => .pure trivial) fun _ hx =>
      .seq (setEnv_same hx fun u v huv => { huv with envStatus := rfl }) fun _ => .pure trivial

theorem sysEnvSetTrapframe_blind (envid tf : Word) : Blind b e (sysEnvSetTrapframe envid tf) := by
  refine found_blind envid true (fun _ => .pure trivial) fun x hx => ?_
  refine .seq (userMemAssert_blind hx _ _ _) fun _ => .seq (loadTrapframe_blind _) fun frame => ?_
  refine .seq (setEnv_same hx fun u v huv => { huv with envTf := rfl }) fun _ => ?_
  refine .seq (setEnv_same hx fun u v huv => { huv with envTf := ?_ }) fun _ => ?_
  · rw [huv.envTf]
  refine .seq (setEnv_same hx fun u v huv => { huv with envTf := ?_ }) fun _ => ?_
  · rw [huv.envTf]
  refine .seq (setEnv_same hx fun u v huv => { huv with envTf := ?_ }) fun _ => .pure trivial
  rw [huv.envTf]

theorem sysEnvSetPgfaultUpcall_blind (envid func : Word) :
    Blind b e (sysEnvSetPgfaultUpcall envid func) :=
  found_blind envid true (fun _ => .pure trivial) fun _ hx =>
    .seq (setEnv_same hx fun _ _ huv => { huv with envPgfaultUpcall := rfl }) fun _ => .pure trivial

theorem sysPageAlloc_blind (envid va perm : Word) : Blind b e (sysPageAlloc envid va perm) := by
  refine .ite Iff.rfl (fun _ => .pure trivial) fun _ => ?_
  refine .ite Iff.rfl (fun _ => .pure trivial) fun _ => ?_
  refine .seq (onPhys_blind _) fun r => ?_
  cases r with
  | none => exact .pure trivial
  | some pi =>
    refine found_blind envid true (fun _ => .pure trivial) fun x hx => ?_
    refine env_bind_same hx fun u v huv => ?_
    rw [huv.envPgdir]
    refine .seq (onPhys_blind _) fun _ => .ite Iff.rfl (fun _ => ?_) fun _ => .pure trivial
    exact .seq (onPhys_blind _) fun _ => .pure trivial

theorem sysPageMap_blind (srcenvid srcva dstenvid dstva perm : Word) :
    Blind b e (sysPageMap srcenvid srcva dstenvid dstva perm) := by
  refine found_blind srcenvid true (fun _ => .pure trivial) fun x hx => ?_
  refine found_blind dstenvid true (fun _ => .pure trivial) fun y hy => ?_
  refine .ite Iff.rfl (fun _ => .pure trivial) fun _ => ?_
  refine env_bind_same hx fun u v huv => ?_
  rw [huv.envPgdir]
  refine .seq (onPhys_blind _) fun r => ?_
  cases r with
  | none => exact .pure trivial
  | some found =>
    refine .seq (onPhys_blind _) fun pte => ?_
    refine .ite Iff.rfl (fun _ => .pure trivial) fun _ => ?_
    refine .ite Iff.rfl (fun _ => .pure trivial) fun _ => ?_
    refine env_bind_same hy fun u v huv => ?_
    rw [huv.envPgdir]
    exact .seq (onPhys_blind _) fun _ => .ite Iff.rfl (fun _ => .pure trivial) fun _ =>
      .pure trivial

theorem sysPageUnmap_blind (envid va : Word) : Blind b e (sysPageUnmap envid va) := by
  refine found_blind envid true (fun _ => .pure trivial) fun x hx => ?_
  refine .ite Iff.rfl (fun _ => .pure trivial) fun _ => ?_
  refine env_bind_same hx fun u v huv => ?_
  rw [huv.envPgdir]
  exact .seq (onPhys_blind _) fun _ => .pure trivial

theorem sysMapKernelPage_blind (kpage va : Word) : Blind b e (sysMapKernelPage kpage va) := by
  unfold sysMapKernelPage
  refine .ite_seq Iff.rfl (.panic _) ?_
  refine .seq (onPhys_blind _) fun p => .bind curenv_same fun c hc => ?_
  refine env_bind_same hc fun u v huv => ?_
  rw [huv.envPgdir]
  exact onPhys_blind _

theorem sysSbrk_blind (inc : Word) : Blind b e (sysSbrk inc) := by
  refine .bind curenv_same fun c hc => env_bind_same hc fun u v huv => ?_
  rw [huv.envBreak, huv.envPgdir]
  refine .seq (onPhys_blind _) fun _ => ?_
  refine .seq (setEnv_same hc fun u v huv => { huv with envBreak := ?_ }) fun _ => ?_
  · rw [huv.envBreak]
  refine env_bind_same hc fun u v huv => ?_
  rw [huv.envBreak]
  exact .pure trivial

theorem sysIpcRecv_blind (dstva : Word) : Blind b e (sysIpcRecv dstva) := by
  refine .ite Iff.rfl (fun _ => .pure trivial) fun _ => .bind curenv_same fun c hc => ?_
  refine .seq (setEnv_same hc fun _ _ huv => { huv with
    envIpcRecving := rfl
    envStatus := rfl
    envIpcDstva := fun _ => rfl }) fun _ => ?_
  exact .seq schedYield_blind fun _ => .pure trivial

theorem sysTimeMsec_blind : Blind b e sysTimeMsec := by
  refine .get_bind fun k k' hl => ?_
  rw [hl.ticks]
  exact .pure trivial

theorem e1000Tx_blind (buf len : Word) : Blind b e (e1000Tx buf len) := by
  refine .ite Iff.rfl (fun _ => .pure trivial) fun _ => .get_bind fun k k' hl => ?_
  rw [hl.e1000]
  refine .ite Iff.rfl (fun _ => .pure trivial) fun _ => ?_
  refine .ite Iff.rfl (fun _ => .pure trivial) fun _ => .seq (copyIn_blind _ _) fun _ => ?_
  refine .seq (.modify (fun k k' hl => ?_) trivial) fun _ => .pure trivial
  rw [hl.e1000]
  exact { hl with e1000 := rfl }

theorem e1000Rx_blind (buf : Word) : Blind b e (e1000Rx buf) := by
  refine .ite Iff.rfl (fun _ => .pure trivial) fun _ => .get_bind fun k k' hl => ?_
  rw [hl.e1000]
  refine .ite Iff.rfl (fun _ => .pure trivial) fun _ => .seq (copyOut_blind _ _ _) fun _ => ?_
  refine .seq (.modify (fun k k' hl => ?_) trivial) fun _ => .pure trivial
  rw [hl.e1000]
  exact { hl with e1000 := rfl }

theorem sysNetSend_blind (buf len : Word) : Blind b e (sysNetSend buf len) := by
  refine .bind curenv_same fun c hc => env_bind_same hc fun u v huv => ?_
  rw [huv.envPgdir]
  exact .seq (onPhys_blind _) fun _ =>
    .ite Iff.rfl (fun _ => .pure trivial) fun _ => e1000Tx_blind _ _

theorem sysNetRecv_blind (buf len : Word) : Blind b e (sysNetRecv buf len) := by
  refine .bind curenv_same fun c hc => env_bind_same hc fun u v huv => ?_
  rw [huv.envPgdir]
  exact .seq (onPhys_blind _) fun _ =>
    .ite Iff.rfl (fun _ => .pure trivial) fun _ => e1000Rx_blind _

theorem twin_env (h : Code.Twin (f (k.envs x)) (f' (k'.envs x)) Q E k k') :
    Code.Twin (env x >>= f) (env x >>= f') Q E k k' := twin_bind (.ret h)

theorem twin_curenv {f f' : Nat → Kern β} (hl : Like b e k k')
    (h : ∀ c, Usable b e c → Code.Twin (f c) (f' c) Q E k k') :
    Code.Twin (curenv >>= f) (curenv >>= f') Q E k k' := by
  refine twin_bind (twin_bind (.ret ?_))
  rw [hl.curenv]
  cases hcur : k.curenv with
  | none => exact .panic _
  | some c => exact .ret (h c (hl.usable_of_cpu hcur))

theorem twin_onPhys {m : PhysM α} {f f' : α → Kern β} (hl : Like b e k k')
    (h : ∀ a p, Code.Twin (f a) (f' a) Q (Like b e) { k with phys := p } { k' with phys := p }) :
    Code.Twin (onPhys m >>= f) (onPhys m >>= f') Q (Like b e) k k' :=
  twin_bind (Code.twin_zoom m hl.phys h hl.withPhys)

/-- Where a message goes is read only while its receiver waits for it. -/
theorem sysIpcTrySend_blind (envid value srcva perm : Word) :
    Blind b e (sysIpcTrySend envid value srcva perm) := by
  refine found_blind envid false (fun _ => .pure trivial) fun x hx => ?_
  have hsend : Blind b e (do
      let sender ← env (← curenv)
      setEnv x fun env =>
        { env with
          envIpcRecving := false
          envIpcFrom := sender.envId
          envIpcValue := value
          envIpcPerm := perm
          envStatus := .runnable
          envTf := env.envTf.withEax 0 }
      return 0 : Kern Int) := by
    refine .bind curenv_same fun c hc => env_bind_same hc fun u v huv => ?_
    refine .seq (setEnv_same hx fun u v huv => { huv with
      envIpcRecving := rfl
      envStatus := rfl
      envTf := ?_
      envIpcDstva := nofun }) fun _ => .pure trivial
    rw [huv.envTf]
  refine ⟨fun k k' hl => twin_env ?_⟩
  have hentry := hl.entry x hx
  have hret : ∀ (r : Int) (k k' : Kernel), Like b e k k' →
      Code.Twin (pure r : Kern Int) (pure r) (fun a a' t t' => a' = a ∧ True ∧ Like b e t t')
        (Like b e) k k' := fun _ _ _ hl => .ret ⟨rfl, trivial, hl⟩
  refine twin_ite (by rw [hentry.envIpcRecving]) (fun _ => hret _ _ _ hl) fun hrecv => ?_
  refine twin_ite Iff.rfl (fun _ => ?_) fun _ => hsend.twin k k' hl
  refine twin_ite Iff.rfl (fun _ => hret _ _ _ hl) fun _ => ?_
  refine twin_ite Iff.rfl (fun _ => hret _ _ _ hl) fun _ => ?_
  refine twin_curenv hl fun c hc => twin_env ?_
  rw [(hl.entry c hc).envPgdir]
  refine twin_onPhys hl fun r p => ?_
  have hl1 := hl.withPhys p
  cases r with
  | none => exact hret _ _ _ hl1
  | some found =>
    refine twin_onPhys hl1 fun pte p2 => ?_
    refine twin_ite Iff.rfl (fun _ => hret _ _ _ (hl.withPhys p2)) fun _ => twin_env ?_
    rw [hentry.envPgdir, hentry.envIpcDstva (Bool.eq_true_of_not_eq_false hrecv)]
    refine twin_onPhys (hl.withPhys p2) fun r p3 => ?_
    exact twin_ite Iff.rfl (fun _ => hret _ _ _ (hl.withPhys p3)) fun _ =>
      hsend.twin _ _ (hl.withPhys p3)

/-- The entry that `env_alloc` makes of the slot `x`. -/
def Env.occupied (u : Env) (x q : Nat) (parentId : Word) : Env :=
  { u with
    envPgdir := some q
    envId := nextEnvId u.envId x
    envParentId := parentId
    envType := .user
    envStatus := .runnable
    envRuns := 0
    envTf := initialTf
    envPgfaultUpcall := 0
    envIpcRecving := false }

def Kernel.occupy (k : Kernel) (x q : Nat) (parentId : Word) (p : Phys) : Kernel :=
  { k with
    phys := p
    envs := update k.envs x ((k.envs x).occupied x q parentId)
    envFreeList := (k.envs x).envLink
    envLog := k.envLog ++ [.alloc x] }

theorem envAlloc_eq (hx : k.envFreeList = some x) (parentId : Word) : envAlloc parentId k =
    match setupVm k.phys with
    | .ret none p => .ret (.error (-eNoMem)) { k with phys := p }
    | .ret (some q) p => .ret (.ok x) (k.occupy x q parentId p)
    | .exit p => .exit { k with phys := p }
    | .panic s => .panic s := by
  have hsetup : envSetupVm x k =
      match setupVm k.phys with
      | .ret none p => .ret (-eNoMem) { k with phys := p }
      | .ret (some q) p => .ret 0 (Kernel.setEnv { k with phys := p } x
          fun env => { env with envPgdir := some q })
      | .exit p => .exit { k with phys := p }
      | .panic s => .panic s := by
    unfold envSetupVm onPhys
    rw [bind_apply]
    unfold Code.zoom
    cases setupVm k.phys with
    | ret r p =>
      cases r with
      | none => rfl
      | some q => rfl
    | exit p => rfl
    | panic s => rfl
  conv_lhs =>
    unfold envAlloc
    rw [bind_apply, get_apply]
    dsimp only
    rw [hx]
    dsimp only
    rw [bind_apply, hsetup]
  cases setupVm k.phys with
  | ret r p =>
    cases r with
    | none => rfl
    | some q =>
      dsimp only
      rw [if_neg (by decide)]
      simp [setEnv, Code.modify, bind_apply, pure_apply, Kernel.setEnv, Kernel.occupy, Env.occupied]
  | exit p => rfl
  | panic s => rfl

/-- The kernels are alike, and the slot `e` may have been allocated. -/
def LikeFrom (b : Bool) (e : Nat) (k k' : Kernel) : Prop :=
  ∃ b', (b = true → b' = true) ∧ Like b' e k k'

theorem Like.from (h : Like b e k k') : LikeFrom b e k k' := ⟨b, id, h⟩

theorem Usable.mono {b' : Bool} (hb : b = true → b' = true) (h : Usable b e x) : Usable b' e x :=
  h.imp_left hb

theorem Env.Alike.occupied {q : Nat} (hid : v.envId = u.envId)
    (hlink : v.envLink = u.envLink) (hbreak : v.envBreak = u.envBreak) :
    (u.occupied x q parentId).Alike (v.occupied x q parentId) := by
  refine ⟨rfl, hlink, ?_, rfl, rfl, rfl, rfl, rfl, rfl, rfl, hbreak, nofun⟩
  show nextEnvId v.envId x = nextEnvId u.envId x
  rw [hid]

/-- The slot that `env_alloc` takes may be `e`, which is then in use. -/
theorem Like.occupy {q : Nat} {p : Phys} (h : Like b e k k') :
    ∃ b', (b = true → b' = true) ∧ Usable b' e x ∧
      Like b' e (k.occupy x q parentId p) (k'.occupy x q parentId p) := by
  have hname : (k'.envs x).envId = (k.envs x).envId ∧ (k'.envs x).envLink = (k.envs x).envLink ∧
      (k'.envs x).envBreak = (k.envs x).envBreak := by
    rcases h.usable_or x with hx | ⟨rfl, hu⟩
    · have hentry := h.entry x hx
      exact ⟨hentry.envId, hentry.envLink, hentry.envBreak⟩
    · exact ⟨hu.envId, hu.envLink, hu.envBreak⟩
  have hentry : ∀ y, y = x ∨ Usable b e y →
      ((k.occupy x q parentId p).envs y).Alike ((k'.occupy x q parentId p).envs y) := by
    intro y hy
    unfold Kernel.occupy
    by_cases hyx : y = x
    · subst hyx
      simp only [update_self]
      exact .occupied hname.1 hname.2.1 hname.2.2
    · simp only [update_of_ne hyx]
      exact h.entry y (hy.resolve_left hyx)
  have hlog : (k'.occupy x q parentId p).envLog = (k.occupy x q parentId p).envLog := by
    show k'.envLog ++ _ = k.envLog ++ _
    rw [h.envLog]
  by_cases hxe : x = e
  · refine ⟨true, fun _ => rfl, .inl rfl, rfl, hname.2.1, h.cpus, h.cpunum, h.ticks, h.cons,
      h.e1000, hlog, fun y _ => hentry y ?_, nofun⟩
    by_cases hye : y = x
    · exact .inl hye
    · exact .inr (.inr (hxe ▸ hye))
  · refine ⟨b, id, .inr hxe, rfl, hname.2.1, h.cpus, h.cpunum, h.ticks, h.cons, h.e1000, hlog,
      fun y hy => hentry y (.inr hy), fun hb => (h.unused hb).congr ?_ ?_⟩
    · exact update_of_ne (Ne.symm hxe) ..
    · exact update_of_ne (Ne.symm hxe) ..

theorem envAlloc_twin (h : Like b e k k') (parentId : Word) :
    Code.Twin (envAlloc parentId) (envAlloc parentId)
      (fun r r' t t' => r' = r ∧ ∃ b', (b = true → b' = true) ∧ Like b' e t t' ∧
        ∀ x, r = .ok x → Usable b' e x) (LikeFrom b e) k k' := by
  unfold Code.Twin
  cases hhead : k.envFreeList with
  | none =>
    have hnone : ∀ k : Kernel, k.envFreeList = none →
        envAlloc parentId k = .ret (.error (-eNoFreeEnv)) k := by
      intro k hk
      unfold envAlloc
      rw [bind_apply, get_apply]
      dsimp only
      rw [hk]
      rfl
    rw [hnone k hhead, hnone k' (h.envFreeList.trans hhead)]
    exact .ret ⟨rfl, b, id, h, nofun⟩
  | some x =>
    rw [envAlloc_eq hhead, envAlloc_eq (h.envFreeList.trans hhead), h.phys]
    cases setupVm k.phys with
    | ret r p =>
      cases r with
      | none => exact .ret ⟨rfl, b, id, h.withPhys p, nofun⟩
      | some q =>
        obtain ⟨b', hb, hx, hl⟩ := h.occupy (x := x) (q := q) (p := p)
        refine .ret ⟨rfl, b', hb, hl, ?_⟩
        rintro y ⟨⟩
        exact hx
    | exit p => exact .exit (h.withPhys p).from
    | panic s => exact .panic s

/-- From kernels that are alike, both runs of the code end alike. -/
def EndsAlike (b : Bool) (e : Nat) (m : Kern α) (k k' : Kernel) : Prop :=
  Code.Twin m m (fun a a' t t' => a' = a ∧ LikeFrom b e t t') (LikeFrom b e) k k'

theorem Blind.ends {m : Kern α} (hm : Blind b e m) (h : Like b e k k') : EndsAlike b e m k k' :=
  twin_mono (hm.twin k k' h) (fun _ _ _ _ ⟨ha, _, hl⟩ => ⟨ha, hl.from⟩) fun _ _ hl => hl.from

theorem EndsAlike.mono {b' : Bool} {m : Kern α} (hb : b = true → b' = true)
    (h : EndsAlike b' e m k k') : EndsAlike b e m k k' :=
  twin_mono h (fun _ _ _ _ ⟨ha, b1, hb1, hl⟩ => ⟨ha, b1, hb1 ∘ hb, hl⟩)
    fun _ _ ⟨b1, hb1, hl⟩ => ⟨b1, hb1 ∘ hb, hl⟩

theorem sysExofork_endsAlike (h : Like b e k k') : EndsAlike b e sysExofork k k' := by
  refine twin_curenv h fun cur hcur => twin_env ?_
  rw [(h.entry cur hcur).envId]
  refine twin_bind (twin_mono (envAlloc_twin h _) ?_ fun _ _ hl => hl)
  rintro _ r t t' ⟨rfl, b', hb, hl, hx⟩
  cases r with
  | error r => exact .ret ⟨rfl, b', hb, hl⟩
  | ok x =>
    have hx := hx x rfl
    have hcur' := hcur.mono hb
    refine EndsAlike.mono hb (Blind.ends ?_ hl)
    refine .seq (setEnv_same hx fun u v huv => { huv with envStatus := rfl }) fun _ => ?_
    refine .seq (.modify (fun k k' hl => hl.setEnv hx ?_) trivial) fun _ => ?_
    · exact { hl.entry x hx with envTf := (hl.entry cur hcur').envTf }
    refine .seq (setEnv_same hx fun u v huv => { huv with envTf := ?_ }) fun _ => ?_
    · rw [huv.envTf]
    refine env_bind_same hx fun u v huv => ?_
    rw [huv.envId]
    exact .pure trivial

theorem syscall_endsAlike (h : Like b e k k') (no a1 a2 a3 a4 a5 : Word) :
    EndsAlike b e (syscall no a1 a2 a3 a4 a5) k k' := by
  unfold syscall
  cases Sysno.ofWord no with
  | none => exact Blind.ends (.pure trivial) h
  | some call =>
    cases call with
    | cputs => exact Blind.ends (.seq (sysCputs_blind _ _) fun _ => .pure trivial) h
    | cgetc => exact Blind.ends sysCgetc_blind h
    | getenvid => exact Blind.ends sysGetenvid_blind h
    | envDestroy => exact Blind.ends (sysEnvDestroy_blind _) h
    | pageAlloc => exact Blind.ends (sysPageAlloc_blind _ _ _) h
    | pageMap => exact Blind.ends (sysPageMap_blind _ _ _ _ _) h
    | pageUnmap => exact Blind.ends (sysPageUnmap_blind _ _) h
    | exofork => exact sysExofork_endsAlike h
    | envSetStatus => exact Blind.ends (sysEnvSetStatus_blind _ _) h
    | envSetTrapframe => exact Blind.ends (sysEnvSetTrapframe_blind _ _) h
    | envSetPgfaultUpcall => exact Blind.ends (sysEnvSetPgfaultUpcall_blind _ _) h
    | yield => exact Blind.ends (.seq schedYield_blind fun _ => .pure trivial) h
    | ipcTrySend => exact Blind.ends (sysIpcTrySend_blind _ _ _ _) h
    | ipcRecv => exact Blind.ends (sysIpcRecv_blind _) h
    | mapKernelPage => exact Blind.ends (sysMapKernelPage_blind _ _) h
    | sbrk => exact Blind.ends (sysSbrk_blind _) h
    | timeMsec => exact Blind.ends sysTimeMsec_blind h
    | netSend => exact Blind.ends (sysNetSend_blind _ _) h
    | netRecv => exact Blind.ends (sysNetRecv_blind _ _) h

theorem storeUTrapframe_blind (utf faultVa : Word) (tf : Trapframe) :
    Blind b e (storeUTrapframe utf faultVa tf) :=
  .seq (store32_blind _ _) fun _ => .seq (store32_blind _ _) fun _ =>
    .seq (storePushRegs_blind _ _) fun _ => .seq (store32_blind _ _) fun _ =>
    .seq (store32_blind _ _) fun _ => store32_blind _ _

theorem pageFaultHandler_blind (tf : Trapframe) (faultVa : Word) :
    Blind b e (pageFaultHandler tf faultVa) := by
  unfold pageFaultHandler
  refine .ite_seq Iff.rfl (.panic _) ?_
  refine .bind curenv_same fun c hc => env_bind_same hc fun u v huv => ?_
  rw [huv.envPgfaultUpcall]
  refine .ite Iff.rfl (fun _ => ?_) fun _ => envDestroy_blind hc
  refine .seq (userMemAssert_blind hc _ _ _) fun _ => ?_
  refine .seq (storeUTrapframe_blind _ _ _) fun _ => ?_
  refine .seq (setEnv_same hc fun u v huv => { huv with envTf := ?_ }) fun _ => ?_
  · rw [huv.envTf, huv.envPgfaultUpcall]
  refine .seq (setEnv_same hc fun u v huv => { huv with envTf := ?_ }) fun _ => ?_
  · rw [huv.envTf]
  exact .seq (envRun_blind hc) fun _ => envDestroy_blind hc

theorem timeTick_blind : Blind b e timeTick := by
  refine .seq (.modify (fun k k' hl => { hl with ticks := ?_ }) trivial) fun _ => ?_
  · rw [hl.ticks]
  refine .get_bind fun k k' hl => ?_
  rw [hl.ticks]
  exact .ite Iff.rfl (fun _ => .panic _) fun _ => .pure trivial

theorem trapReturn_blind : Blind b e trapReturn := by
  refine .get_bind fun k k' hl => ?_
  rw [hl.curenv]
  cases hcur : k.curenv with
  | none => exact schedYield_blind
  | some c =>
    exact .ite (by rw [hl.envStatus]) (fun _ => envRun_blind (hl.usable_of_cpu hcur)) fun _ =>
      schedYield_blind

theorem trapDispatch_endsAlike (h : Like b e k k') (tf : Trapframe) (slot : Option Nat) (cr2 : Word)
    (hslot : ∀ x, slot = some x → Usable b e x) :
    EndsAlike b e (trapDispatch tf slot cr2) k k' := by
  refine twin_ite Iff.rfl (fun _ => Blind.ends (pageFaultHandler_blind _ _) h) fun _ => ?_
  refine twin_ite Iff.rfl (fun _ => Blind.ends monitor_blind h) fun _ => ?_
  refine twin_ite Iff.rfl (fun _ => ?_) fun _ => ?_
  · refine twin_bind (twin_mono (syscall_endsAlike h _ _ _ _ _ _) ?_ fun _ _ hl => hl)
    rintro r r' t t' ⟨rfl, b', hb, hl⟩
    cases slot with
    | none => exact .ret ⟨rfl, b', hb, hl⟩
    | some x =>
      refine EndsAlike.mono hb (Blind.ends (setEnv_same ((hslot x rfl).mono hb) ?_) hl)
      intro u v huv
      exact { huv with envTf := congrArg (Trapframe.withEax · _) huv.envTf }
  refine twin_ite Iff.rfl (fun _ => Blind.ends (.pure trivial) h) fun _ => ?_
  refine twin_ite Iff.rfl (fun _ => Blind.ends ?_ h) fun _ => ?_
  · refine .get_bind fun k k' hl => ?_
    rw [hl.cpunum]
    exact .ite Iff.rfl (fun _ => .seq timeTick_blind fun _ => schedYield_blind) fun _ =>
      schedYield_blind
  refine twin_ite Iff.rfl (fun _ => Blind.ends (.pure trivial) h) fun _ => ?_
  refine twin_ite Iff.rfl (fun _ => Blind.ends (.pure trivial) h) fun _ => ?_
  refine twin_ite Iff.rfl (fun _ => .panic _) fun _ => ?_
  exact Blind.ends (.bind curenv_same fun c hc => envDestroy_blind hc) h

theorem trap_endsAlike (h : Like b e k k') (tf : Trapframe) (cr2 : Word) :
    EndsAlike b e (trap tf cr2) k k' := by
  have hback : ∀ {b' : Bool} {t t' : Kernel}, (b = true → b' = true) → Like b' e t t' →
      EndsAlike b e trapReturn t t' :=
    fun hb hl => EndsAlike.mono hb (Blind.ends trapReturn_blind hl)
  refine twin_bind (.ret ?_)
  have h1 : Like b e (k.setCpu fun c => { c with cpuStatus := .started })
      (k'.setCpu fun c => { c with cpuStatus := .started }) :=
    h.setCpu fun _ hx => h.usable_of_cpu hx
  have hdispatch : ∀ {k k' : Kernel} (slot : Option Nat), Like b e k k' →
      (∀ x, slot = some x → Usable b e x) →
      EndsAlike b e (trapDispatch tf slot cr2 >>= fun _ => trapReturn) k k' := by
    intro k k' slot hl hslot
    refine twin_bind (twin_mono (trapDispatch_endsAlike hl tf slot cr2 hslot) ?_
      fun _ _ hl => hl)
    rintro _ _ t t' ⟨-, b', hb, hl⟩
    exact hback hb hl
  refine twin_ite Iff.rfl (fun _ => ?_) fun _ => hdispatch none h1 nofun
  refine twin_bind (.ret ?_)
  rw [h1.curenv]
  cases hcur : (k.setCpu fun c => { c with cpuStatus := .started }).curenv with
  | none => exact .panic _
  | some c =>
    have hc := h1.usable_of_cpu hcur
    have hsave : ∀ {k k' : Kernel}, Like b e k k' → EndsAlike b e
        (do setEnv c fun env => { env with envTf := tf }
            trapDispatch tf (some c) cr2
            trapReturn) k k' := by
      intro k k' hl
      refine twin_bind (.ret (hdispatch (some c) (hl.setEnv hc ?_) ?_))
      · exact { hl.entry c hc with envTf := rfl }
      · rintro x ⟨⟩
        exact hc
    refine twin_env ?_
    refine twin_ite (by rw [h1.envStatus]) (fun _ => ?_) fun _ => hsave h1
    -- The scheduler does not come back here.
    exact Blind.ends (.seq (envFree_blind hc) fun _ => .seq (setCurenv_blind nofun) fun _ =>
      .bind (P := fun _ => False) schedYield_blind fun _ hf => hf.elim) h1

/-- The kernel is entered, or user code and devices change what they can change. -/
inductive Happening where
  | enter (ev : Event)
  | user (p : Phys) (cons : List Word) (e1000 : E1000)

/-- The events in which a processor comes from outside and goes back. -/
def Event.IsEntry : Event → Prop
  | .boot _ => True
  | .trap _ _ _ => True
  | .irq _ _ _ => True
  | .create _ _ => False
  | .outside => False

inductive Happens (k : Kernel) : Happening → Kernel → Prop where
  | enter {ev : Event} {k' : Kernel} (hentry : ev.IsEntry) (hstep : MachineStep k ev k') :
      Happens k (.enter ev) k'
  | user (p : Phys) (cons : List Word) (e1000 : E1000) :
      Happens k (.user p cons e1000) { k with phys := p, cons := cons, e1000 := e1000 }

/-- The states after each of the happenings. -/
inductive Trace : Kernel → List Happening → List Kernel → Prop where
  | nil (k : Kernel) : Trace k [] []
  | cons {k k1 : Kernel} {a : Happening} {as : List Happening} {ks : List Kernel}
      (hstep : Happens k a k1) (hrest : Trace k1 as ks) : Trace k (a :: as) (k1 :: ks)

theorem Like.on (h : Like b e k k') (cpu : Nat) : Like b e (k.on cpu) (k'.on cpu) :=
  { h with cpunum := rfl }

theorem Like.unlocked (h : Like b e k k') (hlock : k.Unlocked) : k'.Unlocked := by
  unfold Kernel.Unlocked
  rw [h.cpus]
  exact hlock

theorem Like.step {a : Happening} {k1 : Kernel} (h : Like b e k k') (hstep : Happens k a k1) :
    ∃ k1', Happens k' a k1' ∧ LikeFrom b e k1 k1' := by
  have hexit : ∀ {cpu : Nat} {m : Kern Unit}, EndsAlike b e m (k.on cpu) (k'.on cpu) →
      m (k.on cpu) = .exit k1 → ∃ k1', m (k'.on cpu) = .exit k1' ∧ LikeFrom b e k1 k1' :=
    fun hends hm => Code.Twin.of_exit hends hm
  cases hstep with
  | user p cons e1000 =>
    refine ⟨_, .user p cons e1000, b, id, ?_⟩
    exact { h with phys := rfl, cons := rfl, e1000 := rfl }
  | enter hentry hstep =>
    cases hstep with
    | create => exact hentry.elim
    | outside => exact hentry.elim
    | boot hcpu hlock hmode hfirst hrun =>
      obtain ⟨k1', hrun', hl⟩ := hexit (Blind.ends schedYield_blind (h.on _)) hrun
      exact ⟨k1', .enter trivial (.boot hcpu (h.unlocked hlock) (by rw [h.cpus]; exact hmode)
        (by rw [h.cpus]; exact hfirst) hrun'), hl⟩
    | trap hcpu hlock hmode htf hrun =>
      obtain ⟨k1', hrun', hl⟩ := hexit (trap_endsAlike (h.on _) _ _) hrun
      exact ⟨k1', .enter trivial (.trap hcpu (h.unlocked hlock) (by rw [h.cpus]; exact hmode)
        (by rw [h.cpus]; exact htf) hrun'), hl⟩
    | irq hcpu hlock hmode htf hrun =>
      obtain ⟨k1', hrun', hl⟩ := hexit (trap_endsAlike (h.on _) _ _) hrun
      exact ⟨k1', .enter trivial (.irq hcpu (h.unlocked hlock) (by rw [h.cpus]; exact hmode)
        htf hrun'), hl⟩

/-- What the environments get: memory with all page tables, the registers that the processors
have restored, and the registers and the page directory of each environment. -/
structure SameResults (k k' : Kernel) : Prop where
  phys : k'.phys = k.phys
  cpus : k'.cpus = k.cpus
  envStatus : ∀ x, (k'.envs x).envStatus = (k.envs x).envStatus
  envId : ∀ x, (k'.envs x).envId = (k.envs x).envId
  envTf : ∀ x, (k.envs x).envStatus ≠ .free → (k'.envs x).envTf = (k.envs x).envTf
  envPgdir : ∀ x, (k.envs x).envStatus ≠ .free → (k'.envs x).envPgdir = (k.envs x).envPgdir

theorem Like.sameResults (h : Like b e k k') : SameResults k k' where
  phys := h.phys
  cpus := h.cpus
  envStatus := h.envStatus
  envId := h.envId
  envTf _ hx := (h.entry _ (h.usable_of_live hx)).envTf
  envPgdir _ hx := (h.entry _ (h.usable_of_live hx)).envPgdir

theorem Like.trace {as : List Happening} {ks : List Kernel} (h : Like b e k k')
    (hrun : Trace k as ks) : ∃ ks', Trace k' as ks' ∧ List.Forall₂ SameResults ks ks' := by
  induction hrun generalizing b k' with
  | nil k => exact ⟨[], .nil k', .nil⟩
  | cons hstep hrest ih =>
    obtain ⟨k1', hstep', b', -, hl⟩ := h.step hstep
    obtain ⟨ks', hrest', hsame⟩ := ih hl
    exact ⟨k1' :: ks', .cons hstep' hrest', .cons hl.sameResults hsame⟩

/-- The kernels differ only in what has been left in the free slot `e`. -/
structure DifferInFree (e : Nat) (k k' : Kernel) : Prop where
  free : (k.envs e).envStatus = .free
  envStatus : (k'.envs e).envStatus = .free
  envId : (k'.envs e).envId = (k.envs e).envId
  envLink : (k'.envs e).envLink = (k.envs e).envLink
  other : k' = k.setEnv e fun _ => k'.envs e

theorem DifferInFree.like (h : DifferInFree e k k') (hidle : ∀ i, (k.cpus i).cpuEnv ≠ some e)
    (hbreak : (k'.envs e).envBreak = (k.envs e).envBreak) : Like false e k k' := by
  have hother := h.other
  have hunused : Unused e k.envs k'.envs k.cpus :=
    ⟨h.free, h.envStatus.trans h.free.symm, h.envId, h.envLink, hbreak, hidle⟩
  generalize k'.envs e = v at hother
  subst hother
  refine ⟨rfl, rfl, rfl, rfl, rfl, rfl, rfl, rfl, fun x hx => ?_, fun _ => hunused⟩
  rw [k.setEnv_of_ne e _ (hx.resolve_left nofun)]
  exact .refl _

/-- What the last occupant has left in a free slot that no processor runs does not matter to
anybody, but for `env_break`. -/
theorem reused_slot_clean {as : List Happening} {ks : List Kernel} (h : DifferInFree e k k')
    (hidle : ∀ i, (k.cpus i).cpuEnv ≠ some e)
    (hbreak : (k'.envs e).envBreak = (k.envs e).envBreak) (hrun : Trace k as ks) :
    ∃ ks', Trace k' as ks' ∧ List.Forall₂ SameResults ks ks' :=
  (h.like hidle hbreak).trace hrun

def litter (f : Env → Env) : Kernel := solo.setEnv 1 f

/-- A change of what is left that keeps the slot on the free list. -/
def KeepsFree (f : Env → Env) : Prop :=
  ∀ u, (f u).envStatus = u.envStatus ∧ (f u).envId = u.envId ∧ (f u).envLink = u.envLink

theorem solo_free : (solo.envs 1).envStatus = .free := by decide +kernel

theorem solo_idle (i : Nat) : (solo.cpus i).cpuEnv ≠ some 1 := by
  have hrun : MachineRun Careful snapshot solo :=
    (Relation.ReflTransGen.single ⟨_, single_step, trivial⟩).tail ⟨_, solo_step, trivial⟩
  intro hi
  exact ((hrun.orderly snapshot_poweredOn).live hi).2 solo_free

theorem litter_differ {f g : Env → Env} (hf : KeepsFree f) (hg : KeepsFree g) :
    DifferInFree 1 (litter f) (litter g) := by
  have hf := hf (solo.envs 1)
  have hg := hg (solo.envs 1)
  unfold litter
  constructor
  · rw [setEnv_self]
    exact hf.1.trans solo_free
  · rw [setEnv_self]
    exact hg.1.trans solo_free
  · rw [setEnv_self, setEnv_self]
    exact hg.2.1.trans hf.2.1.symm
  · rw [setEnv_self, setEnv_self]
    exact hg.2.2.trans hf.2.2.symm
  · rw [setEnv_self, setEnv_setEnv]
    unfold Kernel.setEnv
    congr 1

/-- A call of `sys_exofork` after the last occupant has left a message. -/
theorem reused_slot_clean_message : ∃ ks ks',
    Trace (litter id) [.enter (.trap 0 (callTf 7 0 0) 0)] ks ∧
    Trace (litter fun u => { u with envIpcValue := 5, envParentId := 9 })
      [.enter (.trap 0 (callTf 7 0 0) 0)] ks' ∧ List.Forall₂ SameResults ks ks' := by
  have hrun : Trace (litter id) [.enter (.trap 0 (callTf 7 0 0) 0)] [forked] := by
    have hlitter : litter id = solo := by
      unfold litter Kernel.setEnv
      simp
    rw [hlitter]
    exact .cons (.enter trivial forked_step) (.nil _)
  have hdiffer : DifferInFree 1 (litter id)
      (litter fun u => { u with envIpcValue := 5, envParentId := 9 }) :=
    litter_differ (fun _ => ⟨rfl, rfl, rfl⟩) fun _ => ⟨rfl, rfl, rfl⟩
  obtain ⟨ks', hrun', hsame⟩ := reused_slot_clean hdiffer solo_idle rfl hrun
  exact ⟨_, ks', hrun, hrun', hsame⟩

/-- The last occupant has left the end `w` of its heap. -/
@[irreducible] def oldBreak (w : Word) : Kernel := litter fun u => { u with envBreak := w }

@[irreducible] def oldForked (w : Word) : Kernel := (oldBreak w).exec 0 (trap (callTf 7 0 0) 0)

@[irreducible] def oldWoken (w : Word) : Kernel :=
  (oldForked w).exec 0 (trap (callTf 8 0x1001 2) 0)

@[irreducible] def oldYielded (w : Word) : Kernel := (oldWoken w).exec 0 (trap (callTf 11 0 0) 0)

@[irreducible] def oldAsked (w : Word) : Kernel := (oldYielded w).exec 0 (trap (callTf 15 0 0) 0)

def askForBreak : List Happening :=
  [.enter (.trap 0 (callTf 7 0 0) 0), .enter (.trap 0 (callTf 8 0x1001 2) 0),
    .enter (.trap 0 (callTf 11 0 0) 0), .enter (.trap 0 (callTf 15 0 0) 0)]

/-- The first processor can make the call, and the call returns to user mode. -/
def Kernel.Takes (k : Kernel) (tf : Trapframe) : Prop :=
  0 < ncpu ∧ k.Unlocked ∧ (k.cpus 0).mode = .user ∧ FromUser (k.cpus 0).userTf tf ∧
    (trap tf 0 (k.on 0)).leaves

instance (k : Kernel) (tf : Trapframe) : Decidable (k.Takes tf) :=
  inferInstanceAs (Decidable (_ ∧ _))

theorem Kernel.Takes.happens {tf : Trapframe} (h : k.Takes tf) :
    Happens k (.enter (.trap 0 tf 0)) (k.exec 0 (trap tf 0)) :=
  .enter trivial (.of_trap h)

theorem old_trace {w : Word} (h1 : (oldBreak w).Takes (callTf 7 0 0))
    (h2 : (oldForked w).Takes (callTf 8 0x1001 2)) (h3 : (oldWoken w).Takes (callTf 11 0 0))
    (h4 : (oldYielded w).Takes (callTf 15 0 0)) :
    Trace (oldBreak w) askForBreak [oldForked w, oldWoken w, oldYielded w, oldAsked w] := by
  refine .cons ?_ (.cons ?_ (.cons ?_ (.cons ?_ (.nil _))))
  · unfold oldForked
    exact h1.happens
  · unfold oldWoken
    exact h2.happens
  · unfold oldYielded
    exact h3.happens
  · unfold oldAsked
    exact h4.happens

/-- The child's first `sys_sbrk` tells it where the heap of the last occupant ended. -/
theorem break_carries_over : ∃ k k' ks ks',
    DifferInFree 1 k k' ∧ (∀ i, (k.cpus i).cpuEnv ≠ some 1) ∧
    Trace k askForBreak ks ∧ Trace k' askForBreak ks' ∧
    (ks.map fun k => (k.cpus 0).userTf.tfRegs.regEax) = [0x1001, 0, 0, 0] ∧
    (ks'.map fun k => (k.cpus 0).userTf.tfRegs.regEax) = [0x1001, 0, 0, 0x800000] := by
  have h : Trace (oldBreak 0) askForBreak _ :=
    old_trace (by decide +kernel) (by decide +kernel) (by decide +kernel) (by decide +kernel)
  have h' : Trace (oldBreak 0x800000) askForBreak _ :=
    old_trace (by decide +kernel) (by decide +kernel) (by decide +kernel) (by decide +kernel)
  refine ⟨_, _, _, _, ?_, ?_, h, h', by decide +kernel, by decide +kernel⟩
  · unfold oldBreak
    exact litter_differ (fun _ => ⟨rfl, rfl, rfl⟩) fun _ => ⟨rfl, rfl, rfl⟩
  · unfold oldBreak
    exact solo_idle

end Jos
