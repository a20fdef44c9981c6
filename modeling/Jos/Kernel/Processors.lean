import Jos.Kernel.Machine
import Jos.Kernel.Spaces

/-!
# Environments and processors

`Orderly` holds while no processor is in the kernel: a processor in user mode has a current
environment that runs or has been marked, no two share one, and the free list and the history fit
the table. `Inside` is what is left of it while one processor executes kernel code, and the
scheduler restores `Orderly`.
-/

namespace Jos

open Function

variable {k k' k1 : Kernel} {e d q i j : Nat} {parentId : Word}

theorem envx_nextEnvId (old : Word) (he : e < nenv) : envx (nextEnvId old e) = e := by
  have hgen : ∀ g : Word, g &&& 0x3ff = 0 → envx (g ||| toWord e) = e := by
    intro g hg
    unfold envx nenv at *
    have hlow : (g ||| toWord e) &&& 0x3ff = toWord e &&& 0x3ff := by
      rw [BitVec.and_comm, BitVec.and_or_distrib_left, BitVec.and_comm _ g, hg, BitVec.and_comm]
      exact BitVec.zero_or
    rw [hlow, BitVec.toNat_and, BitVec.toNat_ofNat]
    change e % 4294967296 &&& 1023 = e
    rw [Nat.mod_eq_of_lt (by omega), Nat.and_two_pow_sub_one_eq_mod (n := 10)]
    omega
  unfold nextEnvId
  apply hgen
  split
  · decide
  · rw [BitVec.and_assoc]
    have hmask : ~~~(0x3ff : Word) &&& 0x3ff = 0 := by decide
    rw [hmask]
    exact BitVec.and_zero

def EnvEvent.slot : EnvEvent → Nat
  | .alloc e => e
  | .free _ e => e

/-- In the history `log`, allocations of the slot `e` and calls of `env_free` for it take
turns, and an allocation comes first. The flag says whether the last one is still in
force. -/
inductive Lifetimes (e : Nat) : List EnvEvent → Bool → Prop where
  | nil : Lifetimes e [] false
  | alloc {log : List EnvEvent} (h : Lifetimes e log false) :
      Lifetimes e (log ++ [.alloc e]) true
  | free {log : List EnvEvent} (cpu : Nat) (h : Lifetimes e log true) :
      Lifetimes e (log ++ [.free cpu e]) false
  | other {log : List EnvEvent} {ev : EnvEvent} {b : Bool} (hne : ev.slot ≠ e)
      (h : Lifetimes e log b) : Lifetimes e (log ++ [ev]) b

/-- The status of an environment that some processor runs. -/
def EnvStatus.OnCpu (s : EnvStatus) : Prop := s = .running ∨ s = .dying

/-- The processor `i` is outside the kernel, in user mode or not. -/
def Settled (k : Kernel) (i : Nat) : Prop :=
  match (k.cpus i).cpuEnv with
  | none => (k.cpus i).mode = .boot ∨ (k.cpus i).mode = .halt
  | some e => (k.cpus i).mode = .user ∧ (k.envs e).envStatus.OnCpu

/-- The part of the invariant that holds in every state, inside the kernel and outside. -/
structure Ordered (k : Kernel) : Prop where
  freeSlots : FreeSlots k
  ids : ∀ {e}, k.Live e → envx (k.envs e).envId = e
  lifetimes : ∀ e < nenv, Lifetimes e k.envLog (decide (k.Live e))
  live : ∀ {i e}, (k.cpus i).cpuEnv = some e → k.Live e
  distinct : ∀ {i j e}, (k.cpus i).cpuEnv = some e → (k.cpus j).cpuEnv = some e → i = j
  absent : ∀ i, ncpu ≤ i → (k.cpus i).cpuEnv = none

/-- No processor is in the kernel, except for good in its monitor. -/
structure Orderly (k : Kernel) : Prop extends Ordered k where
  settled : ∀ i, Settled k i ∨ i < ncpu ∧ (k.cpus i).mode = .monitor

/-- One processor is in the kernel. The search of the scheduler reads the memory behind
the table if the last slot is the current one, and must find nothing there. -/
structure Inside (k : Kernel) : Prop extends Ordered k where
  cpu : k.cpunum < ncpu
  others : ∀ i, i ≠ k.cpunum → Settled k i
  tail : k.curenv = some (nenv - 1) → (k.envs nenv).envStatus ≠ .runnable

theorem Settled.onCpu (h : Settled k i) (he : (k.cpus i).cpuEnv = some e) :
    (k.envs e).envStatus.OnCpu := by
  unfold Settled at h
  rw [he] at h
  exact h.2

theorem Settled.congr (h : Settled k i) (henv : (k'.cpus i).cpuEnv = (k.cpus i).cpuEnv)
    (hmode : (k'.cpus i).mode = (k.cpus i).mode)
    (hst : ∀ e, (k.cpus i).cpuEnv = some e → (k'.envs e).envStatus.OnCpu) : Settled k' i := by
  unfold Settled at h ⊢
  rw [henv, hmode]
  cases he : (k.cpus i).cpuEnv with
  | none =>
    rw [he] at h
    exact h
  | some e =>
    rw [he] at h
    exact ⟨h.1, hst e he⟩

/-- The same environments, under the same identifiers, are current on the processors. -/
structure Steady (k k' : Kernel) : Prop where
  slots : SameSlots k k'
  ids : ∀ e < nenv, (k'.envs e).envId = (k.envs e).envId
  envLog : k'.envLog = k.envLog
  cpunum : k'.cpunum = k.cpunum
  cpuEnv : ∀ i, (k'.cpus i).cpuEnv = (k.cpus i).cpuEnv
  mode : ∀ i, i ≠ k.cpunum → (k'.cpus i).mode = (k.cpus i).mode
  tail : (k'.envs nenv).envStatus = (k.envs nenv).envStatus

theorem Steady.curenv (h : Steady k k') : k'.curenv = k.curenv := by
  unfold Kernel.curenv
  rw [h.cpunum, h.cpuEnv]

theorem Steady.trans (h : Steady k k1) (h' : Steady k1 k') : Steady k k' where
  slots := h.slots.trans h'.slots
  ids e he := (h'.ids e he).trans (h.ids e he)
  envLog := h'.envLog.trans h.envLog
  cpunum := h'.cpunum.trans h.cpunum
  cpuEnv i := (h'.cpuEnv i).trans (h.cpuEnv i)
  mode i hi := (h'.mode i (h.cpunum.symm ▸ hi)).trans (h.mode i hi)
  tail := h'.tail.trans h.tail

theorem Ordered.steady (h : Ordered k) (hs : Steady k k') : Ordered k' where
  freeSlots := hs.slots.freeSlots h.freeSlots
  ids := by
    intro e he
    rw [hs.ids e he.1]
    exact h.ids (hs.slots.live_iff.mp he)
  lifetimes := by
    intro e he
    rw [hs.envLog, decide_eq_decide.mpr hs.slots.live_iff]
    exact h.lifetimes e he
  live := by
    intro i e he
    rw [hs.cpuEnv] at he
    exact hs.slots.live_iff.mpr (h.live he)
  distinct := by
    intro i j e hi hj
    rw [hs.cpuEnv] at hi hj
    exact h.distinct hi hj
  absent i hi := (hs.cpuEnv i).trans (h.absent i hi)

theorem SameEnvs.steady (h : SameEnvs k k') : Steady k k' where
  slots := .of_sameEnvs h
  ids e _ := by rw [h.envs]
  envLog := h.envLog
  cpunum := h.cpunum
  cpuEnv i := by rw [h.cpus]
  mode i _ := by rw [h.cpus]
  tail := by rw [h.envs]

theorem Kernel.setCpu_steady (k : Kernel) {f : Cpu → Cpu} (hf : ∀ c, (f c).cpuEnv = c.cpuEnv) :
    Steady k (k.setCpu f) where
  slots := k.setCpu_sameSlots f
  ids _ _ := rfl
  envLog := rfl
  cpunum := rfl
  cpuEnv i := by
    by_cases hi : i = k.cpunum
    · rw [hi, Kernel.setCpu_self, hf]
    · rw [k.setCpu_of_ne f hi]
  mode i hi := by rw [k.setCpu_of_ne f hi]
  tail := rfl

theorem Kernel.setEnv_steady {f : Env → Env} (he : e < nenv)
    (hp : (f (k.envs e)).envPgdir = (k.envs e).envPgdir)
    (hl : (f (k.envs e)).envLink = (k.envs e).envLink)
    (hid : (f (k.envs e)).envId = (k.envs e).envId)
    (hs : (f (k.envs e)).envStatus = .free ↔ (k.envs e).envStatus = .free) :
    Steady k (k.setEnv e f) where
  slots := Kernel.setEnv_sameSlots hp hl hs
  ids x _ := k.setEnv_field e f Env.envId hid x
  envLog := rfl
  cpunum := rfl
  cpuEnv _ := rfl
  mode _ _ := rfl
  tail := by rw [k.setEnv_of_ne e f (by omega)]

theorem pick_lt (hcur : ∀ c, k.curenv = some c → c < nenv ∧ envx (k.envs c).envId = c)
    (htail : k.curenv = some (nenv - 1) → (k.envs nenv).envStatus ≠ .runnable)
    (hpick : k.pick = some e) : e < nenv := by
  obtain ⟨hrun, he⟩ := pick_spec hpick
  rcases he with rfl | he
  · unfold Kernel.schedStart at hrun ⊢
    cases hc : k.curenv with
    | none => exact Nat.zero_lt_succ _
    | some c =>
      obtain ⟨hlt, hid⟩ := hcur c hc
      rw [hc] at hrun
      simp only [hid] at hrun ⊢
      by_contra hge
      obtain rfl : c = nenv - 1 := by omega
      exact htail hc hrun
  · exact he

section

variable (h : Inside k)

include h

theorem Inside.steady (hs : Steady k k')
    (hst : ∀ i e, i ≠ k.cpunum → (k.cpus i).cpuEnv = some e → (k'.envs e).envStatus.OnCpu) :
    Inside k' where
  toOrdered := h.toOrdered.steady hs
  cpu := hs.cpunum.symm ▸ h.cpu
  others := by
    intro i hi
    rw [hs.cpunum] at hi
    exact (h.others i hi).congr (hs.cpuEnv i) (hs.mode i hi) fun e he => hst i e hi he
  tail := by
    rw [hs.curenv, hs.tail]
    exact h.tail

theorem Inside.sameEnvs (hs : SameEnvs k k') : Inside k' := by
  refine h.steady hs.steady fun i e hi he => ?_
  rw [hs.envs]
  exact (h.others i hi).onCpu he

theorem Inside.setCpu {f : Cpu → Cpu} (hf : ∀ c, (f c).cpuEnv = c.cpuEnv) : Inside (k.setCpu f) :=
  h.steady (k.setCpu_steady hf) fun i _ hi he => (h.others i hi).onCpu he

theorem Inside.setEnv {f : Env → Env} (he : e < nenv)
    (hf : ∀ env, (f env).envPgdir = env.envPgdir ∧ (f env).envLink = env.envLink ∧
      (f env).envId = env.envId ∧ (f env).envStatus = env.envStatus) :
    Inside (k.setEnv e f) := by
  obtain ⟨hp, hl, hid, hst⟩ := hf (k.envs e)
  refine h.steady (Kernel.setEnv_steady he hp hl hid (by rw [hst])) fun i x hi hx => ?_
  rw [k.setEnv_field e f Env.envStatus hst]
  exact (h.others i hi).onCpu hx

theorem Inside.setStatus {f : Env → Env} (he : k.Live e)
    (hp : (f (k.envs e)).envPgdir = (k.envs e).envPgdir)
    (hl : (f (k.envs e)).envLink = (k.envs e).envLink)
    (hid : (f (k.envs e)).envId = (k.envs e).envId) (hs : (f (k.envs e)).envStatus ≠ .free)
    (hother : ∀ i, i ≠ k.cpunum → (k.cpus i).cpuEnv ≠ some e) : Inside (k.setEnv e f) := by
  refine h.steady (Kernel.setEnv_steady he.1 hp hl hid ?_) fun i x hi hx => ?_
  · exact ⟨fun hf => absurd hf hs, fun hf => absurd hf he.2⟩
  · rw [k.setEnv_of_ne e f fun hxe => hother i hi (hxe ▸ hx)]
    exact (h.others i hi).onCpu hx

theorem Inside.allocated (ha : EnvAllocated k parentId e q k') : Inside k' := by
  obtain ⟨hlt, hfree⟩ := h.freeSlots.head ha.head
  have hne : ∀ {i x}, (k.cpus i).cpuEnv = some x → x ≠ e := fun hx hc => (h.live hx).2 (hc ▸ hfree)
  have hlive : ∀ {x}, k'.Live x ↔ x = e ∨ k.Live x := ha.live_iff hlt
  refine ⟨⟨ha.freeSlots h.freeSlots, ?_, ?_, ?_, ?_, ?_⟩, ha.cpunum.symm ▸ h.cpu, ?_, ?_⟩
  · intro x hx
    by_cases hxe : x = e
    · rw [hxe, ha.entry]
      exact envx_nextEnvId _ hlt
    · rw [ha.other x hxe]
      exact h.ids ((hlive.mp hx).resolve_left hxe)
  · intro x hx
    have hold := h.lifetimes x hx
    rw [ha.envLog]
    by_cases hxe : x = e
    · subst hxe
      rw [decide_eq_false fun hl : k.Live x => hl.2 hfree] at hold
      rw [decide_eq_true (hlive.mpr (.inl rfl))]
      exact .alloc hold
    · have hsame : decide (k'.Live x) = decide (k.Live x) :=
        decide_eq_decide.mpr (hlive.trans (or_iff_right hxe))
      rw [hsame]
      exact .other (fun hc => hxe hc.symm) hold
  · intro i x hx
    rw [ha.cpus] at hx
    exact hlive.mpr (.inr (h.live hx))
  · intro i j x hi hj
    rw [ha.cpus] at hi hj
    exact h.distinct hi hj
  · rw [ha.cpus]
    exact h.absent
  · intro i hi
    rw [ha.cpunum] at hi
    refine (h.others i hi).congr (by rw [ha.cpus]) (by rw [ha.cpus]) fun x hx => ?_
    rw [ha.other x (hne hx)]
    exact (h.others i hi).onCpu hx
  · rw [show k'.curenv = k.curenv by unfold Kernel.curenv; rw [ha.cpus, ha.cpunum],
      ha.other nenv (by omega)]
    exact h.tail

theorem Inside.freed (hf : EnvFreed k e d k1) (he : k.Live e)
    (hother : ∀ i, i ≠ k.cpunum → (k.cpus i).cpuEnv ≠ some e) {g : Cpu → Cpu}
    (hg : ∀ x, (g (k1.cpus k.cpunum)).cpuEnv = some x → k.curenv = some x ∧ x ≠ e) :
    Inside (k1.setCpu g) := by
  have hlive : ∀ {x}, k1.Live x ↔ x ≠ e ∧ k.Live x := hf.live_iff
  -- Every current environment was current before and is not `e`.
  have hcpu : ∀ {i x}, ((k1.setCpu g).cpus i).cpuEnv = some x →
      (k.cpus i).cpuEnv = some x ∧ x ≠ e := by
    intro i x hx
    by_cases hi : i = k.cpunum
    · subst hi
      rw [← hf.cpunum, Kernel.setCpu_self, hf.cpunum] at hx
      exact hg x hx
    · rw [Kernel.setCpu_of_ne k1 g (hf.cpunum.symm ▸ hi), hf.cpus i hi] at hx
      exact ⟨hx, fun hc => hother i hi (hc ▸ hx)⟩
  refine ⟨⟨hf.freeSlots h.freeSlots he, ?_, ?_, ?_, ?_, ?_⟩, hf.cpunum.symm ▸ h.cpu, ?_, ?_⟩
  · intro x hx
    obtain ⟨hne, hx⟩ := hlive.mp hx
    change envx (k1.envs x).envId = x
    rw [hf.other x hne]
    exact h.ids hx
  · intro x hx
    have hold := h.lifetimes x hx
    change Lifetimes x k1.envLog (decide (k1.Live x))
    rw [hf.envLog]
    by_cases hxe : x = e
    · subst hxe
      rw [decide_eq_true he] at hold
      rw [decide_eq_false fun hl : k1.Live x => (hlive.mp hl).1 rfl]
      exact .free _ hold
    · have hsame : decide (k1.Live x) = decide (k.Live x) :=
        decide_eq_decide.mpr (hlive.trans (and_iff_right hxe))
      rw [hsame]
      exact .other (fun hc => hxe hc.symm) hold
  · intro i x hx
    obtain ⟨hx, hne⟩ := hcpu hx
    exact hlive.mpr ⟨hne, h.live hx⟩
  · exact fun hi hj => h.distinct (hcpu hi).1 (hcpu hj).1
  · intro i hi
    cases hx : ((k1.setCpu g).cpus i).cpuEnv with
    | none => rfl
    | some x => exact absurd ((h.absent i hi).symm.trans (hcpu hx).1) (Option.some_ne_none x).symm
  · intro i hi
    have hi : i ≠ k.cpunum := hf.cpunum ▸ hi
    have hsame := (k1.setCpu_of_ne g (hf.cpunum.symm ▸ hi)).trans (hf.cpus i hi)
    refine (h.others i hi).congr (by rw [hsame]) (by rw [hsame]) fun x hx => ?_
    change (k1.envs x).envStatus.OnCpu
    rw [hf.other x fun hc => hother i hi (hc ▸ hx)]
    exact (h.others i hi).onCpu hx
  · intro hc
    have hc : ((k1.setCpu g).cpus k.cpunum).cpuEnv = some (nenv - 1) := by
      rw [← hf.cpunum]
      exact hc
    change (k1.envs nenv).envStatus ≠ .runnable
    rw [hf.other nenv fun hne => absurd he.1 (by omega)]
    exact h.tail (hcpu hc).1

theorem Inside.freed_self (hf : EnvFreed k e d k1) (hcur : k.curenv = some e) :
    Inside (k1.setCpu fun c => { c with cpuEnv := none }) := by
  refine h.freed hf (h.live hcur) (fun i hi hc => hi (h.distinct hc hcur)) fun x hx => ?_
  cases hx

theorem Inside.pick_ne (hcur : k.curenv = some e) (hx : (k.envs e).envStatus = .runnable →
      ∃ x ∈ scanFrom nenv (e + 1), x ≠ e ∧ (k.envs x).envStatus = .runnable) :
    k.pick ≠ some e := by
  intro hpick
  have hlt : e < nenv := (h.live hcur).1
  have hstart : k.schedStart = e + 1 := by
    unfold Kernel.schedStart
    rw [hcur]
    exact congrArg (· + 1) (h.ids (h.live hcur))
  -- The search comes to `e` in its last round only.
  have hscan : scanFrom nenv (e + 1) = scanFrom (nenv - 1) (e + 1) ++ [e] := by
    have hlast : (e + 1 + (nenv - 1)) % nenv = e := by
      unfold nenv at *
      omega
    have := scanFrom_succ (nenv - 1) (e + 1) (by decide)
    rwa [hlast] at this
  have hnot : e ∉ scanFrom (nenv - 1) (e + 1) := by
    intro hm
    rcases mem_scanFrom hm with hm | ⟨j, _, _, hm⟩
    · omega
    · unfold nenv at *
      omega
  obtain ⟨x, hmem, hne, hrun⟩ := hx (pick_spec hpick).1
  rw [hscan, List.mem_append, List.mem_singleton] at hmem
  have hmem := hmem.resolve_right hne
  unfold Kernel.pick at hpick
  rw [hstart, hscan, List.find?_append] at hpick
  cases hfind : (scanFrom (nenv - 1) (e + 1)).find? fun i => (k.envs i).envStatus = .runnable with
  | none =>
    have := List.find?_eq_none.mp hfind x hmem
    simp [hrun] at this
  | some y =>
    rw [hfind, Option.some_or] at hpick
    obtain rfl := Option.some.inj hpick
    exact hnot (List.mem_of_find?_eq_some hfind)

theorem Inside.pick_lt (hpick : k.pick = some e) : e < nenv :=
  Jos.pick_lt (fun _ hc => ⟨(h.live hc).1, h.ids (h.live hc)⟩) h.tail hpick

end

theorem Kernel.resume_status (k : Kernel) (e x : Nat) :
    ((k.resume e).envs x).envStatus = (k.envs x).envStatus := by
  unfold Kernel.resume
  rw [Kernel.setCpu_envs]
  exact k.setEnv_field e _ Env.envStatus rfl x

theorem Kernel.switch_status (k : Kernel) {e x : Nat} (d : Nat) (hx : x ≠ e)
    (hcur : k.curenv ≠ some x) :
    (((k.switchTo e d).resume e).envs x).envStatus = (k.envs x).envStatus := by
  rw [Kernel.resume_status]
  unfold Kernel.switchTo
  rw [Kernel.setCpu_envs, Kernel.setEnv_of_ne _ _ _ hx, Kernel.setEnv_of_ne _ _ _ hx,
    Kernel.setCpu_envs]
  unfold Kernel.preempt
  split
  · rfl
  · next c hc =>
    have hxc : x ≠ c := fun hxc => hcur (hxc ▸ hc)
    split
    · rw [Kernel.setEnv_of_ne _ _ _ hxc]
    · rfl

theorem Kernel.switch_cpu (k : Kernel) (e d : Nat) :
    (((k.switchTo e d).resume e).cpus k.cpunum).cpuEnv = some e ∧
      (((k.switchTo e d).resume e).cpus k.cpunum).mode = .user ∧
      (((k.switchTo e d).resume e).envs e).envStatus = .running := by
  have hnum := (k.switchTo_elsewhere e d).cpunum
  have hcpu : ((k.switchTo e d).cpus k.cpunum).cpuEnv = some e := by
    have hpre := k.preempt_elsewhere.cpunum
    unfold Kernel.switchTo
    simp only [Kernel.setCpu, Kernel.setEnv, hpre, update_self]
  refine ⟨?_, ?_, ?_⟩
  · unfold Kernel.resume
    simp only [Kernel.setCpu, Kernel.setEnv, hnum, update_self, hcpu]
  · unfold Kernel.resume
    simp only [Kernel.setCpu, Kernel.setEnv, hnum, update_self]
  · rw [Kernel.resume_status]
    unfold Kernel.switchTo
    simp only [Kernel.setCpu_envs, Kernel.setEnv_self]

theorem Ordered.scheduled (h : Ordered k) (hs : Scheduled k k') (hnum : k.cpunum < ncpu)
    (hcpu : ∀ x, (k'.cpus k.cpunum).cpuEnv = some x →
      k.Live x ∧ ∀ i, i ≠ k.cpunum → (k.cpus i).cpuEnv ≠ some x) : Ordered k' := by
  have helse := hs.elsewhere
  have hlive : ∀ {x}, k'.Live x ↔ k.Live x := hs.sameSlots.live_iff
  refine ⟨hs.sameSlots.freeSlots h.freeSlots, ?_, ?_, ?_, ?_, fun i hi => ?_⟩
  · intro e he
    rw [(hs.envs e).field Env.envId fun _ _ _ => rfl]
    exact h.ids (hlive.mp he)
  · intro e he
    rw [helse.envLog, decide_eq_decide.mpr hlive]
    exact h.lifetimes e he
  · intro i e he
    by_cases hi : i = k.cpunum
    · exact hlive.mpr (hcpu e (hi ▸ he)).1
    · rw [helse.cpus i hi] at he
      exact hlive.mpr (h.live he)
  · intro i j e hei hej
    by_cases hi : i = k.cpunum
    · by_cases hj : j = k.cpunum
      · rw [hi, hj]
      · rw [helse.cpus j hj] at hej
        exact absurd hej ((hcpu e (hi ▸ hei)).2 j hj)
    · rw [helse.cpus i hi] at hei
      by_cases hj : j = k.cpunum
      · exact absurd hei ((hcpu e (hj ▸ hej)).2 i hi)
      · rw [helse.cpus j hj] at hej
        exact h.distinct hei hej
  · rw [helse.cpus i (by omega)]
    exact h.absent i hi

theorem Inside.leave (h : Inside k) (hs : Settled k k.cpunum) : Orderly k := by
  refine ⟨h.toOrdered, fun i => .inl ?_⟩
  by_cases hi : i = k.cpunum
  · rw [hi]
    exact hs
  · exact h.others i hi

theorem Inside.resume (h : Inside k) (hcur : k.curenv = some e)
    (hrun : (k.envs e).envStatus = .running) : Orderly (k.resume e) := by
  have hset := h.setEnv (f := fun env => { env with envCpunum := k.cpunum }) (h.live hcur).1
    fun _ => ⟨rfl, rfl, rfl, rfl⟩
  have hin : Inside (k.resume e) := hset.setCpu fun _ => rfl
  refine hin.leave ?_
  change Settled (k.resume e) k.cpunum
  unfold Settled
  rw [k.resume_cpu e, show (k.cpus k.cpunum).cpuEnv = some e from hcur]
  exact ⟨rfl, .inl ((k.resume_status e e).trans hrun)⟩

theorem Inside.monitored (h : Inside k) : Orderly k.monitored := by
  have hin : Inside k.monitored := h.setCpu fun _ => rfl
  refine ⟨hin.toOrdered, fun i => ?_⟩
  by_cases hi : i = k.cpunum
  · subst hi
    exact .inr ⟨h.cpu, by simp [Kernel.monitored]⟩
  · exact .inl (hin.others i hi)

theorem Inside.scheduled (h : Inside k) (hs : Scheduled k k')
    (hx : ∀ e, k.curenv = some e → (k.envs e).envStatus = .runnable →
      ∃ x ∈ scanFrom nenv (e + 1), x ≠ e ∧ (k.envs x).envStatus = .runnable) : Orderly k' := by
  have hother : ∀ {x}, (k.envs x).envStatus = .runnable →
      ∀ i, i ≠ k.cpunum → (k.cpus i).cpuEnv ≠ some x := by
    intro x hrun i hi hc
    have := (h.others i hi).onCpu hc
    rw [hrun] at this
    rcases this with hf | hf <;> cases hf
  have hs0 := hs
  cases hs with
  | again hcur hpick => exact absurd hpick (h.pick_ne hcur (hx _ hcur))
  | idle hcur hpick hrun => exact h.resume hcur hrun
  | @switch e d hcur hpick hd =>
    have hrun := (pick_spec hpick).1
    have hlive : k.Live e := ⟨h.pick_lt hpick, by rw [hrun]; exact fun hf => by cases hf⟩
    obtain ⟨hcpu, hmode, hst⟩ := k.switch_cpu e d
    refine ⟨h.toOrdered.scheduled hs0 h.cpu fun x hxe => ?_, fun i => .inl ?_⟩
    · obtain rfl : e = x := Option.some.inj (hcpu.symm.trans hxe)
      exact ⟨hlive, hother hrun⟩
    · by_cases hi : i = k.cpunum
      · subst hi
        unfold Settled
        rw [hcpu]
        exact ⟨hmode, .inl hst⟩
      · have hsame := hs0.elsewhere.cpus i hi
        refine (h.others i hi).congr (by rw [hsame]) (by rw [hsame]) fun x hxi => ?_
        have hne : x ≠ e := by
          rintro rfl
          exact hother hrun i hi hxi
        rw [k.switch_status d hne fun hc => hi (h.distinct hxi hc)]
        exact (h.others i hi).onCpu hxi
  | halt =>
    have hcpu : (k.halted.cpus k.cpunum).cpuEnv = none ∧ (k.halted.cpus k.cpunum).mode = .halt := by
      simp [Kernel.halted, Kernel.setCpu]
    refine ⟨h.toOrdered.scheduled hs0 h.cpu fun x hxe => ?_, fun i => .inl ?_⟩
    · rw [hcpu.1] at hxe
      cases hxe
    · by_cases hi : i = k.cpunum
      · subst hi
        unfold Settled
        rw [hcpu.1]
        exact .inr hcpu.2
      · have hsame := hs0.elsewhere.cpus i hi
        exact (h.others i hi).congr (by rw [hsame]) (by rw [hsame])
          fun x hxi => (h.others i hi).onCpu hxi
  | monitor => exact h.monitored

end Jos
