import Jos.Kernel.Transfer

/-!
# Messages are delivered once

Sends and receives in any order by any environments. An environment that blocks in `sys_ipc_recv`
stays blocked until one send to it succeeds, and finds the value and the sender of that send.
-/

namespace Jos

open Logic Kernel List

variable {k k' k1 k0 : Kernel} {e r : Nat} {c : Call} {tr : List IpcEvent} {value sender : Word}

/-- One call of the run: the state before it, the value it has returned if it has returned
one, and the state after it. -/
structure IpcEvent where
  before : Kernel
  call : Call
  result : Option Int
  after : Kernel

/-- The event is a send or a receive that the kernel has carried out. -/
structure IpcEvent.Valid (ev : IpcEvent) : Prop where
  sysno : ev.call.sysno = some .ipcTrySend ∨ ev.call.sysno = some .ipcRecv
  run : match ev.result with
    | some v => ev.call.run (ev.before.enter ev.call) = .ret v ev.after
    | none => ev.call.run (ev.before.enter ev.call) = .exit ev.after

/-- The event is a send to `r` that has succeeded. -/
structure IpcEvent.DeliversTo (ev : IpcEvent) (r : Nat) : Prop where
  sysno : ev.call.sysno = some .ipcTrySend
  names : Names (ev.before.enter ev.call) ev.call.a1 false r
  result : ev.result = some 0

inductive IpcRun : Kernel → List IpcEvent → Kernel → Prop where
  | nil (k : Kernel) : IpcRun k [] k
  | cons {ev : IpcEvent} {tr : List IpcEvent} {k' : Kernel} (hev : ev.Valid)
      (hrun : IpcRun ev.after tr k') : IpcRun ev.before (ev :: tr) k'

/-- What a send or a receive has done. -/
inductive IpcDone (c : Call) (k : Kernel) : Option Int → Kernel → Prop where
  | failed {v : Int} (hv : v < 0) : IpcDone c k (some v) (k.enter c)
  | sent {e : Nat} {p1 : Phys} (hno : c.sysno = some .ipcTrySend)
      (hnames : Names (k.enter c) c.a1 false e) (hrecv : (k.envs e).envIpcRecving) :
      IpcDone c k (some 0) ({ k.enter c with phys := p1 }.deliver c.caller e c.a2 c.a4)
  | blocked {k' : Kernel} (hno : c.sysno = some .ipcRecv)
      (hsched : Scheduled ((k.enter c).setEnv c.caller fun env =>
        { env with envIpcRecving := true, envIpcDstva := c.a1, envStatus := .notRunnable }) k') :
      IpcDone c k none k'

theorem Call.send_done (hno : c.sysno = some .ipcTrySend) :
    wp c.run (fun v => IpcDone c k (some v)) (fun _ => False) (k.enter c) := by
  unfold Call.run syscall
  rw [show Sysno.ofWord c.syscallno = some .ipcTrySend from hno]
  refine sysIpcTrySend_wp (fun v hv => .failed hv) fun cur e p1 hcur hnames hrecv _ => ?_
  rw [enter_curenv] at hcur
  obtain rfl := Option.some.inj hcur
  exact .sent hno hnames hrecv

theorem Call.recv_done (hno : c.sysno = some .ipcRecv) :
    wp c.run (fun v => IpcDone c k (some v)) (IpcDone c k none) (k.enter c) := by
  unfold Call.run syscall
  rw [show Sysno.ofWord c.syscallno = some .ipcRecv from hno]
  unfold sysIpcRecv
  refine wp_ite.mpr ⟨fun _ => wp_pure.mpr (.failed (by decide)), fun _ => ?_⟩
  rw [wp_bind, wp_curenv]
  intro cur hcur
  rw [enter_curenv] at hcur
  obtain rfl := Option.some.inj hcur
  rw [wp_bind, wp_setEnv, wp_bind]
  exact wp_mono schedYield_wp (fun _ _ hf => hf.elim) fun _ hk' => .blocked hno hk'

theorem IpcEvent.Valid.done {ev : IpcEvent} (h : ev.Valid) :
    IpcDone ev.call ev.before ev.result ev.after := by
  have hw : wp ev.call.run (fun v => IpcDone ev.call ev.before (some v))
      (IpcDone ev.call ev.before none) (ev.before.enter ev.call) := by
    rcases h.sysno with hno | hno
    · exact wp_mono (Call.send_done hno) (fun _ _ hd => hd) fun _ hf => hf.elim
    · exact Call.recv_done hno
  have hrun := h.run
  cases hres : ev.result with
  | none =>
    rw [hres] at hrun
    exact exit_of_wp hw hrun
  | some v =>
    rw [hres] at hrun
    exact (wp_of_ret hrun).mp hw

theorem Scheduled.blocked (h : Scheduled k k') (hb : Blocked k r) : Blocked k' r := by
  have hs := h.envs r
  refine ⟨?_, ?_⟩
  · rw [hs.field Env.envIpcRecving fun _ _ _ => rfl]
    exact hb.recving
  · rcases hs.status with hst | ⟨hready, _⟩
    · rw [hst]
      exact hb.status
    · rw [hb.status] at hready
      rcases hready with hf | hf <;> cases hf

theorem Kernel.deliver_of_ne {value perm : Word} (k : Kernel) (c : Nat) (h : r ≠ e) :
    (k.deliver c e value perm).envs r = k.envs r := k.setEnv_of_ne e _ h

theorem IpcDone.blocked_or {v : Option Int} (hb : Blocked k r) (h : IpcDone c k v k') :
    (Blocked k' r ∧ ¬(c.sysno = some .ipcTrySend ∧ Names (k.enter c) c.a1 false r ∧ v = some 0)) ∨
    ((c.sysno = some .ipcTrySend ∧ Names (k.enter c) c.a1 false r ∧ v = some 0) ∧
      (k'.envs r).envStatus = .runnable ∧ (k'.envs r).envIpcRecving = false ∧
      (k'.envs r).envIpcValue = c.a2 ∧ (k'.envs r).envIpcFrom = (k.envs c.caller).envId) := by
  cases h with
  | @failed v hv =>
    refine .inl ⟨⟨hb.recving, hb.status⟩, fun ⟨_, _, h0⟩ => ?_⟩
    cases h0
    exact absurd hv (by decide)
  | @sent e p1 hno hnames hrecv =>
    by_cases her : r = e
    · subst her
      refine .inr ⟨⟨hno, hnames, rfl⟩, ?_⟩
      unfold Kernel.deliver
      rw [setEnv_self]
      exact ⟨rfl, rfl, rfl, rfl⟩
    · refine .inl ⟨⟨?_, ?_⟩, fun ⟨_, hr, _⟩ => her (hr.unique hnames)⟩
      · rw [deliver_of_ne _ _ her]
        exact hb.recving
      · rw [deliver_of_ne _ _ her]
        exact hb.status
  | blocked hno hsched =>
    refine .inl ⟨hsched.blocked ?_, fun ⟨_, _, h0⟩ => by cases h0⟩
    by_cases hr : r = c.caller
    · subst hr
      refine ⟨?_, ?_⟩ <;> rw [setEnv_self]
    · refine ⟨?_, ?_⟩ <;> rw [setEnv_of_ne _ _ _ hr]
      · exact hb.recving
      · exact hb.status

/-- The environment `r` has taken a message and does not wait. -/
structure Holds (k : Kernel) (r : Nat) (value sender : Word) : Prop where
  recving : (k.envs r).envIpcRecving = false
  value : (k.envs r).envIpcValue = value
  sender : (k.envs r).envIpcFrom = sender

theorem Scheduled.holds (h : Scheduled k k') (hh : Holds k r value sender) :
    Holds k' r value sender := by
  have hs := h.envs r
  refine ⟨?_, ?_, ?_⟩
  · rw [hs.field Env.envIpcRecving fun _ _ _ => rfl]
    exact hh.recving
  · rw [hs.field Env.envIpcValue fun _ _ _ => rfl]
    exact hh.value
  · rw [hs.field Env.envIpcFrom fun _ _ _ => rfl]
    exact hh.sender

theorem IpcDone.holds {v : Option Int} (hh : Holds k r value sender)
    (hnot : ¬(c.sysno = some .ipcRecv ∧ c.caller = r)) (h : IpcDone c k v k') :
    Holds k' r value sender ∧
      ¬(c.sysno = some .ipcTrySend ∧ Names (k.enter c) c.a1 false r ∧ v = some 0) := by
  cases h with
  | @failed v hv =>
    refine ⟨⟨hh.recving, hh.value, hh.sender⟩, fun ⟨_, _, h0⟩ => ?_⟩
    cases h0
    exact absurd hv (by decide)
  | @sent e p1 hno hnames hrecv =>
    have her : r ≠ e := by
      rintro rfl
      rw [hh.recving] at hrecv
      cases hrecv
    refine ⟨⟨?_, ?_, ?_⟩, fun ⟨_, hr, _⟩ => her (hr.unique hnames)⟩ <;>
      rw [deliver_of_ne _ _ her]
    · exact hh.recving
    · exact hh.value
    · exact hh.sender
  | blocked hno hsched =>
    have hr : r ≠ c.caller := fun hr => hnot ⟨hno, hr.symm⟩
    refine ⟨hsched.holds ⟨?_, ?_, ?_⟩, fun ⟨_, _, h0⟩ => by cases h0⟩ <;>
      rw [setEnv_of_ne _ _ _ hr]
    · exact hh.recving
    · exact hh.value
    · exact hh.sender

theorem IpcRun.holds (hrun : IpcRun k tr k') (hh : Holds k r value sender)
    (hnot : ∀ ev ∈ tr, ¬(ev.call.sysno = some .ipcRecv ∧ ev.call.caller = r)) :
    Holds k' r value sender ∧ ∀ ev ∈ tr, ¬ev.DeliversTo r := by
  induction hrun with
  | nil k => exact ⟨hh, fun ev hev => by cases hev⟩
  | @cons ev tr k' hev _ ih =>
    obtain ⟨hh', hnone⟩ := hev.done.holds hh (hnot ev mem_cons_self)
    obtain ⟨hlast, hrest⟩ := ih hh' fun x hx => hnot x (mem_cons_of_mem _ hx)
    refine ⟨hlast, fun x hx => ?_⟩
    rcases mem_cons.mp hx with rfl | hx
    · exact fun hd => hnone ⟨hd.sysno, hd.names, hd.result⟩
    · exact hrest x hx

/-- The message of the event `ev`, which ends the wait of `r`, is the first one of the run. -/
structure FirstDelivery (r : Nat) (before : List IpcEvent) (ev : IpcEvent) : Prop where
  waits : ∀ x ∈ before, Blocked x.after r ∧ ¬x.DeliversTo r
  delivers : ev.DeliversTo r
  status : (ev.after.envs r).envStatus = .runnable
  holds : Holds ev.after r ev.call.a2 (ev.before.envs ev.call.caller).envId

theorem IpcRun.first_delivery (hrun : IpcRun k tr k') (hb : Blocked k r) :
    (Blocked k' r ∧ ∀ ev ∈ tr, ¬ev.DeliversTo r) ∨
    ∃ tr1 ev tr2, tr = tr1 ++ ev :: tr2 ∧ FirstDelivery r tr1 ev ∧ IpcRun ev.after tr2 k' := by
  induction hrun with
  | nil k => exact .inl ⟨hb, fun ev hev => by cases hev⟩
  | @cons ev tr k' hev hrun ih =>
    rcases hev.done.blocked_or hb with ⟨hb', hnone⟩ | ⟨⟨hno, hnames, hres⟩, hst, hrecv, hval, hfrom⟩
    · have hnot : ¬ev.DeliversTo r := fun hd => hnone ⟨hd.sysno, hd.names, hd.result⟩
      rcases ih hb' with ⟨hlast, hrest⟩ | ⟨tr1, x, tr2, rfl, hfirst, hrun2⟩
      · refine .inl ⟨hlast, fun x hx => ?_⟩
        rcases mem_cons.mp hx with rfl | hx
        · exact hnot
        · exact hrest x hx
      · refine .inr ⟨ev :: tr1, x, tr2, rfl, ⟨fun y hy => ?_, hfirst.delivers, hfirst.status,
          hfirst.holds⟩, hrun2⟩
        rcases mem_cons.mp hy with rfl | hy
        · exact ⟨hb', hnot⟩
        · exact hfirst.waits y hy
    · exact .inr ⟨[], ev, tr, rfl, ⟨fun x hx => (by cases hx), ⟨hno, hnames, hres⟩, hst,
        ⟨hrecv, hval, hfrom⟩⟩, hrun⟩

theorem Call.recv_blocks (hno : c.sysno = some .ipcRecv)
    (hrun : c.run (k.enter c) = .exit k') : Blocked k' c.caller := by
  have hd := exit_of_wp (Call.recv_done hno) hrun
  cases hd with
  | blocked _ hsched =>
    apply hsched.blocked
    refine ⟨?_, ?_⟩ <;> rw [setEnv_self]

/-- After an environment has blocked in `sys_ipc_recv`, a run of sends and receives leaves it
blocked, or the first send to it that succeeds makes it runnable, with the value and the sender of
that send. These stay until it receives again. A send that fails changes nothing. -/
theorem ipc_delivers_once {tr : List IpcEvent} (hno : c.sysno = some .ipcRecv)
    (hblock : c.run (k0.enter c) = .exit k1) (hrun : IpcRun k1 tr k') :
    ((Blocked k' c.caller ∧ ∀ ev ∈ tr, ¬ev.DeliversTo c.caller) ∨
      ∃ tr1 ev tr2, tr = tr1 ++ ev :: tr2 ∧ FirstDelivery c.caller tr1 ev ∧
        ((∀ x ∈ tr2, ¬(x.call.sysno = some .ipcRecv ∧ x.call.caller = c.caller)) →
          Holds k' c.caller ev.call.a2 (ev.before.envs ev.call.caller).envId ∧
            ∀ x ∈ tr2, ¬x.DeliversTo c.caller)) ∧
    ∀ k2 k3 envid value srcva perm v,
      sysIpcTrySend envid value srcva perm k2 = .ret v k3 → v < 0 → k3 = k2 := by
  refine ⟨?_, ?_⟩
  · rcases hrun.first_delivery (Call.recv_blocks hno hblock) with h | ⟨tr1, ev, tr2, htr, hf, hrun2⟩
    · exact .inl h
    · exact .inr ⟨tr1, ev, tr2, htr, hf, hrun2.holds hf.holds⟩
  · intro k2 k3 envid value srcva perm v hsend hv
    have hw : wp (sysIpcTrySend envid value srcva perm) (fun v k3 => v < 0 → k3 = k2)
        (fun _ => True) k2 :=
      sysIpcTrySend_wp (fun _ _ _ => rfl) fun _ _ _ _ _ _ _ h0 => absurd h0 (by decide)
    exact (wp_of_ret hsend).mp hw hv

/-- The environment in slot 1 of the pair sends a page to slot 0. -/
def Call.sendPage : Call := ⟨0, 1, 12, 0x1000, 5, 0x800000, 7, 0⟩

/-- Slot 0 waits, and a send from slot 1 ends the wait. -/
theorem ipc_delivers_once_pair : ∃ k1 ev, (Call.recv 0 0xa00000).run
      (pair.enter (.recv 0 0xa00000)) = .exit k1 ∧ IpcRun k1 [ev] ev.after ∧
    FirstDelivery 0 [] ev ∧ Holds ev.after 0 5 0x1001 := by
  have hleave : ((Call.recv 0 0xa00000).run (pair.enter (.recv 0 0xa00000))).leaves := by
    decide +kernel
  have hblock := Outcome.exit_of_leaves hleave pair
  generalize hk1 : ((Call.recv 0 0xa00000).run (pair.enter (.recv 0 0xa00000))).after pair = k1
    at hblock
  have hret : (Call.sendPage.run (k1.enter .sendPage)).returns (· = 0) := by
    rw [← hk1]
    decide +kernel
  have hrun := Outcome.eq_ret pair hret
  have hvalid : IpcEvent.Valid ⟨k1, .sendPage, some 0, _⟩ := ⟨.inl rfl, hrun⟩
  have hone := IpcRun.cons hvalid (.nil _)
  have hid : (k1.envs 1).envId = 0x1001 := by
    rw [← hk1]
    decide +kernel
  rcases (ipc_delivers_once rfl hblock hone).1 with ⟨_, hnone⟩ | ⟨tr1, ev, tr2, htr, hf, hkeep⟩
  · have hnames : Names (k1.enter .sendPage) 0x1000 false 0 := by
      rw [← hk1]
      exact .inr ⟨by decide, rfl, by decide +kernel, by decide +kernel, fun hf => by cases hf⟩
    exact absurd ⟨rfl, hnames, rfl⟩ (hnone _ mem_cons_self)
  · have hnil : tr1 = [] := by
      cases tr1 with
      | nil => rfl
      | cons x tr1 => simp at htr
    subst hnil
    obtain ⟨rfl, rfl⟩ : _ = ev ∧ [] = tr2 := by simpa using htr
    have hholds := hf.holds
    rw [show (k1.envs Call.sendPage.caller).envId = 0x1001 from hid] at hholds
    exact ⟨k1, _, hblock, hone, hf, hholds⟩

end Jos
