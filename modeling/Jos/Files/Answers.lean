import Jos.Lib.Fsipc

/-!
# Answers of the file server

Any environment can send to one that waits, and `fsipc` does not look at the sender. So the value
is that of the server only if nobody else sends to the client while it waits. In such runs
`Outstanding` follows the one request of the client through the places of `serve`.
-/

namespace Jos

open Logic Kernel

variable {k k' : Kernel} {c : Call} {v : Option Int} {e : Nat} {E : FsEnvs} {w w' : FsWorld}
  {m : FsMove} {cpu : Nat} {r : Int} {type dstva : Word}

/-- The receiver `e` has got the message of the call `c`. -/
inductive SentTo (c : Call) (k : Kernel) (e : Nat) : Kernel → Prop where
  | mk {p1 : Phys} (hno : c.sysno = some .ipcTrySend) (hnames : Names (k.enter c) c.a1 false e)
      (hrecv : (k.envs e).envIpcRecving)
      (hsent : PageSent (k.enter c) c.caller e c.a3 c.a4 p1) :
      SentTo c k e ({ k.enter c with phys := p1 }.deliver c.caller e c.a2 c.a4)

/-- The environment `c.caller` waits for a message. -/
structure BlockedBy (c : Call) (k k' : Kernel) : Prop where
  sysno : c.sysno = some .ipcRecv
  sched : Scheduled ((k.enter c).setEnv c.caller fun env =>
    { env with envIpcRecving := true, envIpcDstva := c.a1, envStatus := .notRunnable }) k'

/-- What a send, a receive or the removal of a page has done. -/
inductive FsDone (c : Call) (k : Kernel) : Option Int → Kernel → Prop where
  | failed {r : Int} (hr : r < 0)
      (hrecv : c.sysno = some .ipcRecv → c.a1.toNat < utop ∧ pgoff c.a1 ≠ 0) :
      FsDone c k (some r) (k.enter c)
  | unmapped {r : Int} {k' : Kernel} (hno : c.sysno = some .pageUnmap)
      (h : SameEnvs (k.enter c) k') : FsDone c k (some r) k'
  | sent {e : Nat} {k' : Kernel} (h : SentTo c k e k') : FsDone c k (some 0) k'
  | blocked {k' : Kernel} (h : BlockedBy c k k') : FsDone c k none k'

theorem Call.send_fsDone (hno : c.sysno = some .ipcTrySend) :
    wp c.run (fun r => FsDone c k (some r)) (FsDone c k none) (k.enter c) := by
  unfold Call.run syscall
  rw [show Sysno.ofWord c.syscallno = some .ipcTrySend from hno]
  refine sysIpcTrySend_wp (fun r hr => .failed hr fun hf => ?_)
    fun cur e p1 hcur hnames hrecv hs => ?_
  · rw [hno] at hf
    cases hf
  · rw [enter_curenv] at hcur
    obtain rfl := Option.some.inj hcur
    exact .sent (.mk hno hnames hrecv hs)

theorem Call.recv_fsDone (hno : c.sysno = some .ipcRecv) :
    wp c.run (fun r => FsDone c k (some r)) (FsDone c k none) (k.enter c) := by
  unfold Call.run syscall
  rw [show Sysno.ofWord c.syscallno = some .ipcRecv from hno]
  refine wp_ite.mpr ⟨fun ha => ?_, fun _ => ?_⟩
  · exact wp_pure.mpr (.failed (by decide) fun _ => ha)
  · rw [wp_bind, wp_curenv]
    intro cur hcur
    rw [enter_curenv] at hcur
    obtain rfl := Option.some.inj hcur
    rw [wp_bind, wp_setEnv, wp_bind]
    exact wp_mono schedYield_wp (fun _ _ hf => hf.elim) fun _ hs => .blocked ⟨hno, hs⟩

theorem Call.unmap_fsDone (hno : c.sysno = some .pageUnmap) :
    wp c.run (fun r => FsDone c k (some r)) (FsDone c k none) (k.enter c) := by
  unfold Call.run syscall
  rw [show Sysno.ofWord c.syscallno = some .pageUnmap from hno]
  exact (sysPageUnmap_quiet c.a1 c.a2).wp fun _ _ hs => .unmapped hno hs

/-- The calls that occur in the runs. -/
def IsFsCall (c : Call) : Prop :=
  c.sysno = some .ipcTrySend ∨ c.sysno = some .ipcRecv ∨ c.sysno = some .pageUnmap

theorem IsFsCall.done (h : IsFsCall c) :
    wp c.run (fun r => FsDone c k (some r)) (FsDone c k none) (k.enter c) := by
  rcases h with hno | hno | hno
  · exact Call.send_fsDone hno
  · exact Call.recv_fsDone hno
  · exact Call.unmap_fsDone hno

/-- The fields of an environment that messages and page tables are about. -/
structure SameMail (a b : Env) : Prop where
  id : b.envId = a.envId
  pgdir : b.envPgdir = a.envPgdir
  recving : b.envIpcRecving = a.envIpcRecving
  dstva : b.envIpcDstva = a.envIpcDstva
  value : b.envIpcValue = a.envIpcValue
  sender : b.envIpcFrom = a.envIpcFrom
  perm : b.envIpcPerm = a.envIpcPerm
  free : b.envStatus = .free ↔ a.envStatus = .free

theorem SameMail.refl (a : Env) : SameMail a a := ⟨rfl, rfl, rfl, rfl, rfl, rfl, rfl, Iff.rfl⟩

theorem SchedOnly.sameMail {a b : Env} (h : SchedOnly a b) : SameMail a b :=
  ⟨h.field _ fun _ _ _ => rfl, h.field _ fun _ _ _ => rfl, h.field _ fun _ _ _ => rfl,
    h.field _ fun _ _ _ => rfl, h.field _ fun _ _ _ => rfl, h.field _ fun _ _ _ => rfl,
    h.field _ fun _ _ _ => rfl, h.free_iff⟩

theorem FsDone.sameMail_or (h : FsDone c k v k') (hne : ¬(c.sysno = some .ipcRecv ∧ c.caller = e)) :
    SameMail (k.envs e) (k'.envs e) ∨ (v = some 0 ∧ SentTo c k e k') := by
  cases h with
  | failed => exact .inl (.refl _)
  | unmapped _ hs =>
    rw [hs.envs]
    exact .inl (.refl _)
  | @sent x k' hs =>
    by_cases hx : e = x
    · subst hx
      exact .inr ⟨rfl, hs⟩
    · cases hs with
      | mk _ _ _ _ =>
        rw [deliver_of_ne _ _ hx]
        exact .inl (.refl _)
  | blocked hb =>
    have hcall : e ≠ c.caller := fun he => hne ⟨hb.sysno, he.symm⟩
    have hs := (hb.sched.envs e).sameMail
    rw [setEnv_of_ne _ _ _ hcall] at hs
    exact .inl hs

theorem FsDone.sameMail (h : FsDone c k v k') (hne : ¬(c.sysno = some .ipcRecv ∧ c.caller = e))
    (hidle : (k.envs e).envIpcRecving = false) : SameMail (k.envs e) (k'.envs e) := by
  rcases h.sameMail_or hne with hs | ⟨_, ⟨_, _, hrecv, _⟩⟩
  · exact hs
  · rw [hidle] at hrecv
    cases hrecv

/-- The message as the receiver finds it. -/
structure GotMail (c : Call) (k : Kernel) (a b : Env) : Prop where
  id : b.envId = a.envId
  pgdir : b.envPgdir = a.envPgdir
  recving : b.envIpcRecving = false
  value : b.envIpcValue = c.a2
  sender : b.envIpcFrom = (k.envs c.caller).envId
  perm : b.envIpcPerm = c.a4
  free : b.envStatus ≠ .free

theorem SentTo.gotMail (h : SentTo c k e k') : GotMail c k (k.envs e) (k'.envs e) := by
  cases h with
  | mk _ _ _ _ =>
    unfold Kernel.deliver
    rw [setEnv_self]
    exact ⟨rfl, rfl, rfl, rfl, rfl, rfl, nofun⟩

structure Waits (c : Call) (a b : Env) : Prop where
  id : b.envId = a.envId
  recving : b.envIpcRecving = true
  dstva : b.envIpcDstva = c.a1
  free : b.envStatus ≠ .free

theorem BlockedBy.waits (h : BlockedBy c k k') : Waits c (k.envs c.caller) (k'.envs c.caller) := by
  have hs := (h.sched.envs c.caller).sameMail
  rw [setEnv_self] at hs
  exact ⟨hs.id, hs.recving, hs.dstva, fun hf => nomatch hs.free.mp hf⟩

/-- The slots stay in use, with the same identifiers. -/
structure SameSlot (a b : Env) : Prop where
  id : b.envId = a.envId
  free : a.envStatus ≠ .free → b.envStatus ≠ .free

theorem FsDone.sameSlot (h : FsDone c k v k') (e : Nat) : SameSlot (k.envs e) (k'.envs e) := by
  by_cases hb : c.sysno = some .ipcRecv ∧ c.caller = e
  · obtain ⟨hno, rfl⟩ := hb
    cases h with
    | failed => exact ⟨rfl, fun hf => hf⟩
    | unmapped hno' => simp [hno] at hno'
    | sent hs =>
      cases hs with
      | mk hsend _ _ _ => simp [hno] at hsend
    | blocked hb => exact ⟨hb.waits.id, fun _ => hb.waits.free⟩
  · rcases h.sameMail_or hb with hs | ⟨_, hs⟩
    · exact ⟨hs.id, fun hf hfree => hf (hs.free.mp hfree)⟩
    · exact ⟨hs.gotMail.id, fun _ => hs.gotMail.free⟩

/-- `sys_ipc_recv` accepts what `ipc_recv` passes for this address. -/
def Receivable (dstva : Word) : Prop := dstva = 0 ∨ utop ≤ dstva.toNat ∨ pgoff dstva = 0

/-- While the client waits, no environment but the server sends to it, and `fsipc` is called with an
address that can be received at. -/
def FsWorld.Undisturbed (E : FsEnvs) (w : FsWorld) : FsMove → Prop
  | .other c => (∃ dstva, w.client = .waiting dstva) →
      ¬(c.sysno = some .ipcTrySend ∧ Names (w.k.enter c) c.a1 false E.client)
  | .fsipc _ dstva => Receivable dstva
  | _ => True

/-- The message was sent by the server, as the answer to the request `n` of the client, which had
asked for a page at `dstva`. It is the kernel that maps the page. -/
structure FsDelivery.Answers (E : FsEnvs) (d : FsDelivery) (n : Nat) (dstva : Word) : Prop where
  sender : d.call.caller = E.server
  request : d.request = some n
  dstva : (d.before.envs E.client).envIpcDstva = pageOrUtop dstva
  sent : SentTo d.call d.before E.client d.after

/-- `fsipc` has returned the answer of the server to its own request. -/
structure FsReturn.Answered (E : FsEnvs) (R : FsReturn) (d : FsDelivery) : Prop where
  delivery : R.delivery = some d
  answers : d.Answers E R.request R.dstva
  value : R.value = d.call.a2

/-- The server has the last request of the client, and it has not sent the answer. -/
def FsWorld.Outstanding (E : FsEnvs) (w : FsWorld) : Prop :=
  match w.server with
  | .waiting => (w.k.envs E.server).envIpcRecving = false ∧ w.pending = some w.requests ∧
      (w.k.envs E.server).envIpcFrom = E.clientId ∧ (w.k.envs E.server).envIpcPerm &&& pteP ≠ 0
  | .send whom _ _ _ request => whom = E.clientId ∧ request = some w.requests
  | .panicked => True
  | .recv | .unmap => False

/-- The client as it goes through `fsipc`. -/
def FsWorld.ClientOk (E : FsEnvs) (w : FsWorld) : Prop :=
  match w.client with
  | .outside | .panicked => True
  | .send _ dstva => (w.k.envs E.client).envIpcRecving = false ∧ Receivable dstva
  | .recv dstva => (w.k.envs E.client).envIpcRecving = false ∧ Receivable dstva ∧ w.Outstanding E
  | .waiting dstva =>
    ((w.k.envs E.client).envIpcRecving = true ∧ w.Outstanding E ∧
      (w.k.envs E.client).envIpcDstva = pageOrUtop dstva) ∨
    ((w.k.envs E.client).envIpcRecving = false ∧ ∃ d, w.delivery = some d ∧
      d.Answers E w.requests dstva ∧ (w.k.envs E.client).envIpcValue = d.call.a2)

structure FsWorld.Inv (E : FsEnvs) (w : FsWorld) : Prop where
  client_id : (w.k.envs E.client).envId = E.clientId
  server_idle : (w.k.envs E.server).envIpcRecving = true → w.server = .waiting
  client : w.ClientOk E
  returns : ∀ R ∈ w.returns, ∃ d, R.Answered E d

/-- What a move has done. -/
inductive FsWorld.Stepped (E : FsEnvs) (w : FsWorld) (m : FsMove) : FsWorld → Prop where
  | internal (hc : w.call E m = none) : Stepped E w m (w.internal E m)
  | returned {c : Call} {r : Int} {k' : Kernel} (hc : w.call E m = some c)
      (hrun : c.run (w.k.enter c) = .ret r k') (hd : FsDone c w.k (some r) k') :
      Stepped E w m ((w.after E m c k').returned r m)
  | left {c : Call} {k' : Kernel} (hc : w.call E m = some c)
      (hrun : c.run (w.k.enter c) = .exit k') (hd : FsDone c w.k none k') :
      Stepped E w m ((w.after E m c k').left m)
  | stopped : Stepped E w m w

/-- The call that a move makes. -/
inductive FsWorld.Makes (E : FsEnvs) (w : FsWorld) : FsMove → Call → Prop where
  | clientSend {cpu : Nat} {type dstva : Word} (hpc : w.client = .send type dstva) :
      Makes E w (.client cpu) (ipcSend cpu E.client E.fsenv type E.fsipcbuf
        (pteP ||| pteW ||| pteU))
  | clientRecv {cpu : Nat} {dstva : Word} (hpc : w.client = .recv dstva) :
      Makes E w (.client cpu) (ipcRecv cpu E.client dstva)
  | serverRecv {cpu : Nat} (hpc : w.server = .recv) :
      Makes E w (.server cpu) (ipcRecv cpu E.server fsreq)
  | serverSend {cpu : Nat} {whom value pg perm : Word} {request : Option Nat}
      (hpc : w.server = .send whom value pg perm request) :
      Makes E w (.server cpu) (ipcSend cpu E.server whom value pg perm)
  | serverUnmap {cpu : Nat} (hpc : w.server = .unmap) :
      Makes E w (.server cpu) (unmap cpu E.server fsreq)
  | other {c : Call} (hmay : w.MayCall E c) : Makes E w (.other c) c

theorem FsWorld.makes (hc : w.call E m = some c) : w.Makes E m c := by
  unfold FsWorld.call at hc
  cases m with
  | client cpu =>
    dsimp only at hc
    split at hc <;> cases hc
    · next hpc => exact .clientSend hpc
    · next hpc => exact .clientRecv hpc
  | server cpu =>
    dsimp only at hc
    split at hc <;> cases hc
    · next hpc => exact .serverRecv hpc
    · next hpc => exact .serverSend hpc
    · next hpc => exact .serverUnmap hpc
  | other c' =>
    dsimp only at hc
    split at hc <;> cases hc
    next hmay => exact .other hmay
  | fsipc => cases hc
  | serve => cases hc
  | ret => cases hc

theorem FsWorld.call_isFsCall (hc : w.call E m = some c) : IsFsCall c := by
  cases makes hc with
  | clientSend | serverSend => exact .inl rfl
  | clientRecv | serverRecv => exact .inr (.inl rfl)
  | serverUnmap => exact .inr (.inr rfl)
  | other hmay => exact hmay.2.2.1.imp_right .inl

theorem FsWorld.move_stepped (E : FsEnvs) (w : FsWorld) (m : FsMove) :
    w.Stepped E m (w.move E m) := by
  unfold FsWorld.move
  cases hc : w.call E m with
  | none => exact .internal hc
  | some c =>
    dsimp only
    have hw := (call_isFsCall hc).done (k := w.k)
    cases hrun : c.run (w.k.enter c) with
    | ret r k' => exact .returned hc hrun ((wp_of_ret hrun).mp hw)
    | exit k' => exact .left hc hrun (exit_of_wp hw hrun)
    | panic => exact .stopped

theorem SameMail.not_reached (h : SameMail (k.envs e) (k'.envs e)) :
    FsWorld.reached k k' e = false := by
  unfold FsWorld.reached
  rw [h.recving]
  cases (k.envs e).envIpcRecving <;> rfl

theorem SentTo.recving (h : SentTo c k e k') : (k.envs e).envIpcRecving = true := by
  cases h with
  | mk _ _ hrecv _ => exact hrecv

theorem SentTo.reached (h : SentTo c k e k') : FsWorld.reached k k' e = true := by
  unfold FsWorld.reached
  rw [h.recving, h.gotMail.recving]
  rfl

theorem FsWorld.after_pending (h : SameMail (w.k.envs E.server) (k'.envs E.server)) :
    (w.after E m c k').pending = w.pending := by
  unfold FsWorld.after
  rw [h.not_reached]
  rfl

theorem FsWorld.after_delivery (h : SameMail (w.k.envs E.client) (k'.envs E.client)) :
    (w.after E m c k').delivery = w.delivery := by
  unfold FsWorld.after
  rw [h.not_reached]
  rfl

theorem FsWorld.Outstanding.congr (h : w.Outstanding E) (hserver : w'.server = w.server)
    (hmail : SameMail (w.k.envs E.server) (w'.k.envs E.server)) (hp : w'.pending = w.pending)
    (hreq : w'.requests = w.requests) : w'.Outstanding E := by
  unfold FsWorld.Outstanding at h ⊢
  rw [hserver, hmail.recving, hmail.sender, hmail.perm, hp, hreq]
  exact h

theorem FsWorld.ClientOk.congr (h : w.ClientOk E) (hclient : w'.client = w.client)
    (hmail : SameMail (w.k.envs E.client) (w'.k.envs E.client)) (hd : w'.delivery = w.delivery)
    (hreq : w'.requests = w.requests) (hout : w.Outstanding E → w'.Outstanding E) :
    w'.ClientOk E := by
  unfold FsWorld.ClientOk at h ⊢
  rw [hclient, hmail.recving, hmail.dstva, hmail.value, hd, hreq]
  cases hpc : w.client with
  | outside => trivial
  | panicked => trivial
  | send type dstva =>
    rw [hpc] at h
    exact h
  | recv dstva =>
    rw [hpc] at h
    exact ⟨h.1, h.2.1, hout h.2.2⟩
  | waiting dstva =>
    rw [hpc] at h
    exact h.imp_left fun ⟨hr, ho, hdst⟩ => ⟨hr, hout ho, hdst⟩

theorem FsWorld.ClientOk.of_outside (h : w.client = .outside ∨ w.client = .panicked) :
    w.ClientOk E := by
  unfold FsWorld.ClientOk
  rcases h with h | h <;> rw [h] <;> trivial

theorem pageOrUtop_fails {dstva : Word} (h : Receivable dstva) :
    ¬((pageOrUtop dstva).toNat < utop ∧ pgoff (pageOrUtop dstva) ≠ 0) := by
  rintro ⟨hlt, hoff⟩
  unfold pageOrUtop at hlt hoff
  by_cases h0 : dstva = 0
  · rw [if_pos h0] at hlt
    exact absurd hlt (by decide)
  · rw [if_neg h0] at hlt hoff
    rcases h with h | h | h
    · exact h0 h
    · omega
    · exact hoff h

section

variable (h : w.Inv E)

include h

theorem FsWorld.Inv.outstanding_idle (ho : w.Outstanding E) :
    (w.k.envs E.server).envIpcRecving = false := by
  cases hr : (w.k.envs E.server).envIpcRecving with
  | false => rfl
  | true =>
    unfold FsWorld.Outstanding at ho
    rw [h.server_idle hr] at ho
    rw [← hr]
    exact ho.1

/-- A client that is outside a call of `sys_ipc_recv` of `fsipc` and inside `fsipc` does not
wait. -/
theorem FsWorld.Inv.client_waits (hr : (w.k.envs E.client).envIpcRecving = true) :
    w.client = .outside ∨ w.client = .panicked ∨
      ∃ dstva, w.client = .waiting dstva ∧ w.Outstanding E ∧
        (w.k.envs E.client).envIpcDstva = pageOrUtop dstva := by
  have hc := h.client
  unfold FsWorld.ClientOk at hc
  cases hpc : w.client with
  | outside => exact .inl rfl
  | panicked => exact .inr (.inl rfl)
  | send type dstva =>
    rw [hpc, hr] at hc
    cases hc.1
  | recv dstva =>
    rw [hpc, hr] at hc
    cases hc.1
  | waiting dstva =>
    rw [hpc] at hc
    rcases hc with ⟨_, ho, hdst⟩ | ⟨hf, _⟩
    · exact .inr (.inr ⟨dstva, rfl, ho, hdst⟩)
    · rw [hr] at hf
      cases hf

/-- A move that sends no message to the client or the server, and at which both stay where they
are. -/
theorem FsWorld.Inv.congr (hclient : w'.client = w.client) (hserver : w'.server = w.server)
    (hcm : SameMail (w.k.envs E.client) (w'.k.envs E.client))
    (hsm : SameMail (w.k.envs E.server) (w'.k.envs E.server)) (hd : w'.delivery = w.delivery)
    (hp : w'.pending = w.pending) (hreq : w'.requests = w.requests)
    (hret : w'.returns = w.returns) : w'.Inv E where
  client_id := hcm.id.trans h.client_id
  server_idle hr := hserver.trans (h.server_idle (hsm.recving ▸ hr))
  client := h.client.congr hclient hcm hd hreq fun ho => ho.congr hserver hsm hp hreq
  returns := hret ▸ h.returns

theorem FsWorld.Inv.failed (m : FsMove) (c : Call) : (w.after E m c (w.k.enter c)).Inv E :=
  h.congr rfl rfl (.refl _) (.refl _) (after_delivery (.refl _))
    (after_pending (.refl _)) rfl rfl

theorem FsWorld.Inv.other (hmay : w.MayCall E c) (hu : w.Undisturbed E (.other c))
    (hd : FsDone c w.k v k') : (w.after E (.other c) c k').Inv E := by
  obtain ⟨hsc, hcc, -, -, -⟩ := hmay
  have hs := hd.sameMail_or (e := E.server) fun hf => hsc hf.2
  refine ⟨(hd.sameSlot _).id.trans h.client_id, fun hr => ?_, ?_, h.returns⟩
  · rcases hs with hs | ⟨_, hs⟩
    · exact h.server_idle (hs.recving ▸ hr)
    · exact h.server_idle hs.recving
  · by_cases hcaller : c.caller = E.client
    · exact .of_outside (.inl (hcc hcaller))
    · rcases hd.sameMail_or (e := E.client) fun hf => hcaller hf.2 with hc | ⟨_, hc⟩
      · refine h.client.congr rfl hc (after_delivery hc) rfl fun ho => ?_
        rcases hs with hs | ⟨_, hs⟩
        · exact ho.congr rfl hs (after_pending hs) rfl
        · have hidle := h.outstanding_idle ho
          rw [hs.recving] at hidle
          cases hidle
      · rcases h.client_waits hc.recving with ho | hp | ⟨dstva, hwait, -, -⟩
        · exact .of_outside (.inl ho)
        · exact .of_outside (.inr hp)
        · cases hc with
          | mk hno hnames _ _ => exact absurd ⟨hno, hnames⟩ (hu ⟨dstva, hwait⟩)

theorem FsWorld.Inv.clientSend (hpc : w.client = .send type dstva) (hcaller : c.caller = E.client)
    (hno : c.sysno = some .ipcTrySend) (ha1 : c.a1 = E.fsenv) (ha4 : c.a4 &&& pteP ≠ 0)
    (hd : FsDone c w.k (some r) k') :
    ((w.after E (.client cpu) c k').returned r (.client cpu)).Inv E := by
  have hok := h.client
  unfold FsWorld.ClientOk at hok
  rw [hpc] at hok
  obtain ⟨hidle, hrecv⟩ := hok
  have hcm := hd.sameMail (e := E.client) (fun hf => by simp [hno] at hf) hidle
  unfold FsWorld.returned
  simp only [show (w.after E (.client cpu) c k').client = .send type dstva from hpc]
  cases hd with
  | unmapped hno' _ => simp [hno] at hno'
  | failed hr _ =>
    rw [if_neg (by omega)]
    have hsame := h.failed (.client cpu) c
    split
    · exact ⟨hsame.client_id, hsame.server_idle, .of_outside (.inr rfl), hsame.returns⟩
    · exact hsame
  | @sent e _ hs =>
    have he : e = E.server := by
      cases hs with
      | mk _ hnames _ _ =>
        rw [ha1] at hnames
        rcases hnames with ⟨h0, _⟩ | ⟨_, hx, _⟩
        · exact absurd h0 E.names_server.1
        · exact hx.trans E.names_server.2
    subst he
    have hwaiting : w.server = .waiting := h.server_idle hs.recving
    have hmail := hs.gotMail
    rw [if_pos rfl]
    refine ⟨hcm.id.trans h.client_id, fun _ => hwaiting, ⟨hcm.recving.trans hidle, hrecv, ?_⟩,
      h.returns⟩
    have hpend : (w.after E (.client cpu) c k').pending = some (w.requests + 1) := by
      unfold FsWorld.after FsWorld.requestOf
      rw [hs.reached, hpc]
      rfl
    have hfrom : (k'.envs E.server).envIpcFrom = E.clientId := by
      rw [hmail.sender, hcaller, h.client_id]
    have hperm := hmail.perm.symm ▸ ha4
    unfold FsWorld.Outstanding
    rw [show ({ w.after E (.client cpu) c k' with
      client := .recv dstva, requests := w.requests + 1 } : FsWorld).server =
        .waiting from hwaiting]
    exact ⟨hmail.recving, hpend, hfrom, hperm⟩

theorem FsWorld.Inv.clientRecv {dstva : Word} (cpu : Nat)
    (hpc : w.client = .recv dstva) (hcaller : c.caller = E.client)
    (hno : c.sysno = some .ipcRecv) (ha1 : c.a1 = pageOrUtop dstva) (hd : FsDone c w.k v k') :
    v = none ∧ ((w.after E (.client cpu) c k').left (.client cpu)).Inv E := by
  have hok := h.client
  unfold FsWorld.ClientOk at hok
  rw [hpc] at hok
  obtain ⟨hidle, hrecv, hout⟩ := hok
  cases hd with
  | unmapped hno' _ => simp [hno] at hno'
  | failed _ hf =>
    have := hf hno
    rw [ha1] at this
    exact absurd this (pageOrUtop_fails hrecv)
  | sent hs =>
    cases hs with
    | mk hno' _ _ _ => simp [hno] at hno'
  | blocked hb =>
    refine ⟨rfl, ?_⟩
    have hsm : SameMail (w.k.envs E.server) (k'.envs E.server) := by
      refine (FsDone.blocked hb).sameMail (fun hf => ?_) (h.outstanding_idle hout)
      exact E.ne (hcaller.symm.trans hf.2)
    have hwaits := hb.waits
    rw [hcaller] at hwaits
    unfold FsWorld.left
    simp only [show (w.after E (.client cpu) c k').client = .recv dstva from hpc]
    refine ⟨hwaits.id.trans h.client_id, fun hr => h.server_idle (hsm.recving ▸ hr),
      .inl ⟨hwaits.recving, ?_, hwaits.dstva.trans ha1⟩, h.returns⟩
    exact hout.congr rfl hsm (after_pending (c := c) hsm) rfl

theorem FsWorld.Inv.serverRecv (cpu : Nat) (hpc : w.server = .recv)
    (hcaller : c.caller = E.server) (hno : c.sysno = some .ipcRecv)
    (ha1 : c.a1 = pageOrUtop fsreq) (hd : FsDone c w.k v k') :
    v = none ∧ ((w.after E (.server cpu) c k').left (.server cpu)).Inv E := by
  cases hd with
  | unmapped hno' _ => simp [hno] at hno'
  | failed _ hf =>
    have := hf hno
    rw [ha1] at this
    exact absurd this (pageOrUtop_fails (.inr (.inr (by decide))))
  | sent hs =>
    cases hs with
    | mk hno' _ _ _ => simp [hno] at hno'
  | blocked hb =>
    refine ⟨rfl, ?_⟩
    have hcm : SameMail (w.k.envs E.client) (k'.envs E.client) := by
      rcases (FsDone.blocked hb).sameMail_or (e := E.client) fun hf =>
        E.ne (hf.2.symm.trans hcaller) with hs | ⟨hf, _⟩
      · exact hs
      · cases hf
    unfold FsWorld.left
    simp only [show (w.after E (.server cpu) c k').server = .recv from hpc]
    refine ⟨hcm.id.trans h.client_id, fun _ => rfl, ?_, h.returns⟩
    refine h.client.congr rfl hcm (after_delivery hcm) rfl fun ho => ?_
    unfold FsWorld.Outstanding at ho
    rw [hpc] at ho
    exact ho.elim

theorem FsWorld.Inv.serverSend {whom value pg perm : Word} {request : Option Nat}
    (hpc : w.server = .send whom value pg perm request) (hcaller : c.caller = E.server)
    (hno : c.sysno = some .ipcTrySend) (ha1 : c.a1 = whom)
    (hd : FsDone c w.k (some r) k') :
    ((w.after E (.server cpu) c k').returned r (.server cpu)).Inv E := by
  have hidle : (w.k.envs E.server).envIpcRecving = false := by
    cases hr : (w.k.envs E.server).envIpcRecving with
    | false => rfl
    | true => rw [h.server_idle hr] at hpc; cases hpc
  have hsm := hd.sameMail (e := E.server) (fun hf => by simp [hno] at hf) hidle
  have hsidle := hsm.recving.trans hidle
  unfold FsWorld.returned
  simp only [show (w.after E (.server cpu) c k').server = .send whom value pg perm request from hpc]
  have hcs := hd.sameMail_or (e := E.client) fun hf => by simp [hno] at hf
  have hid := (hd.sameSlot E.client).id
  cases hd with
  | unmapped hno' _ => simp [hno] at hno'
  | failed hr _ =>
    rw [if_neg (by omega)]
    have hsame := h.failed (.server cpu) c
    split
    · refine ⟨hsame.client_id, fun hf => ?_, ?_, hsame.returns⟩
      · exact absurd (hsidle.symm.trans hf) Bool.false_ne_true
      · exact hsame.client.congr rfl (.refl _) rfl rfl fun _ => trivial
    · exact hsame
  | @sent e _ hs =>
    rw [if_pos rfl]
    refine ⟨hid.trans h.client_id, fun hf => ?_, ?_, h.returns⟩
    · exact absurd (hsidle.symm.trans hf) Bool.false_ne_true
    · rcases hcs with hc | ⟨_, hc⟩
      · -- The answer goes to another environment, so it is not the client that is owed one.
        refine h.client.congr rfl hc (after_delivery hc) rfl fun ho => ?_
        unfold FsWorld.Outstanding at ho
        rw [hpc] at ho
        have he : e = E.client := by
          cases hs with
          | mk _ hnames _ _ =>
            rw [ha1, ho.1] at hnames
            rcases hnames with ⟨h0, _⟩ | ⟨_, hx, _⟩
            · exact absurd h0 E.names_client.1
            · exact hx.trans E.names_client.2
        subst he
        have hr := hc.recving
        rw [hs.recving, hs.gotMail.recving] at hr
        cases hr
      · rcases h.client_waits hc.recving with ho | hp | ⟨dstva, hwait, ho, hdst⟩
        · exact .of_outside (.inl ho)
        · exact .of_outside (.inr hp)
        · unfold FsWorld.Outstanding at ho
          rw [hpc] at ho
          have hdel : (w.after E (.server cpu) c k').delivery = some ⟨c, request, w.k, k'⟩ := by
            unfold FsWorld.after FsWorld.answerOf
            rw [hc.reached, hpc]
            rfl
          unfold FsWorld.ClientOk
          rw [show ({ w.after E (.server cpu) c k' with server := .unmap } : FsWorld).client =
            .waiting dstva from hwait]
          exact .inr ⟨hc.gotMail.recving, _, hdel, ⟨hcaller, ho.2, hdst, hc⟩, hc.gotMail.value⟩

theorem FsWorld.Inv.serverUnmap (hpc : w.server = .unmap)
    (hno : c.sysno = some .pageUnmap) (hd : FsDone c w.k (some r) k') :
    ((w.after E (.server cpu) c k').returned r (.server cpu)).Inv E := by
  have hsame : ∀ e, SameMail (w.k.envs e) (k'.envs e) := by
    intro e
    rcases hd.sameMail_or (e := e) fun hf => by simp [hno] at hf with hs | ⟨_, hs⟩
    · exact hs
    · cases hs with
      | mk hno' _ _ _ => simp [hno] at hno'
  have hcm := hsame E.client
  unfold FsWorld.returned
  simp only [show (w.after E (.server cpu) c k').server = .unmap from hpc]
  refine ⟨hcm.id.trans h.client_id, fun hr => ?_, ?_, h.returns⟩
  · have := h.server_idle ((hsame E.server).recving ▸ hr)
    rw [hpc] at this
    cases this
  · refine h.client.congr rfl hcm (after_delivery hcm) rfl fun ho => ?_
    unfold FsWorld.Outstanding at ho
    rw [hpc] at ho
    exact ho.elim

theorem FsWorld.Inv.fsipc (hu : Receivable dstva) : (w.fsipc E type dstva).Inv E := by
  unfold FsWorld.fsipc
  split
  · split
    · exact h
    · next hr => exact ⟨h.client_id, h.server_idle, ⟨Bool.not_eq_true _ ▸ hr, hu⟩, h.returns⟩
  · exact h

theorem FsWorld.Inv.serve {value pg perm : Word} : (w.serve E value pg perm).Inv E := by
  unfold FsWorld.serve
  split
  · next hpc =>
    split
    · exact h
    · next hr =>
      have hout : w.Outstanding E → (w.k.envs E.server).envIpcFrom = E.clientId ∧
          w.pending = some w.requests ∧ (w.k.envs E.server).envIpcPerm &&& pteP ≠ 0 := by
        intro ho
        unfold FsWorld.Outstanding at ho
        rw [hpc] at ho
        exact ⟨ho.2.2.1, ho.2.1, ho.2.2.2⟩
      split
      · next hperm =>
        refine ⟨h.client_id, fun hf => absurd hf hr, ?_, h.returns⟩
        exact h.client.congr rfl (.refl _) rfl rfl fun ho => absurd hperm (hout ho).2.2
      · refine ⟨h.client_id, fun hf => absurd hf hr, ?_, h.returns⟩
        exact h.client.congr rfl (.refl _) rfl rfl fun ho => ⟨(hout ho).1, (hout ho).2.1⟩
  · exact h

theorem FsWorld.Inv.ret : (w.ret E).Inv E := by
  unfold FsWorld.ret
  split
  · next dstva hpc =>
    split
    · exact h
    · next hr =>
      have hok := h.client
      unfold FsWorld.ClientOk at hok
      rw [hpc] at hok
      rcases hok with ⟨hf, _⟩ | ⟨_, d, hd, hans, hval⟩
      · exact absurd hf hr
      refine ⟨h.client_id, h.server_idle, .of_outside (.inl rfl), fun R hR => ?_⟩
      rcases List.mem_append.mp hR with hR | hR
      · exact h.returns R hR
      · obtain rfl := List.mem_singleton.mp hR
        exact ⟨d, hd, hans, hval⟩
  · exact h

theorem FsWorld.Inv.move (hu : w.Undisturbed E m) : (w.move E m).Inv E := by
  have hstep := move_stepped E w m
  generalize w.move E m = w' at hstep ⊢
  cases m with
  | fsipc type dstva =>
    cases hstep with
    | internal => exact h.fsipc hu
    | stopped => exact h
    | returned hc => cases hc
    | left hc => cases hc
  | serve value pg perm =>
    cases hstep with
    | internal => exact h.serve
    | stopped => exact h
    | returned hc => cases hc
    | left hc => cases hc
  | ret =>
    cases hstep with
    | internal => exact h.ret
    | stopped => exact h
    | returned hc => cases hc
    | left hc => cases hc
  | other c =>
    cases hstep with
    | internal => exact h
    | stopped => exact h
    | returned hc _ hd =>
      cases makes hc with
      | other hmay => exact h.other hmay hu hd
    | left hc _ hd =>
      cases makes hc with
      | other hmay => exact h.other hmay hu hd
  | client cpu =>
    cases hstep with
    | internal => exact h
    | stopped => exact h
    | returned hc _ hd =>
      cases makes hc with
      | clientSend hpc =>
        exact h.clientSend hpc rfl (ipcSend_sysno ..) rfl
          (show (pteP ||| pteW ||| pteU : Word) &&& pteP ≠ 0 by decide) hd
      | clientRecv hpc => cases (h.clientRecv cpu hpc rfl (ipcRecv_sysno ..) rfl hd).1
    | left hc _ hd =>
      cases makes hc with
      | clientSend =>
        cases hd with
        | blocked hb =>
          have hno := hb.sysno
          rw [ipcSend_sysno] at hno
          cases hno
      | clientRecv hpc => exact (h.clientRecv cpu hpc rfl (ipcRecv_sysno ..) rfl hd).2
  | server cpu =>
    cases hstep with
    | internal => exact h
    | stopped => exact h
    | returned hc _ hd =>
      cases makes hc with
      | serverRecv hpc => cases (h.serverRecv cpu hpc rfl (ipcRecv_sysno ..) rfl hd).1
      | serverSend hpc => exact h.serverSend hpc rfl (ipcSend_sysno ..) rfl hd
      | serverUnmap hpc => exact h.serverUnmap hpc (unmap_sysno ..) hd
    | left hc _ hd =>
      cases makes hc with
      | serverRecv hpc => exact (h.serverRecv cpu hpc rfl (ipcRecv_sysno ..) rfl hd).2
      | serverSend =>
        cases hd with
        | blocked hb =>
          have hno := hb.sysno
          rw [ipcSend_sysno] at hno
          cases hno
      | serverUnmap =>
        cases hd with
        | blocked hb =>
          have hno := hb.sysno
          rw [unmap_sysno] at hno
          cases hno

end

/-- Before the first request: both environments exist, and the server waits for no message. -/
structure FsReady (E : FsEnvs) (k : Kernel) : Prop where
  client_live : k.Live E.client
  server_live : k.Live E.server
  client_id : (k.envs E.client).envId = E.clientId
  server_idle : (k.envs E.server).envIpcRecving = false

theorem FsReady.inv (h : FsReady E k) : (FsWorld.start k).Inv E :=
  ⟨h.client_id, fun hr => absurd (h.server_idle.symm.trans hr) Bool.false_ne_true,
    .of_outside (.inl rfl), fun _ hR => absurd hR List.not_mem_nil⟩

end Jos
