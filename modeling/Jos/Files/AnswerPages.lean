import Jos.Files.Answers
import Jos.Kernel.KernelHalf
import Jos.Logic.Runs

/-!
# The page of an answer

The page that the server sends is mapped at the address that the client gave to `fsipc`, and is
still there when `fsipc` returns, as long as the page tables are in order.
-/

namespace Jos

open Logic Relation List

variable {k k' : Kernel} {c : Call} {v : Option Int} {e : Nat} {E : FsEnvs} {w w' : FsWorld}
  {m : FsMove} {extra : Nat → Nat} {dstva : Word}

/-- In `k` the client has the page of the message at `dstva`, with the permissions of the message,
and its other pages are those that it had before the message. The window `UVPT` is left out. -/
structure FsDelivery.Mapped (E : FsEnvs) (d : FsDelivery) (dstva : Word) (k : Kernel) : Prop where
  page : d.call.a3.toNat < utop → dstva.toNat < utop ∧ ∃ ds dc w,
    (d.before.envs d.call.caller).envPgdir = some ds ∧ (k.envs E.client).envPgdir = some dc ∧
    pteOf d.before.phys.mem ds (pgnum d.call.a3) = some w ∧
    pteOf k.phys.mem dc (pgnum dstva) = some (pteWord (pageOf w) d.call.a4)
  rest : ∀ dc, (k.envs E.client).envPgdir = some dc → ∀ v < 2 ^ 20, v / 1024 ≠ uvptIndex →
    ¬(d.call.a3.toNat < utop ∧ v = pgnum dstva) →
    pteOf k.phys.mem dc v = pteOf d.before.phys.mem dc v

/-- The page tables are in order before the call of the move, and the call leaves them so. -/
def FsWorld.Orderly (E : FsEnvs) (w : FsWorld) (m : FsMove) : Prop :=
  ∀ c, w.call E m = some c → FewMappings w.k.dirs w.k.phys ∧ c.SendsBelow w.k

theorem IsFsCall.spaces (hf : IsFsCall c) (hs : Spaces (kernPages k.phys) extra k)
    (hb : FewMappings k.dirs k.phys) (hlive : k.Live c.caller) (hbelow : c.SendsBelow k)
    (hlead : c.run.Leads (k.enter c) k') : Spaces (kernPages k'.phys) extra k' := by
  obtain ⟨no, hmem, hno⟩ : ∃ no ∈ spaceCalls, c.sysno = some no := by
    rcases hf with hno | hno | hno
    · exact ⟨_, by decide, hno⟩
    · exact ⟨_, by decide, hno⟩
    · exact ⟨_, by decide, hno⟩
  have hch := hlead.of_wp (Call.run_changes hs hb hlive hno hmem hbelow)
  exact Changes.spaces_kernPages (k := k.enter c) hch

theorem sysPageUnmap_entries {va : Word} {cur x d u : Nat} {P : Kernel → Prop}
    (hs : Spaces (kernPages k.phys) extra k) (hb : FewMappings k.dirs k.phys)
    (hcur : k.curenv = some cur) (hlive : k.Live cur) (hx : k.Live x) (hne : cur ≠ x)
    (hd : (k.envs x).envPgdir = some d) (hu : u < 2 ^ 20) (hwin : u / 1024 ≠ uvptIndex) :
    wp (sysPageUnmap 0 va) (fun _ k' => pteOf k'.phys.mem d u = pteOf k.phys.mem d u) P k := by
  unfold sysPageUnmap
  rw [wp_bind]
  refine envid2env_wp (wp_pure.mpr rfl) fun e hnames => ?_
  obtain rfl : e = cur := by
    rcases hnames with ⟨_, hc⟩ | ⟨h0, _⟩
    · exact Option.some.inj (hc.symm.trans hcur)
    · exact absurd rfl h0
  refine wp_ite.mpr ⟨fun _ => wp_pure.mpr rfl, fun hva => ?_⟩
  obtain ⟨de, hde, hpgdir⟩ := hs.dir_of_live hlive
  have hlt : va.toNat < utop := not_le.mp (not_or.mp hva).1
  have hun := hs.intact.toAccounts.unmap hde ((lt_utop_iff va).mp hlt)
    fun q _ => hs.intact.total_add_le hb q
  rw [wp_bind, wp_env, wp_bind, wp_onPhys, hpgdir,
    wp_of_ret (pageRemove_eq hs.intact.toTables.user hde hlt), wp_pure]
  have hxd : d ∈ k.dirs := mem_dirs.mpr ⟨x, hx, hd⟩
  by_cases hlow : u < userPages
  · refine hun.frame.entries d hxd u hlow fun hslot => hne ?_
    rw [hslot.1] at hd
    exact hs.inj hlive hx hpgdir hd
  · exact hs.intact.pteOf_upper hxd hun.frame (fun _ hf => hf.elim) (by omega) hu hwin

theorem SentTo.phys_eq (h : SentTo c k e k') (hge : utop ≤ c.a3.toNat) : k'.phys = k.phys := by
  cases h with
  | mk _ _ _ hps =>
    cases hps with
    | none => rfl
    | page hsrc => exact absurd hsrc (not_lt.mpr hge)

theorem SentTo.respects (h : SentTo c k e k') (hs : Spaces (kernPages k.phys) extra k)
    (hlive : k.Live c.caller) (hbelow : c.SendsBelow k) (hsrc : c.a3.toNat < utop) :
    (k.envs e).envIpcDstva.toNat < utop ∧
      RespectsAddresses (k.enter c) k' c.caller e c.a3 c.a4 := by
  cases h with
  | mk hno hnames hrecv hps =>
    have hdst : (k.envs e).envIpcDstva.toNat < utop := hbelow hno _ hnames hrecv hsrc
    have hs' := hs.of_sameSlots (k.enter_sameSlots c) rfl
    exact ⟨hdst, hps.respects hs' hlive (hnames.live (Kernel.enter_liveCur hlive)) hsrc hdst⟩

theorem SentTo.live (h : SentTo c k e k') (hlive : k.Live c.caller) : k.Live e := by
  cases h with
  | mk _ hnames _ _ => exact hnames.live (Kernel.enter_liveCur hlive)

theorem FsDone.entries_eq {x d u : Nat} (h : FsDone c k v k')
    (hs : Spaces (kernPages k.phys) extra k) (hb : FewMappings k.dirs k.phys)
    (hlive : k.Live c.caller) (hbelow : c.SendsBelow k) (hlead : c.run.Leads (k.enter c) k')
    (hx : k.Live x) (hnot : ¬SentTo c k x k')
    (hown : c.sysno = some .pageUnmap → c.a1 = 0 ∧ c.caller ≠ x)
    (hd : (k.envs x).envPgdir = some d) (hu : u < 2 ^ 20) (hwin : u / 1024 ≠ uvptIndex) :
    pteOf k'.phys.mem d u = pteOf k.phys.mem d u := by
  cases h with
  | failed => rfl
  | unmapped hno _ =>
    obtain ⟨ha1, hne⟩ := hown hno
    have hsame := k.enter_sameSlots c
    have hs' := hs.of_sameSlots hsame rfl
    have hb' := hsame.dirs_eq.symm ▸ hb
    have hw : wp c.run (fun _ k' => pteOf k'.phys.mem d u = pteOf k.phys.mem d u)
        (fun k' => pteOf k'.phys.mem d u = pteOf k.phys.mem d u) (k.enter c) := by
      unfold Call.run syscall
      rw [show Sysno.ofWord c.syscallno = some .pageUnmap from hno, ha1]
      exact sysPageUnmap_entries hs' hb' (k.enter_curenv c) hlive hx hne hd hu hwin
    exact hlead.of_wp hw
  | @sent e _ hsent =>
    by_cases hsrc : c.a3.toNat < utop
    · obtain ⟨hdst, hresp⟩ := hsent.respects hs hlive hbelow hsrc
      unfold RespectsAddresses at hresp
      rw [if_pos ⟨hsrc, hdst⟩] at hresp
      exact hresp.2.1 x d hx hd u hu hwin fun hxe => hnot (hxe.1 ▸ hsent)
    · rw [hsent.phys_eq (by omega)]
  | blocked hblk =>
    rw [hblk.sched.elsewhere.phys]
    rfl

theorem SentTo.mapped {request : Option Nat} (h : SentTo c k E.client k')
    (hs : Spaces (kernPages k.phys) extra k) (hlive : k.Live c.caller) (hbelow : c.SendsBelow k)
    (hdst : (k.envs E.client).envIpcDstva = pageOrUtop dstva) :
    FsDelivery.Mapped E ⟨c, request, k, k'⟩ dstva k' := by
  have hpgdir := h.gotMail.pgdir
  by_cases hsrc : c.a3.toNat < utop
  · obtain ⟨hlt, hresp⟩ := h.respects hs hlive hbelow hsrc
    have hd : (k.envs E.client).envIpcDstva = dstva := by
      rw [hdst] at hlt ⊢
      unfold pageOrUtop at hlt ⊢
      by_cases h0 : dstva = 0
      · rw [if_pos h0] at hlt
        exact absurd hlt (by decide)
      · exact if_neg h0
    unfold RespectsAddresses at hresp
    rw [if_pos ⟨hsrc, hlt⟩, show ((k.enter c).envs E.client).envIpcDstva = dstva from hd] at hresp
    obtain ⟨⟨ds, dc, w, hds, hdc, hw, hentry⟩, hrest, _⟩ := hresp
    refine ⟨fun _ => ⟨hd ▸ hlt, ds, dc, w, hds, hpgdir.trans hdc, hw, hentry⟩, ?_⟩
    intro d hd' u hu hwin hne
    exact hrest E.client d (h.live hlive) (hpgdir.symm.trans hd') u hu hwin fun hx =>
      hne ⟨hsrc, hx.2⟩
  · refine ⟨fun hlt => absurd hlt hsrc, fun _ _ _ _ _ _ => ?_⟩
    rw [h.phys_eq (by omega)]

theorem FsDelivery.Mapped.congr {d : FsDelivery} (h : d.Mapped E dstva k)
    (hpgdir : (k'.envs E.client).envPgdir = (k.envs E.client).envPgdir)
    (hsame : ∀ dc, (k.envs E.client).envPgdir = some dc → ∀ v < 2 ^ 20, v / 1024 ≠ uvptIndex →
      pteOf k'.phys.mem dc v = pteOf k.phys.mem dc v) : d.Mapped E dstva k' := by
  refine ⟨fun hsrc => ?_, fun dc hdc v hv hwin hne => ?_⟩
  · obtain ⟨hlt, ds, dc, w, hds, hdc, hw, hentry⟩ := h.page hsrc
    have hv := (lt_utop_iff dstva).mp hlt
    unfold userPages at hv
    refine ⟨hlt, ds, dc, w, hds, hpgdir.trans hdc, hw, ?_⟩
    rw [hsame dc hdc _ (by omega) (by unfold uvptIndex; omega)]
    exact hentry
  · rw [hpgdir] at hdc
    rw [hsame dc hdc v hv hwin]
    exact h.rest dc hdc v hv hwin hne

/-- The address spaces are in order, and so is the page of the last message while the client has not
returned from `fsipc`. -/
structure FsWorld.Pages (E : FsEnvs) (w : FsWorld) : Prop where
  spaces : ∃ extra, Spaces (kernPages w.k.phys) extra w.k
  client_live : w.k.Live E.client
  server_live : w.k.Live E.server
  message : ∀ dstva d, w.client = .waiting dstva → (w.k.envs E.client).envIpcRecving = false →
    w.delivery = some d → d.Mapped E dstva w.k
  returns : ∀ R ∈ w.returns, ∀ d, R.delivery = some d → d.Mapped E R.dstva R.kernel

theorem FsWorld.call_unmap (hc : w.call E m = some c) (hno : c.sysno = some .pageUnmap) :
    c.a1 = 0 ∧ c.caller = E.server := by
  cases FsWorld.makes hc with
  | clientSend | serverSend =>
    rw [ipcSend_sysno] at hno
    cases hno
  | clientRecv | serverRecv =>
    rw [ipcRecv_sysno] at hno
    cases hno
  | serverUnmap => exact ⟨rfl, rfl⟩
  | other hmay => rcases hmay.2.2.1 with hs | hs <;> rw [hno] at hs <;> cases hs

theorem FsWorld.call_waiting (hc : w.call E m = some c)
    (hwait : w.client = .waiting dstva) : c.caller ≠ E.client := by
  cases FsWorld.makes hc with
  | clientSend hpc | clientRecv hpc =>
    rw [hwait] at hpc
    cases hpc
  | serverRecv | serverSend | serverUnmap => exact E.ne.symm
  | other hmay =>
    intro hcl
    rw [hmay.2.1 hcl] at hwait
    cases hwait

section

variable (hp : w.Pages E)

include hp

theorem FsWorld.call_live (hc : w.call E m = some c) : w.k.Live c.caller := by
  cases FsWorld.makes hc with
  | clientSend | clientRecv => exact hp.client_live
  | serverRecv | serverSend | serverUnmap => exact hp.server_live
  | other hmay => exact hmay.2.2.2.1

theorem FsWorld.Pages.after (h : w.Inv E) (hc : w.call E m = some c)
    (hlead : c.run.Leads (w.k.enter c) k') (hd : FsDone c w.k v k') (ho : w.Orderly E m) :
    (w.after E m c k').Pages E := by
  obtain ⟨extra, hs⟩ := hp.spaces
  obtain ⟨hb, hbelow⟩ := ho c hc
  have hlive := FsWorld.call_live hp hc
  have hkeep : ∀ {e}, w.k.Live e → k'.Live e := fun hl => ⟨hl.1, (hd.sameSlot _).free hl.2⟩
  refine ⟨⟨extra, (FsWorld.call_isFsCall hc).spaces hs hb hlive hbelow hlead⟩,
    hkeep hp.client_live, hkeep hp.server_live, fun dstva d hwait hidle hdel => ?_, hp.returns⟩
  have hcaller : c.caller ≠ E.client := FsWorld.call_waiting hc hwait
  rcases hd.sameMail_or (e := E.client) fun hf => hcaller hf.2 with hm | ⟨_, hm⟩
  · rw [FsWorld.after_delivery hm] at hdel
    have hidle' := hm.recving.symm.trans hidle
    refine (hp.message dstva d hwait hidle' hdel).congr hm.pgdir fun dc hdc u hu hwin => ?_
    refine hd.entries_eq hs hb hlive hbelow hlead hp.client_live (fun hsent => ?_) ?_ hdc hu hwin
    · exact absurd (hidle'.symm.trans hsent.recving) Bool.false_ne_true
    · intro hno
      obtain ⟨ha1, hcs⟩ := FsWorld.call_unmap hc hno
      exact ⟨ha1, hcaller⟩
  · have hnew : (w.after E m c k').delivery = some ⟨c, w.answerOf m, w.k, k'⟩ := by
      unfold FsWorld.after
      rw [hm.reached]
      rfl
    rw [hnew] at hdel
    obtain rfl := Option.some.inj hdel
    rcases h.client_waits hm.recving with hf | hf | ⟨dstva', hwait', _, hdst⟩
    · exact absurd (hf.symm.trans hwait) nofun
    · exact absurd (hf.symm.trans hwait) nofun
    · obtain rfl : dstva' = dstva := FsipcPc.waiting.inj (hwait'.symm.trans hwait)
      exact hm.mapped hs hlive hbelow hdst

theorem FsWorld.Pages.programs (hk : w'.k = w.k)
    (hwait : ∀ dstva, w'.client = .waiting dstva → (w.k.envs E.client).envIpcRecving = false →
      w.client = .waiting dstva ∧ w'.delivery = w.delivery)
    (hret : ∀ R ∈ w'.returns, R ∈ w.returns ∨
      ∀ d, R.delivery = some d → d.Mapped E R.dstva R.kernel) : w'.Pages E := by
  refine ⟨hk ▸ hp.spaces, hk ▸ hp.client_live, hk ▸ hp.server_live, ?_, fun R hR => ?_⟩
  · intro dstva d hw hr hd
    rw [hk] at hr ⊢
    obtain ⟨hw', hd'⟩ := hwait dstva hw hr
    exact hp.message dstva d hw' hr (hd'.symm.trans hd)
  · rcases hret R hR with hold | hnew
    · exact hp.returns R hold
    · exact hnew

theorem FsWorld.Pages.returned {r : Int} : (w.returned r m).Pages E := by
  have hold : ∀ w' : FsWorld, w'.returns = w.returns → ∀ R ∈ w'.returns, R ∈ w.returns ∨
      ∀ d, R.delivery = some d → d.Mapped E R.dstva R.kernel :=
    fun w' hw R hR => .inl (hw ▸ hR)
  unfold FsWorld.returned
  cases m with
  | client cpu =>
    dsimp only
    split
    · split
      · exact hp.programs rfl (fun _ hf => nomatch hf) (hold _ rfl)
      · split
        · exact hp.programs rfl (fun _ hf => nomatch hf) (hold _ rfl)
        · exact hp
    · refine hp.programs rfl (fun _ hf => nomatch hf) fun R hR => ?_
      rcases mem_append.mp hR with hR | hR
      · exact .inl hR
      · obtain rfl := mem_singleton.mp hR
        exact .inr fun d hf => nomatch hf
    · exact hp
  | server cpu =>
    dsimp only
    split
    · split
      · exact hp.programs rfl (fun _ hw _ => ⟨hw, rfl⟩) (hold _ rfl)
      · split
        · exact hp.programs rfl (fun _ hw _ => ⟨hw, rfl⟩) (hold _ rfl)
        · exact hp
    · exact hp.programs rfl (fun _ hw _ => ⟨hw, rfl⟩) (hold _ rfl)
    · exact hp
  | fsipc => exact hp
  | serve => exact hp
  | ret => exact hp
  | other => exact hp

theorem FsWorld.Pages.left (hrecv : ∀ cpu dstva, m = .client cpu → w.client = .recv dstva →
      (w.k.envs E.client).envIpcRecving = true) : (w.left m).Pages E := by
  unfold FsWorld.left
  cases m with
  | client cpu =>
    dsimp only
    split
    · next dstva hpc =>
      refine hp.programs rfl (fun _ _ hf => ?_) fun R hR => .inl hR
      exact absurd (hf.symm.trans (hrecv cpu dstva rfl hpc)) Bool.false_ne_true
    · exact hp
  | server cpu =>
    dsimp only
    split
    · exact hp.programs rfl (fun _ hw _ => ⟨hw, rfl⟩) fun R hR => .inl hR
    · exact hp
  | fsipc => exact hp
  | serve => exact hp
  | ret => exact hp
  | other => exact hp

theorem FsWorld.Pages.internal : (w.internal E m).Pages E := by
  unfold FsWorld.internal
  cases m with
  | fsipc type dstva =>
    dsimp only
    unfold FsWorld.fsipc
    split
    · split
      · exact hp
      · exact hp.programs rfl (fun _ hf => nomatch hf) fun R hR => .inl hR
    · exact hp
  | serve value pg perm =>
    dsimp only
    unfold FsWorld.serve
    split
    · split
      · exact hp
      · split
        · exact hp.programs rfl (fun _ hw _ => ⟨hw, rfl⟩) fun R hR => .inl hR
        · exact hp.programs rfl (fun _ hw _ => ⟨hw, rfl⟩) fun R hR => .inl hR
    · exact hp
  | ret =>
    dsimp only
    unfold FsWorld.ret
    split
    · next dstva hpc =>
      split
      · exact hp
      · next hr =>
        refine hp.programs rfl (fun _ hf => nomatch hf) fun R hR => ?_
        rcases mem_append.mp hR with hR | hR
        · exact .inl hR
        · obtain rfl := mem_singleton.mp hR
          exact .inr fun d hd => hp.message dstva d hpc (Bool.not_eq_true _ ▸ hr) hd
    · exact hp
  | client => exact hp
  | server => exact hp
  | other => exact hp

theorem FsWorld.Pages.move (h : w.Inv E) (ho : w.Orderly E m) : (w.move E m).Pages E := by
  have hstep := FsWorld.move_stepped E w m
  generalize w.move E m = w' at hstep ⊢
  cases hstep with
  | internal => exact hp.internal
  | stopped => exact hp
  | @returned c r k' hc hrun hd => exact (hp.after h hc (.inl ⟨r, hrun⟩) hd ho).returned
  | @left c k' hc hrun hd =>
    refine (hp.after h hc (.inr hrun) hd ho).left fun cpu dstva hm hpc => ?_
    subst hm
    unfold FsWorld.call at hc
    simp only [show w.client = .recv dstva from hpc] at hc
    obtain rfl := Option.some.inj hc
    cases hd with
    | blocked hb => exact hb.waits.recving

end

theorem FsReady.pages (h : FsReady E k) (hs : Sound k) : (FsWorld.start k).Pages E :=
  ⟨hs.1, h.client_live, h.server_live, fun _ _ hf => (nomatch hf),
    fun _ hR => absurd hR not_mem_nil⟩

/-- Runs whose moves all meet the condition `A`. -/
def FsRun (E : FsEnvs) (A : FsWorld → FsMove → Prop) (w w' : FsWorld) : Prop :=
  ReflTransGen (fun w w' => ∃ m, A w m ∧ w.move E m = w') w w'

/-- In every run in which only the server sends to the client while it waits, each call of `fsipc`
returns the value that the server has sent in answer to it, and its page is at `dstva` if the page
tables stay in order. -/
theorem fsipc_answered (hk : FsReady E k) :
    (∀ w, FsRun E (FsWorld.Undisturbed E) (.start k) w → ∀ R ∈ w.returns, ∃ d, R.Answered E d) ∧
    (Sound k → ∀ w, FsRun E (fun w m => w.Undisturbed E m ∧ w.Orderly E m) (.start k) w →
      ∀ R ∈ w.returns, ∃ d, R.Answered E d ∧ d.Mapped E R.dstva R.kernel) := by
  refine ⟨fun w hrun => ?_, fun hs w hrun => ?_⟩
  · have hinv : w.Inv E := by
      refine run_invariant hrun hk.inv ?_
      rintro w1 w2 h1 ⟨m, hm, rfl⟩
      exact h1.move hm
    exact hinv.returns
  · have hinv : w.Inv E ∧ w.Pages E := by
      refine run_invariant (I := fun w => w.Inv E ∧ w.Pages E) hrun ⟨hk.inv, hk.pages hs⟩ ?_
      rintro w1 w2 ⟨h1, hp1⟩ ⟨m, ⟨hu, ho⟩, rfl⟩
      exact ⟨h1.move hu, hp1.move h1 ho⟩
    intro R hR
    obtain ⟨d, hd⟩ := hinv.1.returns R hR
    exact ⟨d, hd, hinv.2.returns R hR d hd.delivery⟩

@[irreducible] def trio : Kernel := (envCreate hello .user pair).after pair

theorem trio_sound : Sound trio := by
  have hrun : envCreate hello .user pair = .ret () trio := by
    unfold trio
    exact Outcome.eq_ret pair (by decide +kernel)
  exact pair_sound.create hello_wellFormed hrun

/-- The server in slot 0 and the client in slot 1. -/
def twoEnvs : FsEnvs where
  client := 1
  server := 0
  clientId := 0x1001
  fsenv := 0x1000
  fsipcbuf := 0x800000
  ne := by decide
  names_client := by decide
  names_server := by decide

theorem trio_ready : FsReady twoEnvs trio :=
  ⟨by decide +kernel, by decide +kernel, by decide +kernel, by decide +kernel⟩

/-- The client asks for a page, and the server sends 7 with a page. -/
def askedMoves : List FsMove :=
  [.server 0, .fsipc 1 0xa00000, .client 0, .serve 7 0x800000 7, .client 0, .server 0, .ret]

/-- In the run of `moves` the tables are few, and a send names a receiver below `UTOP`. -/
def FsWorld.tidy (E : FsEnvs) (w : FsWorld) : List FsMove → Bool
  | [] => true
  | m :: ms => decide (w.k.phys.npages = 128 ∧ w.k.phys.Roomy ∧
      ∀ c ∈ w.call E m, c.sysno = some .ipcTrySend →
        c.a1 ≠ 0 ∧ (w.k.envs (envx c.a1)).envIpcDstva.toNat < utop) && (w.move E m).tidy E ms

theorem FsRun.of_tidy {moves : List FsMove} (hu : ∀ m ∈ moves, ∀ w, FsWorld.Undisturbed E w m)
    (h : w.Inv E) (hp : w.Pages E) (ht : w.tidy E moves) :
    FsRun E (fun w m => w.Undisturbed E m ∧ w.Orderly E m) w (w.run E moves) := by
  induction moves generalizing w with
  | nil => exact .refl
  | cons m moves ih =>
    simp only [FsWorld.tidy, Bool.and_eq_true, decide_eq_true_eq] at ht
    obtain ⟨⟨hn, hroom, hsend⟩, ht⟩ := ht
    obtain ⟨extra, hs⟩ := hp.spaces
    have ho : w.Orderly E m := by
      refine fun c hc => ⟨hroom.few hn hs.intact.toTables, fun hno e hname _ _ => ?_⟩
      obtain ⟨hne, hlt⟩ := hsend c hc hno
      rcases hname with ⟨h0, -⟩ | ⟨-, rfl, -⟩
      · exact absurd h0 hne
      · exact hlt
    have hm := hu m mem_cons_self w
    exact .head ⟨m, ⟨hm, ho⟩, rfl⟩
      (ih (fun x hx => hu x (mem_cons_of_mem _ hx)) (h.move hm) (hp.move h ho) ht)

/-- The client of the three gets the answer and its page. -/
theorem fsipc_answered_trio :
    ((FsWorld.start trio).run twoEnvs askedMoves).returns.map FsReturn.value = [7] ∧
    ∀ R ∈ ((FsWorld.start trio).run twoEnvs askedMoves).returns,
      ∃ d, R.Answered twoEnvs d ∧ d.Mapped twoEnvs R.dstva R.kernel := by
  obtain ⟨hval, htidy⟩ :
      ((FsWorld.start trio).run twoEnvs askedMoves).returns.map FsReturn.value = [7] ∧
      (FsWorld.start trio).tidy twoEnvs askedMoves := by
    decide +kernel
  refine ⟨hval, (fsipc_answered trio_ready).2 trio_sound _
    (.of_tidy ?_ trio_ready.inv (trio_ready.pages trio_sound) htidy)⟩
  intro m hm w
  simp only [askedMoves, mem_cons, not_mem_nil, or_false] at hm
  rcases hm with rfl | rfl | rfl | rfl | rfl | rfl | rfl
  · trivial
  · exact .inr (.inr (by decide))
  iterate 5 trivial

/-- The client sends its request and waits. Slot 2 sends 42 to it. -/
def strangerMoves : List FsMove :=
  [.server 0, .fsipc 1 0xa00000, .client 0, .client 0,
    .other (FsWorld.ipcSend 0 2 0x1001 42 0 0), .ret]

/-- `fsipc` returns the value of the stranger. The server has not answered. -/
theorem fsipc_returns_stranger : Sound trio ∧ FsReady twoEnvs trio ∧
    ∃ R ∈ ((FsWorld.start trio).run twoEnvs strangerMoves).returns,
      R.value = 42 ∧ ¬∃ d, R.Answered twoEnvs d := by
  have hret : ((FsWorld.start trio).run twoEnvs strangerMoves).returns.map
      (fun R => (R.value, R.delivery.map fun d => d.call.caller)) = [(42, some 2)] := by
    decide +kernel
  refine ⟨trio_sound, trio_ready, ?_⟩
  obtain ⟨R, hR, hval⟩ := mem_map.mp (hret ▸ mem_singleton_self (42, some 2))
  obtain ⟨hval, hcaller⟩ := Prod.mk.inj hval
  refine ⟨R, hR, hval, ?_⟩
  rintro ⟨d, hd⟩
  rw [hd.delivery] at hcaller
  have hstranger : d.call.caller = 2 := Option.some.inj hcaller
  exact absurd (hstranger.symm.trans hd.answers.sender) (by decide)

end Jos
