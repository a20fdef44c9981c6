import Jos.Kernel.Messages

/-!
# What system calls do to the environments

`Returned` lists what a system call may have done to the environment table when it returns, and
`Left` how it can leave the kernel. Both hold in every state.
-/

namespace Jos

open Logic

variable {k k' k1 : Kernel} {e d cur : Nat} {envid : Word}

/-- A system call: who makes it, on which processor, and the registers it passes. -/
structure Call where
  cpu : Nat
  caller : Nat
  syscallno : Word
  a1 : Word
  a2 : Word
  a3 : Word
  a4 : Word
  a5 : Word

def Call.sysno (c : Call) : Option Sysno := Sysno.ofWord c.syscallno

def Call.run (c : Call) : Kern Int := syscall c.syscallno c.a1 c.a2 c.a3 c.a4 c.a5

/-- The environment that executes may manage `e`. -/
def Manages (k : Kernel) (e : Nat) : Prop :=
  ∃ cur, k.curenv = some cur ∧
    (e = cur ∨ e < nenv ∧ (k.envs e).envParentId = (k.envs cur).envId)

theorem Names.manages (h : Names k envid true e) : Manages k e := by
  rcases h with ⟨_, hc⟩ | ⟨_, rfl, _, _, hp⟩
  · exact ⟨e, hc, Or.inl rfl⟩
  · obtain ⟨cur, hcur, hp⟩ := hp rfl
    exact ⟨cur, hcur, hp.imp_right fun hp => ⟨envx_lt envid, hp⟩⟩

/-- How `env_destroy` has returned, for an environment that does not execute it. -/
inductive Destroyed (k : Kernel) (e : Nat) : Kernel → Prop where
  | mark (hne : k.curenv ≠ some e) (hrun : (k.envs e).envStatus = .running) :
      Destroyed k e (k.setEnv e fun env => { env with envStatus := .dying })
  | free {d : Nat} {k' : Kernel} (hne : k.curenv ≠ some e)
      (hst : (k.envs e).envStatus ≠ .running) (h : EnvFreed k e d k') : Destroyed k e k'

/-- How `env_destroy` has left the kernel: the environment has destroyed itself. -/
inductive SelfDestroyed (k : Kernel) (e : Nat) : Kernel → Prop where
  | mk {d : Nat} {k1 k' : Kernel} (hcur : k.curenv = some e) (hfree : EnvFreed k e d k1)
      (hsched : Scheduled (k1.setCpu fun c => { c with cpuEnv := none }) k') : SelfDestroyed k e k'

theorem envDestroy_ends : wp (envDestroy e) (fun _ => Destroyed k e) (SelfDestroyed k e) k := by
  refine envDestroy_wp ?_ ?_ ?_
  · exact fun hrun hne => .mark hne hrun
  · exact fun d k' hn hne hfree => .free hne (fun hrun => hn ⟨hrun, hne⟩) hfree
  · exact fun d k1 k' hcur hfree hsched => .mk hcur hfree hsched

/-- `user_mem_assert` has returned: the check changes nothing in the table, and the
environment may have been destroyed. -/
inductive Asserted (k : Kernel) (e : Nat) : Kernel → Prop where
  | ok {k' : Kernel} (h : SameEnvs k k') : Asserted k e k'
  | destroyed {k1 k' : Kernel} (h : SameEnvs k k1) (hd : Destroyed k1 e k') : Asserted k e k'

theorem userMemAssert_ends (va len perm : Word) :
    wp (userMemAssert e va len perm) (fun _ => Asserted k e)
      (fun k' => ∃ k1, SameEnvs k k1 ∧ SelfDestroyed k1 e k') k := by
  unfold userMemAssert
  rw [wp_bind, wp_env, wp_bind]
  refine (Quiet.onPhys (userMemCheck_noExit _ _ _ _)).wp fun r k1 hs => ?_
  refine wp_ite.mpr ⟨fun _ => ?_, fun _ => wp_pure.mpr (.ok hs)⟩
  exact wp_mono envDestroy_ends (fun _ _ hd => .destroyed hs hd) fun _ hd => ⟨k1, hs, hd⟩

/-- The frame that `sys_env_set_trapframe` stores for the frame it has read. -/
def Trapframe.stored (tf : Trapframe) : Trapframe :=
  { tf with tfCs := gdUt ||| 3, tfEflags := (tf.tfEflags ||| flIf) &&& flIopl0 }

/-- What a system call that has returned in `k'` has done to the environments. -/
inductive Returned (c : Call) (k : Kernel) : Kernel → Prop where
  | quiet {k' : Kernel} (h : SameEnvs k k') : Returned c k k'
  | field {k' : Kernel} {e : Nat} {f : Env → Env} (hm : Manages k e)
      (hf : ∀ env, ∃ u b, f env = { env with envPgfaultUpcall := u, envBreak := b })
      (h : SameEnvs (k.setEnv e f) k') : Returned c k k'
  | status {e : Nat} {s : EnvStatus} (hno : c.sysno = some .envSetStatus)
      (hnames : Names k c.a1 true e) (hs : settableStatus c.a2 = some s) :
      Returned c k (k.setEnv e fun env => { env with envStatus := s })
  | sent {k' : Kernel} {cur e : Nat} {p1 : Phys} (hno : c.sysno = some .ipcTrySend)
      (hcur : k.curenv = some cur) (hnames : Names k c.a1 false e)
      (hrecv : (k.envs e).envIpcRecving) (hsent : PageSent k cur e c.a3 c.a4 p1)
      (h : k' = { k with phys := p1 }.deliver cur e c.a2 c.a4) : Returned c k k'
  | forked {cur e q : Nat} {k1 : Kernel} (hno : c.sysno = some .exofork)
      (hcur : k.curenv = some cur) (ha : EnvAllocated k (k.envs cur).envId e q k1) :
      Returned c k (k1.setEnv e fun env =>
        { env with envStatus := .notRunnable, envTf := (k1.envs cur).envTf.withEax 0 })
  | destroyed {e : Nat} {k' : Kernel} (hno : c.sysno = some .envDestroy)
      (hnames : Names k c.a1 true e) (hd : Destroyed k e k') : Returned c k k'
  | loaded {e : Nat} {k1 k2 : Kernel} {frame : Trapframe}
      (hno : c.sysno = some .envSetTrapframe) (hnames : Names k c.a1 true e)
      (ha : Asserted k e k1) (hs : SameEnvs k1 k2) :
      Returned c k (k2.setEnv e fun env => { env with envTf := frame.stored })

/-- How a system call has left the kernel. -/
inductive Left (c : Call) (k : Kernel) : Kernel → Prop where
  | yield {k' : Kernel} (hsched : Scheduled k k') : Left c k k'
  | recv {k' : Kernel} {cur : Nat} {dstva : Word} (hno : c.sysno = some .ipcRecv)
      (hcur : k.curenv = some cur)
      (hsched : Scheduled (k.setEnv cur fun env =>
        { env with envIpcRecving := true, envIpcDstva := dstva, envStatus := .notRunnable }) k') :
      Left c k k'
  | destroyed {k' k1 : Kernel} {cur : Nat} (hs : SameEnvs k k1) (hd : SelfDestroyed k1 cur k') :
      Left c k k'

variable {c : Call}

theorem Asserted.of_cur (h : Asserted k cur k') (hcur : k.curenv = some cur) : SameEnvs k k' := by
  cases h with
  | ok hs => exact hs
  | destroyed hs hd =>
    have hcur' := hs.curenv.trans hcur
    cases hd with
    | mark hne _ => exact absurd hcur' hne
    | free hne _ _ => exact absurd hcur' hne

theorem sysCputs_ends (s len : Word) :
    wp (sysCputs s len) (fun _ => Returned c k) (Left c k) k := by
  unfold sysCputs
  rw [wp_bind, wp_curenv]
  intro cur hcur
  rw [wp_bind]
  refine wp_mono (userMemAssert_ends s len 0) ?_ ?_
  · intro _ k1 hk1
    have hs := hk1.of_cur hcur
    refine wp_ite.mpr ⟨fun _ => ?_, fun _ => wp_pure.mpr (.quiet hs)⟩
    exact (cprintfChars_quiet _ _ _).wp fun _ _ hs' => .quiet (hs.trans hs')
  · rintro k' ⟨k1, hs, hd⟩
    exact .destroyed hs hd

theorem Quiet.ends {m : Kern Int} (h : Quiet m) :
    Code.wp m (fun _ => Returned c k) (Left c k) k := h.wp fun _ _ hs => .quiet hs

theorem sysGetenvid_quiet : Quiet sysGetenvid :=
  .bind .curenv fun _ => .bind (.env _) fun _ => .pure _

theorem envid2env_quiet (envid : Word) (checkperm : Bool) : Quiet (envid2env envid checkperm) :=
  ⟨fun k => envid2env_wp (.refl k) fun _ _ => .refl k⟩

theorem sysPageAlloc_quiet (envid va perm : Word) : Quiet (sysPageAlloc envid va perm) := by
  refine .ite (.pure _) (.ite (.pure _) ?_)
  refine .bind (.onPhys (pageAlloc_noExit _)) fun r => ?_
  cases r with
  | none => exact .pure _
  | some q =>
    refine .bind (envid2env_quiet _ _) fun r => ?_
    cases r with
    | error _ => exact .pure _
    | ok e =>
      refine .bind (.env e) fun _ => .bind (.onPhys (pageInsert_noExit _ _ _ _)) fun _ => ?_
      exact .ite (.bind (.onPhys (pageFree_noExit q)) fun _ => .pure _) (.pure _)

theorem sysPageMap_quiet (srcenvid srcva dstenvid dstva perm : Word) :
    Quiet (sysPageMap srcenvid srcva dstenvid dstva perm) := by
  refine .bind (envid2env_quiet _ _) fun r => ?_
  cases r with
  | error _ => exact .pure _
  | ok src =>
    refine .bind (envid2env_quiet _ _) fun r => ?_
    cases r with
    | error _ => exact .pure _
    | ok dst =>
      refine .ite (.pure _) (.bind (.env src) fun _ => ?_)
      refine .bind (.onPhys (pageLookup_noExit _ _)) fun r => ?_
      rcases r with _ | ⟨q, pte⟩
      · exact .pure _
      · refine .bind (.onPhys (loadPte_noExit pte)) fun _ => .ite (.pure _) (.ite (.pure _) ?_)
        refine .bind (.env dst) fun _ => .bind (.onPhys (pageInsert_noExit _ _ _ _)) fun _ => ?_
        exact .ite (.pure _) (.pure _)

theorem sysPageUnmap_quiet (envid va : Word) : Quiet (sysPageUnmap envid va) := by
  refine .bind (envid2env_quiet _ _) fun r => ?_
  cases r with
  | error _ => exact .pure _
  | ok e =>
    refine .ite (.pure _) (.bind (.env e) fun _ => ?_)
    exact .bind (.onPhys (pageRemove_noExit _ _)) fun _ => .pure _

theorem sysMapKernelPage_quiet (kpage va : Word) : Quiet (sysMapKernelPage kpage va) := by
  have htail : Quiet (do
      let p ← onPhys (pa2page (pgnum (kpage - toWord kernbase)))
      onPhys (pageInsert (← env (← curenv)).envPgdir p va (pteU ||| pteW)) : Kern Int) :=
    .bind (.onPhys (pa2page_noExit _)) fun _ => .bind .curenv fun _ => .bind (.env _) fun _ =>
      .onPhys (pageInsert_noExit _ _ _ _)
  exact .ite (.bind (.panic _) fun _ => htail) htail

theorem sysNetSend_quiet (buf len : Word) : Quiet (sysNetSend buf len) :=
  .bind .curenv fun _ => .bind (.env _) fun _ =>
    .bind (.onPhys (userMemCheck_noExit _ _ _ _)) fun _ => .ite (.pure _) (e1000Tx_quiet _ _)

theorem sysNetRecv_quiet (buf len : Word) : Quiet (sysNetRecv buf len) :=
  .bind .curenv fun _ => .bind (.env _) fun _ =>
    .bind (.onPhys (userMemCheck_noExit _ _ _ _)) fun _ => .ite (.pure _) (e1000Rx_quiet _)

theorem sysSbrk_ends (inc : Word) : wp (sysSbrk inc) (fun _ => Returned c k) (Left c k) k := by
  unfold sysSbrk
  rw [wp_bind, wp_curenv]
  intro cur hcur
  rw [wp_bind, wp_env, wp_bind]
  refine (Quiet.onPhys (.times fun _ => sbrkPage_noExit _ _)).wp fun _ k1 hs => ?_
  simp only [wp_bind, wp_setEnv, wp_env, wp_pure]
  refine .field (e := cur) (f := fun env => { env with envBreak := rounddown (env.envBreak - inc) })
    ⟨cur, hcur, Or.inl rfl⟩ (fun env => ⟨env.envPgfaultUpcall, _, rfl⟩) ?_
  exact hs.setEnv cur _

theorem sysExofork_ends (hno : c.sysno = some .exofork) :
    wp sysExofork (fun _ => Returned c k) (Left c k) k := by
  unfold sysExofork
  rw [wp_bind, wp_curenv]
  intro cur hcur
  rw [wp_bind, wp_env, wp_bind]
  refine envAlloc_wp (fun r k' hs _ => wp_pure.mpr (.quiet hs)) fun e q k1 ha => ?_
  simp only [wp_bind, wp_setEnv, wp_modify, wp_env, wp_pure]
  have hforked := Returned.forked hno hcur ha
  have htf : ((k1.setEnv e fun env => { env with envStatus := .notRunnable }).envs cur).envTf =
      (k1.envs cur).envTf := k1.setEnv_field e _ Env.envTf rfl cur
  simpa only [htf, Kernel.setEnv_setEnv] using hforked

theorem sysEnvSetStatus_ends (hno : c.sysno = some .envSetStatus) :
    wp (sysEnvSetStatus c.a1 c.a2) (fun _ => Returned c k) (Left c k) k := by
  unfold sysEnvSetStatus
  cases hs : settableStatus c.a2 with
  | none => exact wp_pure.mpr (.quiet (.refl k))
  | some s =>
    rw [wp_bind]
    refine envid2env_wp (wp_pure.mpr (.quiet (.refl k))) fun e hnames => ?_
    rw [wp_bind, wp_setEnv, wp_pure]
    exact .status hno hnames hs

theorem sysEnvSetPgfaultUpcall_ends (envid func : Word) :
    wp (sysEnvSetPgfaultUpcall envid func) (fun _ => Returned c k) (Left c k) k := by
  unfold sysEnvSetPgfaultUpcall
  rw [wp_bind]
  refine envid2env_wp (wp_pure.mpr (.quiet (.refl k))) fun e hnames => ?_
  rw [wp_bind, wp_setEnv, wp_pure]
  exact .field hnames.manages (fun env => ⟨func, env.envBreak, rfl⟩) (.refl _)

theorem sysEnvDestroy_ends (hno : c.sysno = some .envDestroy) :
    wp (sysEnvDestroy c.a1) (fun _ => Returned c k) (Left c k) k := by
  unfold sysEnvDestroy
  rw [wp_bind]
  refine envid2env_wp (wp_pure.mpr (.quiet (.refl k))) fun e hnames => ?_
  rw [wp_bind]
  refine wp_mono envDestroy_ends (fun _ k' hd => ?_) fun k' hd => .destroyed (.refl k) hd
  exact wp_pure.mpr (.destroyed hno hnames hd)

theorem sysEnvSetTrapframe_ends (hno : c.sysno = some .envSetTrapframe) :
    wp (sysEnvSetTrapframe c.a1 c.a2) (fun _ => Returned c k) (Left c k) k := by
  unfold sysEnvSetTrapframe storeFrame
  rw [wp_bind]
  refine envid2env_wp (wp_pure.mpr (.quiet (.refl k))) fun e hnames => ?_
  rw [wp_bind]
  refine wp_mono (userMemAssert_ends _ _ _) (fun _ k1 ha => ?_)
    fun k' ⟨k1, hs, hd⟩ => .destroyed hs hd
  rw [wp_bind]
  refine (loadTrapframe_quiet _).wp fun frame k2 hs => ?_
  simp only [wp_bind, wp_setEnv, wp_pure, Kernel.setEnv_setEnv]
  exact .loaded hno hnames ha hs

theorem sysIpcTrySend_ends (hno : c.sysno = some .ipcTrySend) :
    wp (sysIpcTrySend c.a1 c.a2 c.a3 c.a4) (fun _ => Returned c k) (Left c k) k := by
  refine sysIpcTrySend_wp (fun _ _ => .quiet (.refl k)) ?_
  exact fun cur e p1 hcur hnames hrecv hsent => .sent hno hcur hnames hrecv hsent rfl

theorem sysIpcRecv_ends (hno : c.sysno = some .ipcRecv) (dstva : Word) :
    wp (sysIpcRecv dstva) (fun _ => Returned c k) (Left c k) k := by
  unfold sysIpcRecv
  refine wp_ite.mpr ⟨fun _ => wp_pure.mpr (.quiet (.refl k)), fun _ => ?_⟩
  rw [wp_bind, wp_curenv]
  intro cur hcur
  rw [wp_bind, wp_setEnv, wp_bind]
  exact wp_mono schedYield_wp (fun _ _ hf => hf.elim) fun k' hk' => .recv hno hcur hk'

theorem Call.run_ends : wp c.run (fun _ => Returned c k) (Left c k) k := by
  unfold Call.run syscall
  have hno : c.sysno = Sysno.ofWord c.syscallno := rfl
  cases h : Sysno.ofWord c.syscallno with
  | none => exact (Quiet.pure _).ends
  | some no =>
    rw [h] at hno
    cases no with
    | cputs =>
      rw [wp_bind]
      exact wp_imp (sysCputs_ends _ _) fun _ _ hr => wp_pure.mpr hr
    | cgetc => exact sysCgetc_quiet.ends
    | getenvid => exact sysGetenvid_quiet.ends
    | envDestroy => exact sysEnvDestroy_ends hno
    | pageAlloc => exact (sysPageAlloc_quiet _ _ _).ends
    | pageMap => exact (sysPageMap_quiet _ _ _ _ _).ends
    | pageUnmap => exact (sysPageUnmap_quiet _ _).ends
    | exofork => exact sysExofork_ends hno
    | envSetStatus => exact sysEnvSetStatus_ends hno
    | envSetTrapframe => exact sysEnvSetTrapframe_ends hno
    | envSetPgfaultUpcall => exact sysEnvSetPgfaultUpcall_ends _ _
    | yield =>
      rw [wp_bind]
      exact wp_mono schedYield_wp (fun _ _ hf => hf.elim) fun _ hk' => .yield hk'
    | ipcTrySend => exact sysIpcTrySend_ends hno
    | ipcRecv => exact sysIpcRecv_ends hno _
    | mapKernelPage => exact (sysMapKernelPage_quiet _ _).ends
    | sbrk => exact sysSbrk_ends _
    | timeMsec => exact (Quiet.bind .get fun _ => .pure _).ends
    | netSend => exact (sysNetSend_quiet _ _).ends
    | netRecv => exact (sysNetRecv_quiet _ _).ends

end Jos
