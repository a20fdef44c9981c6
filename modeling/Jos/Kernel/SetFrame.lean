import Jos.Kernel.Teardown
import Jos.Kernel.RoundRobin
import Jos.Kernel.Receiving
import Jos.Logic.Bytes
import Jos.Paging.Checks

/-!
# Which memory `sys_env_set_trapframe` reads

The frame is read through the address space of the caller, but `user_mem_assert` looks at the tables
of the target, asks for a writable page, and destroys the target. The call does what it should if
both agree.
-/

namespace Jos

open Logic Kernel BitVec

variable {k k' : Kernel} {p : Phys} {c d d' e n page v : Nat} {envid tf va perm len : Word}
  {m : Image}

/-- The byte that the directory `d` maps at `va`. -/
def Phys.byteAt (p : Phys) (d : Nat) (va : Word) : Byte :=
  match p.translate d va false with
  | none => 0
  | some page => (p.mem page (wordIndex va) >>> byteShift va).setWidth 8

/-- The trap frame that the bytes of `m` form. -/
def Trapframe.ofBytes (m : Image) : Trapframe where
  tfRegs := ⟨word m 0, word m 4, word m 8, word m 12, word m 16, word m 20, word m 24, word m 28⟩
  tfEs := halfWord m 32
  tfDs := halfWord m 36
  tfTrapno := word m 40
  tfErr := word m 44
  tfEip := word m 48
  tfCs := halfWord m 52
  tfEflags := word m 56
  tfEsp := word m 60
  tfSs := halfWord m 64

theorem loadByte_run (h : k.phys.translate k.cr3 va false = some page) :
    loadByte va k = .ret (k.phys.byteAt k.cr3 va) k := by
  unfold loadByte Phys.byteAt
  rw [bind_apply, get_apply, h]
  dsimp only
  rw [show (k.cpus k.cpunum).cr3 = k.cr3 from rfl, h]
  rfl

section Loads

variable (hm : ∀ i < n, loadByte (va + toWord i) k = .ret (m i) k)

include hm

theorem load16_run {o : Nat} (ho : o + 2 ≤ n) :
    load16 (va + toWord o) k = .ret (halfWord m o) k := by
  have hnext : va + toWord o + 1 = va + toWord (o + 1) := by
    rw [toWord_add, BitVec.add_assoc]
    rfl
  refine bind_run (hm o (by omega)) ?_
  rw [hnext]
  rw [halfWord_eq]
  exact bind_run (hm (o + 1) (by omega)) rfl

theorem load32_run {o : Nat} (ho : o + 4 ≤ n) :
    load32 (va + toWord o) k = .ret (word m o) k := by
  have hnext : va + toWord o + 2 = va + toWord (o + 2) := by
    rw [toWord_add, BitVec.add_assoc]
    rfl
  refine bind_run (load16_run hm (by omega)) ?_
  rw [hnext, word_eq_halfWords]
  exact bind_run (load16_run hm (by omega)) rfl

theorem loadPushRegs_run (hn : 32 ≤ n) : loadPushRegs va k = .ret
    ⟨word m 0, word m 4, word m 8, word m 12, word m 16, word m 20, word m 24, word m 28⟩ k := by
  have hfirst : load32 va k = .ret (word m 0) k := by
    have h0 := load32_run hm (o := 0) (by omega)
    rwa [show va + toWord 0 = va from BitVec.add_zero va] at h0
  refine bind_run hfirst ?_
  refine bind_run (load32_run hm (o := 4) (by omega)) ?_
  refine bind_run (load32_run hm (o := 8) (by omega)) ?_
  refine bind_run (load32_run hm (o := 12) (by omega)) ?_
  refine bind_run (load32_run hm (o := 16) (by omega)) ?_
  refine bind_run (load32_run hm (o := 20) (by omega)) ?_
  refine bind_run (load32_run hm (o := 24) (by omega)) ?_
  exact bind_run (load32_run hm (o := 28) (by omega)) rfl

theorem loadTrapframe_run (hn : 68 ≤ n) : loadTrapframe va k = .ret (.ofBytes m) k := by
  refine bind_run (loadPushRegs_run hm (by omega)) ?_
  refine bind_run (load16_run hm (o := 32) (by omega)) ?_
  refine bind_run (load16_run hm (o := 36) (by omega)) ?_
  refine bind_run (load32_run hm (o := 40) (by omega)) ?_
  refine bind_run (load32_run hm (o := 44) (by omega)) ?_
  refine bind_run (load32_run hm (o := 48) (by omega)) ?_
  refine bind_run (load16_run hm (o := 52) (by omega)) ?_
  refine bind_run (load32_run hm (o := 56) (by omega)) ?_
  refine bind_run (load32_run hm (o := 60) (by omega)) ?_
  exact bind_run (load16_run hm (o := 64) (by omega)) rfl

end Loads

/-- The whole frame is readable through the directory `d`. -/
def FrameReadable (p : Phys) (d : Nat) (tf : Word) : Prop :=
  ∀ a, tf.toNat ≤ a → a < tf.toNat + sizeofTrapframe.toNat → AccessGranted p d (pteU ||| pteP) a

/-- The check of the frame admits all pages that it looks at. -/
def FrameAdmitted (p : Phys) (d : Nat) (tf : Word) : Prop :=
  ∀ v, tf.toNat / pgsize ≤ v → v < (roundup (tf + sizeofTrapframe)).toNat / pgsize →
    Admits p d (pteW ||| pteU) v

/-- The check of the frame fails: the first page that it does not admit has no table, or one
that is a page of memory. -/
def FrameRefused (p : Phys) (d : Nat) (tf : Word) : Prop :=
  ∃ v, FirstRefused p d (pteW ||| pteU) (tf.toNat / pgsize)
    ((roundup (tf + sizeofTrapframe)).toNat / pgsize) v ∧ TableIn p d v

/-- The caller `c`, with the directory `d`, sets the frame of `e`. -/
structure SetFrameSafe (k : Kernel) (envid tf : Word) (c d e : Nat) : Prop where
  readable : FrameReadable k.phys d tf → ∃ k', sysEnvSetTrapframe envid tf k = .ret 0 k' ∧
    (k'.envs e).envTf =
      (Trapframe.ofBytes fun i => k.phys.byteAt d (tf + toWord i)).stored ∧
    ∀ x, (k'.envs x).envStatus = (k.envs x).envStatus
  unreadable : ¬ FrameReadable k.phys d tf → ∃ k', sysEnvSetTrapframe envid tf k = .exit k' ∧
    (k'.envs c).envStatus = .free ∧ (∀ x, x ≠ c → SchedOnly (k.envs x) (k'.envs x)) ∧
    ∀ x, (k'.envs x).envTf = (k.envs x).envTf

theorem FirstRefused.unique {first last v v' : Nat} (h : FirstRefused p d perm first last v)
    (h' : FirstRefused p d perm first last v') : v = v' := by
  rcases Nat.lt_trichotomy v v' with hlt | heq | hlt
  · exact absurd (h'.before v h.ge hlt) h.refused
  · exact heq
  · exact absurd (h.before v' h'.ge hlt) h'.refused

theorem FrameRefused.not_admitted (h : FrameRefused p d tf) : ¬ FrameAdmitted p d tf := by
  obtain ⟨v, hbad, -⟩ := h
  exact fun hall => hbad.refused (hall v hbad.ge hbad.lt)

theorem userMemAssert_range (hpgdir : (k.envs e).envPgdir = some d) (va len perm : Word) :
    ((∀ v, va.toNat / pgsize ≤ v → v < (roundup (va + len)).toNat / pgsize →
        Admits k.phys d (perm ||| pteU) v) ∧ userMemAssert e va len perm k = .ret () k) ∨
    ∃ v, FirstRefused k.phys d (perm ||| pteU) (va.toNat / pgsize)
        ((roundup (va + len)).toNat / pgsize) v ∧
      ((TableIn k.phys d v ∧ ∃ a, userMemAssert e va len perm k =
          envDestroy e { k with phys := k.phys.refuse a }) ∨
        (¬ TableIn k.phys d v ∧ ∃ msg, userMemAssert e va len perm k = .panic msg)) := by
  have hcheck : ∀ {r p'}, userMemCheck (some d) va len (perm ||| pteU) k.phys = .ret r p' →
      userMemAssert e va len perm k =
        (if r < 0 then envDestroy e else pure () : Kern Unit) { k with phys := p' } := by
    intro r p' hrun
    rw [← hpgdir] at hrun
    refine bind_run (bind_run (get_apply k) rfl) ?_
    exact bind_run (zoom_of_ret hrun) rfl
  rcases userMemCheck_cases k.phys d va len (perm ||| pteU) with
    ⟨hall, hrun⟩ | ⟨v, hbad, ⟨hin, a, -, hrun⟩ | ⟨hout, hrun⟩⟩
  · refine .inl ⟨hall, (hcheck hrun).trans ?_⟩
    rw [if_neg (by decide)]
    rfl
  · refine .inr ⟨v, hbad, .inl ⟨hin, a, (hcheck hrun).trans ?_⟩⟩
    rw [if_pos (by decide)]
  · refine .inr ⟨v, hbad, .inr ⟨hout, "KADDR called with invalid pa", ?_⟩⟩
    rw [← hpgdir] at hrun
    refine bind_run (bind_run (get_apply k) rfl) ?_
    exact bind_panic (Code.zoom_of_panic hrun)

theorem userMemAssert_cases (hpgdir : (k.envs e).envPgdir = some d) (tf : Word) :
    (FrameAdmitted k.phys d tf ∧ userMemAssert e tf sizeofTrapframe pteW k = .ret () k) ∨
    (FrameRefused k.phys d tf ∧ ∃ a, userMemAssert e tf sizeofTrapframe pteW k =
      envDestroy e { k with phys := k.phys.refuse a }) ∨
    (¬ FrameAdmitted k.phys d tf ∧ ¬ FrameRefused k.phys d tf ∧
      ∃ msg, userMemAssert e tf sizeofTrapframe pteW k = .panic msg) := by
  rcases userMemAssert_range hpgdir tf sizeofTrapframe pteW with
    hadm | ⟨v, hbad, ⟨hin, hrun⟩ | ⟨hout, hrun⟩⟩
  · exact .inl hadm
  · exact .inr (.inl ⟨⟨v, hbad, hin⟩, hrun⟩)
  · refine .inr (.inr ⟨fun hall => hbad.refused (hall v hbad.ge hbad.lt),
      fun ⟨v', hbad', hin⟩ => ?_, hrun⟩)
    exact hout (hbad.unique hbad' ▸ hin)

theorem AccessGranted.translate {a : Nat} (h : AccessGranted p d perm a) (hva : va.toNat = a) :
    ∃ page, p.translate d va false = some page := by
  obtain ⟨-, w, hw, -⟩ := h
  obtain ⟨t, ht, hmem, hp⟩ := pteOf_eq_some.mp hw
  have hpage : a / pgsize = pgnum va := by rw [pgnum_eq, hva]; rfl
  rw [hpage] at ht hmem
  rw [← pdx_eq] at ht
  rw [← ptx_eq] at hmem
  obtain ⟨hpde, rfl⟩ := tableOf_eq_some.mp ht
  refine ⟨pageOf w, ?_⟩
  unfold Phys.translate
  simp [hpde, hmem, hp]

theorem FrameReadable.load (h : FrameReadable k.phys k.cr3 tf) : loadTrapframe tf k =
      .ret (.ofBytes fun i => k.phys.byteAt k.cr3 (tf + toWord i)) k := by
  refine loadTrapframe_run (n := 68) (fun i hi => ?_) le_rfl
  have hsize : sizeofTrapframe.toNat = 68 := rfl
  have hlast := (h (tf.toNat + 67) (by omega) (by omega)).1
  have hulim : ulim = 4018143232 := rfl
  have hsum : (tf + toWord i).toNat = tf.toNat + i := by
    rw [toNat_add, toNat_ofNat]
    omega
  obtain ⟨page, hpage⟩ := (h (tf.toNat + i) (by omega) (by omega)).translate hsum
  exact loadByte_run hpage

theorem sysEnvSetTrapframe_of_names (hnames : Names k envid true e) (tf : Word) :
    sysEnvSetTrapframe envid tf k =
      (do userMemAssert e tf sizeofTrapframe pteW; storeFrame e tf : Kern Int) k :=
  bind_run (envid2env_ok hnames) rfl

theorem storeFrame_run {frame : Trapframe} (h : loadTrapframe tf k = .ret frame k) :
    storeFrame e tf k = .ret 0 (k.setEnv e fun env => { env with envTf := frame.stored }) := by
  refine bind_run h ?_
  iterate 4 refine bind_run (modify_apply _ _) ?_
  simp only [setEnv_setEnv]
  rfl

theorem storeFrame_wp : wp (storeFrame e tf)
    (fun _ k' => ∀ x, (k'.envs x).envStatus = (k.envs x).envStatus) (fun _ => False) k := by
  unfold storeFrame
  rw [wp_bind]
  refine (loadTrapframe_quiet _).wp fun frame k1 hs => ?_
  simp only [wp_bind, wp_setEnv, wp_pure, setEnv_setEnv]
  intro x
  rw [← hs.envs]
  exact k1.setEnv_field _ _ Env.envStatus rfl x

theorem schedHalt_exits (k : Kernel) : ∃ k', schedHalt k = .exit k' := by
  by_cases hidle : ∀ i < nenv, (k.envs i).envStatus.active = false
  · refine ⟨k.monitored, bind_run (get_apply k) ?_⟩
    rw [if_pos hidle]
    rfl
  · refine ⟨k.halted, bind_run (get_apply k) ?_⟩
    rw [if_neg hidle]
    rfl

theorem schedYield_exits (hcur : k.curenv = none)
    (hdir : ∀ i < nenv, k.RunnableAt i → ∃ d, (k.envs i).envPgdir = some d) :
    ∃ k', schedYield k = .exit k' := by
  have hnamed : CurrentNamed k := fun c hc => by rw [hcur] at hc; cases hc
  have hrr : RoundRobin k := hnamed.roundRobin (by rw [hcur]; exact nofun)
  by_cases hex : ∃ i < nenv, k.RunnableAt i
  · obtain ⟨i, hi, hrun⟩ := hex
    obtain ⟨e, he⟩ := First.exists (s := k.afterCurrent) hi hrun
    obtain ⟨d, hd⟩ := hdir e he.lt he.holds
    have hrun : envRun e k = .exit ((k.switchTo e d).resume e) := by
      rw [envRun_switch (by rw [hcur]; exact nofun), hd]
    exact ⟨_, (hrr.next e he).trans hrun⟩
  · obtain ⟨k', hk'⟩ := schedHalt_exits k
    refine ⟨k', (hrr.halt (fun i hi hrun => hex ⟨i, hi, hrun⟩) fun c hc => ?_).trans hk'⟩
    rw [hcur] at hc
    cases hc

theorem envDestroy_current (h : Sound k) (hcur : k.curenv = some c) (hc : k.Live c) :
    ∃ k', envDestroy c k = .exit k' ∧ (k'.envs c).envStatus = .free ∧
      (∀ x, x ≠ c → SchedOnly (k.envs x) (k'.envs x)) ∧
      ∀ x, (k'.envs x).envTf = (k.envs x).envTf := by
  obtain ⟨⟨extra, hs⟩, hb⟩ := h
  obtain ⟨d, hpgdir⟩ := hs.pgdir hc
  obtain ⟨p', hspace, -⟩ := freeSpace_spec hs.intact hb (mem_dirs.mpr ⟨c, hc, hpgdir⟩)
  obtain ⟨k1, hfree, hfreed, -⟩ := envFree_run hpgdir hspace
  have hgone : (k1.envs c).envStatus = .free := by rw [hfreed.entry]
  have hdir : ∀ i < nenv, (k1.setCpu fun c => { c with cpuEnv := none }).RunnableAt i →
      ∃ d, (k1.envs i).envPgdir = some d := by
    intro i hi hrun
    have hrun' : (k1.envs i).envStatus = .runnable := hrun
    have hne : i ≠ c := by
      rintro rfl
      rw [hgone] at hrun'
      cases hrun'
    rw [hfreed.other i hne] at hrun' ⊢
    exact hs.pgdir ⟨hi, by rw [hrun']; decide⟩
  obtain ⟨k', hyield⟩ := schedYield_exits (setCpu_curenv k1 _) hdir
  have hsched := exit_of_wp schedYield_wp hyield
  refine ⟨k', ?_, (hsched.envs c).free_iff.mpr hgone, fun x hx => ?_, fun x => ?_⟩
  · refine bind_run (get_apply k) ?_
    rw [if_neg fun hrun => hrun.2 hcur]
    refine bind_run hfree (bind_run (get_apply k1) ?_)
    rw [if_pos (hfreed.curenv.trans hcur)]
    exact bind_run (modify_apply _ _) hyield
  · have hx' := hsched.envs x
    rw [setCpu_envs, hfreed.other x hx] at hx'
    exact hx'
  · refine ((hsched.envs x).field Env.envTf fun _ _ _ => rfl).trans ?_
    rw [setCpu_envs]
    by_cases hx : x = c
    · rw [hx, hfreed.entry]
    · rw [hfreed.other x hx]

theorem Sound.refuse (h : Sound k) (a : Word) : Sound { k with phys := k.phys.refuse a } := by
  obtain ⟨⟨extra, hs⟩, hb⟩ := h
  have hsame : SameSlots k { k with phys := k.phys.refuse a } :=
    .of_sameEnvs ⟨rfl, rfl, rfl, rfl, rfl⟩
  have hacc : Accounts (kernPages k.phys) extra k.dirs (k.phys.refuse a) :=
    { hs.intact.toAccounts with }
  refine ⟨⟨extra, hsame.slots hs.toSlots, ?_⟩, ?_⟩
  · rw [hsame.dirs_eq]
    exact hs.intact.of_same hacc (.of_mem_eq rfl rfl rfl)
  · rw [hsame.dirs_eq]
    exact hb

theorem destroyed_target (tf : Word) (hcur : k.curenv = some c) (hne : e ≠ c)
    (hlive : (k.envs e).envStatus ≠ .free) :
    wp (do envDestroy e; storeFrame e tf : Kern Int)
      (fun _ k' => (k'.envs e).envStatus ≠ (k.envs e).envStatus) (fun _ => False) k := by
  have hother : k.curenv ≠ some e := fun hc => hne (Option.some.inj (hc.symm.trans hcur))
  have htail : ∀ k1 : Kernel, (k1.envs e).envStatus ≠ (k.envs e).envStatus →
      wp (storeFrame e tf) (fun _ k' => (k'.envs e).envStatus ≠ (k.envs e).envStatus)
        (fun _ => False) k1 := fun k1 h1 =>
    wp_imp storeFrame_wp fun _ k' hk' => (hk' e).symm ▸ h1
  rw [wp_bind]
  refine envDestroy_wp (fun hrun _ => htail _ ?_) (fun d k1 _ _ hfreed => htail k1 ?_)
    fun _ _ _ hc => absurd hc hother
  · rw [setEnv_self, hrun]
    exact EnvStatus.noConfusion
  · rw [hfreed.entry]
    exact fun heq => hlive heq.symm

theorem destroyed_caller (hcur : k.curenv = some c) :
    wp (do envDestroy c; storeFrame c tf : Kern Int) (fun _ _ => False) (fun _ => True) k := by
  rw [wp_bind]
  exact envDestroy_wp (fun _ hc => absurd hcur hc) (fun _ _ _ hc => absurd hcur hc)
    fun _ _ _ _ _ _ => trivial

/-- The call behaves as specified exactly if the caller can read the frame and the target's tables
admit it, or the caller is its own target and both fail. -/
theorem set_trapframe_safe_iff (h : Sound k) (hcur : k.curenv = some c) (hc : k.Live c)
    (hpgdir : (k.envs c).envPgdir = some d) (hcr3 : k.cr3 = d) (hnames : Names k envid true e)
    (hpgdir' : (k.envs e).envPgdir = some d') :
    SetFrameSafe k envid tf c d e ↔ FrameReadable k.phys d tf ∧ FrameAdmitted k.phys d' tf ∨
      e = c ∧ ¬ FrameReadable k.phys d tf ∧ FrameRefused k.phys d tf := by
  have hrun := sysEnvSetTrapframe_of_names hnames tf
  have hlive : (k.envs e).envStatus ≠ .free := by
    rcases hnames with ⟨-, hcur'⟩ | ⟨-, -, hlive, -⟩
    · cases hcur.symm.trans hcur'
      exact hc.2
    · exact hlive
  have hassert := userMemAssert_cases hpgdir' tf
  constructor
  · intro hsafe
    rcases hassert with ⟨hadm, hend⟩ | ⟨href, a, hend⟩ | ⟨-, -, msg, hend⟩
    · refine .inl ⟨by_contra fun hread => ?_, hadm⟩
      obtain ⟨k', hexit, -⟩ := hsafe.unreadable hread
      rw [hrun, bind_run hend rfl] at hexit
      exact exit_of_wp storeFrame_wp hexit
    · have hend' : sysEnvSetTrapframe envid tf k = (do envDestroy e; storeFrame e tf : Kern Int)
          { k with phys := k.phys.refuse a } := by
        rw [hrun, bind_apply, hend]
        rfl
      by_cases hec : e = c
      · subst hec
        cases hpgdir.symm.trans hpgdir'
        refine .inr ⟨rfl, fun hread => ?_, href⟩
        obtain ⟨k', hret, -⟩ := hsafe.readable hread
        exact ret_of_wp (destroyed_caller (k := { k with phys := k.phys.refuse a }) hcur)
          (hend'.symm.trans hret)
      · have hwp := destroyed_target (k := { k with phys := k.phys.refuse a }) tf hcur hec hlive
        by_cases hread : FrameReadable k.phys d tf
        · obtain ⟨k', hret, -, hstatus⟩ := hsafe.readable hread
          exact absurd (hstatus e) (ret_of_wp hwp (hend'.symm.trans hret))
        · obtain ⟨k', hexit, -⟩ := hsafe.unreadable hread
          exact (exit_of_wp hwp (hend'.symm.trans hexit)).elim
    · rw [bind_panic hend] at hrun
      by_cases hread : FrameReadable k.phys d tf
      · obtain ⟨k', hret, -⟩ := hsafe.readable hread
        cases hrun.symm.trans hret
      · obtain ⟨k', hexit, -⟩ := hsafe.unreadable hread
        cases hrun.symm.trans hexit
  · rintro (⟨hread, hadm⟩ | ⟨rfl, hread, href⟩)
    · refine ⟨fun _ => ?_, fun hnot => absurd hread hnot⟩
      have hend : userMemAssert e tf sizeofTrapframe pteW k = .ret () k := by
        rcases hassert with ⟨-, hend⟩ | ⟨href, -⟩ | ⟨hnot, -⟩
        · exact hend
        · exact absurd hadm href.not_admitted
        · exact absurd hadm hnot
      subst hcr3
      refine ⟨_, hrun.trans (bind_run hend (storeFrame_run hread.load)), ?_, fun x => ?_⟩
      · rw [setEnv_self]
      · exact k.setEnv_field _ _ Env.envStatus rfl x
    · cases hpgdir.symm.trans hpgdir'
      refine ⟨fun hyes => absurd hyes hread, fun _ => ?_⟩
      obtain ⟨a, hend⟩ : ∃ a, userMemAssert e tf sizeofTrapframe pteW k =
          envDestroy e { k with phys := k.phys.refuse a } := by
        rcases hassert with ⟨hadm, -⟩ | ⟨-, hend⟩ | ⟨-, hnot, -⟩
        · exact absurd hadm href.not_admitted
        · exact hend
        · exact absurd href hnot
      obtain ⟨k', hexit, hgone, hothers, hframes⟩ :=
        envDestroy_current (h.refuse a) (c := e) hcur hc
      refine ⟨k', ?_, hgone, hothers, hframes⟩
      rw [hrun, bind_apply, hend, hexit]

theorem set_trapframe_safe_nursery : SetFrameSafe nursery 0x1001 0x800000 0 100 1 := by
  have hc : nursery.Live 0 := ⟨by decide, by decide +kernel⟩
  have hnames : Names nursery 0x1001 true 1 :=
    .inr ⟨by decide, by decide, by decide +kernel, by decide +kernel, by decide +kernel⟩
  have hpgdir : (nursery.envs 1).envPgdir = some 105 := by decide +kernel
  refine (set_trapframe_safe_iff nursery_sound nursery_cur hc (by decide +kernel)
    (by decide +kernel) hnames hpgdir).mpr (.inl ⟨fun a hlo hhi => ?_, ?_⟩)
  · rw [show (0x800000 : Word).toNat = 8388608 from rfl] at hlo hhi
    rw [show sizeofTrapframe.toNat = 68 from rfl] at hhi
    have hpage : a / pgsize = 2048 := by
      unfold pgsize
      omega
    refine ⟨lt_of_lt_of_le hhi (by decide), 0x65007, ?_, by decide⟩
    rw [hpage]
    decide +kernel
  · intro v hlo hhi
    have hlo' : 2048 ≤ v := hlo
    have hhi' : v < 2049 := hhi
    obtain rfl : v = 2048 := by omega
    exact ⟨by decide, 107, by decide +kernel, by decide +kernel, by decide +kernel⟩

/-- The environment unmaps the page of its frame, which its child still maps: the check
passes, and the kernel faults when it reads the frame. -/
theorem set_trapframe_reads_unmapped : ∃ k, sysPageUnmap 0 0x800000 nursery = .ret 0 k ∧
    ¬ FrameReadable k.phys 100 0x800000 ∧
    sysEnvSetTrapframe 0x1001 0x800000 k = .panic kernelFault ∧
    ¬ SetFrameSafe k 0x1001 0x800000 0 100 1 := by
  have hrun : (sysPageUnmap 0 0x800000 nursery).check fun r k => r == 0 &&
      pteOf k.phys.mem 100 2048 == none &&
      (sysEnvSetTrapframe 0x1001 0x800000 k).panics fun msg => msg == kernelFault := by
    decide +kernel
  obtain ⟨r, k, hunmap, hrun⟩ := Outcome.ret_of_check hrun
  simp only [Bool.and_eq_true, beq_iff_eq] at hrun
  obtain ⟨⟨rfl, hpte⟩, hrun⟩ := hrun
  obtain ⟨msg, hpanic, hmsg⟩ := Outcome.panic_of_panics hrun
  obtain rfl := beq_iff_eq.mp hmsg
  have hread : ¬ FrameReadable k.phys 100 0x800000 := by
    intro hread
    obtain ⟨-, w, hw, -⟩ := hread 0x800000 le_rfl (by decide)
    exact nomatch hpte.symm.trans hw
  refine ⟨k, hunmap, hread, hpanic, fun hsafe => ?_⟩
  obtain ⟨k', hexit, -⟩ := hsafe.unreadable hread
  cases hpanic.symm.trans hexit

end Jos
