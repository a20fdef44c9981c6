import Jos.Kernel.Effects
import Jos.Kernel.Spaces

/-!
# The system calls for memory, environments and messages

What each of these calls does to intact address spaces: the changes are those of `Changes`, with
whatever arguments, whether the call returns or leaves for the scheduler.
-/

namespace Jos

open Logic

variable {K : Set Nat} {extra : Nat → Nat} {k k' : Kernel} {e d q pp : Nat} {w va perm : Word}
  {dirs : Finset Nat} {p : Phys} {E : Phys → Prop} {Q : Int → Phys → Prop} {p' : Phys}

theorem permOk_spec (h : permOk perm) : perm.toNat < 4096 ∧ perm ||| pteP = perm := by
  unfold permOk at h
  rw [Bool.and_eq_true, beq_iff_eq, beq_iff_eq] at h
  obtain ⟨hup, hout⟩ := h
  constructor
  · rw [← and_eq_self hout, BitVec.toNat_and]
    exact lt_of_le_of_lt Nat.and_le_right (by decide)
  · have hp : pteP = perm &&& pteP := by
      have hmask : (pteU ||| pteP) &&& pteP = pteP := by decide
      rw [← hmask, ← BitVec.and_assoc, hup]
    ext i hi
    have hbit := congrArg (fun x => BitVec.getLsbD x i) hp
    simp only [BitVec.getLsbD_and] at hbit
    rw [BitVec.getElem_or, ← BitVec.getLsbD_eq_getElem, ← BitVec.getLsbD_eq_getElem, hbit]
    cases perm.getLsbD i <;> simp

/-- The flags of an entry are the permission word it was installed with. -/
theorem pteWord_flags (pp : Nat) (h : permOk perm) : pteWord pp perm &&& 0xfff = perm := by
  obtain ⟨hlt, hp⟩ := permOk_spec h
  rw [pteWord_and pp hlt, hp]

theorem Intact.insert_wp (h : Intact K extra dirs p)
    (hb : FewMappings dirs p) (hd : d ∈ dirs) (hva : va.toNat < utop) (hpp : pp < p.npages)
    (hplain : Plain K dirs p pp) (hfree : ¬p.Free pp) (hperm : perm.toNat < 4096)
    (hfull : Q (-eNoMem) p)
    (hok : ∀ p', Intact K extra dirs p' →
      Inserted K extra dirs p d (pgnum va) (pteWord pp perm) p' → Q 0 p') :
    wp (pageInsert (some d) pp va perm) Q E p := by
  rcases pageInsert_spec h.toAccounts hd hva hpp hfree hperm fun q _ => h.total_add_le hb q with
    ⟨hrun, _, _⟩ | ⟨p', hrun, hins⟩
  · exact (wp_of_ret hrun).mpr hfull
  · exact (wp_of_ret hrun).mpr (hok p' (h.insert hplain hfree hpp hperm hins) hins)

theorem Tables.lookup_wp {Q : Option (Nat × (Nat × Nat)) → Phys → Prop}
    (h : Tables K dirs p) (hd : d ∈ dirs) (hva : va.toNat < utop) (hnone : Q none p)
    (hsome : ∀ t w, MapsAt dirs p d (pgnum va) w → p.mem t (pgnum va % 1024) = w →
      Q (some (pageOf w, (t, pgnum va % 1024))) p) :
    wp (pageLookup (some d) va) Q E p := by
  cases hw : pteOf p.mem d (pgnum va) with
  | none => exact (wp_of_ret (pageLookup_of_none h.user hd hva hw)).mpr hnone
  | some w =>
    obtain ⟨t, _, hmem, hrun⟩ := pageLookup_of_some h.user hd hva hw
    exact (wp_of_ret hrun).mpr (hsome t w ⟨hd, (lt_utop_iff va).mp hva, hw⟩ hmem)

theorem Accounts.pageAlloc_wp {Q : Option Nat → Phys → Prop} {flags : Word}
    (h : Accounts K extra dirs p) (hnone : Q none p)
    (hsome : ∀ q, p.pageFreeList = some q → Q (some q) (p.take flags q)) :
    wp (pageAlloc flags) Q E p := by
  cases hq : p.pageFreeList with
  | none => exact (wp_of_ret (pageAlloc_of_none hq flags)).mpr hnone
  | some q => exact (wp_of_ret (pageAlloc_of_some hq (h.head_lt hq) flags)).mpr (hsome q hq)

theorem FewMappings.frame {O : Nat → Prop} (hb : FewMappings dirs p)
    (hf : Frame K dirs O (fun _ _ => False) p p') : FewMappings dirs p' := by
  intro q
  have hsame : mapCount p'.mem dirs q = mapCount p.mem dirs q := by
    apply mapCount_congr
    intro d hd v hv
    unfold mappedPage
    rw [hf.entries d hd v hv id]
  rw [hsame]
  exact hb q

section Memory

variable {p' : Phys} {v : Nat} {O : Nat → Prop}

section

variable (h : Spaces K extra k)

include h

theorem Spaces.dir_of_live (he : k.Live e) : ∃ d ∈ k.dirs, (k.envs e).envPgdir = some d := by
  obtain ⟨d, hd⟩ := h.pgdir he
  exact ⟨d, mem_dirs.mpr ⟨e, he, hd⟩, hd⟩

theorem Changes.of_inserted (hs : SameSlots k k')
    (hf : Frame K k.dirs (fun _ => False) (fun _ _ => False) k.phys p)
    (hi : Intact K extra k.dirs k'.phys)
    (hins : Inserted K extra k.dirs p d v w k'.phys) (hgrant : Granted k k' w) :
    Changes K extra k k' := by
  have hf' := (hf.weaken subset_rfl (fun _ hc => hc.elim) fun _ _ _ hc => hc.elim).trans hins.frame
  refine .of_phys h hs hi hf' ?_
  rintro d' v' w' ⟨rfl, rfl⟩ hm
  obtain rfl : w' = w := Option.some.inj (hm.2.2.symm.trans hins.entry)
  exact hgrant

section

variable (hb : FewMappings k.dirs k.phys)

include hb

theorem sysPageAlloc_changes (hcur : k.LiveCur) (envid va perm : Word) :
    wp (sysPageAlloc envid va perm) (fun _ => Changes K extra k) (Changes K extra k) k := by
  have hrefl := Changes.refl h
  unfold sysPageAlloc
  refine wp_ite.mpr ⟨fun _ => wp_pure.mpr hrefl, fun hva => ?_⟩
  refine wp_ite.mpr ⟨fun _ => wp_pure.mpr hrefl, fun hperm => ?_⟩
  obtain ⟨hva, _⟩ := not_or.mp hva
  rw [Bool.not_eq_false] at hperm
  rw [wp_bind, wp_onPhys]
  refine h.intact.toAccounts.pageAlloc_wp (wp_pure.mpr hrefl) fun q hq => ?_
  obtain ⟨_, hfresh, hf⟩ := h.intact.toAccounts.take (O := fun _ => False)
    (T := fun _ _ => False) hq allocZero
  have hi := h.intact.take hq allocZero
  have hs : ∀ p1 : Phys, SameSlots k { k with phys := p1 } := fun _ =>
    .of_sameEnvs ⟨rfl, rfl, rfl, rfl, rfl⟩
  -- The page stays allocated when the environment is not found.
  have hleak : Changes K extra k { k with phys := k.phys.take allocZero q } :=
    .of_phys h (hs _) hi hf fun hc => hc.elim
  rw [wp_bind]
  refine envid2env_wp (wp_pure.mpr hleak) fun e hnames => ?_
  have hlive : k.Live e := hnames.live hcur
  obtain ⟨d, hd, hpgdir⟩ := h.dir_of_live hlive
  rw [wp_bind, wp_env, wp_bind, wp_onPhys]
  dsimp only
  rw [hpgdir]
  refine hi.insert_wp (hb.frame hf) hd (by omega) hfresh.lt (hi.toAccounts.plain hfresh.unused)
    hfresh.not_free (permOk_spec hperm).1 ?_ fun p' hi' hins => ?_
  · refine wp_ite.mpr ⟨fun _ => ?_, fun hneg => absurd (by decide) hneg⟩
    have href : ((k.phys.take allocZero q).pages q).ppRef = 0 := by
      rw [hi.refs q hfresh.lt, hfresh.unused]
      rfl
    rw [wp_bind, wp_onPhys, wp_of_ret (pageFree_eq href), wp_pure]
    have hf' : Frame K k.dirs (fun _ => False) (fun _ _ => False) k.phys
        ((k.phys.take allocZero q).push q) := hf.trans (.of_mem_eq rfl rfl rfl)
    exact .of_phys h (hs _) (hi.push hfresh.lt hfresh.unused hfresh.not_free) hf' fun hc => hc.elim
  · refine wp_ite.mpr ⟨fun hneg => absurd hneg (by decide), fun _ => wp_pure.mpr ?_⟩
    refine .of_inserted h (hs _) hf hi' hins ⟨q, perm, rfl, hperm, Or.inl ⟨?_, ?_⟩⟩
    · exact h.intact.toAccounts.free_of_head hq
    · have hm : MapsAt k.dirs p' d (pgnum va) (pteWord q perm) :=
        ⟨hd, (lt_utop_iff va).mp (by omega), hins.entry⟩
      have hnf := hi'.not_free_of_mapped hm
      rwa [(pteWord_spec (h.intact.toAccounts.lt_of_head hq) (permOk_spec hperm).1).2] at hnf

theorem Spaces.share_wp {d' v' : Nat} (hd : d ∈ k.dirs)
    (hva : va.toNat < utop) (hm : MapsAt k.dirs k.phys d' v' w) (hperm : permOk perm)
    (hw : writable perm → writable w) (hfull : Q (-eNoMem) k.phys)
    (hok : ∀ p', Changes K extra k { k with phys := p' } → Q 0 p') :
    wp (pageInsert (some d) (pageOf w) va perm) Q E k.phys := by
  refine h.intact.insert_wp hb hd hva (h.intact.mapped_lt hm) (h.intact.plain hm)
    (h.intact.not_free_of_mapped hm) (permOk_spec hperm).1 hfull fun p' hi hins => hok p' ?_
  have hs : SameSlots k { k with phys := p' } := .of_sameEnvs ⟨rfl, rfl, rfl, rfl, rfl⟩
  exact .of_inserted h hs (.refl _) hi hins
    ⟨pageOf w, perm, rfl, hperm, Or.inr ⟨d', v', w, hm, rfl, hw⟩⟩

theorem sysPageMap_changes (hcur : k.LiveCur) (srcenvid srcva dstenvid dstva perm : Word) :
    wp (sysPageMap srcenvid srcva dstenvid dstva perm) (fun _ => Changes K extra k)
      (Changes K extra k) k := by
  have hrefl := Changes.refl h
  unfold sysPageMap
  rw [wp_bind]
  refine envid2env_wp (wp_pure.mpr hrefl) fun src hsrc => ?_
  rw [wp_bind]
  refine envid2env_wp (wp_pure.mpr hrefl) fun dst hdst => ?_
  refine wp_ite.mpr ⟨fun _ => wp_pure.mpr hrefl, fun hva => ?_⟩
  obtain ⟨d, hd, hpgdir⟩ := h.dir_of_live (hsrc.live hcur)
  obtain ⟨d', hd', hpgdir'⟩ := h.dir_of_live (hdst.live hcur)
  simp only [not_or, not_le] at hva
  rw [wp_bind, wp_env, wp_bind, wp_onPhys, hpgdir]
  refine h.intact.toTables.lookup_wp hd hva.1 (wp_pure.mpr hrefl) fun t w hm hmem => ?_
  rw [wp_bind, wp_onPhys, wp_of_ret (loadPte_eq hmem)]
  refine wp_ite.mpr ⟨fun _ => wp_pure.mpr hrefl, fun hwr => ?_⟩
  refine wp_ite.mpr ⟨fun _ => wp_pure.mpr hrefl, fun hperm => ?_⟩
  rw [wp_bind, wp_env, wp_bind, wp_onPhys]
  dsimp only
  rw [hpgdir']
  rw [Bool.not_eq_false] at hperm
  refine h.share_wp hb hd' hva.2.2.1 hm hperm ?_ ?_ fun p' hchange => ?_
  · intro hw
    by_contra hnw
    exact hwr ⟨hw, by simpa using hnw⟩
  · exact wp_ite.mpr ⟨fun _ => wp_pure.mpr hrefl, fun _ => wp_pure.mpr hrefl⟩
  · exact wp_ite.mpr ⟨fun _ => wp_pure.mpr hchange, fun _ => wp_pure.mpr hchange⟩

theorem sysPageUnmap_changes (hcur : k.LiveCur) (envid va : Word) :
    wp (sysPageUnmap envid va) (fun _ => Changes K extra k) (Changes K extra k) k := by
  have hrefl := Changes.refl h
  unfold sysPageUnmap
  rw [wp_bind]
  refine envid2env_wp (wp_pure.mpr hrefl) fun e hnames => ?_
  refine wp_ite.mpr ⟨fun _ => wp_pure.mpr hrefl, fun hva => ?_⟩
  obtain ⟨d, hd, hpgdir⟩ := h.dir_of_live (hnames.live hcur)
  have hlt : va.toNat < utop := not_le.mp (not_or.mp hva).1
  have hun := h.intact.toAccounts.unmap hd ((lt_utop_iff va).mp hlt)
    fun q _ => h.intact.total_add_le hb q
  rw [wp_bind, wp_env, wp_bind, wp_onPhys, hpgdir,
    wp_of_ret (pageRemove_eq h.intact.toTables.user hd hlt), wp_pure]
  refine .of_phys h (.of_sameEnvs ⟨rfl, rfl, rfl, rfl, rfl⟩) (h.intact.unmap hun) hun.frame ?_
  rintro d' v' w ⟨rfl, rfl⟩ hm
  have hw := hm.2.2
  rw [hun.gone] at hw
  cases hw

end

end

end Memory

theorem Tables.lookup_inv {pte : Nat × Nat} (h : Tables K dirs p) (hd : d ∈ dirs)
    (hva : va.toNat < utop) (hrun : pageLookup (some d) va p = .ret (some (pp, pte)) p') :
    ∃ w, MapsAt dirs p d (pgnum va) w ∧ pp = pageOf w ∧ p.mem pte.1 pte.2 = w := by
  have hw : wp (pageLookup (some d) va) (fun r _ => ∀ pp pte, r = some (pp, pte) →
      ∃ w, MapsAt dirs p d (pgnum va) w ∧ pp = pageOf w ∧ p.mem pte.1 pte.2 = w)
      (fun _ => True) p := by
    refine h.lookup_wp hd hva (fun _ _ hc => by cases hc) fun t w hm hmem => ?_
    intro pp pte hr
    cases hr
    exact ⟨w, hm, rfl, hmem⟩
  exact (wp_of_ret hrun).mp hw pp pte rfl

section

variable (h : Spaces K extra k)

include h

theorem sysExofork_changes : wp sysExofork (fun _ => Changes K extra k) (Changes K extra k) k := by
  unfold sysExofork
  rw [wp_bind, wp_curenv]
  intro cur _
  rw [wp_bind, wp_env, wp_bind]
  refine envAlloc_wp ?_ ?_
  · intro r k' hsame hphys
    have hp : k'.phys = k.phys := by
      rcases hphys with hp | hrun
      · exact hp
      · exact setupVm_inv_none h.intact.toAccounts hrun
    exact wp_pure.mpr (.of_sameSlots h (.of_sameEnvs hsame) hp)
  · intro e q k' ha
    have hch := EnvAllocated.changes h ha
    have hst : (k'.envs e).envStatus = .runnable := by rw [ha.entry]
    simp only [wp_bind, wp_setEnv, wp_modify, wp_env, wp_pure]
    refine hch.then ?_ rfl
    refine .trans (Kernel.setEnv_sameSlots rfl rfl ?_) (.trans (Kernel.setEnv_sameSlots rfl rfl ?_)
      (Kernel.setEnv_sameSlots rfl rfl ?_))
    · simp [hst]
    · rfl
    · rfl

theorem sysEnvSetStatus_changes (hcur : k.LiveCur) (envid status : Word) :
    wp (sysEnvSetStatus envid status) (fun _ => Changes K extra k) (Changes K extra k) k := by
  unfold sysEnvSetStatus
  cases hs : settableStatus status with
  | none => exact wp_pure.mpr (.refl h)
  | some s =>
    rw [wp_bind]
    refine envid2env_wp (wp_pure.mpr (.refl h)) fun e hnames => ?_
    have hlive := hnames.live hcur
    have hne : s ≠ .free := by
      unfold settableStatus at hs
      grind
    rw [wp_bind, wp_setEnv, wp_pure]
    refine .of_sameSlots h (Kernel.setEnv_sameSlots rfl rfl ?_) rfl
    exact ⟨fun hf => absurd hf hne, fun hf => absurd hf hlive.2⟩

theorem sysEnvSetPgfaultUpcall_changes (envid func : Word) :
    wp (sysEnvSetPgfaultUpcall envid func) (fun _ => Changes K extra k) (Changes K extra k) k := by
  unfold sysEnvSetPgfaultUpcall
  rw [wp_bind]
  refine envid2env_wp (wp_pure.mpr (.refl h)) fun e _ => ?_
  rw [wp_bind, wp_setEnv, wp_pure]
  exact .of_sameSlots h (Kernel.setEnv_sameSlots rfl rfl Iff.rfl) rfl

theorem sysIpcRecv_changes (hcur : k.LiveCur) (dstva : Word) :
    wp (sysIpcRecv dstva) (fun _ => Changes K extra k) (Changes K extra k) k := by
  unfold sysIpcRecv
  refine wp_ite.mpr ⟨fun _ => wp_pure.mpr (.refl h), fun _ => ?_⟩
  rw [wp_bind, wp_curenv]
  intro c hc
  rw [wp_bind, wp_setEnv, wp_bind]
  refine wp_mono schedYield_wp (fun _ _ hf => hf.elim) fun k' hk' => ?_
  refine .of_sameSlots h (.trans (Kernel.setEnv_sameSlots rfl rfl ?_) hk'.sameSlots)
    hk'.elsewhere.phys
  exact ⟨fun hf => (by cases hf), fun hf => absurd hf (hcur c hc).2⟩

section

variable (hb : FewMappings k.dirs k.phys)

include hb

theorem envDestroy_changes (he : k.Live e) :
    wp (envDestroy e) (fun _ => Changes K extra k) (Changes K extra k) k := by
  refine envDestroy_wp ?_ ?_ ?_
  · intro _ _
    refine .of_sameSlots h (Kernel.setEnv_sameSlots rfl rfl ?_) rfl
    exact ⟨fun hf => (by cases hf), fun hf => absurd hf he.2⟩
  · intro d k' _ _ hfreed
    exact hfreed.changes h hb he
  · intro d k1 k' _ hfreed hsched
    refine (hfreed.changes h hb he).then ?_ hsched.elsewhere.phys
    exact (k1.setCpu_sameSlots _).trans hsched.sameSlots

theorem sysEnvDestroy_changes (hcur : k.LiveCur) (envid : Word) :
    wp (sysEnvDestroy envid) (fun _ => Changes K extra k) (Changes K extra k) k := by
  unfold sysEnvDestroy
  rw [wp_bind]
  refine envid2env_wp (wp_pure.mpr (.refl h)) fun e hnames => ?_
  rw [wp_bind]
  exact wp_imp (envDestroy_changes h hb (hnames.live hcur)) fun _ _ hc => wp_pure.mpr hc

theorem PageSent.changes {c : Nat} {srcva : Word} (hc : k.Live c) (he : k.Live e)
    (hdst : srcva.toNat < utop → (k.envs e).envIpcDstva.toNat < utop)
    (hsent : PageSent k c e srcva perm p') : Changes K extra k { k with phys := p' } := by
  cases hsent with
  | none hsrc => exact .refl h
  | page hsrc hoff hperm hlookup hwr hins =>
    obtain ⟨d, hd, hpgdir⟩ := h.dir_of_live hc
    obtain ⟨d', hd', hpgdir'⟩ := h.dir_of_live he
    rw [hpgdir] at hlookup
    rw [hpgdir'] at hins
    obtain ⟨w, hm, rfl, hmem⟩ := h.intact.toTables.lookup_inv hd hsrc hlookup
    rw [hmem] at hwr
    have hshare : wp (pageInsert (some d') (pageOf w) (k.envs e).envIpcDstva perm)
        (fun r p' => r = 0 → Changes K extra k { k with phys := p' }) (fun _ => True) k.phys :=
      h.share_wp hb hd' (hdst hsrc) hm hperm hwr (fun hr => absurd hr (by decide))
        fun _ hch _ => hch
    exact (wp_of_ret hins).mp hshare rfl

theorem sysIpcTrySend_changes (hcur : k.LiveCur) (envid value srcva perm : Word)
    (hdst : ∀ e, Names k envid false e → (k.envs e).envIpcRecving → srcva.toNat < utop →
      (k.envs e).envIpcDstva.toNat < utop) :
    wp (sysIpcTrySend envid value srcva perm) (fun _ => Changes K extra k)
      (Changes K extra k) k := by
  refine sysIpcTrySend_wp (fun _ _ => .refl h) fun c e p1 hc hnames hrecv hsent => ?_
  have hlive := hnames.live hcur
  refine (hsent.changes h hb (hcur c hc) hlive (hdst e hnames hrecv)).then
    (Kernel.setEnv_sameSlots rfl rfl ?_) rfl
  exact ⟨fun hf => (by cases hf), fun hf => absurd hf hlive.2⟩

end

end

def Kernel.enter (k : Kernel) (c : Call) : Kernel :=
  { k with
    cpunum := c.cpu
    cpus := Function.update k.cpus c.cpu { k.cpus c.cpu with cpuEnv := some c.caller } }

/-- A call that `A` admits, made by a live environment, together with what the kernel does
until it is left again. -/
inductive CallStep (A : Call → Prop) (k k' : Kernel) : Prop where
  | mk (c : Call) (hc : A c) (hlive : k.Live c.caller) (hrun : c.run.Leads (k.enter c) k') :
      CallStep A k k'

variable {c : Call}

@[simp] theorem Kernel.enter_curenv (k : Kernel) (c : Call) :
    (k.enter c).curenv = some c.caller := by
  simp [Kernel.enter, Kernel.curenv]

theorem Kernel.enter_sameSlots (k : Kernel) (c : Call) : SameSlots k (k.enter c) :=
  ⟨rfl, fun _ _ => rfl, fun _ _ => rfl, fun _ _ => Iff.rfl⟩

theorem Kernel.enter_liveCur (h : k.Live c.caller) : (k.enter c).LiveCur := by
  intro x hx
  rw [Kernel.enter_curenv] at hx
  cases hx
  exact h

/-- The calls whose effect on the address spaces this module describes. -/
def spaceCalls : List Sysno :=
  [.pageAlloc, .pageMap, .pageUnmap, .exofork, .envSetStatus, .envSetPgfaultUpcall, .envDestroy,
    .ipcTrySend, .ipcRecv]

/-- A send names no receiver that waits for a page at or above `UTOP`. -/
def Call.SendsBelow (c : Call) (k : Kernel) : Prop :=
  c.sysno = some .ipcTrySend → ∀ e, Names (k.enter c) c.a1 false e → (k.envs e).envIpcRecving →
    c.a3.toNat < utop → (k.envs e).envIpcDstva.toNat < utop

theorem Call.run_changes {no : Sysno} (h : Spaces K extra k) (hb : FewMappings k.dirs k.phys)
    (hlive : k.Live c.caller) (hno : c.sysno = some no) (hmem : no ∈ spaceCalls)
    (hsend : c.SendsBelow k) :
    wp c.run (fun _ => Changes K extra (k.enter c)) (Changes K extra (k.enter c)) (k.enter c) := by
  have hs := k.enter_sameSlots c
  have h' := h.of_sameSlots hs rfl
  have hb' := hs.dirs_eq.symm ▸ hb
  have hcur := Kernel.enter_liveCur hlive
  unfold Call.SendsBelow at hsend
  unfold Call.run syscall
  unfold Call.sysno at hno hsend
  rw [hno] at hsend ⊢
  cases no with
  | pageAlloc => exact sysPageAlloc_changes h' hb' hcur _ _ _
  | pageMap => exact sysPageMap_changes h' hb' hcur _ _ _ _ _
  | pageUnmap => exact sysPageUnmap_changes h' hb' hcur _ _
  | exofork => exact sysExofork_changes h'
  | envSetStatus => exact sysEnvSetStatus_changes h' hcur _ _
  | envSetPgfaultUpcall => exact sysEnvSetPgfaultUpcall_changes h' _ _
  | envDestroy => exact sysEnvDestroy_changes h' hb' hcur _
  | ipcTrySend => exact sysIpcTrySend_changes h' hb' hcur _ _ _ _ (hsend rfl)
  | ipcRecv => exact sysIpcRecv_changes h' hcur _
  | _ => simp [spaceCalls] at hmem

theorem CallStep.changes {A : Call → Prop} (h : Spaces K extra k) (hb : FewMappings k.dirs k.phys)
    (hA : ∀ c, A c → (∃ no ∈ spaceCalls, c.sysno = some no) ∧ c.SendsBelow k)
    (hstep : CallStep A k k') : Changes K extra k k' := by
  obtain ⟨c, hc, hlive, hrun⟩ := hstep
  obtain ⟨⟨no, hmem, hno⟩, hsend⟩ := hA c hc
  have hch := hrun.of_wp (Call.run_changes h hb hlive hno hmem hsend)
  have hdirs := (k.enter_sameSlots c).dirs_eq
  refine ⟨hch.spaces, hch.kernPgdir, hch.kern, fun hm => ?_⟩
  have := hch.entries hm
  unfold Granted at this ⊢
  rw [hdirs] at this
  exact this

end Jos
