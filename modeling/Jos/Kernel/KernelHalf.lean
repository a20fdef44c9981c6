import Jos.Kernel.Snapshot
import Jos.Logic.Runs
import Jos.Paging.Maps

/-!
# The kernel half of the address spaces

Programs are loaded, user code writes to its pages, and environments make the system calls for
memory and environments with arbitrary arguments. None of this touches the directory entries above
`UTOP` or the tables behind them.
-/

namespace Jos

open Logic Relation

variable {k0 k k' : Kernel} {extra : Nat → Nat}

/-- The system calls for memory and environments. -/
def memoryCalls : List Sysno :=
  [.pageAlloc, .pageMap, .pageUnmap, .exofork, .envSetStatus, .envSetPgfaultUpcall, .envDestroy]

/-- One step of the system: a system call, the creation of an environment at boot, or user
code that changes a page it may write to. -/
inductive SpaceStep (k : Kernel) : Kernel → Prop where
  | call {k' : Kernel} (h : CallStep (fun c => ∃ no ∈ memoryCalls, c.sysno = some no) k k') :
      SpaceStep k k'
  | create {k' : Kernel} (binary : Elf) (type : EnvType) (hwf : binary.WellFormed)
      (hrun : envCreate binary type k = .ret () k') : SpaceStep k k'
  | store (e d v : Nat) (w : Word) (words : Nat → Word) (he : k.Live e)
      (hd : (k.envs e).envPgdir = some d) (hv : v < userPages) (hw : pteOf k.phys.mem d v = some w)
      (hwr : writable w) : SpaceStep k { k with phys := k.phys.setPage (pageOf w) words }

/-- A run in which no page comes to have `2^16` mappings. -/
def SpaceRun : Kernel → Kernel → Prop :=
  ReflTransGen fun k k' => SpaceStep k k' ∧ FewMappings k'.dirs k'.phys

/-- The kernel half of every address space is that of the state `k0`, and every user
mapping was installed with a proper permission word. -/
structure KernelHalf (k0 k : Kernel) : Prop where
  pdes : ∀ e d, k.Live e → (k.envs e).envPgdir = some d →
    ∀ i, userTables ≤ i → i < npdentries → i ≠ uvptIndex →
      k.phys.mem d i = k.phys.mem k.phys.kernPgdir i
  kern : k.phys.kernPgdir = k0.phys.kernPgdir ∧
    k.phys.mem k.phys.kernPgdir = k0.phys.mem k0.phys.kernPgdir
  tables : ∀ e d, k.Live e → (k.envs e).envPgdir = some d →
    ∀ i t, userTables ≤ i → i < npdentries → i ≠ uvptIndex → tableOf k.phys.mem d i = some t →
      ∀ j, k.phys.mem t j = k0.phys.mem t j
  perms : ∀ e d, k.Live e → (k.envs e).envPgdir = some d →
    ∀ v < userPages, ∀ w, pteOf k.phys.mem d v = some w → permOk (w &&& 0xfff)

structure HalfInv (k0 k : Kernel) : Prop where
  spaces : ∃ extra, Spaces (kernPages k0.phys) extra k
  few : FewMappings k.dirs k.phys
  kernPgdir : k.phys.kernPgdir = k0.phys.kernPgdir
  kern : ∀ x ∈ kernPages k0.phys, k.phys.mem x = k0.phys.mem x
  perms : ∀ {d v w}, MapsAt k.dirs k.phys d v w → permOk (w &&& 0xfff)

theorem Booted.halfInv (h : Booted extra k) : HalfInv k k := by
  refine ⟨⟨extra, h.spaces⟩, h.few, rfl, fun _ _ => rfl, fun hm => ?_⟩
  have hd := hm.1
  rw [h.dirs_eq] at hd
  exact absurd hd (Finset.notMem_empty _)

theorem Granted.perms {w : Word} (h : Granted k k' w) : permOk (w &&& 0xfff) := by
  obtain ⟨pp, perm, rfl, hperm, _⟩ := h
  rw [pteWord_flags pp hperm]
  exact hperm

theorem HalfInv.changes (h : HalfInv k0 k) (hs : Spaces (kernPages k0.phys) extra k)
    (hcall : CallStep (fun c => ∃ no ∈ memoryCalls, c.sysno = some no) k k') :
    Changes (kernPages k0.phys) extra k k' := by
  refine CallStep.changes hs h.few ?_ hcall
  rintro c ⟨no, hno, hc⟩
  refine ⟨⟨no, ?_, hc⟩, fun hsend => ?_⟩
  · unfold memoryCalls at hno
    unfold spaceCalls
    simp only [List.mem_cons, List.not_mem_nil, or_false] at hno ⊢
    tauto
  · rw [hc] at hsend
    cases hsend
    simp [memoryCalls] at hno

theorem HalfInv.step (h : HalfInv k0 k) (hstep : SpaceStep k k')
    (hfew : FewMappings k'.dirs k'.phys) : HalfInv k0 k' := by
  obtain ⟨extra, hs⟩ := h.spaces
  cases hstep with
  | call hcall =>
    have hch := h.changes hs hcall
    refine ⟨⟨extra, hch.spaces⟩, hfew, hch.kernPgdir.trans h.kernPgdir, ?_, fun hm => ?_⟩
    · exact fun x hx => (hch.kern x hx).trans (h.kern x hx)
    · rcases hch.entries hm with hm | hg
      · exact h.perms hm
      · exact hg.perms
  | create binary type hwf hrun =>
    have hw : wp (envCreate binary type) (fun _ => Created (kernPages k0.phys) k)
        (fun _ => True) k := envCreate_created hs h.few hwf
    have hc := (wp_of_ret hrun).mp hw
    refine ⟨hc.spaces, hfew, hc.kernPgdir.trans h.kernPgdir, ?_, fun hm => ?_⟩
    · exact fun x hx => (hc.kern x hx).trans (h.kern x hx)
    · rcases hc.entries hm with hm | hp
      · exact h.perms hm
      · exact hp
  | store e d v w words he hd hv hw hwr =>
    have hm : MapsAt k.dirs k.phys d v w := ⟨mem_dirs.mpr ⟨e, he, hd⟩, hv, hw⟩
    have hf : Frame (kernPages k0.phys) k.dirs (fun _ => False) (fun _ _ => False) k.phys
        (k.phys.setPage (pageOf w) words) := (hs.intact.plain hm).frame_setPage hs.intact.toTables
    have hch : Changes (kernPages k0.phys) extra k
        { k with phys := k.phys.setPage (pageOf w) words } :=
      .of_phys hs (.of_sameEnvs ⟨rfl, rfl, rfl, rfl, rfl⟩) (hs.intact.store hm words) hf
        fun hc => hc.elim
    refine ⟨⟨extra, hch.spaces⟩, hfew, h.kernPgdir, ?_, fun hm => ?_⟩
    · exact fun x hx => (hch.kern x hx).trans (h.kern x hx)
    · rcases hch.entries hm with hm | hg
      · exact h.perms hm
      · exact hg.perms

theorem HalfInv.kernelHalf (h : HalfInv k0 k) : KernelHalf k0 k := by
  obtain ⟨extra, hs⟩ := h.spaces
  have hkern := hs.intact.kern_mem
  have hrow : k.phys.mem k.phys.kernPgdir = k0.phys.mem k0.phys.kernPgdir := by
    rw [h.kern _ hkern, h.kernPgdir]
  have hupper : ∀ e d, k.Live e → (k.envs e).envPgdir = some d →
      ∀ i, userTables ≤ i → i < npdentries → i ≠ uvptIndex →
        k.phys.mem d i = k.phys.mem k.phys.kernPgdir i := by
    intro e d he hd i hi hlt hu
    rw [hs.intact.upper d (mem_dirs.mpr ⟨e, he, hd⟩) i hi hlt, if_neg hu]
  refine ⟨hupper, ⟨h.kernPgdir, hrow⟩, ?_, ?_⟩
  · intro e d he hd i t hi hlt hu ht j
    have htk : t ∈ kernPages k0.phys := by
      refine Or.inr ⟨i, hlt, hu, ?_⟩
      rw [← ht]
      unfold tableOf
      rw [hupper e d he hd i hi hlt hu, hrow]
    rw [h.kern t htk]
  · intro e d he hd v hv w hw
    exact h.perms ⟨mem_dirs.mpr ⟨e, he, hd⟩, hv, hw⟩

theorem HalfInv.sound (h : HalfInv k0 k) : Sound k := by
  refine ⟨?_, h.few⟩
  rw [kernPages_congr h.kernPgdir h.kern]
  exact h.spaces

theorem Booted.spaceRun (h : Booted extra k0) (hrun : SpaceRun k0 k) : HalfInv k0 k :=
  run_invariant hrun h.halfInv fun _ _ h hstep => h.step hstep.1 hstep.2

/-- In every state that a run from boot reaches, the kernel half is untouched. -/
theorem spaceRun_kernelHalf (hboot : Booted extra k0) (hrun : SpaceRun k0 k) : KernelHalf k0 k :=
  (hboot.spaceRun hrun).kernelHalf

/-- A machine with few pages for tables has few mappings. -/
theorem Tables.few {K : Set Nat} {dirs S : Finset Nat} {p : Phys} (h : Tables K dirs p)
    (hS : ∀ t < p.npages, t ∉ K → t ∈ S) (hcard : S.card * 1024 < 65536) : FewMappings dirs p := by
  intro q
  have htable : ∀ x ∈ {x ∈ dirs ×ˢ Finset.range userPages | mappedPage p.mem x.1 x.2 = some q},
      ∃ t, TableAt dirs p x.1 (x.2 / 1024) t := by
    intro x hx
    obtain ⟨hx, hq⟩ := Finset.mem_filter.mp hx
    obtain ⟨hd, hv⟩ := Finset.mem_product.mp hx
    obtain ⟨w, hw, -⟩ := mappedPage_eq_some.mp hq
    obtain ⟨t, ht, -⟩ := pteOf_eq_some.mp hw
    exact ⟨t, h.tableAt_of_user hd (Finset.mem_range.mp hv) ht⟩
  refine lt_of_le_of_lt ?_ hcard
  rw [← Finset.card_range 1024, ← Finset.card_product]
  apply Finset.card_le_card_of_injOn
    fun x => ((tableOf p.mem x.1 (x.2 / 1024)).getD 0, x.2 % 1024)
  · intro x hx
    obtain ⟨t, ht⟩ := htable x hx
    simp [ht.2.2, hS t (h.table_lt ht) (h.table_not_kern ht), Nat.mod_lt]
  · intro x hx y hy heq
    obtain ⟨t, ht⟩ := htable x hx
    obtain ⟨t', ht'⟩ := htable y hy
    simp only [ht.2.2, ht'.2.2, Option.getD_some, Prod.mk.injEq] at heq
    obtain ⟨rfl, hmod⟩ := heq
    obtain ⟨hd, hi⟩ := h.table_inj ht ht'
    exact Prod.ext hd.symm (by omega)

/-- All but two of the first 71 pages hold the page directory and the tables of the kernel. -/
abbrev Phys.Roomy (p : Phys) : Prop :=
  ∀ t < 71, t = 0 ∨ t = 4 ∨ t = p.kernPgdir ∨ tableOf p.mem p.kernPgdir (t + 953) = some t

theorem Phys.Roomy.few {p p' : Phys} {dirs : Finset Nat} (hp : p.Roomy) (hn : p'.npages = 128)
    (h : Tables (kernPages p) dirs p') : FewMappings dirs p' := by
  refine h.few (S := {t ∈ Finset.range 128 | t = 0 ∨ t = 4 ∨ 71 ≤ t}) (fun t hlt ht => ?_)
    (by decide)
  refine Finset.mem_filter.mpr ⟨Finset.mem_range.mpr (hn ▸ hlt), ?_⟩
  by_contra hin
  rcases hp t (by omega) with h0 | h4 | hk | htab
  · exact hin (.inl h0)
  · exact hin (.inr (.inl h4))
  · exact ht (.inl hk)
  · exact ht (.inr ⟨t + 953, by omega, by unfold uvptIndex; omega, htab⟩)

theorem snapshot_roomy : snapshot.phys.Roomy := by decide +kernel

/-- The kernel after a system call that returns. -/
def Kernel.called (k : Kernel) (c : Call) : Kernel := (c.run (k.enter c)).after k

/-- The calls can be made one after the other, and return. -/
def Kernel.admits (k : Kernel) : List Call → Bool
  | [] => true
  | c :: cs => decide (k.Live c.caller ∧ (∃ no ∈ memoryCalls, c.sysno = some no) ∧
      (k.called c).phys.npages = 128) && (c.run (k.enter c)).returns (fun _ => true) &&
        (k.called c).admits cs

theorem SpaceRun.calls (hrun : SpaceRun snapshot k) (cs : List Call) (h : k.admits cs) :
    SpaceRun snapshot (cs.foldl .called k) := by
  induction cs generalizing k with
  | nil => exact hrun
  | cons c cs ih =>
    simp only [Kernel.admits, Bool.and_eq_true, decide_eq_true_eq] at h
    obtain ⟨⟨⟨hlive, hno, hn⟩, hret⟩, hcs⟩ := h
    obtain ⟨r, hr, -⟩ := Outcome.ret_of_returns hret k
    have hstep : CallStep (fun c => ∃ no ∈ memoryCalls, c.sysno = some no) k (k.called c) :=
      ⟨c, hno, hlive, .inl ⟨r, hr⟩⟩
    have hinv := snapshot_booted.spaceRun hrun
    obtain ⟨extra, hs⟩ := hinv.spaces
    have htables := (hinv.changes hs hstep).spaces.intact.toTables
    have hfew := snapshot_roomy.few hn htables
    exact ih (hrun.tail ⟨.call hstep, hfew⟩) hcs

/-- The first environment forks, gives its child a page and shares one with it, takes the first one
back and destroys the child. -/
def familyCalls : List Call :=
  [⟨0, 0, 7, 0, 0, 0, 0, 0⟩, ⟨0, 0, 4, 0x1001, 0xa00000, 7, 0, 0⟩,
    ⟨0, 0, 5, 0, 0x800000, 0x1001, 0xb00000, 7⟩, ⟨0, 0, 6, 0x1001, 0xa00000, 0, 0, 0⟩,
    ⟨0, 0, 3, 0x1001, 0, 0, 0, 0⟩]

theorem single_spaceRun : SpaceRun snapshot single :=
  .single ⟨.create hello .user hello_wellFormed single_run,
    (snapshot_booted.sound.create hello_wellFormed single_run).2⟩

theorem spaceRun_kernelHalf_family : ∃ k, SpaceRun snapshot k ∧ k.Live 0 ∧ ¬k.Live 1 ∧
    KernelHalf snapshot k := by
  have hrun := single_spaceRun.calls familyCalls (by decide +kernel)
  exact ⟨_, hrun, by decide +kernel, by decide +kernel, spaceRun_kernelHalf snapshot_booted hrun⟩

/-- In every state that a run from boot reaches, the live environments have directories of their own
that share no page table, and no free page is one of these or mapped. -/
theorem spaceRun_separated (hboot : Booted extra k0) (hrun : SpaceRun k0 k) :
    Slots k ∧ TwoLevel k.dirs k.phys ∧
      ∀ d v w, MapsAt k.dirs k.phys d v w → ¬k.phys.Free (pageOf w) := by
  obtain ⟨extra', hs⟩ := (hboot.spaceRun hrun).spaces
  refine ⟨hs.toSlots, hs.intact.toAccounts.twoLevel, fun d v w hm hfree => ?_⟩
  have hzero := (hs.intact.of_free hfree).2
  have hpos := Phys.total_pos_of_map hm
  omega

/-- Before the child is destroyed, the two environments share a page. -/
theorem spaceRun_separated_family : ∃ k, SpaceRun snapshot k ∧ k.Live 0 ∧ k.Live 1 ∧
    TwoLevel k.dirs k.phys := by
  have hrun := single_spaceRun.calls (familyCalls.take 4) (by decide +kernel)
  exact ⟨_, hrun, by decide +kernel, by decide +kernel,
    (spaceRun_separated snapshot_booted hrun).2.1⟩

end Jos
