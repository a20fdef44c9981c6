import Jos.Logic.Runs
import Jos.Paging.Directories
import Jos.Paging.Init

/-!
# Page accounting over runs

A run starts where `page_init` ends and performs operations of `kern/pmap.c` on directories that
`env_setup_vm` adds and `env_free` drops. While no page has `2^16` references, the counters are
exact.
-/

namespace Jos

open Logic Relation

/-- Physical memory together with the directories in use. -/
structure PageState where
  dirs : Finset Nat
  phys : Phys

/-- One operation. `page_decref` appears with its two other uses: for a page table that `env_free`
has emptied and taken out, and for a directory without tables. -/
inductive PageStep : PageState → PageState → Prop where
  | alloc {dirs p r p'} (flags : Word) (hrun : pageAlloc flags p = .ret r p') :
      PageStep ⟨dirs, p⟩ ⟨dirs, p'⟩
  | free {dirs p p'} (pp : Nat) (hpp : pp < p.npages) (hfree : ¬p.Free pp)
      (hunused : p.total dirs pp = 0) (hrun : pageFree pp p = .ret () p') :
      PageStep ⟨dirs, p⟩ ⟨dirs, p'⟩
  | walk {dirs p r p'} (d : Nat) (va : Word) (hd : d ∈ dirs)
      (hrun : pgdirWalk (some d) va true p = .ret r p') : PageStep ⟨dirs, p⟩ ⟨dirs, p'⟩
  | insert {dirs p r p'} (d pp : Nat) (va perm : Word) (hd : d ∈ dirs) (hpp : pp < p.npages)
      (hfree : ¬p.Free pp) (hva : va.toNat < utop) (hperm : perm.toNat < pgsize)
      (hrun : pageInsert (some d) pp va perm p = .ret r p') : PageStep ⟨dirs, p⟩ ⟨dirs, p'⟩
  | remove {dirs p p'} (d : Nat) (va : Word) (hd : d ∈ dirs) (hva : va.toNat < utop)
      (hrun : pageRemove (some d) va p = .ret () p') : PageStep ⟨dirs, p⟩ ⟨dirs, p'⟩
  | decrefTable {dirs p p'} (d i t : Nat) (ht : TableAt dirs p d i t)
      (hempty : ∀ j < nptentries, present (p.mem t j) = false)
      (hrun : (do storePte (d, i) 0; pageDecref t : PhysM Unit) p = .ret () p') :
      PageStep ⟨dirs, p⟩ ⟨dirs, p'⟩
  | decrefDir {dirs p p'} (d : Nat) (hd : d ∈ dirs)
      (hempty : ∀ i ∈ ownEntries p.mem p.kernPgdir, tableOf p.mem d i = none)
      (hrun : pageDecref d p = .ret () p') : PageStep ⟨dirs, p⟩ ⟨dirs.erase d, p'⟩
  | setupVm {dirs p d p'} (hrun : setupVm p = .ret (some d) p') :
      PageStep ⟨dirs, p⟩ ⟨insert d dirs, p'⟩
  | setupVmFull {dirs p p'} (hrun : setupVm p = .ret none p') : PageStep ⟨dirs, p⟩ ⟨dirs, p'⟩

/-- No page has `2^16` references. -/
def PageState.Bounded (L : MemLayout) (s : PageState) : Prop :=
  ∀ q, s.phys.total s.dirs q + L.marked q < 65536

/-- A run through bounded states. -/
def PageRun (L : MemLayout) : PageState → PageState → Prop :=
  ReflTransGen fun s s' => PageStep s s' ∧ s'.Bounded L

/-- The free list is a list of unused pages, every counter is exact, and every page table
belongs to one directory entry. -/
structure Accounted (L : MemLayout) (s : PageState) : Prop where
  free_list : ∃ l, Chain (fun q => (s.phys.pages q).ppLink) s.phys.pageFreeList l ∧ l.Nodup ∧
    ∀ q ∈ l, (s.phys.pages q).ppRef = 0 ∧ q ∉ s.dirs ∧
      (∀ d ∈ s.dirs, ∀ v < userPages, mappedPage s.phys.mem d v ≠ some q) ∧
      ∀ d ∈ s.dirs, ∀ i ∈ ownEntries s.phys.mem s.phys.kernPgdir, tableOf s.phys.mem d i ≠ some q
  refs : ∀ q < s.phys.npages, (s.phys.pages q).ppRef.toNat =
    mapCount s.phys.mem s.dirs q + tableCount s.phys.mem s.phys.kernPgdir s.dirs q +
      (if q ∈ s.dirs then 1 else 0) + L.marked q
  table_once : ∀ q, ∀ d ∈ s.dirs, ∀ i ∈ ownEntries s.phys.mem s.phys.kernPgdir,
    tableOf s.phys.mem d i = some q → tableCount s.phys.mem s.phys.kernPgdir s.dirs q = 1

/-- What every step keeps. -/
structure PageInv (L : MemLayout) (kern : Nat) (s : PageState) : Prop where
  accounts : Accounts {kern} L.marked s.dirs s.phys
  shared : ∀ d ∈ s.dirs, SharedHalf s.phys d

variable {L : MemLayout} {kern : Nat} {s s' : PageState} {d : Nat}

theorem MemLayout.marked_le (L : MemLayout) (q : Nat) : L.marked q ≤ 1 := by
  unfold MemLayout.marked
  split <;> omega

theorem PageInv.accounted (h : PageInv L kern s) (hb : s.Bounded L) : Accounted L s where
  free_list := by
    obtain ⟨l, hl, hnd, hz⟩ := h.accounts.free
    refine ⟨l, hl, hnd, fun q hq => ?_⟩
    obtain ⟨hlt, hzero⟩ := hz q hq
    refine ⟨?_, ?_⟩
    · rw [h.accounts.refs q hlt, hzero]
      rfl
    · exact total_eq_zero_iff.mp (Nat.eq_zero_of_add_eq_zero_right hzero)
  refs q hq := by
    rw [h.accounts.refs q hq, BitVec.toNat_ofNat]
    exact Nat.mod_eq_of_lt (hb q)
  table_once q d hd i hi ht := h.accounts.toTables.tableCount_eq_one ⟨hd, hi, ht⟩

section Steps

variable {dirs : Finset Nat} {p p' : Phys} {O : Nat → Prop} {T : Nat → Nat → Prop}

section

variable (h : PageInv L kern ⟨dirs, p⟩)

include h

theorem PageInv.of_frame (hacc : Accounts {kern} L.marked dirs p') (hf : Frame {kern} dirs O T p p')
    (hO : ∀ i, O i → i ∈ ownEntries p.mem p.kernPgdir) : PageInv L kern ⟨dirs, p'⟩ :=
  ⟨hacc, fun d hd => (h.shared d hd).frame hf h.accounts.kern_mem hd hO⟩

theorem PageInv.alloc {flags : Word} {r : Option Nat}
    (hrun : pageAlloc flags p = .ret r p') : PageInv L kern ⟨dirs, p'⟩ := by
  cases hq : p.pageFreeList with
  | none =>
    rw [pageAlloc_of_none hq] at hrun
    cases hrun
    exact h
  | some q =>
    rw [pageAlloc_of_some hq (h.accounts.head_lt hq)] at hrun
    cases hrun
    obtain ⟨hacc, _, hf⟩ := h.accounts.take (O := fun _ => False) (T := fun _ _ => False) hq flags
    exact h.of_frame hacc hf fun _ hi => hi.elim

theorem PageInv.free {pp : Nat} (hpp : pp < p.npages)
    (hfree : ¬p.Free pp) (hunused : p.total dirs pp = 0) (hrun : pageFree pp p = .ret () p') :
    PageInv L kern ⟨dirs, p'⟩ := by
  by_cases href : (p.pages pp).ppRef = 0
  · rw [pageFree_eq href] at hrun
    cases hrun
    have hzero : L.marked pp = 0 := by
      rw [h.accounts.refs pp hpp, hunused, Nat.zero_add] at href
      have hle := L.marked_le pp
      have hmod := congrArg BitVec.toNat href
      rw [BitVec.toNat_ofNat] at hmod
      change _ % 65536 = 0 at hmod
      omega
    have hf : Frame {kern} dirs (fun _ => False) (fun _ _ => False) p (p.push pp) :=
      .of_mem_eq rfl rfl rfl
    exact h.of_frame (h.accounts.push hpp (by rw [hunused, hzero]) hfree) hf fun _ hi => hi.elim
  · have hpanic : pageFree pp p = .panic "pmap->page_free: the pp ref is not zero! \n" := by
      refine bind_run (get_apply p) ?_
      rw [if_pos href]
      rfl
    rw [hpanic] at hrun
    cases hrun

theorem PageInv.walk {va : Word} {r : Option (Nat × Nat)} (hd : d ∈ dirs)
    (hrun : pgdirWalk (some d) va true p = .ret r p') : PageInv L kern ⟨dirs, p'⟩ := by
  cases ht : tableOf p.mem d (pdx va) with
  | some t =>
    -- The entry is present, whether it is shared or not, and nothing is written.
    by_cases hlt : t < p.npages
    · rw [pgdirWalk_of_some ht hlt] at hrun
      cases hrun
      exact h
    · obtain ⟨hp, hpage⟩ := tableOf_eq_some.mp ht
      have hpanic : pgdirWalk (some d) va true p = .panic "KADDR called with invalid pa" := by
        refine bind_run (loadPte_eq rfl) ?_
        rw [if_pos hp, hpage, bind_apply]
        have hk : kaddr t p = .panic "KADDR called with invalid pa" := by
          refine bind_run (get_apply p) ?_
          rw [if_pos (by omega)]
          rfl
        rw [hk]
      rw [hpanic] at hrun
      cases hrun
  | none =>
    have hlt : pdx va < 1024 := by
      have := pgnum_lt va
      rw [pdx_eq]
      omega
    have hown : pdx va ∈ ownEntries p.mem p.kernPgdir := by
      by_contra hn
      have hp := (h.shared d hd).present hlt hn
      rw [tableOf_eq_none] at ht
      rw [ht] at hp
      cases hp
    cases hq : p.pageFreeList with
    | none =>
      rw [pgdirWalk_of_full ht hq] at hrun
      cases hrun
      exact h
    | some q =>
      rw [pgdirWalk_new ht hq (h.accounts.head_lt hq)] at hrun
      cases hrun
      have hadd := h.accounts.withTable hd hown ht hq
      exact h.of_frame hadd.accounts hadd.frame fun _ hi => hi ▸ hown

section

variable (hb : PageState.Bounded L ⟨dirs, p⟩)

include hb

theorem PageInv.insert {d pp : Nat} {va perm : Word} {r : Int} (hd : d ∈ dirs) (hpp : pp < p.npages)
    (hfree : ¬p.Free pp) (hva : va.toNat < utop) (hperm : perm.toNat < pgsize)
    (hrun : pageInsert (some d) pp va perm p = .ret r p') : PageInv L kern ⟨dirs, p'⟩ := by
  rcases pageInsert_spec h.accounts hd hva hpp hfree hperm fun q _ => (hb q).le with
    ⟨hfail, _, _⟩ | ⟨p1, hok, hins⟩
  · rw [hfail] at hrun
    cases hrun
    exact h
  · rw [hok] at hrun
    cases hrun
    exact h.of_frame hins.accounts hins.frame fun _ hi => h.accounts.toTables.own_of_user hi

theorem PageInv.remove {va : Word} (hd : d ∈ dirs) (hva : va.toNat < utop)
    (hrun : pageRemove (some d) va p = .ret () p') : PageInv L kern ⟨dirs, p'⟩ := by
  rw [pageRemove_eq h.accounts.toTables.user hd hva] at hrun
  cases hrun
  have hun := h.accounts.unmap hd ((lt_utop_iff va).mp hva) fun q _ => (hb q).le
  exact h.of_frame hun.accounts hun.frame fun _ hi => hi.elim

theorem PageInv.decrefTable {d i t : Nat} (ht : TableAt dirs p d i t)
    (hempty : ∀ j < nptentries, present (p.mem t j) = false)
    (hrun : (do storePte (d, i) 0; pageDecref t : PhysM Unit) p = .ret () p') :
    PageInv L kern ⟨dirs, p'⟩ := by
  have hdecref : (do storePte (d, i) 0; pageDecref t : PhysM Unit) p =
      .ret () ((p.setWord d i 0).decref t) :=
    bind_run (modify_apply _ p) (pageDecref_eq t _)
  rw [hdecref] at hrun
  cases hrun
  obtain ⟨hacc, hf, _, _⟩ := h.accounts.freeTable ht hempty (hb t).le
  exact h.of_frame hacc hf fun _ hi => hi ▸ ht.2.1

theorem PageInv.decrefDir (hd : d ∈ dirs)
    (hempty : ∀ i ∈ ownEntries p.mem p.kernPgdir, tableOf p.mem d i = none)
    (hrun : pageDecref d p = .ret () p') : PageInv L kern ⟨dirs.erase d, p'⟩ := by
  rw [pageDecref_eq] at hrun
  cases hrun
  refine ⟨(h.accounts.freeDir hd hempty (hb d).le).1, fun x hx => ?_⟩
  have hf : Frame {kern} dirs (fun _ => False) (fun _ _ => False) p (p.decref d) := .of_decref p d
  have hx' := Finset.mem_of_mem_erase hx
  exact (h.shared x hx').frame hf h.accounts.kern_mem hx' fun _ hi => hi.elim

end

theorem PageInv.setupVm {r : Option Nat} (hrun : setupVm p = .ret r p') : (r = none ∧ p' = p) ∨
      ∃ d, r = some d ∧ PageInv L kern ⟨Insert.insert d dirs, p'⟩ := by
  cases hq : p.pageFreeList with
  | none =>
    rw [setupVm_of_none hq] at hrun
    cases hrun
    exact Or.inl ⟨rfl, rfl⟩
  | some q =>
    rw [setupVm_of_some hq (h.accounts.head_lt hq)] at hrun
    cases hrun
    obtain ⟨hacc, hshared, hf⟩ :=
      h.accounts.withDir (O := fun _ => False) (T := fun _ _ => False) hq
    refine Or.inr ⟨q, rfl, hacc, fun x hx => ?_⟩
    rcases Finset.mem_insert.mp hx with rfl | hx
    · exact hshared
    · exact (h.shared x hx).frame hf h.accounts.kern_mem hx fun _ hi => hi.elim

end

end Steps

theorem PageInv.step (h : PageInv L kern s) (hb : s.Bounded L) (hs : PageStep s s') :
    PageInv L kern s' := by
  cases hs with
  | alloc flags hrun => exact h.alloc hrun
  | free pp hpp hfree hunused hrun => exact h.free hpp hfree hunused hrun
  | walk d va hd hrun => exact h.walk hd hrun
  | insert d pp va perm hd hpp hfree hva hperm hrun =>
    exact h.insert hb hd hpp hfree hva hperm hrun
  | remove d va hd hva hrun => exact h.remove hb hd hva hrun
  | decrefTable d i t ht hempty hrun => exact h.decrefTable hb ht hempty hrun
  | decrefDir d hd hempty hrun => exact h.decrefDir hb hd hempty hrun
  | setupVm hrun =>
    rcases h.setupVm hrun with ⟨hr, _⟩ | ⟨d, hr, hinv⟩
    · cases hr
    · cases hr
      exact hinv
  | setupVmFull hrun =>
    rcases h.setupVm hrun with ⟨_, rfl⟩ | ⟨d, hr, _⟩
    · exact h
    · cases hr

theorem PageInv.init {p0 p1 : Phys} (h0 : BeforePageInit L p0)
    (hinit : pageInit L p0 = .ret () p1) : PageInv L p1.kernPgdir ⟨∅, p1⟩ := by
  obtain ⟨p', hp', hinit'⟩ := pageInit_run h0
  rw [hinit] at hp'
  cases hp'
  exact ⟨hinit'.accounts h0, fun d hd => by simp at hd⟩

theorem PageInv.init_npages {p0 p1 : Phys} (h0 : BeforePageInit L p0)
    (hinit : pageInit L p0 = .ret () p1) : p1.npages = L.npages := by
  obtain ⟨p', hp', hinit'⟩ := pageInit_run h0
  rw [hinit] at hp'
  cases hp'
  rw [hinit'.npages, h0.npages]

/-- In every state of a run that starts where `page_init` ends, the free list holds unused pages,
the counters are exact and the page tables are not shared. -/
theorem pageRun_accounted {p0 p1 : Phys} (h0 : BeforePageInit L p0)
    (hinit : pageInit L p0 = .ret () p1) (hrun : PageRun L ⟨∅, p1⟩ s) : Accounted L s := by
  have hstart : PageState.Bounded L ⟨∅, p1⟩ := by
    intro q
    have := L.marked_le q
    have := p1.total_empty q
    dsimp only
    omega
  have hinv := run_invariant (I := fun s => PageInv L p1.kernPgdir s ∧ s.Bounded L) hrun
      ⟨.init h0 hinit, hstart⟩ fun _ _ hi hs => ⟨hi.1.step hi.2 hs.1, hs.2⟩
  exact hinv.1.accounted hinv.2

/-- Sixteen pages: base memory below page 8, boot data from page 8 to page 11. -/
def smallLayout : MemLayout where
  npages := 16
  npages_le := by decide
  npagesBasemem := 8
  basemem_le := by decide
  firstFree := 12
  firstFree_le := by decide

def smallPhys : Phys where
  npages := 16
  npages_le := by decide
  kernPgdir := 8
  pages _ := ⟨none, 0⟩
  pageFreeList := none
  userMemCheckAddr := 0
  mem q i := if q = 8 ∧ i = uvptIndex then selfEntry 8 else 0

theorem smallPhys_before : BeforePageInit smallLayout smallPhys where
  npages := rfl
  pageFreeList := rfl
  kern_reserved := by decide
  kern_empty i _ hi := by simp [smallPhys, hi]

/-- With so few pages no counter can run over. -/
theorem smallLayout_bounded (h : PageInv L kern s) (hn : s.phys.npages = 16) :
    s.Bounded smallLayout := by
  intro q
  have := h.accounts.toTables.total_le q
  have := smallLayout.marked_le q
  omega

/-- A directory is made, a page is allocated and inserted at address 0. -/
theorem smallPhys_runs : ∃ p1 p2 p3 p4 : Phys, pageInit smallLayout smallPhys = .ret () p1 ∧
    (setupVm p1 = .ret (some 15) p2 ∧ p2.npages = 16) ∧
    (pageAlloc allocZero p2 = .ret (some 14) p3 ∧ p3.npages = 16 ∧
      Chain (fun q => (p3.pages q).ppLink) p3.pageFreeList [13, 12, 6, 5, 4, 3, 2, 1]) ∧
    (pageInsert (some 15) 14 0 (pteP ||| pteU) p3 = .ret 0 p4 ∧ p4.npages = 16) ∧
    mappedPage p4.mem 15 0 = some 14 :=
  ⟨_, _, _, _, rfl, ⟨rfl, rfl⟩, ⟨rfl, rfl, rfl, rfl, rfl, rfl, rfl, rfl, rfl, rfl, rfl⟩, ⟨rfl, rfl⟩,
    rfl⟩

theorem pageRun_accounted_small : ∃ p1 s, pageInit smallLayout smallPhys = .ret () p1 ∧
    PageRun smallLayout ⟨∅, p1⟩ s ∧ (∃ d ∈ s.dirs, mappedPage s.phys.mem d 0 = some 14) ∧
    Accounted smallLayout s := by
  obtain ⟨p1, p2, p3, p4, h1, ⟨h2, n2⟩, ⟨h3, n3, c3⟩, ⟨h4, n4⟩, hmap⟩ := smallPhys_runs
  have f3 : ¬p3.Free 14 := fun h => absurd (h.mem c3) (by decide)
  have hva : (0 : Word).toNat < utop := by decide
  have hperm : (pteP ||| pteU).toNat < pgsize := by decide
  have hd : 15 ∈ insert 15 (∅ : Finset Nat) := by decide
  have s1 : PageStep ⟨∅, p1⟩ ⟨insert 15 ∅, p2⟩ := .setupVm h2
  have s2 : PageStep ⟨insert 15 ∅, p2⟩ ⟨insert 15 ∅, p3⟩ := .alloc allocZero h3
  have s3 : PageStep ⟨insert 15 ∅, p3⟩ ⟨insert 15 ∅, p4⟩ :=
    .insert 15 14 0 _ hd (by omega) f3 hva hperm h4
  have i1 := PageInv.init smallPhys_before h1
  have b1 := smallLayout_bounded i1 (PageInv.init_npages smallPhys_before h1)
  have i2 := i1.step b1 s1
  have b2 := smallLayout_bounded i2 n2
  have i3 := i2.step b2 s2
  have b3 := smallLayout_bounded i3 n3
  have b4 := smallLayout_bounded (i3.step b3 s3) n4
  have hrun : PageRun smallLayout ⟨∅, p1⟩ ⟨insert 15 ∅, p4⟩ :=
    ((ReflTransGen.single ⟨s1, b2⟩).tail ⟨s2, b3⟩).tail ⟨s3, b4⟩
  exact ⟨p1, ⟨insert 15 ∅, p4⟩, h1, hrun, ⟨15, hd, hmap⟩,
    pageRun_accounted smallPhys_before h1 hrun⟩

/-- Without the reference of the marked pages the counters are not exact: page 0 has one, and
nothing maps it. Nor can `page_decref` be called at will: it puts a mapped page on the free list. -/
theorem marked_and_decref_break_exactness :
    (∃ p1, pageInit smallLayout smallPhys = .ret () p1 ∧ 0 < p1.npages ∧
      (p1.pages 0).ppRef.toNat ≠ mapCount p1.mem ∅ 0 + tableCount p1.mem p1.kernPgdir ∅ 0 +
        if 0 ∈ (∅ : Finset Nat) then 1 else 0) ∧
    ∃ p1 p2 p3 p4 p5 : Phys, pageInit smallLayout smallPhys = .ret () p1 ∧
      setupVm p1 = .ret (some 15) p2 ∧ pageAlloc allocZero p2 = .ret (some 14) p3 ∧
      pageInsert (some 15) 14 0 (pteP ||| pteU) p3 = .ret 0 p4 ∧
      pageDecref 14 p4 = .ret () p5 ∧ p5.pageFreeList = some 14 ∧
      mappedPage p5.mem 15 0 = some 14 := by
  refine ⟨?_, _, _, _, _, _, rfl, rfl, rfl, rfl, rfl, rfl, rfl⟩
  have hmarked : ∃ p1, pageInit smallLayout smallPhys = .ret () p1 ∧ 0 < p1.npages ∧
      (p1.pages 0).ppRef.toNat = 1 := ⟨_, rfl, by decide, rfl⟩
  obtain ⟨p1, hinit, hn, href⟩ := hmarked
  refine ⟨p1, hinit, hn, ?_⟩
  have hnone := p1.total_empty 0
  unfold Phys.total total at hnone
  rw [href, hnone]
  exact Nat.one_ne_zero

end Jos
