import Jos.Kernel.Failures
import Jos.Kernel.KernelHalf

/-!
# Taking down an environment

`env_free` is to put on the free list what belongs to the environment alone. It goes by the
counters, so it does exactly if those are right. They need not be: `region_alloc` counts a reference
that no table holds, and such a page can be mapped on into an environment not made at boot.
-/

namespace Jos

open Logic Finset Phys BitVec

variable {K : Set Nat} {extra : Nat → Nat} {dirs : Finset Nat} {p p' : Phys} {k k' : Kernel}
  {d e i t v x : Nat} {w : Word}

/-- The page `x` is mapped below `UTOP` in `d` and in no other directory. -/
def OnlyIn (dirs : Finset Nat) (p : Phys) (d x : Nat) : Prop :=
  (∃ v < userPages, mappedPage p.mem d v = some x) ∧
    ∀ d' ∈ dirs, d' ≠ d → ∀ v < userPages, mappedPage p.mem d' v ≠ some x

/-- The page `x` is the directory `d`, one of its page tables below `UTOP`, or a page that
only `d` maps. -/
def BelongsTo (dirs : Finset Nat) (p : Phys) (d x : Nat) : Prop :=
  x = d ∨ (∃ i < userTables, tableOf p.mem d i = some x) ∨ OnlyIn dirs p d x

/-- What the counters of these pages are to be. -/
structure Counted (dirs : Finset Nat) (p : Phys) (d : Nat) : Prop where
  dir : (p.pages d).ppRef = 1
  table : ∀ i < userTables, ∀ t, tableOf p.mem d i = some t → (p.pages t).ppRef = 1
  page : ∀ x, OnlyIn dirs p d x → (p.pages x).ppRef = BitVec.ofNat 16 (mapCount p.mem dirs x)

/-- The environment with the directory `d` has been taken down between `k` and `k'`, and
nothing else has happened to memory. -/
structure TornDown (k : Kernel) (d : Nat) (k' : Kernel) : Prop where
  freed : ∀ x, k'.phys.Free x ↔ k.phys.Free x ∨ BelongsTo k.dirs k.phys d x
  refs : ∀ x < k.phys.npages, ¬ BelongsTo k.dirs k.phys d x → (k'.phys.pages x).ppRef =
    (k.phys.pages x).ppRef - BitVec.ofNat 16 (mapCount k.phys.mem {d} x)
  others : ∀ d' ∈ k.dirs, d' ≠ d → SameSpace d' k.phys k'.phys
  kern : ∀ x ∈ kernPages k.phys, k'.phys.mem x = k.phys.mem x

theorem mapsAt_of_mappedPage (hd : d ∈ dirs) (hv : v < userPages)
    (hm : mappedPage p.mem d v = some x) : ∃ w, MapsAt dirs p d v w ∧ pageOf w = x := by
  obtain ⟨w, hw, hpage⟩ := mappedPage_eq_some.mp hm
  exact ⟨w, ⟨hd, hv, hw⟩, hpage⟩

theorem refs_erase {β : Type} [DecidableEq β] (hd : d ∈ dirs) (S : Finset β)
    (f : Nat × β → Option Nat) (x : Nat) :
    refs (dirs ×ˢ S) f x = refs (dirs.erase d ×ˢ S) f x + refs ({d} ×ˢ S) f x := by
  have hsplit : dirs ×ˢ S = dirs.erase d ×ˢ S ∪ {d} ×ˢ S := by
    rw [← union_product, union_comm, ← insert_eq, insert_erase hd]
  rw [hsplit]
  refine refs_union (disjoint_product.mpr (.inl ?_))
  exact disjoint_singleton_right.mpr (notMem_erase d dirs)

theorem ofNat_add_iff {n m : Nat} (hm : m ≤ 1) :
    BitVec.ofNat 16 (n + m) = BitVec.ofNat 16 n ↔ m = 0 := by
  constructor
  · intro h
    have hmod := congrArg BitVec.toNat h
    rw [toNat_ofNat, toNat_ofNat] at hmod
    omega
  · rintro rfl
    rfl

theorem SpaceFreed.mem_eq
    (hf : SpaceFreed K extra dirs d p p') (hx : ¬ BelongsTo dirs p d x) : p'.mem x = p.mem x :=
  hf.mem x (fun he => hx (.inl he)) fun i hi ht => hx (.inr (.inl ⟨i, hi, ht⟩))

section

variable (h : Intact K extra dirs p)

include h

theorem Intact.table_own (hd : d ∈ dirs)
    (hi : i ∈ ownEntries p.mem p.kernPgdir) (ht : tableOf p.mem d i = some t) :
    i < userTables := by
  by_contra hge
  rw [(h.upper d hd).absent (not_lt.mp hge) hi] at ht
  cases ht

theorem BelongsTo.total_erase (hd : d ∈ dirs)
    (hx : BelongsTo dirs p d x) : p.total (dirs.erase d) x = 0 := by
  refine total_eq_zero_iff.mpr ?_
  rcases hx with rfl | ⟨i, hi, ht⟩ | ⟨⟨v, hv, hm⟩, honly⟩
  · refine ⟨notMem_erase x dirs, fun d' hd' v hv hm => ?_, fun d' hd' i hi ht => ?_⟩
    · obtain ⟨w, hmaps, rfl⟩ := mapsAt_of_mappedPage (mem_of_mem_erase hd') hv hm
      exact (h.plain hmaps).not_dir hd
    · exact h.table_not_dir ⟨mem_of_mem_erase hd', hi, ht⟩ hd
  · have htab : TableAt dirs p d i x := ⟨hd, h.toTables.own_of_user hi, ht⟩
    refine ⟨fun hc => h.table_not_dir htab (mem_of_mem_erase hc),
      fun d' hd' v hv hm => ?_, fun d' hd' i' hi' ht' => ?_⟩
    · obtain ⟨w, hmaps, rfl⟩ := mapsAt_of_mappedPage (mem_of_mem_erase hd') hv hm
      exact (h.plain hmaps).not_table d i htab
    · have hsame := h.table_inj htab ⟨mem_of_mem_erase hd', hi', ht'⟩
      exact ne_of_mem_erase hd' hsame.1
  · obtain ⟨w, hmaps, rfl⟩ := mapsAt_of_mappedPage hd hv hm
    have hplain := h.plain hmaps
    refine ⟨fun hc => hplain.not_dir (mem_of_mem_erase hc),
      fun d' hd' => honly d' (mem_of_mem_erase hd') (ne_of_mem_erase hd'),
      fun d' hd' i' hi' ht' => hplain.not_table d' i' ⟨mem_of_mem_erase hd', hi', ht'⟩⟩

theorem BelongsTo.total_pos (hd : d ∈ dirs) (hx : BelongsTo dirs p d x) : 0 < p.total dirs x := by
  rcases hx with rfl | ⟨i, hi, ht⟩ | ⟨⟨v, hv, hm⟩, -⟩
  · exact total_pos_of_dir hd
  · exact total_pos_of_table ⟨hd, h.toTables.own_of_user hi, ht⟩
  · obtain ⟨w, hmaps, rfl⟩ := mapsAt_of_mappedPage hd hv hm
    exact total_pos_of_map hmaps

theorem Intact.belongsTo (hpos : 0 < p.total dirs x)
    (hz : p.total (dirs.erase d) x = 0) : BelongsTo dirs p d x := by
  obtain ⟨hdir, hmap, htab⟩ := total_eq_zero_iff.mp hz
  have honly : ∀ d' ∈ dirs, d' ≠ d → d' ∈ dirs.erase d := fun d' hd' hne =>
    mem_erase.mpr ⟨hne, hd'⟩
  by_contra hnot
  refine hpos.ne' (total_eq_zero_iff.mpr ⟨fun hx => ?_, fun d' hd' v hv hm => ?_,
    fun d' hd' i hi ht => ?_⟩)
  · by_cases hne : x = d
    · exact hnot (.inl hne)
    · exact hdir (honly x hx hne)
  · by_cases hne : d' = d
    · subst hne
      exact hnot (.inr (.inr ⟨⟨v, hv, hm⟩, fun d'' hd'' hne' =>
        hmap d'' (honly d'' hd'' hne')⟩))
    · exact hmap d' (honly d' hd' hne) v hv hm
  · by_cases hne : d' = d
    · subst hne
      exact hnot (.inr (.inl ⟨i, h.table_own hd' hi ht, ht⟩))
    · exact htab d' (honly d' hd' hne) i hi ht

theorem Intact.total_split (hd : d ∈ dirs) (hx : ¬ BelongsTo dirs p d x) :
    p.total dirs x = p.total (dirs.erase d) x + mapCount p.mem {d} x := by
  have htables : refs ({d} ×ˢ ownEntries p.mem p.kernPgdir) (fun y => tableOf p.mem y.1 y.2) x =
      0 := by
    refine refs_eq_zero_iff.mpr ?_
    rintro ⟨d', i⟩ hy ht
    rw [mem_product, mem_singleton] at hy
    obtain ⟨rfl, hi⟩ := hy
    exact hx (.inr (.inl ⟨i, h.table_own hd hi ht, ht⟩))
  have hdir : (if x ∈ dirs then 1 else 0) = if x ∈ dirs.erase d then 1 else 0 := by
    have hne : x ≠ d := fun he => hx (.inl he)
    simp only [mem_erase, hne, ne_eq, not_false_eq_true, true_and]
  unfold Phys.total total mapCount tableCount
  rw [refs_erase hd, refs_erase hd (ownEntries p.mem p.kernPgdir), htables, hdir]
  omega

theorem BelongsTo.lt (hd : d ∈ dirs) (hx : BelongsTo dirs p d x) : x < p.npages := by
  rcases hx with rfl | ⟨i, hi, ht⟩ | ⟨⟨v, hv, hm⟩, -⟩
  · exact h.dir_lt x hd
  · exact h.table_lt ⟨hd, h.toTables.own_of_user hi, ht⟩
  · obtain ⟨w, hmaps, rfl⟩ := mapsAt_of_mappedPage hd hv hm
    exact h.mapped_lt hmaps

theorem Intact.mapCount_dir (hx : ¬ Plain K dirs p x) : mapCount p.mem dirs x = 0 := by
  by_contra hne
  obtain ⟨⟨d, v⟩, hy, hm⟩ := refs_pos_iff.mp (Nat.pos_of_ne_zero hne)
  rw [mem_product, mem_range] at hy
  obtain ⟨w, hmaps, rfl⟩ := mapsAt_of_mappedPage hy.1 hy.2 hm
  exact hx (h.plain hmaps)

theorem Intact.total_dir (hd : d ∈ dirs) : p.total dirs d = 1 := by
  have hmap := h.mapCount_dir fun hp => hp.not_dir hd
  have htab : tableCount p.mem p.kernPgdir dirs d = 0 := by
    refine refs_eq_zero_iff.mpr ?_
    rintro ⟨d', i⟩ hy ht
    rw [mem_product] at hy
    exact h.table_not_dir ⟨hy.1, hy.2, ht⟩ hd
  unfold Phys.total total
  rw [hmap, htab, if_pos hd]

theorem Intact.total_table (ht : TableAt dirs p d i t) : p.total dirs t = 1 := by
  have hmap := h.mapCount_dir fun hp => hp.not_table d i ht
  unfold Phys.total total
  rw [hmap, h.toTables.tableCount_eq_one ht, if_neg (h.table_not_dir ht)]

theorem Intact.counted_iff (hd : d ∈ dirs) :
    Counted dirs p d ↔ ∀ x, BelongsTo dirs p d x → extra x = 0 := by
  have href : ∀ {x n}, BelongsTo dirs p d x → p.total dirs x = n →
      ((p.pages x).ppRef = BitVec.ofNat 16 n ↔ extra x = 0) := by
    intro x n hx hn
    rw [h.refs x (hx.lt h hd), hn]
    exact ofNat_add_iff (h.extra_le x)
  have hpage : ∀ {x}, OnlyIn dirs p d x → p.total dirs x = mapCount p.mem dirs x := by
    rintro x ⟨⟨v, hv, hm⟩, -⟩
    obtain ⟨w, hmaps, rfl⟩ := mapsAt_of_mappedPage hd hv hm
    exact (h.plain hmaps).total_eq
  have htable : ∀ {i t}, i < userTables → tableOf p.mem d i = some t → p.total dirs t = 1 :=
    fun hi ht => h.total_table ⟨hd, h.toTables.own_of_user hi, ht⟩
  constructor
  · rintro hc x (rfl | ⟨i, hi, ht⟩ | honly)
    · exact (href (.inl rfl) (h.total_dir hd)).mp hc.dir
    · exact (href (.inr (.inl ⟨i, hi, ht⟩)) (htable hi ht)).mp (hc.table i hi x ht)
    · exact (href (.inr (.inr honly)) (hpage honly)).mp (hc.page x honly)
  · intro hz
    refine ⟨?_, fun i hi t ht => ?_, fun x honly => ?_⟩
    · exact (href (.inl rfl) (h.total_dir hd)).mpr (hz d (.inl rfl))
    · have hx : BelongsTo dirs p d t := .inr (.inl ⟨i, hi, ht⟩)
      exact (href hx (htable hi ht)).mpr (hz t hx)
    · have hx : BelongsTo dirs p d x := .inr (.inr honly)
      exact (href hx (hpage honly)).mpr (hz x hx)

theorem SpaceFreed.total_erase (hd : d ∈ dirs) (hf : SpaceFreed K extra dirs d p p') :
    p'.total (dirs.erase d) x = p.total (dirs.erase d) x := by
  have hrow : ∀ d' ∈ dirs.erase d, ∀ i, tableOf p'.mem d' i = tableOf p.mem d' i := by
    intro d' hd' i
    refine tableOf_congr ?_
    rw [hf.mem d' (ne_of_mem_erase hd') fun j hj ht => ?_]
    exact h.table_not_dir ⟨hd, h.toTables.own_of_user hj, ht⟩ (mem_of_mem_erase hd')
  have hmap : mapCount p'.mem (dirs.erase d) x = mapCount p.mem (dirs.erase d) x := by
    refine mapCount_congr fun d' hd' v hv => ?_
    unfold mappedPage
    rw [hf.frame.entries d' (mem_of_mem_erase hd') v hv (ne_of_mem_erase hd')]
  have hown := hf.frame.ownEntries_eq h.kern_mem
  unfold Phys.total total
  rw [hf.frame.kernPgdir] at hown ⊢
  rw [hmap, tableCount_congr hown fun d' hd' i _ => hrow d' hd' i]

theorem SpaceFreed.free_iff (hd : d ∈ dirs) (hf : SpaceFreed K extra dirs d p p') :
    p'.Free x ↔ p.Free x ∨ BelongsTo dirs p d x ∧ extra x = 0 := by
  rw [hf.frees x, hf.total_erase h hd]
  refine or_congr_right ⟨fun ⟨hpos, hz⟩ => ?_, fun ⟨hx, hz⟩ => ?_⟩
  · exact ⟨h.belongsTo (by omega) (by omega), by omega⟩
  · have hpos := hx.total_pos h hd
    have hother := hx.total_erase h hd
    exact ⟨by omega, by omega⟩

theorem SpaceFreed.ppRef (hd : d ∈ dirs)
    (hf : SpaceFreed K extra dirs d p p') (hx : x < p.npages) (hnot : ¬ BelongsTo dirs p d x) :
    (p'.pages x).ppRef = (p.pages x).ppRef - BitVec.ofNat 16 (mapCount p.mem {d} x) := by
  have hsplit : p.total dirs x + extra x =
      (p.total (dirs.erase d) x + extra x) + mapCount p.mem {d} x := by
    have := h.total_split hd hnot
    omega
  rw [hf.intact.refs x (hf.frame.npages ▸ hx), h.refs x hx, hf.total_erase h hd, hsplit,
    ofNat_add (p.total (dirs.erase d) x + extra x), add_sub_cancel]

end

theorem SpaceFreed.sameSpace {d' : Nat} (h : Intact (kernPages p) extra dirs p) (hd : d ∈ dirs)
    (hf : SpaceFreed (kernPages p) extra dirs d p p') (hd' : d' ∈ dirs) (hne : d' ≠ d) :
    SameSpace d' p p' := by
  have hkeep : ∀ {x}, 0 < p.total (dirs.erase d) x → p'.mem x = p.mem x := fun {x} hpos =>
    hf.mem_eq fun hx => hpos.ne' (hx.total_erase h hd)
  have herase : d' ∈ dirs.erase d := mem_erase.mpr ⟨hne, hd'⟩
  refine h.sameSpace hd' (hkeep (total_pos_of_dir herase)) hf.frame.kern (fun ht => ?_)
    fun hm => ?_
  · exact hkeep (total_pos_of_table ⟨herase, ht.2⟩)
  · exact hkeep (total_pos_of_map ⟨herase, hm.2⟩)

theorem SpaceFreed.tornDown_iff (h : Intact (kernPages k.phys) extra k.dirs k.phys)
    (hd : d ∈ k.dirs) (hf : SpaceFreed (kernPages k.phys) extra k.dirs d k.phys k'.phys) :
    TornDown k d k' ↔ Counted k.dirs k.phys d := by
  rw [h.counted_iff hd]
  constructor
  · intro ht x hx
    have hused : ¬ k.phys.Free x := h.toAccounts.not_free (Nat.add_pos_left (hx.total_pos h hd) _)
    rcases (hf.free_iff h hd).mp ((ht.freed x).mpr (.inr hx)) with hfree | ⟨-, hz⟩
    · exact absurd hfree hused
    · exact hz
  · intro hz
    refine ⟨fun x => ?_, fun x hx hnot => hf.ppRef h hd hx hnot,
      fun d' hd' hne => hf.sameSpace h hd hd' hne, hf.frame.kern⟩
    rw [hf.free_iff h hd]
    exact or_congr_right ⟨And.left, fun hx => ⟨hx, hz x hx⟩⟩

theorem envFree_run (hpgdir : (k.envs e).envPgdir = some d)
    (hrun : freeSpace d k.phys = .ret () p') :
    ∃ k', envFree e k = .ret () k' ∧ EnvFreed k e d k' ∧ k'.phys = p' := by
  obtain ⟨_, p1, hloop, hdec⟩ := ret_of_bind hrun
  have htail : ∀ k1 : Kernel, k1.phys = k.phys → ∃ k', envFreeSpace e d k1 = .ret () k' := by
    intro k1 hk1
    rw [← hk1] at hloop
    exact ⟨_, bind_run (zoom_of_ret hloop) (bind_run (modify_apply _ _)
      (bind_run (zoom_of_ret hdec) rfl))⟩
  have hret : ∃ k', envFree e k = .ret () k' := by
    by_cases hcur : k.curenv = some e
    · obtain ⟨k', hk'⟩ := htail (k.setCpu fun c => { c with cr3 := k.phys.kernPgdir }) rfl
      refine ⟨k', bind_run (get_apply k) ?_⟩
      rw [if_pos hcur, hpgdir]
      exact bind_run (modify_apply _ _) hk'
    · obtain ⟨k', hk'⟩ := htail k rfl
      refine ⟨k', bind_run (get_apply k) ?_⟩
      rw [if_neg hcur, hpgdir]
      exact hk'
  obtain ⟨k', hk'⟩ := hret
  have hfreed := (wp_of_ret hk').mp
    (envFree_wp (E := fun _ => True) (Q := fun _ k' => ∃ d', EnvFreed k e d' k')
      fun d' _ hd' => ⟨d', hd'⟩)
  obtain ⟨d', hd'⟩ := hfreed
  cases hpgdir.symm.trans hd'.pgdir
  refine ⟨k', hk', hd', ?_⟩
  cases hd'.phys.symm.trans hrun
  rfl

/-- `env_free` returns, and it takes down the address space completely if and only if the counters
of its pages are right. -/
theorem env_free_exact (h : Sound k) (he : k.Live e) (hpgdir : (k.envs e).envPgdir = some d) :
    ∃ k', envFree e k = .ret () k' ∧ (TornDown k d k' ↔ Counted k.dirs k.phys d) := by
  obtain ⟨⟨extra, hs⟩, hb⟩ := h
  have hd : d ∈ k.dirs := mem_dirs.mpr ⟨e, he, hpgdir⟩
  obtain ⟨p', hrun, hfreed⟩ := freeSpace_spec hs.intact hb hd
  obtain ⟨k', hk', -, rfl⟩ := envFree_run hpgdir hrun
  exact ⟨k', hk', hfreed.tornDown_iff hs.intact hd⟩

/-- An environment has forked. -/
@[irreducible] def expecting : Kernel := (familyCalls.take 1).foldl .called single

theorem expecting_sound : Sound expecting := by
  unfold expecting
  exact (snapshot_booted.spaceRun (single_spaceRun.calls (familyCalls.take 1)
    (by decide +kernel))).sound

/-- Nothing is mapped in the child, and it is taken down completely. -/
theorem env_free_exact_child : ∃ k', envFree 1 expecting = .ret () k' ∧
    TornDown expecting 105 k' := by
  have hnone : ∀ i < userTables, tableOf expecting.phys.mem 105 i = none := by decide +kernel
  obtain ⟨k', hk', hiff⟩ := env_free_exact (e := 1) (d := 105) expecting_sound
    (by decide +kernel) (by decide +kernel)
  refine ⟨k', hk', hiff.mpr ⟨by decide +kernel, fun i hi t ht => ?_, fun x hx => ?_⟩⟩
  · cases (hnone i hi).symm.trans ht
  · obtain ⟨⟨v, hv, hm⟩, -⟩ := hx
    obtain ⟨w, hw, -⟩ := mappedPage_eq_some.mp hm
    obtain ⟨t, ht, -⟩ := pteOf_eq_some.mp hw
    cases (hnone _ (Nat.div_lt_of_lt_mul hv)).symm.trans ht

/-- A program without segments: only its stack is mapped. -/
def bare : Elf where
  eEntry := 0x800020
  ph := []
  byte _ := 0

/-- A child gets the stack page of its parent, which was made at boot. When the parent is gone, only
the child maps the page, but it stays in use when the child is freed. -/
theorem boot_page_not_returned : ∃ k0 k1 k2 k3 k4, envCreate bare .user snapshot = .ret () k0 ∧
    sysExofork ((envRun 0 k0).after k0) = .ret 0x1001 k1 ∧
    sysPageMap 0 0xeebfd000 0x1001 0xeebfd000 5 k1 = .ret 0 k2 ∧
    envFree 0 k2 = .ret () k3 ∧
    envFree 1 k3 = .ret () k4 ∧ (k3.envs 1).envPgdir = some 103 ∧ ¬ TornDown k3 103 k4 := by
  have hrun : (envCreate bare .user snapshot).check fun _ k0 =>
      (sysExofork ((envRun 0 k0).after k0)).check fun id k1 => id == 0x1001 &&
      (sysPageMap 0 0xeebfd000 0x1001 0xeebfd000 5 k1).check fun r k2 => r == 0 &&
      (envFree 0 k2).check fun _ k3 =>
      (envFree 1 k3).check fun _ k4 =>
        mappedPage k3.phys.mem 103 977917 == some 101 && (k3.envs 1).envPgdir == some 103 &&
        ((List.range nenv).all fun i => i == 1 || (k3.envs i).envStatus == .free) &&
        (follow (fun x => (k4.phys.pages x).ppLink) 128 k4.phys.pageFreeList).any fun l =>
          !l.contains 101 := by
    decide +kernel
  obtain ⟨_, k0, hcreate, hrun⟩ := Outcome.ret_of_check hrun
  obtain ⟨id, k1, hfork, hrun⟩ := Outcome.ret_of_check hrun
  rw [Bool.and_eq_true, beq_iff_eq] at hrun
  obtain ⟨rfl, hrun⟩ := hrun
  obtain ⟨r, k2, hmap, hrun⟩ := Outcome.ret_of_check hrun
  rw [Bool.and_eq_true, beq_iff_eq] at hrun
  obtain ⟨rfl, hrun⟩ := hrun
  obtain ⟨_, k3, hparent, hrun⟩ := Outcome.ret_of_check hrun
  obtain ⟨_, k4, hchild, hrun⟩ := Outcome.ret_of_check hrun
  simp only [Bool.and_eq_true, beq_iff_eq, List.all_eq_true, List.mem_range, Bool.or_eq_true]
    at hrun
  obtain ⟨⟨⟨hmapped, hpgdir⟩, hslots⟩, hlist⟩ := hrun
  refine ⟨k0, k1, k2, k3, k4, hcreate, hfork, hmap, hparent, hchild, hpgdir, fun ht => ?_⟩
  have honly : OnlyIn k3.dirs k3.phys 103 101 := by
    refine ⟨⟨977917, by decide, hmapped⟩, fun d' hd' hne => ?_⟩
    obtain ⟨e', hlive, hdir⟩ := mem_dirs.mp hd'
    rcases hslots e' hlive.1 with rfl | hfree
    · cases hpgdir.symm.trans hdir
      exact absurd rfl hne
    · exact absurd hfree hlive.2
  have hfree := (ht.freed 101).mpr (.inr (.inr (.inr honly)))
  cases hl : follow (fun x => (k4.phys.pages x).ppLink) 128 k4.phys.pageFreeList with
  | none =>
    rw [hl] at hlist
    cases hlist
  | some l =>
    have hmem := hfree.mem (.of_follow hl)
    rw [hl] at hlist
    simp [hmem] at hlist

end Jos
