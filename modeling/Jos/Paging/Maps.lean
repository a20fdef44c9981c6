import Jos.Paging.Checks

/-!
# Directories as finite maps

Below `UTOP` a directory is a map from virtual pages to physical pages with permissions, which
`page_insert` and `page_remove` update at one page. This needs no counters, only that page tables
are distinct and not on the free list.
-/

namespace Jos

open Logic Function

variable {K : Set Nat} {extra : Nat → Nat} {dirs : Finset Nat} {p p' p1 p2 : Phys}
  {d d' i q t v v' pp : Nat} {w va va' perm : Word}

/-- A map from virtual pages to physical pages and permissions. -/
abbrev UserMap := Nat → Option (Nat × Word)

/-- The map that the directory `d` stands for. -/
def Phys.userMap (p : Phys) (d : Nat) : UserMap := fun v =>
  if v < userPages then (pteOf p.mem d v).map fun w => (pageOf w, w &&& 0xfff) else none

/-- The map of `d` is changed at `v` to `x`, and the maps of the other directories are not
changed. -/
def Updates (dirs : Finset Nat) (d v : Nat) (x : Option (Nat × Word)) (p p' : Phys) : Prop :=
  ∀ d' ∈ dirs, p'.userMap d' = if d' = d then update (p.userMap d) v x else p.userMap d'

/-- Well-formed two-level tables: the pages on the free list are neither directories nor
page tables. -/
structure TwoLevel (dirs : Finset Nat) (p : Phys) : Prop extends UserTables dirs p where
  free : ∃ l, Chain (fun x => (p.pages x).ppLink) p.pageFreeList l ∧ l.Nodup ∧
    ∀ q ∈ l, q < p.npages ∧ q ∉ dirs ∧ ∀ d i, ¬ UserTableAt dirs p d i q

theorem Accounts.twoLevel (h : Accounts K extra dirs p) : TwoLevel dirs p where
  toUserTables := h.toTables.user
  free := by
    obtain ⟨l, hl, hnd, hz⟩ := h.free
    refine ⟨l, hl, hnd, fun q hq => ?_⟩
    obtain ⟨hlt, hzero⟩ := hz q hq
    have hplain := h.plain hzero
    exact ⟨hlt, hplain.not_dir, fun d i ht =>
      hplain.not_table d i ⟨ht.1, h.toTables.own_of_user ht.2.1, ht.2.2⟩⟩

theorem Phys.userMap_congr
    (h : ∀ v < userPages, pteOf p'.mem d v = pteOf p.mem d v) : p'.userMap d = p.userMap d := by
  ext1 v
  unfold Phys.userMap
  by_cases hv : v < userPages
  · rw [if_pos hv, if_pos hv, h v hv]
  · rw [if_neg hv, if_neg hv]

theorem updates_of_pteOf {o : Option Word} (hv : v < userPages) (h : ∀ d' ∈ dirs, ∀ v' < userPages,
      pteOf p'.mem d' v' = if d' = d ∧ v' = v then o else pteOf p.mem d' v') :
    Updates dirs d v (o.map fun w => (pageOf w, w &&& 0xfff)) p p' := by
  intro d' hd'
  by_cases hdd : d' = d
  · subst hdd
    rw [if_pos rfl]
    ext1 v'
    unfold Phys.userMap
    by_cases hvv : v' = v
    · subst hvv
      rw [if_pos hv, h d' hd' v' hv, if_pos ⟨rfl, rfl⟩, update_self]
    · rw [update_of_ne hvv]
      by_cases hv' : v' < userPages
      · rw [if_pos hv', if_pos hv', h d' hd' v' hv', if_neg fun hc => hvv hc.2]
      · rw [if_neg hv', if_neg hv']
  · rw [if_neg hdd]
    refine Phys.userMap_congr fun v' hv' => ?_
    rw [h d' hd' v' hv', if_neg fun hc => hdd hc.1]

theorem Updates.trans_same {x : Option (Nat × Word)} (hd : d ∈ dirs)
    (h : ∀ d' ∈ dirs, p1.userMap d' = p.userMap d') (h' : Updates dirs d v x p1 p2) :
    Updates dirs d v x p p2 := by
  intro d' hd'
  rw [h' d' hd', h d hd, h d' hd']

theorem UserTables.rewrite (h : UserTables dirs p) (hn : p'.npages = p.npages)
    (hnew : ∀ {d' i' t'}, UserTableAt dirs p' d' i' t' → UserTableAt dirs p d' i' t' ∨
      d' = d ∧ i' = i ∧ t' = q ∧ q < p.npages ∧ q ∉ dirs ∧ ∀ d i, ¬ UserTableAt dirs p d i q)
    (hlt : ∀ {d v w}, MapsAt dirs p' d v w → pageOf w < p.npages) : UserTables dirs p' where
  table_lt ht := by
    rw [hn]
    rcases hnew ht with ht | ⟨-, -, rfl, hq, -⟩
    · exact h.table_lt ht
    · exact hq
  table_not_dir ht := by
    rcases hnew ht with ht | ⟨-, -, rfl, -, hq, -⟩
    · exact h.table_not_dir ht
    · exact hq
  table_inj ht ht' := by
    rcases hnew ht with ht | ⟨rfl, rfl, rfl, -, -, hq⟩
    · rcases hnew ht' with ht' | ⟨-, -, rfl, -, -, hq⟩
      · exact h.table_inj ht ht'
      · exact absurd ht (hq _ _)
    · rcases hnew ht' with ht' | ⟨rfl, rfl, -⟩
      · exact absurd ht' (hq _ _)
      · exact ⟨rfl, rfl⟩
  mapped_lt hm := by
    rw [hn]
    exact hlt hm

theorem UserTables.setPte (h : UserTables dirs p) (ht : UserTableAt dirs p d (v / 1024) t)
    (hn : p'.npages = p.npages) (hmem : p'.mem = (p.setWord t (v % 1024) w).mem)
    (hw : present w → pageOf w < p.npages) : UserTables dirs p' := by
  refine h.rewrite (d := 0) (i := 0) (q := 0) hn (fun {d' i' t'} ht' => .inl ?_)
    fun {d' v' w'} hm => ?_
  · have hne : d' ≠ t := fun he => h.table_not_dir ht (he ▸ ht'.1)
    refine ⟨ht'.1, ht'.2.1, ?_⟩
    rw [← ht'.2.2, hmem]
    exact tableOf_congr (by rw [Phys.setWord_mem_of_ne _ _ _ hne])
  · have hpte := hm.2.2
    rw [hmem, h.pteOf_setWord ht hm.1 hm.2.1] at hpte
    by_cases hc : d' = d ∧ v' = v
    · rw [if_pos hc] at hpte
      by_cases hp : present w
      · rw [if_pos hp] at hpte
        exact Option.some.inj hpte ▸ hw hp
      · rw [if_neg hp] at hpte
        cases hpte
    · rw [if_neg hc] at hpte
      exact h.mapped_lt ⟨hm.1, hm.2.1, hpte⟩

theorem Phys.take_pageFreeList (p : Phys) (flags : Word) (q : Nat) :
    (p.take flags q).pageFreeList = (p.pages q).ppLink := by
  unfold Phys.take
  split <;> rfl

theorem Phys.take_ppLink (p : Phys) (flags : Word) (q x : Nat) :
    ((p.take flags q).pages x).ppLink = (p.pages x).ppLink := by
  unfold Phys.take
  split <;> exact Phys.setRef_ppLink _ _ _ x

theorem TwoLevel.head_fresh (h : TwoLevel dirs p) (hq : p.pageFreeList = some q) :
    q < p.npages ∧ q ∉ dirs ∧ ∀ d i, ¬ UserTableAt dirs p d i q := by
  obtain ⟨l, hl, -, hfresh⟩ := h.free
  rw [hq] at hl
  obtain ⟨l, rfl, -⟩ := hl.exists_cons
  exact hfresh q List.mem_cons_self

section NewTable

variable (h : TwoLevel dirs p) (hd : d ∈ dirs) (hq : p.pageFreeList = some q)

include h hq

/-- The rows of the directories when `q` has become a table. -/
theorem TwoLevel.withTable_row (hd' : d' ∈ dirs) (i' : Nat) :
    tableOf (p.withTable d i q).mem d' i' =
      if d' = d ∧ i' = i then some q else tableOf p.mem d' i' := by
  obtain ⟨hlt, hdir, -⟩ := h.head_fresh hq
  obtain ⟨hp, hpage⟩ := pdeWord_spec (q := q) (by have := p.npages_le; omega)
  have hne : d' ≠ q := fun he => hdir (he ▸ hd')
  unfold Phys.withTable
  rw [tableOf_setWord, if_pos hp, hpage]
  congr 1
  exact tableOf_congr (by rw [Phys.increfed_mem, p.take_mem_of_ne allocZero hne])

include hd

theorem TwoLevel.withTable_pteOf (hnone : tableOf p.mem d i = none) (hd' : d' ∈ dirs)
    (hv' : v' < userPages) : pteOf (p.withTable d i q).mem d' v' = pteOf p.mem d' v' := by
  obtain ⟨hlt, hdir, htab⟩ := h.head_fresh hq
  obtain ⟨-, hpage⟩ := pdeWord_spec (q := q) (by have := p.npages_le; omega)
  have hne : ∀ x ∈ dirs, x ≠ q := fun x hx he => hdir (he ▸ hx)
  have hrow : ∀ x ∈ dirs, ∀ j,
      tableOf ((p.take allocZero q).increfed q).mem x j = tableOf p.mem x j := fun x hx j =>
    tableOf_congr (by rw [Phys.increfed_mem, p.take_mem_of_ne allocZero (hne x hx)])
  have htake : pteOf ((p.take allocZero q).increfed q).mem d' v' = pteOf p.mem d' v' := by
    refine pteOf_congr (hrow d' hd' _) fun t ht => ?_
    have htq : t ≠ q := fun he => htab d' _ ⟨hd', div_lt_userTables hv', he ▸ ht⟩
    rw [Phys.increfed_mem, p.take_mem_of_ne allocZero htq]
  rw [← htake]
  refine pteOf_setPde (fun t ht => ?_) (fun _ => ?_) fun t ht he => ?_
  · rw [hrow d hd, hnone] at ht
    cases ht
  · rw [hpage]
    refine ⟨(hne d hd).symm, fun j _ => ?_⟩
    rw [Phys.increfed_mem, p.take_zero]
    exact present_zero
  · rw [hrow d' hd'] at ht
    exact h.table_not_dir ⟨hd', div_lt_userTables hv', ht⟩ (he ▸ hd)

theorem TwoLevel.withTable (hnone : tableOf p.mem d i = none) :
    TwoLevel dirs (p.withTable d i q) := by
  have hfresh := h.head_fresh hq
  have hnew : ∀ {d' i' t'}, UserTableAt dirs (p.withTable d i q) d' i' t' →
      UserTableAt dirs p d' i' t' ∨ d' = d ∧ i' = i ∧ t' = q := by
    intro d' i' t' ht
    have hrow := ht.2.2
    rw [h.withTable_row hq ht.1] at hrow
    by_cases hc : d' = d ∧ i' = i
    · rw [if_pos hc] at hrow
      exact .inr ⟨hc.1, hc.2, (Option.some.inj hrow).symm⟩
    · rw [if_neg hc] at hrow
      exact .inl ⟨ht.1, ht.2.1, hrow⟩
  refine ⟨h.toUserTables.rewrite (d := d) (i := i) (q := q) (p.take_npages allocZero q)
    (fun ht => ?_) fun {d' v' w} hm => ?_, ?_⟩
  · exact (hnew ht).imp_right fun hc => ⟨hc.1, hc.2.1, hc.2.2, hfresh⟩
  · have hpte := hm.2.2
    rw [h.withTable_pteOf hd hq hnone hm.1 hm.2.1] at hpte
    exact h.mapped_lt ⟨hm.1, hm.2.1, hpte⟩
  · obtain ⟨l, hl, hnd, hl'⟩ := h.free
    rw [hq] at hl
    obtain ⟨l, rfl, htail⟩ := hl.exists_cons
    obtain ⟨hql, hnd'⟩ := List.nodup_cons.mp hnd
    refine ⟨l, ?_, hnd', fun x hx => ?_⟩
    · change Chain _ ((p.take allocZero q).increfed q).pageFreeList l
      rw [Phys.increfed_pageFreeList, Phys.take_pageFreeList]
      exact htail.congr fun x _ => (Phys.setRef_ppLink _ _ _ x).trans (p.take_ppLink _ _ x)
    · obtain ⟨hlt, hdir, htab⟩ := hl' x (List.mem_cons_of_mem _ hx)
      refine ⟨(p.take_npages allocZero q).symm ▸ hlt, hdir, fun d' i' ht => ?_⟩
      rcases hnew ht with ht | ⟨-, -, rfl⟩
      · exact htab d' i' ht
      · exact hql hx

end NewTable

theorem UserTables.mapAt (h : UserTables dirs p1) (ht : UserTableAt dirs p1 d (v / 1024) t)
    (hv : v < userPages) (hpp : pp < p1.npages) (hperm : perm.toNat < 4096)
    (hn : p2.npages = p1.npages)
    (hmem : p2.mem = (p1.setWord t (v % 1024) (pteWord pp perm)).mem) :
    UserTables dirs p2 ∧ Updates dirs d v (some (pp, perm ||| pteP)) p1 p2 := by
  have hlt : pp < 1048576 := by
    have := p1.npages_le
    omega
  obtain ⟨hp, hpage⟩ := pteWord_spec hlt hperm
  refine ⟨h.setPte ht hn hmem fun _ => hpage.trans_lt hpp, ?_⟩
  have hpte : ∀ d' ∈ dirs, ∀ v' < userPages, pteOf p2.mem d' v' =
      if d' = d ∧ v' = v then some (pteWord pp perm) else pteOf p1.mem d' v' := by
    intro d' hd' v' hv'
    rw [hmem, h.pteOf_setWord ht hd' hv', if_pos hp]
  have hupd := updates_of_pteOf hv hpte
  simpa only [Option.map_some, hpage, pteWord_and pp hperm] using hupd

section Operations

variable (h : TwoLevel dirs p) (hd : d ∈ dirs) (hva : va.toNat < utop)

include h hd hva

/-- `page_lookup` returns the page that the map gives, and the entry it stores has the
permissions. -/
theorem TwoLevel.lookup : ∃ r, pageLookup (some d) va p = .ret r p ∧
    r.map (fun s => (s.1, p.mem s.2.1 s.2.2 &&& 0xfff)) = p.userMap d (pgnum va) := by
  have hv := (lt_utop_iff va).mp hva
  unfold Phys.userMap
  rw [if_pos hv]
  cases hw : pteOf p.mem d (pgnum va) with
  | none => exact ⟨none, pageLookup_of_none h.toUserTables hd hva hw, rfl⟩
  | some w =>
    obtain ⟨t, -, hmem, hrun⟩ := pageLookup_of_some h.toUserTables hd hva hw
    refine ⟨_, hrun, ?_⟩
    simp only [Option.map_some, hmem]

/-- `pgdir_walk` resolves `va`, or there is neither a table nor a free page for one. -/
theorem TwoLevel.walk (create : Bool) : ∃ r p', pgdirWalk (some d) va create p = .ret r p' ∧
    TwoLevel dirs p' ∧ (∀ d' ∈ dirs, p'.userMap d' = p.userMap d') ∧
    (∀ {d' i t}, UserTableAt dirs p d' i t → UserTableAt dirs p' d' i t) ∧
    ∀ s, r = some s → s.2 = pgnum va % 1024 ∧ UserTableAt dirs p' d (pgnum va / 1024) s.1 := by
  have hv := (lt_utop_iff va).mp hva
  have hi := div_lt_userTables hv
  cases ht : tableOf p.mem d (pgnum va / 1024) with
  | some t =>
    have htab : UserTableAt dirs p d (pgnum va / 1024) t := ⟨hd, hi, ht⟩
    rw [← pdx_eq] at ht
    refine ⟨_, p, pgdirWalk_of_some ht (h.table_lt htab) create, h, fun _ _ => rfl, id, ?_⟩
    rintro s hs
    cases hs
    exact ⟨ptx_eq va, htab⟩
  | none =>
    have ht' := ht
    rw [← pdx_eq] at ht'
    cases create with
    | false => exact ⟨none, p, pgdirWalk_of_none ht', h, fun _ _ => rfl, id, nofun⟩
    | true =>
      cases hq : p.pageFreeList with
      | none => exact ⟨none, p, pgdirWalk_of_full ht' hq, h, fun _ _ => rfl, id, nofun⟩
      | some q =>
        have hrun := pgdirWalk_new ht' hq (h.head_fresh hq).1
        rw [pdx_eq] at hrun
        refine ⟨_, _, hrun, h.withTable hd hq ht, fun d' hd' => ?_, fun {d' i t} htab => ?_, ?_⟩
        · exact Phys.userMap_congr fun v' hv' => h.withTable_pteOf hd hq ht hd' hv'
        · refine ⟨htab.1, htab.2.1, ?_⟩
          rw [h.withTable_row hq htab.1, if_neg, htab.2.2]
          rintro ⟨rfl, rfl⟩
          cases ht.symm.trans htab.2.2
        · rintro s hs
          cases hs
          refine ⟨ptx_eq va, hd, hi, ?_⟩
          rw [h.withTable_row hq hd, if_pos ⟨rfl, rfl⟩]

theorem TwoLevel.remove : ∃ p', pageRemove (some d) va p = .ret () p' ∧ UserTables dirs p' ∧
    Updates dirs d (pgnum va) none p p' := by
  have hv := (lt_utop_iff va).mp hva
  refine ⟨_, pageRemove_eq h.toUserTables hd hva, ?_⟩
  cases hw : pteOf p.mem d (pgnum va) with
  | none =>
    rw [Phys.unmap_of_none hw]
    refine ⟨h.toUserTables, updates_of_pteOf (o := none) hv fun d' _ v' _ => ?_⟩
    by_cases hc : d' = d ∧ v' = pgnum va
    · rw [if_pos hc, hc.1, hc.2, hw]
    · rw [if_neg hc]
  | some w =>
    obtain ⟨t, ht, hmem, hp⟩ := pteOf_eq_some.mp hw
    have htab : UserTableAt dirs p d (pgnum va / 1024) t := ⟨hd, div_lt_userTables hv, ht⟩
    have habsent := present_and_not_pteP w
    have hmem' : (p.unmap d (pgnum va)).mem =
        (p.setWord t (pgnum va % 1024) (w &&& ~~~pteP)).mem := by
      rw [Phys.unmap_of_some ht hmem hp, Phys.decref_setWord, Phys.decref_mem]
    constructor
    · refine h.toUserTables.setPte htab (p.unmap_npages _ _) hmem' fun hc => ?_
      rw [habsent] at hc
      cases hc
    · refine updates_of_pteOf (o := none) hv fun d' hd' v' hv' => ?_
      rw [hmem', h.toUserTables.pteOf_setWord htab hd' hv', habsent]
      rfl

theorem TwoLevel.insert (hpp : pp < p.npages) (hperm : perm.toNat < 4096) :
    pageInsert (some d) pp va perm p = .ret (-eNoMem) p ∨
    ∃ p', pageInsert (some d) pp va perm p = .ret 0 p' ∧ UserTables dirs p' ∧
      Updates dirs d (pgnum va) (some (pp, perm ||| pteP)) p p' := by
  have hv := (lt_utop_iff va).mp hva
  have hi := div_lt_userTables hv
  rcases pageInsert_cases h.toUserTables (fun _ hq => (h.head_fresh hq).1) hd hva pp perm with
    ⟨t, ht, hrun⟩ | ⟨-, -, hrun⟩ | ⟨q, ht, hq, hrun⟩
  · refine .inr ⟨_, hrun, h.toUserTables.mapAt ⟨hd, hi, ht⟩ hv hpp hperm ?_
      (p.mapAt_unmap_mem ht pp perm)⟩
    exact ((p.unmap d _).claim_npages pp).trans (p.unmap_npages d _)
  · exact .inl hrun
  · have hnew := h.withTable hd hq ht
    have htab : UserTableAt dirs (p.withTable d (pgnum va / 1024) q) d (pgnum va / 1024) q := by
      refine ⟨hd, hi, ?_⟩
      rw [h.withTable_row hq hd, if_pos ⟨rfl, rfl⟩]
    have hpp' := (p.take_npages allocZero q).symm ▸ hpp
    have hmap := hnew.toUserTables.mapAt htab hv hpp' hperm
      (Phys.increfed_npages (((p.withTable d (pgnum va / 1024) q).setWord q (pgnum va % 1024)
        (pteWord pp perm))) pp) rfl
    refine .inr ⟨_, hrun, hmap.1, hmap.2.trans_same hd fun d' hd' => ?_⟩
    exact Phys.userMap_congr fun v' hv' => h.withTable_pteOf hd hq ht hd' hv'

end Operations

theorem TwoLevel.slots_ne {create create' : Bool} {s s' : Nat × Nat} (h : TwoLevel dirs p)
    (hd : d ∈ dirs) (hd' : d' ∈ dirs) (hva : va.toNat < utop) (hva' : va'.toNat < utop)
    (hne : ¬(d' = d ∧ pgnum va' = pgnum va))
    (hrun : pgdirWalk (some d) va create p = .ret (some s) p1)
    (hrun' : pgdirWalk (some d') va' create' p1 = .ret (some s') p2) : s' ≠ s := by
  obtain ⟨r, q1, hwalk, h1, -, -, hslot⟩ := h.walk hd hva create
  cases hrun.symm.trans hwalk
  obtain ⟨r', q2, hwalk', h2, -, hkeep, hslot'⟩ := h1.walk hd' hva' create'
  cases hrun'.symm.trans hwalk'
  obtain ⟨hindex, htab⟩ := hslot s rfl
  obtain ⟨hindex', htab'⟩ := hslot' s' rfl
  rintro rfl
  obtain ⟨rfl, hdiv⟩ := h2.table_inj (hkeep htab) htab'
  exact hne ⟨rfl, by omega⟩

/-- On directories that are two-level tables, the operations of `kern/pmap.c` are those on finite
maps: each changes at most the entry of its own page. -/
theorem page_tables_refine_map (h : TwoLevel dirs p) (hd : d ∈ dirs) (hva : va.toNat < utop) :
    (∀ pp perm, pp < p.npages → perm.toNat < 4096 →
      pageInsert (some d) pp va perm p = .ret (-eNoMem) p ∨
      ∃ p', pageInsert (some d) pp va perm p = .ret 0 p' ∧ UserTables dirs p' ∧
        Updates dirs d (pgnum va) (some (pp, perm ||| pteP)) p p') ∧
    (∃ p', pageRemove (some d) va p = .ret () p' ∧ UserTables dirs p' ∧
      Updates dirs d (pgnum va) none p p') ∧
    (∃ r, pageLookup (some d) va p = .ret r p ∧
      r.map (fun s => (s.1, p.mem s.2.1 s.2.2 &&& 0xfff)) = p.userMap d (pgnum va)) ∧
    (∀ create, ∃ r p', pgdirWalk (some d) va create p = .ret r p' ∧ TwoLevel dirs p' ∧
      ∀ d' ∈ dirs, p'.userMap d' = p.userMap d') ∧
    ∀ create create' d' va' s s' p1 p2, d' ∈ dirs → va'.toNat < utop →
      ¬(d' = d ∧ pgnum va' = pgnum va) → pgdirWalk (some d) va create p = .ret (some s) p1 →
      pgdirWalk (some d') va' create' p1 = .ret (some s') p2 → s' ≠ s := by
  refine ⟨fun pp perm hpp hperm => h.insert hd hva hpp hperm, h.remove hd hva, h.lookup hd hva,
    fun create => ?_, fun create create' d' va' s s' p1 p2 hd' hva' hne hrun hrun' =>
      h.slots_ne hd hd' hva hva' hne hrun hrun'⟩
  obtain ⟨r, p', hrun, h', hmap, -⟩ := h.walk hd hva create
  exact ⟨r, p', hrun, h', hmap⟩

theorem onePageMapped_twoLevel : TwoLevel {1} onePageMapped := by
  have hrow : ∀ i, i ≠ 2 → onePageMapped.mem 1 i = 0 := fun i hi => by simp [onePageMapped, hi]
  have hentry : ∀ j, j ≠ 0 → onePageMapped.mem 2 j = 0 := fun j hj => by simp [onePageMapped, hj]
  have htab : ∀ {d i t}, UserTableAt {1} onePageMapped d i t → d = 1 ∧ i = 2 ∧ t = 2 := by
    rintro d i t ⟨hd, -, ht⟩
    obtain rfl := Finset.mem_singleton.mp hd
    obtain ⟨hp, rfl⟩ := tableOf_eq_some.mp ht
    by_cases hi : i = 2
    · subst hi
      exact ⟨rfl, rfl, by decide⟩
    · rw [hrow i hi, present_zero] at hp
      cases hp
  refine ⟨⟨fun ht => ?_, fun ht => ?_, fun ht ht' => ?_, fun {d v w} hm => ?_⟩,
    [], rfl, List.nodup_nil, fun _ hq => absurd hq List.not_mem_nil⟩
  · rw [(htab ht).2.2]
    decide
  · rw [(htab ht).2.2]
    decide
  · exact ⟨(htab ht').1.trans (htab ht).1.symm, (htab ht').2.1.trans (htab ht).2.1.symm⟩
  · obtain ⟨t, ht, hmem, hp⟩ := pteOf_eq_some.mp hm.2.2
    obtain ⟨rfl, -, rfl⟩ := htab ⟨hm.1, div_lt_userTables hm.2.1, ht⟩
    by_cases hj : v % 1024 = 0
    · rw [hj] at hmem
      rw [← hmem]
      decide
    · rw [← hmem, hentry _ hj, present_zero] at hp
      cases hp

theorem refine_map_one_page :
    (∃ p', pageInsert (some 1) 4 0x800000 6 onePageMapped = .ret 0 p' ∧ UserTables {1} p' ∧
      Updates {1} 1 2048 (some (4, 7)) onePageMapped p') ∧
    ∃ p', pageRemove (some 1) 0x800000 onePageMapped = .ret () p' ∧ UserTables {1} p' ∧
      Updates {1} 1 2048 none onePageMapped p' := by
  have hrun : pageInsert (some 1) 4 0x800000 6 onePageMapped = .ret 0 _ :=
    Outcome.eq_ret onePageMapped (by decide +kernel)
  obtain ⟨hinsert, hremove, -⟩ := page_tables_refine_map onePageMapped_twoLevel
    (Finset.mem_singleton_self 1) (show (0x800000 : Word).toNat < utop by decide)
  refine ⟨(hinsert 4 6 (by decide) (by decide)).resolve_left fun hfull => ?_, hremove⟩
  cases hrun.symm.trans hfull

end Jos
