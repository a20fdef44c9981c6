import Jos.Paging.Moves

/-!
# The operations on page tables

For directories whose accounts are in order, the functions of `kern/pmap.c` return. `Frame` records
what they leave alone: the kernel's pages, the shared half of every directory, and all user mappings
outside a set of slots.
-/

namespace Jos

open Logic

variable {K : Set Nat} {extra : Nat → Nat} {dirs : Finset Nat} {p p' p'' : Phys}
  {d i v q t : Nat} {w va : Word} {O O' : Nat → Prop} {T T' : Nat → Nat → Prop} {x : Nat}

/-- `p'` differs from `p`, as far as the kernel and the tables of `dirs` are concerned,
only in the directory entries that `O` admits and in the mappings that `T` admits. -/
structure Frame (K : Set Nat) (dirs : Finset Nat) (O : Nat → Prop) (T : Nat → Nat → Prop)
    (p p' : Phys) : Prop where
  npages : p'.npages = p.npages
  kernPgdir : p'.kernPgdir = p.kernPgdir
  kern : ∀ x ∈ K, p'.mem x = p.mem x
  rows : ∀ d ∈ dirs, ∀ i, ¬O i → p'.mem d i = p.mem d i
  entries : ∀ d ∈ dirs, ∀ v < userPages, ¬T d v → pteOf p'.mem d v = pteOf p.mem d v

theorem Frame.of_mem_eq (hm : p'.mem = p.mem) (hn : p'.npages = p.npages)
    (hk : p'.kernPgdir = p.kernPgdir) : Frame K dirs O T p p' :=
  ⟨hn, hk, fun _ _ => by rw [hm], fun _ _ _ _ => by rw [hm], fun _ _ _ _ _ => by rw [hm]⟩

theorem Frame.refl (p : Phys) : Frame K dirs O T p p := .of_mem_eq rfl rfl rfl

theorem Frame.of_decref (p : Phys) (q : Nat) : Frame K dirs O T p (p.decref q) :=
  .of_mem_eq (p.decref_mem q) (p.decref_npages q) (p.decref_kernPgdir q)

section

variable (h : Frame K dirs O T p p')

include h

/-- The frame may be read for fewer directories and with more exceptions. -/
theorem Frame.weaken {dirs' : Finset Nat} (hsub : dirs' ⊆ dirs)
    (hO : ∀ i, O i → O' i) (hT : ∀ d ∈ dirs', ∀ v, T d v → T' d v) : Frame K dirs' O' T' p p' :=
  ⟨h.npages, h.kernPgdir, h.kern, fun d hd i hn => h.rows d (hsub hd) i fun ho => hn (hO i ho),
    fun d hd v hv hn => h.entries d (hsub hd) v hv fun ht => hn (hT d hd v ht)⟩

theorem Frame.ownEntries_eq (hk : p.kernPgdir ∈ K) :
    ownEntries p'.mem p'.kernPgdir = ownEntries p.mem p.kernPgdir := by
  rw [h.kernPgdir]
  apply ownEntries_congr
  intro i _
  rw [h.kern _ hk]

theorem Frame.trans (h' : Frame K dirs O T p' p'') : Frame K dirs O T p p'' where
  npages := h'.npages.trans h.npages
  kernPgdir := h'.kernPgdir.trans h.kernPgdir
  kern x hx := (h'.kern x hx).trans (h.kern x hx)
  rows d hd i hn := (h'.rows d hd i hn).trans (h.rows d hd i hn)
  entries d hd v hv hn := (h'.entries d hd v hv hn).trans (h.entries d hd v hv hn)

theorem Frame.tableAt (hk : p.kernPgdir ∈ K) (hO : ¬O i)
    (ht : TableAt dirs p' d i t) : TableAt dirs p d i t := by
  refine ht.of_tableOf_eq (tableOf_congr (h.rows d ht.1 i hO)) h.kernPgdir fun j _ => ?_
  rw [h.kern _ hk]

theorem Frame.mapsAt (hT : ¬T d v) (hm : MapsAt dirs p' d v w) : MapsAt dirs p d v w :=
  ⟨hm.1, hm.2.1, (h.entries d hm.1 v hm.2.1 hT) ▸ hm.2.2⟩

end

theorem Plain.frame_setPage {words : Nat → Word} (h : Tables K dirs p) (hq : Plain K dirs p q) :
    Frame K dirs O T p (p.setPage q words) where
  npages := rfl
  kernPgdir := rfl
  kern x hx := by
    have hne : x ≠ q := fun he => hq.not_kern (he ▸ hx)
    simp [hne]
  rows d hd i _ := by
    have hne : d ≠ q := fun he => hq.not_dir (he ▸ hd)
    simp [hne]
  entries _ hd _ hv _ := hq.pteOf_setPage h hd hv

theorem Tables.frame_setPte (h : Tables K dirs p) (ht : TableAt dirs p d (v / 1024) t) :
    Frame K dirs O (fun d' v' => d' = d ∧ v' = v) p (p.setWord t (v % 1024) w) where
  npages := rfl
  kernPgdir := rfl
  kern x hx := by
    have hne : x ≠ t := fun he => h.table_not_kern ht (he ▸ hx)
    rw [Phys.setWord_mem_of_ne _ _ _ hne]
  rows x hx i _ := by
    have hne : x ≠ t := fun he => h.table_not_dir ht (he ▸ hx)
    rw [Phys.setWord_mem_of_ne _ _ _ hne]
  entries x hx v' hv' hn := by
    rw [h.pteOf_setWord ht hx hv', if_neg hn]

theorem Tables.frame_setPde (h : Tables K dirs p) (hd : d ∈ dirs)
    (hpte : ∀ d' ∈ dirs, ∀ v' < userPages, pteOf (p.setWord d i w).mem d' v' = pteOf p.mem d' v') :
    Frame K dirs (· = i) T p (p.setWord d i w) where
  npages := rfl
  kernPgdir := rfl
  kern x hx := by
    have hne : x ≠ d := by
      rintro rfl
      exact h.dir_not_kern x hd hx
    rw [Phys.setWord_mem_of_ne _ _ _ hne]
  rows x hx j hj := by
    rw [Phys.setWord_mem_apply, if_neg]
    exact fun hc => hj hc.2
  entries x hx v' hv' _ := hpte x hx v' hv'

/-- The result of a `page_alloc` that returns `q`. -/
def Phys.take (p : Phys) (flags : Word) (q : Nat) : Phys :=
  (if flags &&& allocZero ≠ 0 then (p.pop q).setPage q (fun _ => 0) else p.pop q).setRef q 0

theorem page2kva_eq (hlt : q < p.npages) : page2kva q p = .ret q p := by
  have hq : pageOf (page2pa q) = q := pageOf_page2pa (by have := p.npages_le; omega)
  unfold page2kva kaddr
  rw [hq]
  refine bind_run (get_apply p) ?_
  rw [if_neg (by omega)]
  rfl

theorem pageAlloc_of_none (h : p.pageFreeList = none) (flags : Word) :
    pageAlloc flags p = .ret none p := by
  refine bind_run (get_apply p) ?_
  rw [h]
  rfl

theorem pageAlloc_of_some (h : p.pageFreeList = some q) (hlt : q < p.npages) (flags : Word) :
    pageAlloc flags p = .ret (some q) (p.take flags q) := by
  refine bind_run (get_apply p) ?_
  rw [h]
  refine bind_run (modify_apply _ p) ?_
  unfold Phys.take
  by_cases hz : flags &&& allocZero ≠ 0
  · rw [if_pos hz, if_pos hz]
    exact bind_run (page2kva_eq (p := p.pop q) hlt) rfl
  · rw [if_neg hz, if_neg hz]
    rfl

/-- A page that is in nobody's hands but the caller's. -/
structure Fresh (extra : Nat → Nat) (dirs : Finset Nat) (p : Phys) (q : Nat) : Prop where
  lt : q < p.npages
  unused : p.total dirs q + extra q = 0
  not_free : ¬p.Free q

section

variable (h : Accounts K extra dirs p)

include h

section

variable (hq : p.pageFreeList = some q)

include hq

theorem Accounts.free_of_head : p.Free q := by
  obtain ⟨l, hl, _, _⟩ := h.free
  refine ⟨l, hl, ?_⟩
  rw [hq] at hl
  obtain ⟨l, rfl, -⟩ := hl.exists_cons
  exact List.mem_cons_self

theorem Accounts.head_lt : q < p.npages := (h.of_free (h.free_of_head hq)).1

theorem Accounts.head_plain : Plain K dirs p q := h.plain (h.of_free (h.free_of_head hq)).2

theorem Accounts.take
    (flags : Word) : Accounts K extra dirs (p.take flags q) ∧ Fresh extra dirs (p.take flags q) q ∧
      Frame K dirs O T p (p.take flags q) := by
  obtain ⟨hlt, hzero⟩ := h.of_free (h.free_of_head hq)
  obtain ⟨hpop, hnf⟩ := h.pop hq
  have hplain : Plain K dirs (p.pop q) q := hpop.plain hzero
  have key : ∀ p1 : Phys, Accounts K extra dirs p1 → Frame K dirs O T p p1 →
      p1.total dirs q = p.total dirs q → ¬p1.Free q → p1.npages = p.npages →
      Accounts K extra dirs (p1.setRef q 0) ∧ Fresh extra dirs (p1.setRef q 0) q ∧
        Frame K dirs O T p (p1.setRef q 0) := by
    intro p1 h1 hf1 ht1 hn1 hlt1
    refine ⟨h1.setRef hn1 (fun _ _ => rfl) (fun hK => h.extra_pos q hK) ?_, ⟨?_, ?_, ?_⟩, ?_⟩
    · intro _
      rw [ht1, hzero]
      rfl
    · rw [Phys.setRef_npages, hlt1]
      exact hlt
    · exact ht1 ▸ hzero
    · rintro ⟨l, hl, hm⟩
      exact hn1 ⟨l, hl.congr fun x _ => (Phys.setRef_ppLink p1 q 0 x).symm, hm⟩
    · exact hf1.trans (.of_mem_eq rfl rfl rfl)
  unfold Phys.take
  by_cases hz : flags &&& allocZero ≠ 0
  · rw [if_pos hz]
    refine key _ (hpop.setPage hplain) ?_ ?_ hnf rfl
    · have hf : Frame K dirs O T p (p.pop q) := .of_mem_eq rfl rfl rfl
      exact hf.trans (hplain.frame_setPage hpop.toTables)
    · exact hplain.total_setPage hpop.toTables q
  · rw [if_neg hz]
    exact key _ hpop (.of_mem_eq rfl rfl rfl) rfl hnf rfl

end

end

theorem Phys.take_npages (p : Phys) (flags : Word) (q : Nat) :
    (p.take flags q).npages = p.npages := by
  unfold Phys.take
  split <;> rfl

theorem Phys.take_kernPgdir (p : Phys) (flags : Word) (q : Nat) :
    (p.take flags q).kernPgdir = p.kernPgdir := by
  unfold Phys.take
  split <;> rfl

theorem Phys.take_zero (p : Phys) (q j : Nat) : (p.take allocZero q).mem q j = 0 := by
  have hz : allocZero &&& allocZero ≠ 0 := by decide
  unfold Phys.take
  rw [if_pos hz]
  simp

theorem pageFree_eq (h : (p.pages q).ppRef = 0) : pageFree q p = .ret () (p.push q) := by
  refine bind_run (get_apply p) ?_
  rw [if_neg (not_not.mpr h)]
  rfl

theorem pageDecref_eq (q : Nat) (p : Phys) : pageDecref q p = .ret () (p.decref q) := by
  refine bind_run (modify_apply _ p) ?_
  refine bind_run (get_apply _) ?_
  have href := p.setRef_ppRef q ((p.pages q).ppRef - 1) q
  rw [if_pos rfl] at href
  unfold Phys.decref
  rw [href]
  by_cases h0 : (p.pages q).ppRef - 1 = 0
  · rw [if_pos h0, if_pos h0]
    rw [h0] at href ⊢
    exact pageFree_eq href
  · rw [if_neg h0, if_neg h0]
    rfl

/-- The directory entry that `pgdir_walk` writes for a new table. -/
def pdeWord (q : Nat) : Word := page2pa q ||| pteP ||| pteW ||| pteU

theorem pdeWord_spec (hq : q < 1048576) : present (pdeWord q) ∧ pageOf (pdeWord q) = q := by
  have hassoc : pdeWord q = page2pa q ||| (pteW ||| pteU ||| pteP) := by
    unfold pdeWord
    rw [BitVec.or_assoc, BitVec.or_assoc]
    rfl
  constructor
  · rw [hassoc, ← BitVec.or_assoc]
    exact present_or_pteP _
  · rw [hassoc]
    exact pageOf_page2pa_or hq (by decide)

/-- The result of a `pgdir_walk` that puts the table `q` into entry `i` of `d`. -/
def Phys.withTable (p : Phys) (d i q : Nat) : Phys :=
  ((p.take allocZero q).increfed q).setWord d i (pdeWord q)

theorem loadPte_eq {j : Nat} (h : p.mem t j = w) : loadPte (t, j) p = .ret w p := by
  rw [← h]
  rfl

theorem kaddr_eq (hlt : q < p.npages) : kaddr q p = .ret q p := by
  refine bind_run (get_apply p) ?_
  rw [if_neg (by omega)]
  rfl

theorem pa2page_eq (hlt : q < p.npages) : pa2page q p = .ret q p := by
  refine bind_run (get_apply p) ?_
  rw [if_neg (by omega)]
  rfl

theorem pgdirWalk_of_some (ht : tableOf p.mem d (pdx va) = some t) (hlt : t < p.npages)
    (create : Bool) : pgdirWalk (some d) va create p = .ret (some (t, ptx va)) p := by
  obtain ⟨hp, rfl⟩ := tableOf_eq_some.mp ht
  refine bind_run (loadPte_eq rfl) ?_
  rw [if_pos hp]
  exact bind_run (kaddr_eq hlt) rfl

section

variable (ht : tableOf p.mem d (pdx va) = none)

include ht

theorem pgdirWalk_of_none : pgdirWalk (some d) va false p = .ret none p := by
  have hp := tableOf_eq_none.mp ht
  refine bind_run (loadPte_eq rfl) ?_
  rw [if_neg (by simp [hp]), if_pos rfl]
  rfl

theorem pgdirWalk_of_full (hfull : p.pageFreeList = none) :
    pgdirWalk (some d) va true p = .ret none p := by
  have hp := tableOf_eq_none.mp ht
  refine bind_run (loadPte_eq rfl) ?_
  rw [if_neg (by simp [hp]), if_neg (by simp)]
  exact bind_run (pageAlloc_of_none hfull _) rfl

theorem pgdirWalk_new (hq : p.pageFreeList = some q) (hlt : q < p.npages) :
    pgdirWalk (some d) va true p = .ret (some (q, ptx va)) (p.withTable d (pdx va) q) := by
  have hp := tableOf_eq_none.mp ht
  have hpage : pageOf (pdeWord q) = q := (pdeWord_spec (by have := p.npages_le; omega)).2
  refine bind_run (loadPte_eq rfl) ?_
  rw [if_neg (by simp [hp]), if_neg (by simp)]
  refine bind_run (pageAlloc_of_some hq hlt _) ?_
  refine bind_run (modify_apply _ _) ?_
  refine bind_run (modify_apply _ _) ?_
  refine bind_run (loadPte_eq (w := pdeWord q) ?_) ?_
  · rw [Phys.setWord_mem_apply, if_pos ⟨rfl, rfl⟩]
    rfl
  · rw [hpage]
    refine bind_run (kaddr_eq ?_) rfl
    change q < (p.take allocZero q).npages
    rw [Phys.take_npages]
    exact hlt

end

theorem Phys.take_mem_of_ne (p : Phys) (flags : Word) (h : x ≠ q) :
    (p.take flags q).mem x = p.mem x := by
  unfold Phys.take
  split <;> simp [h]

theorem Phys.free_setRef_iff {ref : BitVec 16} : (p.setRef q ref).Free x ↔ p.Free x := by
  constructor
  · rintro ⟨l, hl, hm⟩
    exact ⟨l, hl.congr fun y _ => (Phys.setRef_ppLink p q ref y).symm, hm⟩
  · rintro ⟨l, hl, hm⟩
    exact ⟨l, hl.congr fun y _ => Phys.setRef_ppLink p q ref y, hm⟩

theorem Phys.free_of_take {flags : Word} (hq : p.pageFreeList = some q)
    (h : (p.take flags q).Free x) : p.Free x := by
  have hpop : (p.pop q).Free x := by
    unfold Phys.take at h
    rw [Phys.free_setRef_iff] at h
    split at h
    · exact h
    · exact h
  obtain ⟨l, hl, hm⟩ := hpop
  exact ⟨q :: l, ⟨hq, hl⟩, List.mem_cons_of_mem _ hm⟩

/-- What a `pgdir_walk` that puts the table `q` into entry `i` of `d` leaves. -/
structure TableAdded (K : Set Nat) (extra : Nat → Nat) (dirs : Finset Nat) (p : Phys)
    (d i q : Nat) (p' : Phys) : Prop where
  accounts : Accounts K extra dirs p'
  frame : Frame K dirs (· = i) (fun _ _ => False) p p'
  table : TableAt dirs p' d i q
  other : ∀ d' ∈ dirs, ∀ i', ¬(d' = d ∧ i' = i) → tableOf p'.mem d' i' = tableOf p.mem d' i'

theorem Accounts.withTable (h : Accounts K extra dirs p) (hd : d ∈ dirs)
    (hi : i ∈ ownEntries p.mem p.kernPgdir) (hnone : tableOf p.mem d i = none)
    (hq : p.pageFreeList = some q) : TableAdded K extra dirs p d i q (p.withTable d i q) := by
  obtain ⟨htake, hfresh, hframe⟩ := h.take (O := (· = i)) (T := fun _ _ => False) hq allocZero
  have hlt := h.head_lt hq
  obtain ⟨hw, hpage⟩ := pdeWord_spec (q := q) (by have := p.npages_le; omega)
  have hdq : d ≠ q := fun he => (h.head_plain hq).not_dir (he ▸ hd)
  have hi' : i ∈ ownEntries (p.take allocZero q).mem (p.take allocZero q).kernPgdir := by
    rw [hframe.ownEntries_eq h.kern_mem]
    exact hi
  have hnone' : tableOf (p.take allocZero q).mem d i = none := by
    rw [tableOf_congr (by rw [p.take_mem_of_ne allocZero hdq])]
    exact hnone
  have hplain : Plain K dirs ((p.take allocZero q).increfed q) q :=
    (htake.plain hfresh.unused).congr rfl rfl
  have hzero : ∀ j < 1024, present ((p.take allocZero q).mem q j) = false := by
    intro j _
    rw [p.take_zero]
    exact present_zero
  have hbump := htake.incref hfresh.not_free
  have hpte : ∀ d' ∈ dirs, ∀ v' < userPages,
      pteOf (p.withTable d i q).mem d' v' = pteOf ((p.take allocZero q).increfed q).mem d' v' := by
    intro d' hd' v' hv'
    refine hbump.toTables.pteOf_setPde hd ?_ (fun _ => ?_) hd' hv'
    · intro t' ht'
      rw [Phys.increfed_mem, hnone'] at ht'
      cases ht'
    · rw [hpage]
      exact ⟨hdq.symm, hzero⟩
  have hframe' : Frame K dirs (· = i) (fun _ _ => False) p (p.withTable d i q) := by
    have hinc : Frame K dirs (· = i) (fun _ _ => False) p ((p.take allocZero q).increfed q) :=
      hframe.trans (.of_mem_eq rfl rfl rfl)
    exact hinc.trans (hbump.toTables.frame_setPde hd hpte)
  refine ⟨hbump.newTable hd hi' hnone' hplain hfresh.lt hzero hw hpage h.extra_pos, hframe',
    ⟨hd, ?_, ?_⟩, ?_⟩
  · rw [hframe'.ownEntries_eq h.kern_mem]
    exact hi
  · unfold Phys.withTable
    rw [tableOf_setWord, if_pos ⟨rfl, rfl⟩, if_pos hw, hpage]
  · intro d' hd' i' hc
    have hne : d' ≠ q := fun he => (h.head_plain hq).not_dir (he ▸ hd')
    unfold Phys.withTable
    rw [tableOf_setWord, if_neg hc]
    exact tableOf_congr (by rw [Phys.increfed_mem, p.take_mem_of_ne allocZero hne])

theorem pageLookup_of_some (h : UserTables dirs p) (hd : d ∈ dirs) (hva : va.toNat < utop)
    (hw : pteOf p.mem d (pgnum va) = some w) :
    ∃ t, tableOf p.mem d (pgnum va / 1024) = some t ∧ p.mem t (pgnum va % 1024) = w ∧
      pageLookup (some d) va p = .ret (some (pageOf w, (t, pgnum va % 1024))) p := by
  have hv := (lt_utop_iff va).mp hva
  obtain ⟨t, ht, hmem, hp⟩ := pteOf_eq_some.mp hw
  have hlt := h.table_lt ⟨hd, div_lt_userTables hv, ht⟩
  refine ⟨t, ht, hmem, ?_⟩
  rw [← pdx_eq] at ht
  rw [← ptx_eq] at hmem ⊢
  refine bind_run (pgdirWalk_of_some ht hlt false) ?_
  refine bind_run (loadPte_eq hmem) ?_
  rw [if_pos hp]
  exact bind_run (pa2page_eq (h.mapped_lt ⟨hd, hv, hw⟩)) rfl

theorem pageLookup_of_none (h : UserTables dirs p) (hd : d ∈ dirs) (hva : va.toNat < utop)
    (hw : pteOf p.mem d (pgnum va) = none) : pageLookup (some d) va p = .ret none p := by
  have hv := (lt_utop_iff va).mp hva
  cases ht : tableOf p.mem d (pgnum va / 1024) with
  | none =>
    rw [← pdx_eq] at ht
    exact bind_run (pgdirWalk_of_none ht) rfl
  | some t =>
    have hlt := h.table_lt ⟨hd, div_lt_userTables hv, ht⟩
    have habsent : present (p.mem t (ptx va)) = false := by
      rw [ptx_eq]
      by_contra hp
      rw [Bool.not_eq_false] at hp
      rw [pteOf_eq_some.mpr ⟨t, ht, rfl, hp⟩] at hw
      cases hw
    rw [← pdx_eq] at ht
    refine bind_run (pgdirWalk_of_some ht hlt false) ?_
    refine bind_run (loadPte_eq rfl) ?_
    rw [if_neg (by simp [habsent])]
    rfl

/-- The result of `page_remove` at the user page `v`. -/
def Phys.unmap (p : Phys) (d v : Nat) : Phys :=
  match tableOf p.mem d (v / 1024) with
  | none => p
  | some t =>
    if present (p.mem t (v % 1024)) then
      (p.decref (pageOf (p.mem t (v % 1024)))).setWord t (v % 1024)
        (p.mem t (v % 1024) &&& ~~~pteP)
    else p

theorem Phys.unmap_of_none (h : pteOf p.mem d v = none) : p.unmap d v = p := by
  unfold Phys.unmap
  cases ht : tableOf p.mem d (v / 1024) with
  | none => rfl
  | some t =>
    have hp : ¬present (p.mem t (v % 1024)) := by
      intro hp
      rw [pteOf_eq_some.mpr ⟨t, ht, rfl, hp⟩] at h
      cases h
    exact if_neg hp

theorem Phys.unmap_of_some (ht : tableOf p.mem d (v / 1024) = some t)
    (hw : p.mem t (v % 1024) = w) (hp : present w) :
    p.unmap d v = (p.decref (pageOf w)).setWord t (v % 1024) (w &&& ~~~pteP) := by
  subst hw
  unfold Phys.unmap
  rw [ht]
  exact if_pos hp

theorem pageRemove_eq (h : UserTables dirs p) (hd : d ∈ dirs) (hva : va.toNat < utop) :
    pageRemove (some d) va p = .ret () (p.unmap d (pgnum va)) := by
  cases hw : pteOf p.mem d (pgnum va) with
  | none =>
    rw [Phys.unmap_of_none hw]
    exact bind_run (pageLookup_of_none h hd hva hw) rfl
  | some w =>
    obtain ⟨t, ht, hmem, hlookup⟩ := pageLookup_of_some h hd hva hw
    obtain ⟨_, _, _, hp⟩ := pteOf_eq_some.mp hw
    rw [Phys.unmap_of_some ht hmem hp]
    refine bind_run hlookup ?_
    refine bind_run (pageDecref_eq _ _) ?_
    refine bind_run (loadPte_eq ?_) rfl
    rw [Phys.decref_mem, hmem]

/-- Only the page that loses its last reference is new on the free list, as its head. -/
theorem Accounts.free_of_decref (h : Accounts K extra dirs p)
    (hq : 0 < p.total dirs q + extra q) (hx : (p.decref q).Free x) :
    p.Free x ∨ x = q ∧ (p.decref q).pageFreeList = some q := by
  obtain ⟨l, hl, _, _⟩ := h.free
  have hql : q ∉ l := fun hm => h.not_free hq ⟨l, hl, hm⟩
  unfold Phys.decref at hx ⊢
  by_cases h0 : (p.pages q).ppRef - 1 = 0
  · rw [if_pos h0] at hx ⊢
    have hpush : Chain (fun y => (((p.setRef q 0).push q).pages y).ppLink) (some q) (q :: l) := by
      refine hl.push ?_ ?_
      · rw [Phys.push_ppLink, if_pos rfl, Phys.setRef_pageFreeList]
      · intro y hy
        rw [Phys.push_ppLink, if_neg, Phys.setRef_ppLink]
        rintro rfl
        exact hql hy
    rcases List.mem_cons.mp (hx.mem hpush) with rfl | hm
    · exact .inr ⟨rfl, rfl⟩
    · exact .inl ⟨l, hl, hm⟩
  · rw [if_neg h0] at hx
    exact .inl (Phys.free_setRef_iff.mp hx)

/-- What `page_remove` at the user page `v` of `d` leaves. -/
structure Unmapped (K : Set Nat) (extra : Nat → Nat) (dirs : Finset Nat) (p : Phys) (d v : Nat)
    (p' : Phys) : Prop where
  accounts : Accounts K extra dirs p'
  frame : Frame K dirs (fun _ => False) (fun d' v' => d' = d ∧ v' = v) p p'
  gone : pteOf p'.mem d v = none
  tables : ∀ d' ∈ dirs, ∀ i, tableOf p'.mem d' i = tableOf p.mem d' i
  free : ∀ x, p'.Free x → p.Free x ∨ p'.pageFreeList = some x
  total : ∀ x, p'.total dirs x + (if mappedPage p.mem d v = some x then 1 else 0) =
    p.total dirs x

theorem Accounts.unmap (h : Accounts K extra dirs p) (hd : d ∈ dirs) (hv : v < userPages)
    (hb : ∀ q, mappedPage p.mem d v = some q → p.total dirs q + extra q ≤ 65536) :
    Unmapped K extra dirs p d v (p.unmap d v) := by
  cases hw : pteOf p.mem d v with
  | none =>
    rw [Phys.unmap_of_none hw]
    refine ⟨h, .refl p, hw, fun _ _ _ => rfl, fun _ hx => .inl hx, fun x => ?_⟩
    rw [mappedPage_eq_none.mpr hw]
    rfl
  | some w =>
    obtain ⟨t, ht, hmem, hp⟩ := pteOf_eq_some.mp hw
    have htab := h.toTables.tableAt_of_user hd hv ht
    have hmaps : MapsAt dirs p d v w := ⟨hd, hv, hw⟩
    have habsent := present_and_not_pteP w
    have hclear := h.clearPte htab hv hmaps.mappedPage_eq habsent
    have htotal : ∀ x, (p.setWord t (v % 1024) (w &&& ~~~pteP)).total dirs x +
        (if pageOf w = x then 1 else 0) = p.total dirs x := by
      intro x
      have htot := h.toTables.total_setPte (w := w &&& ~~~pteP) htab hv x
      rw [hmaps.mappedPage_eq, habsent] at htot
      simpa only [Option.some.injEq, Bool.false_eq_true, false_and, if_false, add_zero] using htot
    have htot := htotal (pageOf w)
    rw [if_pos rfl] at htot
    have hbound := hb _ hmaps.mappedPage_eq
    have hne : ∀ x ∈ dirs, x ≠ t := fun x hx he => h.table_not_dir htab (he ▸ hx)
    rw [Phys.unmap_of_some ht hmem hp]
    refine ⟨?_, ?_, ?_, ?_, ?_, ?_⟩
    · rw [Phys.decref_setWord]
      refine hclear.decref (h.mapped_lt hmaps) (h.extra_pos _) ?_
      omega
    · rw [Phys.decref_setWord]
      exact (h.toTables.frame_setPte htab).trans (.of_decref _ _)
    · rw [Phys.decref_setWord, Phys.decref_mem, h.toTables.pteOf_setWord htab hd hv,
        if_pos ⟨rfl, rfl⟩, habsent]
      rfl
    · intro d' hd' i'
      apply tableOf_congr
      rw [Phys.setWord_mem_of_ne _ _ _ (hne d' hd'), Phys.decref_mem]
    · intro x hx
      have hpos := Phys.total_pos_of_map hmaps
      rcases h.free_of_decref (q := pageOf w) (by omega) hx with hx | ⟨rfl, hhead⟩
      · exact .inl hx
      · exact .inr hhead
    · intro x
      rw [Phys.decref_setWord, Phys.decref_total, hmaps.mappedPage_eq]
      simpa only [Option.some.injEq] using htotal x

/-- The entry that `page_insert` writes. -/
def pteWord (pp : Nat) (perm : Word) : Word := page2pa pp ||| perm ||| pteP

theorem pteWord_spec {pp : Nat} {perm : Word} (hpp : pp < 1048576) (hperm : perm.toNat < 4096) :
    present (pteWord pp perm) ∧ pageOf (pteWord pp perm) = pp := by
  refine ⟨present_or_pteP _, ?_⟩
  have hor : (perm ||| pteP).toNat < 4096 := by
    rw [BitVec.toNat_or]
    exact Nat.or_lt_two_pow (n := 12) hperm (by decide)
  unfold pteWord
  rw [BitVec.or_assoc]
  exact pageOf_page2pa_or hpp hor

theorem pteWord_and {perm : Word} (pp : Nat) (hperm : perm.toNat < 4096) :
    pteWord pp perm &&& 0xfff = perm ||| pteP := by
  have hor : (perm ||| pteP).toNat < 4096 := by
    rw [BitVec.toNat_or]
    exact Nat.or_lt_two_pow (n := 12) hperm (by decide)
  unfold pteWord
  rw [BitVec.or_assoc, BitVec.and_comm, BitVec.and_or_distrib_left, BitVec.and_comm 0xfff,
    page2pa_and pp (by decide), BitVec.and_comm 0xfff, and_low hor]
  exact BitVec.zero_or

/-- The end of `page_insert`. -/
def Phys.mapAt (p : Phys) (t j pp : Nat) (perm : Word) : Phys :=
  (p.setWord t j (pteWord pp perm)).increfed pp

/-- What a `page_insert` that succeeds leaves. -/
structure Inserted (K : Set Nat) (extra : Nat → Nat) (dirs : Finset Nat) (p : Phys) (d v : Nat)
    (w : Word) (p' : Phys) : Prop where
  accounts : Accounts K extra dirs p'
  frame : Frame K dirs (· < userTables) (fun d' v' => d' = d ∧ v' = v) p p'
  tables : ∀ {d' i' t'}, TableAt dirs p' d' i' t' →
    TableAt dirs p d' i' t' ∨ p.pageFreeList = some t'
  entry : pteOf p'.mem d v = some w

variable {pp : Nat} {perm : Word}

theorem Tables.tableAt_of_mapAt {d' i' t' j : Nat} (h : Tables K dirs p)
    (ht : TableAt dirs p d i t) (ht' : TableAt dirs (p.mapAt t j pp perm) d' i' t') :
    TableAt dirs p d' i' t' := by
  have hne : d' ≠ t := fun he => h.table_not_dir ht (he ▸ ht'.1)
  have hkt : p.kernPgdir ≠ t := fun he => h.table_not_kern ht (he ▸ h.kern_mem)
  refine ht'.of_tableOf_eq (tableOf_congr ?_) rfl fun i _ => ?_
  · exact congrFun (Phys.setWord_mem_of_ne _ _ _ hne) i'
  · exact congrFun (Phys.setWord_mem_of_ne _ _ _ hkt) i

theorem Accounts.mapAt (h : Accounts K extra dirs p) (ht : TableAt dirs p d (v / 1024) t)
    (hv : v < userPages) (hnone : pteOf p.mem d v = none) (hpp : pp < p.npages)
    (hfree : ¬p.Free pp) (hperm : perm.toNat < 4096) :
    Inserted K extra dirs p d v (pteWord pp perm) (p.mapAt t (v % 1024) pp perm) := by
  have hpp' : pp < 1048576 := by
    have := p.npages_le
    omega
  obtain ⟨hw, hpage⟩ := pteWord_spec hpp' hperm
  have hbump := h.incref hfree
  have hmapped := mappedPage_eq_none.mpr hnone
  refine ⟨?_, ?_, fun ht' => .inl (h.toTables.tableAt_of_mapAt ht ht'), ?_⟩
  · exact hbump.writePte ht hv hmapped hw hpage hpp h.extra_pos
  · exact (h.toTables.frame_setPte ht).trans (.of_mem_eq rfl rfl rfl)
  · unfold Phys.mapAt
    rw [Phys.increfed_mem, h.toTables.pteOf_setWord ht ht.1 hv, if_pos ⟨rfl, rfl⟩, if_pos hw]

/-- The page `pp` leaves the free list if it is the head. -/
def Phys.claim (p : Phys) (pp : Nat) : Phys := if p.pageFreeList = some pp then p.pop pp else p

/-- What the free list needs for `pp` to be mapped: `pp` is not on it once `page_insert`
has compared the head with `pp`. -/
theorem Accounts.claim (h : Accounts K extra dirs p)
    (hfree : p.Free pp → p.pageFreeList = some pp) :
    Accounts K extra dirs (p.claim pp) ∧ ¬(p.claim pp).Free pp := by
  unfold Phys.claim
  by_cases hhead : p.pageFreeList = some pp
  · rw [if_pos hhead]
    exact h.pop hhead
  · rw [if_neg hhead]
    exact ⟨h, fun hx => hhead (hfree hx)⟩

theorem Phys.claim_mem (p : Phys) (pp : Nat) : (p.claim pp).mem = p.mem := by
  unfold Phys.claim
  split <;> rfl

theorem Phys.claim_npages (p : Phys) (pp : Nat) : (p.claim pp).npages = p.npages := by
  unfold Phys.claim
  split <;> rfl

theorem Phys.claim_kernPgdir (p : Phys) (pp : Nat) : (p.claim pp).kernPgdir = p.kernPgdir := by
  unfold Phys.claim
  split <;> rfl

theorem pageInsert_of_table (h : UserTables dirs p) (hd : d ∈ dirs) (hva : va.toNat < utop)
    (ht : tableOf p.mem d (pgnum va / 1024) = some t) (pp : Nat) (perm : Word) :
    pageInsert (some d) pp va perm p =
      .ret 0 (((p.unmap d (pgnum va)).claim pp).mapAt t (pgnum va % 1024) pp perm) := by
  have hlt := h.table_lt ⟨hd, div_lt_userTables ((lt_utop_iff va).mp hva), ht⟩
  have ht' := ht
  rw [← pdx_eq] at ht'
  refine bind_run (pgdirWalk_of_some ht' hlt false) ?_
  refine bind_run (loadPte_eq rfl) ?_
  have htail : ∀ p1 : Phys, (do
      if (← Code.get).pageFreeList = some pp then
        Code.modify fun p : Phys => { p with pageFreeList := (p.pages pp).ppLink }
      pageInsertAt (t, ptx va) pp perm : PhysM Int) p1 =
        .ret 0 ((p1.claim pp).mapAt t (pgnum va % 1024) pp perm) := by
    intro p1
    refine bind_run (get_apply p1) ?_
    rw [← ptx_eq]
    unfold Phys.claim
    by_cases hhead : p1.pageFreeList = some pp
    · rw [if_pos hhead, if_pos hhead]
      rfl
    · rw [if_neg hhead, if_neg hhead]
      rfl
  by_cases hp : present (p.mem t (ptx va))
  · rw [if_pos hp]
    exact bind_run (pageRemove_eq h hd hva) (htail _)
  · rw [if_neg hp]
    have hnone : pteOf p.mem d (pgnum va) = none := by
      rw [ptx_eq] at hp
      simp [pteOf, ht, hp]
    rw [Phys.unmap_of_none hnone]
    exact htail p

theorem pageInsert_cases (h : UserTables dirs p) (hlt : ∀ q, p.pageFreeList = some q → q < p.npages)
    (hd : d ∈ dirs) (hva : va.toNat < utop) (pp : Nat) (perm : Word) :
    (∃ t, tableOf p.mem d (pgnum va / 1024) = some t ∧ pageInsert (some d) pp va perm p =
      .ret 0 (((p.unmap d (pgnum va)).claim pp).mapAt t (pgnum va % 1024) pp perm)) ∨
    (tableOf p.mem d (pgnum va / 1024) = none ∧ p.pageFreeList = none ∧
      pageInsert (some d) pp va perm p = .ret (-eNoMem) p) ∨
    ∃ q, tableOf p.mem d (pgnum va / 1024) = none ∧ p.pageFreeList = some q ∧
      pageInsert (some d) pp va perm p =
        .ret 0 ((p.withTable d (pgnum va / 1024) q).mapAt q (pgnum va % 1024) pp perm) := by
  cases ht : tableOf p.mem d (pgnum va / 1024) with
  | some t => exact .inl ⟨t, rfl, pageInsert_of_table h hd hva ht pp perm⟩
  | none =>
    rw [← pdx_eq] at ht
    cases hhead : p.pageFreeList with
    | none =>
      refine .inr (.inl ⟨rfl, rfl, ?_⟩)
      refine bind_run (pgdirWalk_of_none ht) ?_
      exact bind_run (pgdirWalk_of_full ht hhead) rfl
    | some q =>
      refine .inr (.inr ⟨q, rfl, rfl, ?_⟩)
      rw [← pdx_eq, ← ptx_eq]
      refine bind_run (pgdirWalk_of_none ht) ?_
      exact bind_run (pgdirWalk_new ht hhead (hlt q hhead)) rfl

/-- Removing the old mapping and writing the new one is one write to the table. -/
theorem Phys.mapAt_unmap_mem (p : Phys) (ht : tableOf p.mem d (v / 1024) = some t) (pp : Nat)
    (perm : Word) : (((p.unmap d v).claim pp).mapAt t (v % 1024) pp perm).mem =
      (p.setWord t (v % 1024) (pteWord pp perm)).mem := by
  unfold Phys.mapAt
  rw [Phys.increfed_mem]
  unfold Phys.setWord
  dsimp only
  rw [Phys.claim_mem]
  cases hw : pteOf p.mem d v with
  | none => rw [Phys.unmap_of_none hw]
  | some w =>
    obtain ⟨t', ht', hmem, hp⟩ := pteOf_eq_some.mp hw
    cases ht.symm.trans ht'
    rw [Phys.unmap_of_some ht hmem hp]
    unfold Phys.setWord
    dsimp only
    rw [Phys.decref_mem]
    simp

theorem Phys.unmap_npages (p : Phys) (d v : Nat) : (p.unmap d v).npages = p.npages := by
  unfold Phys.unmap
  split
  · rfl
  · split
    · exact p.decref_npages _
    · rfl

theorem Phys.unmap_kernPgdir (p : Phys) (d v : Nat) : (p.unmap d v).kernPgdir = p.kernPgdir := by
  unfold Phys.unmap
  split
  · rfl
  · split
    · exact p.decref_kernPgdir _
    · rfl

theorem Phys.free_of_mapAt {x j : Nat} (h : (p.mapAt t j pp perm).Free x) : p.Free x :=
  Phys.free_setRef_iff.mp h

theorem Phys.free_of_claim (h : (p.claim pp).Free x) : p.Free x := by
  unfold Phys.claim at h
  split at h
  · next hhead =>
    obtain ⟨l, hl, hm⟩ := h
    exact ⟨pp :: l, ⟨hhead, hl⟩, List.mem_cons_of_mem _ hm⟩
  · exact h

section

variable (h : Accounts K extra dirs p)

include h

section

variable (hd : d ∈ dirs)

include hd

/-- `page_insert` fails exactly when it needs a page table and there is no free page;
then nothing has changed. -/
theorem pageInsert_spec (hva : va.toNat < utop)
    (hpp : pp < p.npages) (hfree : ¬p.Free pp) (hperm : perm.toNat < 4096)
    (hb : ∀ q, mappedPage p.mem d (pgnum va) = some q → p.total dirs q + extra q ≤ 65536) :
    (pageInsert (some d) pp va perm p = .ret (-eNoMem) p ∧
      tableOf p.mem d (pgnum va / 1024) = none ∧ p.pageFreeList = none) ∨
    ∃ p', pageInsert (some d) pp va perm p = .ret 0 p' ∧
      Inserted K extra dirs p d (pgnum va) (pteWord pp perm) p' := by
  have hv := (lt_utop_iff va).mp hva
  rcases pageInsert_cases h.toTables.user (fun _ => h.head_lt) hd hva pp perm with
    ⟨t, ht, hrun⟩ | ⟨ht, hhead, hrun⟩ | ⟨q, ht, hhead, hrun⟩
  · refine .inr ⟨_, hrun, ?_⟩
    have hun := h.unmap hd hv hb
    have hhead : (p.unmap d (pgnum va)).Free pp →
        (p.unmap d (pgnum va)).pageFreeList = some pp := fun hx =>
      (hun.free pp hx).resolve_left hfree
    obtain ⟨hacc, hnf⟩ := hun.accounts.claim hhead
    have hcm := (p.unmap d (pgnum va)).claim_mem pp
    have hck := (p.unmap d (pgnum va)).claim_kernPgdir pp
    have hcn := (p.unmap d (pgnum va)).claim_npages pp
    have hframe : Frame K dirs (· < userTables) (fun d' v' => d' = d ∧ v' = pgnum va) p
        ((p.unmap d (pgnum va)).claim pp) :=
      (hun.frame.weaken subset_rfl (fun _ hf => hf.elim) fun _ _ _ hc => hc).trans
        (.of_mem_eq hcm hcn hck)
    have htab : TableAt dirs ((p.unmap d (pgnum va)).claim pp) d (pgnum va / 1024) t := by
      refine hacc.toTables.tableAt_of_user hd hv ?_
      rw [hcm, hun.tables d hd, ht]
    have hnone : pteOf ((p.unmap d (pgnum va)).claim pp).mem d (pgnum va) = none := by
      rw [hcm]
      exact hun.gone
    have hins := hacc.mapAt htab hv hnone (hframe.npages ▸ hpp) hnf hperm
    refine ⟨hins.accounts, hframe.trans hins.frame, ?_, hins.entry⟩
    intro d' i' t' ht'
    have hclaim := hacc.toTables.tableAt_of_mapAt htab ht'
    refine .inl (hclaim.of_tableOf_eq ?_ hframe.kernPgdir fun _ _ => ?_)
    · rw [hcm, hun.tables d' hclaim.1]
    · rw [hframe.kern _ h.kern_mem]
  · exact .inl ⟨hrun, ht, hhead⟩
  · have hi := h.toTables.own_of_user (div_lt_userTables hv)
    have hadd := h.withTable hd hi ht hhead
    have hframe : Frame K dirs (· < userTables) (fun d' v' => d' = d ∧ v' = pgnum va) p
        (p.withTable d (pgnum va / 1024) q) :=
      hadd.frame.weaken subset_rfl (fun _ hi => hi ▸ div_lt_userTables hv) fun _ _ _ hf => hf.elim
    have hold := pteOf_eq_none_of_table ht
    have hnone : pteOf (p.withTable d (pgnum va / 1024) q).mem d (pgnum va) = none := by
      rw [hadd.frame.entries d hd _ hv id, hold]
    have hnf : ¬(p.withTable d (pgnum va / 1024) q).Free pp := by
      intro hx
      exact hfree (Phys.free_of_take hhead (Phys.free_setRef_iff.mp hx))
    have hins := hadd.accounts.mapAt hadd.table hv hnone (hframe.npages ▸ hpp) hnf hperm
    refine .inr ⟨_, hrun, hins.accounts, hframe.trans hins.frame, ?_, hins.entry⟩
    intro d' i' t' ht'
    have hnew := hadd.accounts.toTables.tableAt_of_mapAt hadd.table ht'
    by_cases hc : d' = d ∧ i' = pgnum va / 1024
    · obtain ⟨rfl, rfl⟩ := hc
      have hq : q = t' := Option.some.inj (hadd.table.2.2.symm.trans hnew.2.2)
      exact .inr (hq ▸ hhead)
    · refine .inl (hnew.of_tableOf_eq (hadd.other d' hnew.1 i' hc) hframe.kernPgdir ?_)
      intro i _
      rw [hframe.kern _ h.kern_mem]

/-! ## What an insertion does to the tables

Here the counters play no part, so nothing is assumed about how often a page is mapped. -/

theorem pageInsert_effect (hva : va.toNat < utop) (hpp : pp < p.npages) (hperm : perm.toNat < 4096)
    (hrun : pageInsert (some d) pp va perm p = .ret 0 p') :
    Frame K dirs (· < userTables) (fun d' v' => d' = d ∧ v' = pgnum va) p p' ∧
      pteOf p'.mem d (pgnum va) = some (pteWord pp perm) := by
  have hv := (lt_utop_iff va).mp hva
  have hw : present (pteWord pp perm) := (pteWord_spec (by have := p.npages_le; omega) hperm).1
  rcases pageInsert_cases h.toTables.user (fun _ => h.head_lt) hd hva pp perm with
    ⟨t, ht, hrun'⟩ | ⟨ht, hhead, hrun'⟩ | ⟨q, ht, hhead, hrun'⟩
  · have htab := h.toTables.tableAt_of_user hd hv ht
    cases hrun.symm.trans hrun'
    have hmem := p.mapAt_unmap_mem ht pp perm
    constructor
    · refine (h.toTables.frame_setPte (w := pteWord pp perm) htab).trans (.of_mem_eq hmem ?_ ?_)
      · exact ((p.unmap d _).claim_npages pp).trans (p.unmap_npages d _)
      · exact ((p.unmap d _).claim_kernPgdir pp).trans (p.unmap_kernPgdir d _)
    · rw [hmem, h.toTables.pteOf_setWord htab hd hv, if_pos ⟨rfl, rfl⟩, if_pos hw]
  · cases hrun.symm.trans hrun'
  · cases hrun.symm.trans hrun'
    have hadd := h.withTable hd (h.toTables.own_of_user (div_lt_userTables hv)) ht hhead
    have hframe : Frame K dirs (· < userTables) (fun d' v' => d' = d ∧ v' = pgnum va) p
        (p.withTable d (pgnum va / 1024) q) :=
      hadd.frame.weaken subset_rfl (fun _ hi => hi ▸ div_lt_userTables hv) fun _ _ _ hf => hf.elim
    refine ⟨hframe.trans ((hadd.accounts.toTables.frame_setPte hadd.table).trans
      (.of_mem_eq rfl rfl rfl)), ?_⟩
    unfold Phys.mapAt
    rw [Phys.increfed_mem, hadd.accounts.toTables.pteOf_setWord hadd.table hd hv,
      if_pos ⟨rfl, rfl⟩, if_pos hw]

theorem Accounts.free_of_unmap (hv : v < userPages) (hx : (p.unmap d v).Free x) :
    p.Free x ∨ mappedPage p.mem d v = some x := by
  cases hw : pteOf p.mem d v with
  | none =>
    rw [Phys.unmap_of_none hw] at hx
    exact .inl hx
  | some w =>
    obtain ⟨t, ht, hmem, hp⟩ := pteOf_eq_some.mp hw
    have hmaps : MapsAt dirs p d v w := ⟨hd, hv, hw⟩
    rw [Phys.unmap_of_some ht hmem hp] at hx
    refine (h.free_of_decref (Nat.add_pos_left (Phys.total_pos_of_map hmaps) _) hx).imp_right ?_
    rintro ⟨rfl, -⟩
    exact hmaps.mappedPage_eq

/-- Only the page that was mapped before can become free. -/
theorem Accounts.free_of_pageInsert {r : Int} (hva : va.toNat < utop)
    (hrun : pageInsert (some d) pp va perm p = .ret r p') (hx : p'.Free x) :
    p.Free x ∨ mappedPage p.mem d (pgnum va) = some x := by
  rcases pageInsert_cases h.toTables.user (fun _ => h.head_lt) hd hva pp perm with
    ⟨t, -, hrun'⟩ | ⟨-, -, hrun'⟩ | ⟨q, -, hhead, hrun'⟩
  · cases hrun.symm.trans hrun'
    exact h.free_of_unmap hd ((lt_utop_iff va).mp hva) (Phys.free_of_claim (Phys.free_of_mapAt hx))
  · cases hrun.symm.trans hrun'
    exact .inl hx
  · cases hrun.symm.trans hrun'
    have hx' := Phys.free_of_mapAt hx
    exact .inl (Phys.free_of_take hhead (Phys.free_setRef_iff.mp hx'))

end

end

end Jos
