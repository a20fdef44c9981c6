import Jos.Kern.Env
import Jos.Paging.Operations

/-!
# Making and emptying directories

`env_setup_vm` copies `kern_pgdir` and adds the window, so the shared half of every
directory is known. `env_free` removes all user mappings, drops the tables and then the
directory itself.
-/

namespace Jos

open Logic

variable {K : Set Nat} {extra : Nat → Nat} {dirs : Finset Nat} {p p' : Phys}
  {d i v q t : Nat} {w : Word} {O : Nat → Prop} {T : Nat → Nat → Prop} {x : Nat}

/-- The entry through which the directory `d` maps itself. -/
def selfEntry (d : Nat) : Word := page2pa d ||| pteP ||| pteU

/-- The entries of `d` that are not its own are those of `kern_pgdir` and the window. -/
def SharedHalf (p : Phys) (d : Nat) : Prop :=
  ∀ i < 1024, i ∉ ownEntries p.mem p.kernPgdir →
    p.mem d i = if i = uvptIndex then selfEntry d else p.mem p.kernPgdir i

theorem SharedHalf.present (h : SharedHalf p d) (hi : i < 1024)
    (hown : i ∉ ownEntries p.mem p.kernPgdir) : present (p.mem d i) := by
  rw [h i hi hown]
  by_cases hu : i = uvptIndex
  · rw [if_pos hu]
    unfold selfEntry
    rw [BitVec.or_assoc, BitVec.or_comm pteP pteU, ← BitVec.or_assoc]
    exact present_or_pteP _
  · rw [if_neg hu]
    by_contra hp
    exact hown (mem_ownEntries.mpr ⟨hi, hu, tableOf_eq_none.mpr (by simpa using hp)⟩)

theorem SharedHalf.frame (h : SharedHalf p d) (hf : Frame K dirs O T p p') (hk : p.kernPgdir ∈ K)
    (hd : d ∈ dirs) (hO : ∀ i, O i → i ∈ ownEntries p.mem p.kernPgdir) : SharedHalf p' d := by
  intro i hi hown
  rw [hf.ownEntries_eq hk] at hown
  rw [hf.rows d hd i fun ho => hown (hO i ho), hf.kernPgdir, hf.kern _ hk]
  exact h i hi hown

/-- The result of an `env_setup_vm` that makes `q` the directory. -/
def Phys.withDir (p : Phys) (q : Nat) : Phys :=
  (((p.take allocZero q).increfed q).setPage q
    ((p.take allocZero q).mem (p.take allocZero q).kernPgdir)).setWord q uvptIndex (selfEntry q)

theorem setupVm_of_none (h : p.pageFreeList = none) : setupVm p = .ret none p :=
  bind_run (pageAlloc_of_none h _) rfl

theorem setupVm_of_some (h : p.pageFreeList = some q) (hlt : q < p.npages) :
    setupVm p = .ret (some q) (p.withDir q) := by
  refine bind_run (pageAlloc_of_some h hlt _) ?_
  refine bind_run (modify_apply _ _) ?_
  refine bind_run (page2kva_eq (p := (p.take allocZero q).increfed q) ?_) rfl
  rw [Phys.increfed_npages, Phys.take_npages]
  exact hlt

theorem Phys.withDir_eq (p : Phys) (q : Nat) :
    p.withDir q = ((p.take allocZero q).increfed q).setPage q
      (Function.update ((p.take allocZero q).mem (p.take allocZero q).kernPgdir) uvptIndex
        (selfEntry q)) := by
  unfold Phys.withDir
  rw [Phys.setWord_eq_setPage]
  simp [Phys.setPage]

section

variable (h : Accounts K extra dirs p)

include h

theorem setupVm_inv (hrun : setupVm p = .ret (some q) p') :
    p.pageFreeList = some q ∧ p' = p.withDir q := by
  cases hq : p.pageFreeList with
  | none =>
    rw [setupVm_of_none hq] at hrun
    cases hrun
  | some q' =>
    rw [setupVm_of_some hq (h.head_lt hq)] at hrun
    cases hrun
    exact ⟨rfl, rfl⟩

theorem setupVm_inv_none (hrun : setupVm p = .ret none p') : p' = p := by
  cases hq : p.pageFreeList with
  | none =>
    rw [setupVm_of_none hq] at hrun
    cases hrun
    rfl
  | some q' =>
    rw [setupVm_of_some hq (h.head_lt hq)] at hrun
    cases hrun

section

variable (hq : p.pageFreeList = some q)

include hq

theorem Accounts.withDir_row (i : Nat) : (p.withDir q).mem q i =
      if i = uvptIndex then selfEntry q else p.mem p.kernPgdir i := by
  have hkq : p.kernPgdir ≠ q := fun he => (h.head_plain hq).not_kern (he ▸ h.kern_mem)
  rw [p.withDir_eq, p.take_kernPgdir]
  by_cases hi : i = uvptIndex
  · simp [hi]
  · simp [hi, p.take_mem_of_ne allocZero hkq]

theorem Accounts.withDir :
    Accounts K extra (insert q dirs) (p.withDir q) ∧ SharedHalf (p.withDir q) q ∧
      Frame K dirs O T p (p.withDir q) := by
  obtain ⟨htake, hfresh, hframe⟩ := h.take (O := O) (T := T) hq allocZero
  have hbump := htake.incref hfresh.not_free
  have hplain : Plain K dirs ((p.take allocZero q).increfed q) q :=
    (htake.plain hfresh.unused).congr rfl rfl
  have hframe1 : Frame K dirs O T p ((p.take allocZero q).increfed q) :=
    hframe.trans (.of_mem_eq rfl rfl rfl)
  have hdir := p.withDir_eq q
  have hframe2 : Frame K dirs O T p (p.withDir q) := by
    rw [hdir]
    exact hframe1.trans (hplain.frame_setPage hbump.toTables)
  have hrow := h.withDir_row hq
  refine ⟨?_, ?_, hframe2⟩
  · have hacc : Accounts K (bump extra q) dirs (p.withDir q) := by
      rw [hdir]
      exact hbump.setPage hplain
    refine hacc.newDir ?_ ?_ ?_ h.extra_pos
    · refine ⟨hplain.not_kern, hplain.not_dir, fun d i ht => ?_⟩
      refine hplain.not_table d i (ht.of_tableOf_eq ?_ (by rw [hdir]; rfl) fun i _ => ?_)
      · rw [hdir]
        exact hplain.tableOf_setPage ht.1 i
      · rw [hdir, hplain.kern_setPage hbump.toTables]
    · rw [hframe2.npages]
      exact h.head_lt hq
    · intro i hi
      rw [hframe2.ownEntries_eq h.kern_mem] at hi
      obtain ⟨_, hu, hk⟩ := mem_ownEntries.mp hi
      rw [← hk]
      unfold tableOf
      rw [hrow, if_neg hu]
  · intro i hi _
    rw [hrow, hframe2.kernPgdir, hframe2.kern _ h.kern_mem]

theorem Accounts.mapsAt_withDir
    (hm : MapsAt (insert q dirs) (p.withDir q) d v w) : MapsAt dirs p d v w := by
  obtain ⟨_, _, hf⟩ := h.withDir (O := fun _ => False) (T := fun _ _ => False) hq
  rcases Finset.mem_insert.mp hm.1 with rfl | hd
  · have hown := h.toTables.own_of_user (div_lt_userTables hm.2.1)
    obtain ⟨_, hu, hk⟩ := mem_ownEntries.mp hown
    have hnone : tableOf (p.withDir d).mem d (v / 1024) = none := by
      rw [← hk]
      unfold tableOf
      rw [h.withDir_row hq, if_neg hu]
    have hw := hm.2.2
    rw [pteOf_eq_none_of_table hnone] at hw
    cases hw
  · exact hf.mapsAt id ⟨hd, hm.2⟩

end

end

/-- From `p` to `p'` exactly the pages that lose their last reference join the free list. -/
def Frees (extra : Nat → Nat) (dirs dirs' : Finset Nat) (p p' : Phys) : Prop :=
  ∀ x, p'.Free x ↔ p.Free x ∨ 0 < p.total dirs x + extra x ∧ p'.total dirs' x + extra x = 0

theorem Frees.refl (extra : Nat → Nat) (dirs : Finset Nat) (p : Phys) : Frees extra dirs dirs p p :=
  fun _ => ⟨Or.inl, fun h => h.elim id fun hc => absurd hc.1 (by omega)⟩

theorem Frees.trans {dirs' dirs'' : Finset Nat} {p'' : Phys} (h : Frees extra dirs dirs' p p')
    (h' : Frees extra dirs' dirs'' p' p'') (hle : ∀ x, p'.total dirs' x ≤ p.total dirs x)
    (hle' : ∀ x, p''.total dirs'' x ≤ p'.total dirs' x) : Frees extra dirs dirs'' p p'' := by
  intro x
  have h1 := hle x
  have h2 := hle' x
  rw [h' x, h x, or_assoc]
  refine or_congr_right ⟨?_, fun hc => ?_⟩
  · rintro (hc | hc)
    · exact ⟨hc.1, by omega⟩
    · exact ⟨by omega, hc.2⟩
  · by_cases hz : p'.total dirs' x + extra x = 0
    · exact Or.inl ⟨hc.1, hz⟩
    · exact Or.inr ⟨by omega, hc.2⟩

theorem Frees.of_drop {dirs' : Finset Nat}
    (hfree : ∀ x, p'.Free x ↔ p.Free x ∨ x = q ∧ p'.total dirs' q + extra q = 0)
    (htotal : ∀ x, p'.total dirs' x + (if q = x then 1 else 0) = p.total dirs x) :
    Frees extra dirs dirs' p p' := by
  intro x
  have htot := htotal x
  rw [hfree x]
  refine or_congr_right ⟨?_, fun hc => ?_⟩
  · rintro ⟨rfl, hz⟩
    rw [if_pos rfl] at htot
    exact ⟨by omega, hz⟩
  · by_cases hx : q = x
    · exact ⟨hx.symm, hx ▸ hc.2⟩
    · rw [if_neg hx] at htot
      omega

theorem Phys.free_push_iff (hfree : ¬p.Free q)
    (hlist : ∃ l, Chain (fun y => (p.pages y).ppLink) p.pageFreeList l) :
    (p.push q).Free x ↔ p.Free x ∨ x = q := by
  obtain ⟨l, hl⟩ := hlist
  have hq : q ∉ l := fun hm => hfree ⟨l, hl, hm⟩
  have hpush : Chain (fun y => ((p.push q).pages y).ppLink) (some q) (q :: l) := by
    refine hl.push ?_ fun y hy => ?_
    · rw [Phys.push_ppLink, if_pos rfl]
    · rw [Phys.push_ppLink, if_neg]
      rintro rfl
      exact hq hy
  constructor
  · intro hx
    rcases List.mem_cons.mp (hx.mem hpush) with rfl | hm
    · exact Or.inr rfl
    · exact Or.inl ⟨l, hl, hm⟩
  · rintro (hx | rfl)
    · exact ⟨q :: l, hpush, List.mem_cons_of_mem _ (hx.mem hl)⟩
    · exact ⟨x :: l, hpush, List.mem_cons_self⟩

theorem Accounts.free_decref_iff (h : Accounts K (bump extra q) dirs p)
    (hlt : q < p.npages) (hbound : p.total dirs q + extra q < 65536) :
    (p.decref q).Free x ↔ p.Free x ∨ x = q ∧ p.total dirs q + extra q = 0 := by
  have hfree : ¬p.Free q := h.not_free (by rw [bump_self]; omega)
  have href := h.ref_sub_one hlt
  have hiff : (p.pages q).ppRef - 1 = 0 ↔ p.total dirs q + extra q = 0 := by
    rw [href]
    constructor
    · intro h0
      have hmod := congrArg BitVec.toNat h0
      rw [BitVec.toNat_ofNat] at hmod
      change _ % 65536 = 0 at hmod
      omega
    · intro h0
      rw [h0]
      rfl
  unfold Phys.decref
  by_cases h0 : (p.pages q).ppRef - 1 = 0
  · obtain ⟨l, hl, -⟩ := h.free
    rw [if_pos h0, Phys.free_push_iff (fun hc => hfree (Phys.free_setRef_iff.mp hc))
      ⟨l, hl.congr fun y _ => Phys.setRef_ppLink p q 0 y⟩, Phys.free_setRef_iff]
    simp only [hiff.mp h0, and_true]
  · rw [if_neg h0, Phys.free_setRef_iff]
    have hnz : ¬ p.total dirs q + extra q = 0 := fun hz => h0 (hiff.mpr hz)
    simp only [hnz, and_false, or_false]

theorem Phys.unmap_mem_of_ne (p : Phys)
    (hx : ∀ t, tableOf p.mem d (v / 1024) = some t → x ≠ t) : (p.unmap d v).mem x = p.mem x := by
  cases hw : pteOf p.mem d v with
  | none => rw [Phys.unmap_of_none hw]
  | some w =>
    obtain ⟨t, ht, hmem, hp⟩ := pteOf_eq_some.mp hw
    rw [Phys.unmap_of_some ht hmem hp, Phys.setWord_mem_of_ne _ _ _ (hx t ht), Phys.decref_mem]

theorem Accounts.unmap_frees (h : Accounts K extra dirs p) (hd : d ∈ dirs) (hv : v < userPages)
    (hb : ∀ q, mappedPage p.mem d v = some q → p.total dirs q + extra q ≤ 65536) :
    Frees extra dirs dirs p (p.unmap d v) := by
  cases hw : pteOf p.mem d v with
  | none =>
    rw [Phys.unmap_of_none hw]
    exact .refl extra dirs p
  | some w =>
    obtain ⟨t, ht, hmem, hp⟩ := pteOf_eq_some.mp hw
    have htab := h.toTables.tableAt_of_user hd hv ht
    have hmaps : MapsAt dirs p d v w := ⟨hd, hv, hw⟩
    have hbound := hb _ hmaps.mappedPage_eq
    have hclear := h.clearPte htab hv hmaps.mappedPage_eq (present_and_not_pteP w)
    have htotal : ∀ x, (p.unmap d v).total dirs x + (if pageOf w = x then 1 else 0) =
        p.total dirs x := by
      intro x
      have htot := (h.unmap hd hv hb).total x
      rw [hmaps.mappedPage_eq] at htot
      simpa only [Option.some.injEq] using htot
    refine .of_drop (q := pageOf w) (fun x => ?_) htotal
    have htot := htotal (pageOf w)
    rw [if_pos rfl] at htot
    rw [Phys.unmap_of_some ht hmem hp, Phys.decref_setWord, Phys.decref_total] at htot ⊢
    exact hclear.free_decref_iff (h.mapped_lt hmaps) (by omega)

/-- What the loops of `env_free` keep while they empty the directory `d`. -/
structure Emptying (K : Set Nat) (extra : Nat → Nat) (dirs : Finset Nat) (d : Nat)
    (p p' : Phys) : Prop where
  accounts : Accounts K extra dirs p'
  frame : Frame K dirs (· < userTables) (fun d' _ => d' = d) p p'
  tables : ∀ {d' i t}, TableAt dirs p' d' i t → TableAt dirs p d' i t
  total_le : ∀ x, p'.total dirs x ≤ p.total dirs x

/-- What they change: the memory of `d` and of its tables, and the free list. -/
structure Clears (K : Set Nat) (extra : Nat → Nat) (dirs : Finset Nat) (d : Nat)
    (p p' : Phys) : Prop extends Emptying K extra dirs d p p' where
  mem : ∀ x, x ≠ d → (∀ i < userTables, tableOf p.mem d i ≠ some x) → p'.mem x = p.mem x
  frees : Frees extra dirs dirs p p'

theorem Clears.trans {p'' : Phys} (hd : d ∈ dirs) (h : Clears K extra dirs d p p')
    (h' : Clears K extra dirs d p' p'') : Clears K extra dirs d p p'' := by
  refine ⟨⟨h'.accounts, h.frame.trans h'.frame, fun ht => h.tables (h'.tables ht),
    fun x => (h'.total_le x).trans (h.total_le x)⟩, fun x hx htab => ?_,
    h.frees.trans h'.frees h.total_le h'.total_le⟩
  rw [h'.mem x hx fun i hi ht => ?_, h.mem x hx htab]
  have hold := h.tables ⟨hd, h.accounts.toTables.own_of_user hi, ht⟩
  exact htab i hi hold.2.2

section

variable (h : Accounts K extra dirs p)

include h

theorem Clears.refl : Clears K extra dirs d p p :=
  ⟨⟨h, .refl p, id, fun _ => le_rfl⟩, fun _ _ _ => rfl, .refl extra dirs p⟩

/-- An empty table is taken out of its directory, and its page goes back. -/
theorem Accounts.freeTable (ht : TableAt dirs p d i t)
    (hzero : ∀ j < 1024, present (p.mem t j) = false) (hb : p.total dirs t + extra t ≤ 65536) :
    Accounts K extra dirs ((p.setWord d i 0).decref t) ∧
      Frame K dirs (· = i) (fun _ _ => False) p ((p.setWord d i 0).decref t) ∧
      (∀ {d' i' t'}, TableAt dirs ((p.setWord d i 0).decref t) d' i' t' → TableAt dirs p d' i' t') ∧
      (∀ x, ((p.setWord d i 0).decref t).total dirs x ≤ p.total dirs x) ∧
      Frees extra dirs dirs p ((p.setWord d i 0).decref t) := by
  obtain ⟨hpte, htotal⟩ := h.toTables.clearPde ht hzero
  have hframe : Frame K dirs (· = i) (fun _ _ => False) p ((p.setWord d i 0).decref t) :=
    (h.toTables.frame_setPde ht.1 hpte).trans (.of_decref _ _)
  have hbound : (p.setWord d i 0).total dirs t + extra t < 65536 := by
    have := htotal t
    rw [if_pos rfl] at this
    omega
  have hdrop := h.dropTable ht hzero
  refine ⟨hdrop.decref (h.table_lt ht) (h.extra_pos t) hbound, hframe, ?_, ?_, ?_⟩
  · intro d' i' t' ht'
    by_cases hc : d' = d ∧ i' = i
    · have hnone := ht'.2.2
      rw [Phys.decref_mem, tableOf_setWord, if_pos hc, if_neg not_present_zero] at hnone
      cases hnone
    · refine ht'.of_tableOf_eq ?_ hframe.kernPgdir fun j _ => ?_
      · rw [Phys.decref_mem, tableOf_setWord, if_neg hc]
      · rw [hframe.kern _ h.kern_mem]
  · intro x
    rw [Phys.decref_total]
    have := htotal x
    omega
  · refine .of_drop (q := t) (fun x => ?_) fun x => ?_
    · rw [Phys.decref_total]
      exact hdrop.free_decref_iff (h.table_lt ht) hbound
    · rw [Phys.decref_total]
      exact htotal x

section

variable (hd : d ∈ dirs)

include hd

theorem envFreePte_loop (hi : i < userTables)
    (ht : tableOf p.mem d i = some t) (hb : ∀ q, p.total dirs q + extra q ≤ 65536) :
    ∃ p', Code.times nptentries (envFreePte d t i) p = .ret () p' ∧
      Clears K extra dirs d p p' ∧ (∀ j, tableOf p'.mem d j = tableOf p.mem d j) ∧
      ∀ j < 1024, present (p'.mem t j) = false := by
  refine times_run (fun n s => Clears K extra dirs d p s ∧
    (∀ j, tableOf s.mem d j = tableOf p.mem d j) ∧ ∀ j < n, present (s.mem t j) = false) ?_ ?_
  · exact ⟨.refl h, fun _ => rfl, fun j hj => absurd hj (by omega)⟩
  · rintro n hn s ⟨hs, htab, hdone⟩
    change n < 1024 at hn
    unfold userTables at hi
    have hv : i * 1024 + n < userPages := by
      unfold userPages
      omega
    have hdiv : (i * 1024 + n) / 1024 = i := by omega
    have hmod : (i * 1024 + n) % 1024 = n := by omega
    have ht' : tableOf s.mem d ((i * 1024 + n) / 1024) = some t := by
      rw [hdiv, htab, ht]
    have hva : (pgaddr i n 0).toNat < utop := by
      rw [lt_utop_iff, pgnum_pgaddr (by omega) hn]
      exact hv
    by_cases hp : present (s.mem t n)
    · have hrun : envFreePte d t i n s = .ret () (s.unmap d (i * 1024 + n)) := by
        refine bind_run (loadPte_eq rfl) ?_
        rw [if_pos hp, pageRemove_eq hs.accounts.toTables.user hd hva, pgnum_pgaddr (by omega) hn]
      have hbound : ∀ q, mappedPage s.mem d (i * 1024 + n) = some q →
          s.total dirs q + extra q ≤ 65536 := by
        intro q _
        have := hs.total_le q
        have := hb q
        omega
      have hun := hs.accounts.unmap hd hv hbound
      refine ⟨_, hrun, hs.trans hd ⟨⟨hun.accounts, ?_, ?_, fun x => ?_⟩, fun x _ hx => ?_,
        hs.accounts.unmap_frees hd hv hbound⟩, ?_, ?_⟩
      · exact hun.frame.weaken subset_rfl (fun _ hf => hf.elim) fun _ _ _ hc => hc.1
      · exact fun ht => hun.frame.tableAt hs.accounts.kern_mem id ht
      · have := hun.total x
        omega
      · refine s.unmap_mem_of_ne fun t' ht' he => hx _ (div_lt_userTables hv) ?_
        rw [ht', he]
      · intro j
        rw [hun.tables d hd, htab]
      · intro j hj
        rw [Phys.unmap_of_some ht' (by rw [hmod]) hp, Phys.setWord_mem_apply, hmod]
        by_cases hjn : j = n
        · rw [if_pos ⟨rfl, hjn⟩]
          exact present_and_not_pteP _
        · rw [if_neg fun hc => hjn hc.2, Phys.decref_mem]
          exact hdone j (by omega)
    · refine ⟨s, ?_, hs, htab, ?_⟩
      · refine bind_run (loadPte_eq rfl) ?_
        rw [if_neg hp]
        rfl
      · intro j hj
        by_cases hjn : j = n
        · rw [hjn]
          simpa using hp
        · exact hdone j (by omega)

/-- One round of the outer loop of `env_free` drops entry `i` and its table. -/
theorem envFreePde_run (hi : i < userTables) (hb : ∀ q, p.total dirs q + extra q ≤ 65536) :
    ∃ p', envFreePde d i p = .ret () p' ∧ Clears K extra dirs d p p' ∧
      ∀ j, tableOf p'.mem d j = if j = i then none else tableOf p.mem d j := by
  cases ht : tableOf p.mem d i with
  | none =>
    refine ⟨p, ?_, .refl h, fun j => ?_⟩
    · refine bind_run (loadPte_eq rfl) ?_
      rw [if_neg (by simp [tableOf_eq_none.mp ht])]
      rfl
    · by_cases hj : j = i
      · rw [if_pos hj, hj, ht]
      · rw [if_neg hj]
  | some t =>
    obtain ⟨hp, hpage⟩ := tableOf_eq_some.mp ht
    have htab : TableAt dirs p d i t := ⟨hd, h.toTables.own_of_user hi, ht⟩
    obtain ⟨s, hrun, hs, hsame, hzero⟩ := envFreePte_loop h hd hi ht hb
    have htab' : TableAt dirs s d i t := by
      refine ⟨hd, hs.accounts.toTables.own_of_user hi, ?_⟩
      rw [hsame, ht]
    have hbound : s.total dirs t + extra t ≤ 65536 := by
      have := hs.total_le t
      have := hb t
      omega
    obtain ⟨hacc, hframe, htables, htotal, hfrees⟩ := hs.accounts.freeTable htab' hzero hbound
    refine ⟨(s.setWord d i 0).decref t, ?_,
      hs.trans hd ⟨⟨hacc, ?_, htables, htotal⟩, fun x hx _ => ?_, hfrees⟩, fun j => ?_⟩
    · refine bind_run (loadPte_eq rfl) ?_
      rw [if_pos hp, hpage]
      refine bind_run (kaddr_eq (h.table_lt htab)) ?_
      refine bind_run hrun ?_
      refine bind_run (modify_apply _ s) ?_
      refine bind_run (pa2page_eq (p := s.setWord d i 0) (hs.accounts.table_lt htab')) ?_
      exact pageDecref_eq t _
    · exact hframe.weaken subset_rfl (fun _ he => he ▸ hi) fun _ _ _ hf => hf.elim
    · rw [Phys.decref_mem, Phys.setWord_mem_of_ne _ _ _ hx]
    · rw [Phys.decref_mem, tableOf_setWord]
      by_cases hj : j = i
      · rw [if_pos ⟨rfl, hj⟩, if_pos hj]
        rfl
      · rw [if_neg fun hc => hj hc.2, if_neg hj, hsame]

/-- The loops of `env_free` empty a directory that has no tables above `UTOP`. -/
theorem envFreePde_loop
    (hupper : ∀ i ∈ ownEntries p.mem p.kernPgdir, userTables ≤ i → tableOf p.mem d i = none)
    (hb : ∀ q, p.total dirs q + extra q ≤ 65536) :
    ∃ p', Code.times (utop / ptsize) (envFreePde d) p = .ret () p' ∧ Clears K extra dirs d p p' ∧
      ∀ i ∈ ownEntries p'.mem p'.kernPgdir, tableOf p'.mem d i = none := by
  have hcount : utop / ptsize = userTables := rfl
  have hloop : ∃ p', Code.times (utop / ptsize) (envFreePde d) p = .ret () p' ∧
      Clears K extra dirs d p p' ∧ (∀ j < utop / ptsize, tableOf p'.mem d j = none) ∧
      ∀ j, utop / ptsize ≤ j → tableOf p'.mem d j = tableOf p.mem d j := by
    refine times_run (fun n s => Clears K extra dirs d p s ∧
      (∀ j < n, tableOf s.mem d j = none) ∧ ∀ j, n ≤ j → tableOf s.mem d j = tableOf p.mem d j)
      ⟨.refl h, fun j hj => absurd hj (by omega), fun _ _ => rfl⟩ ?_
    rintro n hn s ⟨hs, hlow, hhigh⟩
    rw [hcount] at hn
    obtain ⟨s', hrun, hs', htab⟩ := envFreePde_run hs.accounts hd hn fun q => by
      have := hs.total_le q
      have := hb q
      omega
    refine ⟨s', hrun, hs.trans hd hs', ?_, ?_⟩
    · intro j hj
      rw [htab]
      by_cases hjn : j = n
      · rw [if_pos hjn]
      · rw [if_neg hjn]
        exact hlow j (by omega)
    · intro j hj
      rw [htab, if_neg (by omega)]
      exact hhigh j (by omega)
  obtain ⟨p', hrun, hp', hlow, hhigh⟩ := hloop
  refine ⟨p', hrun, hp', fun i hi => ?_⟩
  rw [hp'.frame.ownEntries_eq h.kern_mem] at hi
  by_cases hlt : i < utop / ptsize
  · exact hlow i hlt
  · rw [hhigh i (by omega)]
    exact hupper i hi (by rw [hcount] at hlt; omega)

theorem Accounts.freeDir (hempty : ∀ i ∈ ownEntries p.mem p.kernPgdir, tableOf p.mem d i = none)
    (hb : p.total dirs d + extra d ≤ 65536) : Accounts K extra (dirs.erase d) (p.decref d) ∧
      Frees extra dirs (dirs.erase d) p (p.decref d) ∧
      ∀ x, (p.decref d).total (dirs.erase d) x ≤ p.total dirs x := by
  have htotal : ∀ x, p.total (dirs.erase d) x + (if d = x then 1 else 0) = p.total dirs x := by
    intro x
    have htot := Phys.total_insert (Finset.notMem_erase d dirs) hempty
      (fun i hi => h.toTables.own_of_user hi) x
    rw [Finset.insert_erase hd] at htot
    rw [htot]
    simp only [eq_comm]
  have hbound : p.total (dirs.erase d) d + extra d < 65536 := by
    have := htotal d
    rw [if_pos rfl] at this
    omega
  have hdrop := h.dropDir hd hempty
  refine ⟨hdrop.decref (h.dir_lt d hd) (h.extra_pos d) hbound,
    .of_drop (q := d) (fun x => ?_) (fun x => ?_), fun x => ?_⟩
  · rw [Phys.decref_total]
    exact hdrop.free_decref_iff (h.dir_lt d hd) hbound
  · rw [Phys.decref_total]
    exact htotal x
  · rw [Phys.decref_total, ← htotal x]
    exact Nat.le_add_right _ _

end

end

end Jos
