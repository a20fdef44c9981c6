import Jos.Paging.Accounts

/-!
# The elementary changes of the page accounts

Every operation of `kern/pmap.c` is a sequence of a few changes, and each of them keeps the
accounts. A counter change moves `extra`, and writing an entry moves the reference on to the tables.
-/

namespace Jos

open Logic Finset Phys

variable {K : Set Nat} {extra : Nat → Nat} {dirs : Finset Nat} {p : Phys}
  {d i v q t : Nat} {w : Word}

@[simp] theorem bump_self (extra : Nat → Nat) (q : Nat) : bump extra q q = extra q + 1 := by
  simp [bump]

theorem bump_of_ne {x : Nat} (extra : Nat → Nat) (h : x ≠ q) : bump extra q x = extra x := by
  simp [bump, h]

theorem le_bump (extra : Nat → Nat) (q x : Nat) : extra x ≤ bump extra q x := by
  unfold bump
  omega

theorem bump_pos (h : ∀ x ∈ K, 0 < extra x) : ∀ x ∈ K, 0 < bump extra q x := by
  intro x hx
  have := h x hx
  have := le_bump extra q x
  omega

namespace Phys

/-- `page_free_list = page_free_list->pp_link` for a list that starts with `q`. -/
@[simps -fullyApplied mem npages kernPgdir pages]
def pop (p : Phys) (q : Nat) : Phys := { p with pageFreeList := (p.pages q).ppLink }

/-- The page `q` joins the free list. -/
@[simps -fullyApplied mem npages kernPgdir pageFreeList]
def push (p : Phys) (q : Nat) : Phys :=
  { p.setLink q p.pageFreeList with pageFreeList := some q }

def decref (p : Phys) (q : Nat) : Phys :=
  if (p.pages q).ppRef - 1 = 0 then (p.setRef q 0).push q
  else p.setRef q ((p.pages q).ppRef - 1)

@[simps! -fullyApplied mem npages kernPgdir pageFreeList]
def increfed (p : Phys) (q : Nat) : Phys := p.setRef q ((p.pages q).ppRef + 1)

theorem push_ppLink (p : Phys) (q x : Nat) :
    ((p.push q).pages x).ppLink = if x = q then p.pageFreeList else (p.pages x).ppLink :=
  p.setLink_ppLink q p.pageFreeList x

@[simp] theorem push_ppRef (p : Phys) (q x : Nat) :
    ((p.push q).pages x).ppRef = (p.pages x).ppRef :=
  p.setLink_ppRef q p.pageFreeList x

@[simp] theorem decref_mem (p : Phys) (q : Nat) : (p.decref q).mem = p.mem := by
  unfold decref
  split <;> rfl

@[simp] theorem decref_npages (p : Phys) (q : Nat) : (p.decref q).npages = p.npages := by
  unfold decref
  split <;> rfl

@[simp] theorem decref_kernPgdir (p : Phys) (q : Nat) : (p.decref q).kernPgdir = p.kernPgdir := by
  unfold decref
  split <;> rfl

theorem decref_total (p : Phys) (q : Nat) (dirs : Finset Nat) (x : Nat) :
    (p.decref q).total dirs x = p.total dirs x := by
  unfold total
  rw [decref_mem, decref_kernPgdir]

theorem decref_setWord (p : Phys) (q page i : Nat) (w : Word) :
    (p.decref q).setWord page i w = (p.setWord page i w).decref q := by
  unfold decref
  rw [setWord_pages]
  split <;> rfl

end Phys

theorem ofNat_succ (n : Nat) : BitVec.ofNat 16 (n + 1) = BitVec.ofNat 16 n + 1 :=
  BitVec.ofNat_add n 1

section

variable (h : Accounts K extra dirs p)

include h

theorem Accounts.pop (hq : p.pageFreeList = some q) :
    Accounts K extra dirs (p.pop q) ∧ ¬(p.pop q).Free q := by
  obtain ⟨l, hl, hnd, hz⟩ := h.free
  rw [hq] at hl
  obtain ⟨l, rfl, htail⟩ := hl.exists_cons
  rw [List.nodup_cons] at hnd
  refine ⟨⟨h.toTables.congr rfl rfl rfl, h.extra_pos, ?_, h.refs⟩, ?_⟩
  · exact ⟨l, htail, hnd.2, fun x hx => hz x (List.mem_cons_of_mem _ hx)⟩
  · intro hfree
    exact hnd.1 (hfree.mem htail)

theorem Accounts.push (hlt : q < p.npages) (hz : p.total dirs q + extra q = 0) (hfree : ¬p.Free q) :
    Accounts K extra dirs (p.push q) where
  toTables := h.toTables.congr rfl rfl rfl
  extra_pos := h.extra_pos
  free := by
    obtain ⟨l, hl, hnd, hl0⟩ := h.free
    have hq : q ∉ l := fun hm => hfree ⟨l, hl, hm⟩
    refine ⟨q :: l, ?_, List.nodup_cons.mpr ⟨hq, hnd⟩, ?_⟩
    · refine hl.push ?_ ?_
      · rw [push_ppLink, if_pos rfl]
      · intro x hx
        rw [push_ppLink, if_neg]
        rintro rfl
        exact hq hx
    · intro x hx
      rcases List.mem_cons.mp hx with rfl | hx
      · exact ⟨hlt, hz⟩
      · exact hl0 x hx
  refs x hx := by
    rw [push_ppRef]
    exact h.refs x hx

/-- A change of one counter, matched by `extra`. -/
theorem Accounts.setRef {extra' : Nat → Nat} {ref : BitVec 16}
    (hfree : ¬p.Free q) (hne : ∀ x, x ≠ q → extra' x = extra x) (hpos : q ∈ K → 0 < extra' q)
    (href : q < p.npages → ref = BitVec.ofNat 16 (p.total dirs q + extra' q)) :
    Accounts K extra' dirs (p.setRef q ref) where
  toTables := h.toTables.congr rfl rfl rfl
  extra_pos := by
    intro x hx
    by_cases hxq : x = q
    · subst hxq
      exact hpos hx
    · rw [hne x hxq]
      exact h.extra_pos x hx
  free := by
    obtain ⟨l, hl, hnd, hz⟩ := h.free
    refine ⟨l, hl.congr fun x _ => setRef_ppLink p q ref x, hnd, ?_⟩
    intro x hx
    have hxq : x ≠ q := by
      rintro rfl
      exact hfree ⟨l, hl, hx⟩
    rw [hne x hxq]
    exact hz x hx
  refs x hx := by
    rw [setRef_ppRef]
    by_cases hxq : x = q
    · subst hxq
      rw [if_pos rfl]
      exact href hx
    · rw [if_neg hxq, hne x hxq]
      exact h.refs x hx

theorem Accounts.incref (hfree : ¬p.Free q) : Accounts K (bump extra q) dirs (p.increfed q) := by
  refine h.setRef hfree (fun x hx => bump_of_ne extra hx) ?_ ?_
  · intro _
    rw [bump_self]
    omega
  · intro hq
    rw [h.refs q hq, bump_self, ← Nat.add_assoc, ofNat_succ]

end

theorem Accounts.ref_sub_one (h : Accounts K (bump extra q) dirs p) (hlt : q < p.npages) :
    (p.pages q).ppRef - 1 = BitVec.ofNat 16 (p.total dirs q + extra q) := by
  rw [h.refs q hlt, bump_self, ← Nat.add_assoc, ofNat_succ]
  exact BitVec.add_sub_cancel _ _

/-- A page loses the reference that `extra` counts. When the page has no other
reference, it joins the free list. -/
theorem Accounts.decref (h : Accounts K (bump extra q) dirs p) (hlt : q < p.npages)
    (hpos : q ∈ K → 0 < extra q) (hbound : p.total dirs q + extra q < 65536) :
    Accounts K extra dirs (p.decref q) := by
  have hfree : ¬p.Free q := h.not_free (by rw [bump_self]; omega)
  have href := h.ref_sub_one hlt
  have hset : ∀ ref, ref = BitVec.ofNat 16 (p.total dirs q + extra q) →
      Accounts K extra dirs (p.setRef q ref) := fun ref hr =>
    h.setRef hfree (fun x hx => (bump_of_ne extra hx).symm) hpos fun _ => hr
  unfold Phys.decref
  by_cases h0 : (p.pages q).ppRef - 1 = 0
  · rw [if_pos h0]
    have hzero : p.total dirs q + extra q = 0 := by
      rw [href] at h0
      have hmod := congrArg BitVec.toNat h0
      rw [BitVec.toNat_ofNat] at hmod
      change _ % 65536 = 0 at hmod
      omega
    have hfree' : ¬(p.setRef q 0).Free q := by
      rintro ⟨l, hl, hm⟩
      exact hfree ⟨l, hl.congr fun x _ => (setRef_ppLink p q 0 x).symm, hm⟩
    exact (hset 0 (by rw [← href, h0])).push hlt hzero hfree'
  · rw [if_neg h0]
    exact hset _ href

section Rewrite

variable {p' : Phys} {d' v' : Nat}

/-- A change of memory that leaves `kern_pgdir` alone and adds at most one table. -/
theorem Tables.rewrite (h : Tables K dirs p) (hn : p'.npages = p.npages)
    (hk : p'.kernPgdir = p.kernPgdir)
    (hrow : ∀ i < 1024, p'.mem p.kernPgdir i = p.mem p.kernPgdir i)
    (hnew : ∀ {d' i' t'}, TableAt dirs p' d' i' t' → TableAt dirs p d' i' t' ∨
      d' = d ∧ i' = i ∧ t' = t ∧ t < p.npages ∧ Plain K dirs p t)
    (hlt : ∀ {d v w}, MapsAt dirs p' d v w → pageOf w < p.npages) : Tables K dirs p' where
  kern_mem := by
    rw [hk]
    exact h.kern_mem
  kern_user j hj := by
    rw [hk, tableOf_congr (hrow j (by unfold userTables at hj; omega))]
    exact h.kern_user j hj
  dir_not_kern := h.dir_not_kern
  dir_lt x hx := by
    rw [hn]
    exact h.dir_lt x hx
  table_lt ht := by
    rw [hn]
    rcases hnew ht with ht | ⟨_, _, rfl, hlt, _⟩
    · exact h.table_lt ht
    · exact hlt
  table_not_dir ht := by
    rcases hnew ht with ht | ⟨_, _, rfl, _, hp⟩
    · exact h.table_not_dir ht
    · exact hp.not_dir
  table_not_kern ht := by
    rcases hnew ht with ht | ⟨_, _, rfl, _, hp⟩
    · exact h.table_not_kern ht
    · exact hp.not_kern
  table_inj ht ht' := by
    rcases hnew ht with ht | ⟨rfl, rfl, rfl, _, hp⟩
    · rcases hnew ht' with ht' | ⟨_, _, rfl, _, hp⟩
      · exact h.table_inj ht ht'
      · exact absurd ht (hp.not_table _ _)
    · rcases hnew ht' with ht' | ⟨rfl, rfl, _⟩
      · exact absurd ht' (hp.not_table _ _)
      · exact ⟨rfl, rfl⟩
  mapped_lt hm := by
    rw [hn]
    exact hlt hm

theorem Tables.kern_ne (h : Tables K dirs p) (hd : d ∈ dirs) : p.kernPgdir ≠ d := by
  rintro rfl
  exact h.dir_not_kern _ hd h.kern_mem

theorem TableAt.of_tableOf_eq (h : TableAt dirs p' d i t)
    (ht : tableOf p'.mem d i = tableOf p.mem d i) (hk : p'.kernPgdir = p.kernPgdir)
    (hrow : ∀ i < 1024, p'.mem p.kernPgdir i = p.mem p.kernPgdir i) : TableAt dirs p d i t := by
  obtain ⟨hd, hi, hti⟩ := h
  rw [hk, ownEntries_congr hrow] at hi
  exact ⟨hd, hi, ht ▸ hti⟩

variable {words : Nat → Word}

theorem Plain.pteOf_setPage (h : Tables K dirs p) (hq : Plain K dirs p q) (hd : d ∈ dirs)
    (hv : v < userPages) : pteOf (p.setPage q words).mem d v = pteOf p.mem d v := by
  have hdq : d ≠ q := fun he => hq.not_dir (he ▸ hd)
  apply pteOf_congr
  · exact tableOf_congr (by simp [hdq])
  · intro t ht
    have htq : t ≠ q := by
      rintro rfl
      exact hq.not_table d _ (h.tableAt_of_user hd hv ht)
    simp [htq]

theorem Plain.tableOf_setPage (hq : Plain K dirs p q) (hd : d ∈ dirs) (i : Nat) :
    tableOf (p.setPage q words).mem d i = tableOf p.mem d i := by
  have hdq : d ≠ q := fun he => hq.not_dir (he ▸ hd)
  exact tableOf_congr (by simp [hdq])

theorem Plain.kern_setPage (h : Tables K dirs p) (hq : Plain K dirs p q) :
    (p.setPage q words).mem p.kernPgdir = p.mem p.kernPgdir := by
  have hkq : p.kernPgdir ≠ q := fun he => hq.not_kern (he ▸ h.kern_mem)
  simp [hkq]

theorem Plain.total_setPage (h : Tables K dirs p) (hq : Plain K dirs p q) (x : Nat) :
    (p.setPage q words).total dirs x = p.total dirs x := by
  have hmap : ∀ d ∈ dirs, ∀ v < userPages,
      mappedPage (p.setPage q words).mem d v = mappedPage p.mem d v := by
    intro d hd v hv
    unfold mappedPage
    rw [hq.pteOf_setPage h hd hv]
  have hown : ownEntries (p.setPage q words).mem p.kernPgdir = ownEntries p.mem p.kernPgdir :=
    ownEntries_congr fun i _ => by rw [hq.kern_setPage h]
  unfold Phys.total total
  rw [mapCount_congr hmap, setPage_kernPgdir,
    tableCount_congr hown fun d hd i _ => hq.tableOf_setPage hd i]

/-- What a write to the entry for `v` in the table `t` of `d` does to the entry for `v'` in
`d'`. -/
theorem pteOf_setWord (ht : tableOf p.mem d (v / 1024) = some t) (hne : d' ≠ t) (hdt : d ≠ t)
    (hinj : tableOf p.mem d' (v' / 1024) = some t → d' = d ∧ v' / 1024 = v / 1024) :
    pteOf (p.setWord t (v % 1024) w).mem d' v' =
      if d' = d ∧ v' = v then (if present w then some w else none) else pteOf p.mem d' v' := by
  by_cases hc : d' = d ∧ v' = v
  · obtain ⟨rfl, rfl⟩ := hc
    unfold pteOf
    rw [tableOf_congr (by rw [setWord_mem_of_ne _ _ _ hdt]), ht]
    simp [setWord_mem_apply]
  · rw [if_neg hc]
    refine pteOf_congr (tableOf_congr (by rw [setWord_mem_of_ne _ _ _ hne])) fun t' ht' => ?_
    rw [setWord_mem_apply, if_neg]
    rintro ⟨rfl, hmod⟩
    obtain ⟨rfl, hdiv⟩ := hinj ht'
    exact hc ⟨rfl, by omega⟩

/-- Writing the entry for the user page `v` of `d` changes this entry and no other. -/
theorem Tables.pteOf_setWord (h : Tables K dirs p) (ht : TableAt dirs p d (v / 1024) t)
    (hd' : d' ∈ dirs) (hv' : v' < userPages) :
    pteOf (p.setWord t (v % 1024) w).mem d' v' =
      if d' = d ∧ v' = v then (if present w then some w else none) else pteOf p.mem d' v' := by
  have hne : ∀ x ∈ dirs, x ≠ t := fun x hx he => h.table_not_dir ht (he ▸ hx)
  exact Jos.pteOf_setWord ht.2.2 (hne d' hd') (hne d ht.1) fun ht' =>
    h.table_inj ht (h.tableAt_of_user hd' hv' ht')

theorem UserTables.pteOf_setWord (h : UserTables dirs p) (ht : UserTableAt dirs p d (v / 1024) t)
    (hd' : d' ∈ dirs) (hv' : v' < userPages) :
    pteOf (p.setWord t (v % 1024) w).mem d' v' =
      if d' = d ∧ v' = v then (if present w then some w else none) else pteOf p.mem d' v' := by
  have hne : ∀ x ∈ dirs, x ≠ t := fun x hx he => h.table_not_dir ht (he ▸ hx)
  exact Jos.pteOf_setWord ht.2.2 (hne d' hd') (hne d ht.1) fun ht' =>
    h.table_inj ht ⟨hd', div_lt_userTables hv', ht'⟩

theorem Tables.setPte (h : Tables K dirs p) (ht : TableAt dirs p d (v / 1024) t)
    (hw : present w → pageOf w < p.npages) : Tables K dirs (p.setWord t (v % 1024) w) := by
  have hne : ∀ x ∈ dirs, x ≠ t := fun x hx he => h.table_not_dir ht (he ▸ hx)
  have hkt : p.kernPgdir ≠ t := fun he => h.table_not_kern ht (he ▸ h.kern_mem)
  have hrow : ∀ i < 1024, (p.setWord t (v % 1024) w).mem p.kernPgdir i = p.mem p.kernPgdir i := by
    intro i _
    rw [setWord_mem_of_ne _ _ _ hkt]
  refine h.rewrite (d := 0) (i := 0) (t := 0) rfl rfl hrow ?_ ?_
  · intro d' i' t' ht'
    refine Or.inl (ht'.of_tableOf_eq (tableOf_congr ?_) rfl hrow)
    rw [setWord_mem_of_ne _ _ _ (hne d' ht'.1)]
  · rintro d' v' w' ⟨hd', hv', hm⟩
    rw [h.pteOf_setWord ht hd' hv'] at hm
    by_cases hc : d' = d ∧ v' = v
    · rw [if_pos hc] at hm
      by_cases hp : present w
      · rw [if_pos hp] at hm
        cases hm
        exact hw hp
      · rw [if_neg hp] at hm
        cases hm
    · rw [if_neg hc] at hm
      exact h.mapped_lt ⟨hd', hv', hm⟩

theorem Tables.total_setPte (h : Tables K dirs p) (ht : TableAt dirs p d (v / 1024) t)
    (hv : v < userPages) (q : Nat) :
    (p.setWord t (v % 1024) w).total dirs q + (if mappedPage p.mem d v = some q then 1 else 0) =
      p.total dirs q + (if present w ∧ pageOf w = q then 1 else 0) := by
  have hne : ∀ x ∈ dirs, x ≠ t := fun x hx he => h.table_not_dir ht (he ▸ hx)
  have hkt : p.kernPgdir ≠ t := fun he => h.table_not_kern ht (he ▸ h.kern_mem)
  have hself : mappedPage (p.setWord t (v % 1024) w).mem d v = some q ↔
      present w ∧ pageOf w = q := by
    unfold mappedPage
    rw [h.pteOf_setWord ht ht.1 hv, if_pos ⟨rfl, rfl⟩]
    by_cases hp : present w <;> simp [hp]
  have hother : ∀ d' ∈ dirs, ∀ v' < userPages, ¬(d' = d ∧ v' = v) →
      mappedPage (p.setWord t (v % 1024) w).mem d' v' = mappedPage p.mem d' v' := by
    intro d' hd' v' hv' hc
    unfold mappedPage
    rw [h.pteOf_setWord ht hd' hv', if_neg hc]
  have hmap := mapCount_rewrite (q := q) ht.1 hv hother
  have htab : tableCount (p.setWord t (v % 1024) w).mem p.kernPgdir dirs q =
      tableCount p.mem p.kernPgdir dirs q := by
    refine tableCount_congr (ownEntries_congr fun i _ => ?_) fun d' hd' i _ => tableOf_congr ?_
    · rw [setWord_mem_of_ne _ _ _ hkt]
    · rw [setWord_mem_of_ne _ _ _ (hne d' hd')]
  simp only [hself] at hmap
  unfold Phys.total total
  rw [setWord_kernPgdir, htab]
  omega

/-- An empty entry is filled with a mapping whose reference the counter already has. -/
theorem Accounts.writePte (h : Accounts K (bump extra q) dirs p)
    (ht : TableAt dirs p d (v / 1024) t) (hv : v < userPages) (hnone : mappedPage p.mem d v = none)
    (hw : present w) (hq : pageOf w = q) (hlt : q < p.npages) (hpos : ∀ x ∈ K, 0 < extra x) :
    Accounts K extra dirs (p.setWord t (v % 1024) w) := by
  refine h.transfer (h.toTables.setPte ht fun _ => hq ▸ hlt) rfl rfl rfl hpos ?_
  intro x
  have htot := h.toTables.total_setPte (w := w) ht hv x
  rw [hnone, hw, hq] at htot
  simp only [reduceCtorEq, if_false, true_and] at htot
  unfold bump
  simp only [eq_comm (a := q)] at htot
  omega

theorem tableOf_setWord (p : Phys) (d i d' i' : Nat) (w : Word) :
    tableOf (p.setWord d i w).mem d' i' =
      if d' = d ∧ i' = i then (if present w then some (pageOf w) else none)
      else tableOf p.mem d' i' := by
  unfold tableOf
  rw [setWord_mem_apply]
  by_cases hc : d' = d ∧ i' = i
  · rw [if_pos hc, if_pos hc]
  · rw [if_neg hc, if_neg hc]

/-- Exchanging empty tables changes no mapping. -/
theorem pteOf_setPde (hold : ∀ t, tableOf p.mem d i = some t → ∀ j < 1024,
      present (p.mem t j) = false)
    (hnew : present w → pageOf w ≠ d ∧ ∀ j < 1024, present (p.mem (pageOf w) j) = false)
    (hdir : ∀ t, tableOf p.mem d' (v' / 1024) = some t → t ≠ d) :
    pteOf (p.setWord d i w).mem d' v' = pteOf p.mem d' v' := by
  by_cases hc : d' = d ∧ v' / 1024 = i
  · obtain ⟨rfl, rfl⟩ := hc
    have hj : v' % 1024 < 1024 := Nat.mod_lt _ (by decide)
    have hbefore : pteOf p.mem d' v' = none := by
      unfold pteOf
      cases hti : tableOf p.mem d' (v' / 1024) with
      | none => rfl
      | some t => simp [hold t hti _ hj]
    rw [hbefore]
    unfold pteOf
    rw [tableOf_setWord, if_pos ⟨rfl, rfl⟩]
    by_cases hp : present w
    · obtain ⟨hne, hz⟩ := hnew hp
      rw [if_pos hp, Option.bind_some, setWord_mem_of_ne _ _ _ hne, if_neg]
      simp [hz _ hj]
    · rw [if_neg hp, Option.bind_none]
  · apply pteOf_congr
    · rw [tableOf_setWord, if_neg hc]
    · intro t ht
      rw [setWord_mem_of_ne _ _ _ (hdir t ht)]

theorem Tables.pteOf_setPde (h : Tables K dirs p) (hd : d ∈ dirs)
    (hold : ∀ t, tableOf p.mem d i = some t → ∀ j < 1024, present (p.mem t j) = false)
    (hnew : present w → pageOf w ≠ d ∧ ∀ j < 1024, present (p.mem (pageOf w) j) = false)
    (hd' : d' ∈ dirs) (hv' : v' < userPages) :
    pteOf (p.setWord d i w).mem d' v' = pteOf p.mem d' v' :=
  Jos.pteOf_setPde hold hnew fun _ ht he =>
    h.table_not_dir (h.tableAt_of_user hd' hv' ht) (he ▸ hd)

theorem Tables.setPde (h : Tables K dirs p) (hd : d ∈ dirs)
    (hpte : ∀ d' ∈ dirs, ∀ v' < userPages, pteOf (p.setWord d i w).mem d' v' = pteOf p.mem d' v')
    (hnew : present w → pageOf w < p.npages ∧ Plain K dirs p (pageOf w)) :
    Tables K dirs (p.setWord d i w) := by
  have hrow : ∀ i' < 1024, (p.setWord d i w).mem p.kernPgdir i' = p.mem p.kernPgdir i' := by
    intro i' _
    rw [setWord_mem_of_ne _ _ _ (h.kern_ne hd)]
  refine h.rewrite (d := d) (i := i) (t := pageOf w) rfl rfl hrow ?_ ?_
  · intro d' i' t' ht
    by_cases hc : d' = d ∧ i' = i
    · have heq := ht.2.2
      rw [tableOf_setWord, if_pos hc] at heq
      by_cases hp : present w
      · rw [if_pos hp] at heq
        exact Or.inr ⟨hc.1, hc.2, (Option.some.inj heq).symm, hnew hp⟩
      · rw [if_neg hp] at heq
        cases heq
    · refine Or.inl (ht.of_tableOf_eq ?_ rfl hrow)
      rw [tableOf_setWord, if_neg hc]
  · intro d' v' w' hm
    exact h.mapped_lt ⟨hm.1, hm.2.1, hpte d' hm.1 v' hm.2.1 ▸ hm.2.2⟩

theorem Tables.total_setPde (h : Tables K dirs p) (hd : d ∈ dirs)
    (hi : i ∈ ownEntries p.mem p.kernPgdir)
    (hpte : ∀ d' ∈ dirs, ∀ v' < userPages, pteOf (p.setWord d i w).mem d' v' = pteOf p.mem d' v')
    (q : Nat) :
    (p.setWord d i w).total dirs q + (if tableOf p.mem d i = some q then 1 else 0) =
      p.total dirs q + (if present w ∧ pageOf w = q then 1 else 0) := by
  have hself : tableOf (p.setWord d i w).mem d i = some q ↔ present w ∧ pageOf w = q := by
    rw [tableOf_setWord, if_pos ⟨rfl, rfl⟩]
    by_cases hp : present w <;> simp [hp]
  have hmap : mapCount (p.setWord d i w).mem dirs q = mapCount p.mem dirs q := by
    apply mapCount_congr
    intro d' hd' v' hv'
    unfold mappedPage
    rw [hpte d' hd' v' hv']
  have hrow : ∀ i' < 1024, (p.setWord d i w).mem p.kernPgdir i' = p.mem p.kernPgdir i' := by
    intro i' _
    rw [setWord_mem_of_ne _ _ _ (h.kern_ne hd)]
  have hother : ∀ d' ∈ dirs, ∀ i' ∈ ownEntries p.mem p.kernPgdir, ¬(d' = d ∧ i' = i) →
      tableOf (p.setWord d i w).mem d' i' = tableOf p.mem d' i' := by
    intro d' _ i' _ hc
    rw [tableOf_setWord, if_neg hc]
  have htab := tableCount_rewrite (q := q) hd hi (ownEntries_congr hrow) hother
  simp only [hself] at htab
  unfold Phys.total total
  rw [setWord_kernPgdir, hmap]
  omega

theorem Accounts.newTable (h : Accounts K (bump extra t) dirs p) (hd : d ∈ dirs)
    (hi : i ∈ ownEntries p.mem p.kernPgdir) (hnone : tableOf p.mem d i = none)
    (hplain : Plain K dirs p t) (hlt : t < p.npages)
    (hzero : ∀ j < 1024, present (p.mem t j) = false) (hw : present w) (hpage : pageOf w = t)
    (hpos : ∀ x ∈ K, 0 < extra x) :
    Accounts K extra dirs (p.setWord d i w) := by
  have hpte : ∀ d' ∈ dirs, ∀ v' < userPages,
      pteOf (p.setWord d i w).mem d' v' = pteOf p.mem d' v' := by
    intro d' hd' v' hv'
    refine h.toTables.pteOf_setPde hd ?_ (fun _ => ⟨?_, hpage ▸ hzero⟩) hd' hv'
    · intro t' ht'
      rw [hnone] at ht'
      cases ht'
    · rw [hpage]
      rintro rfl
      exact hplain.not_dir hd
  refine h.transfer (h.toTables.setPde hd hpte fun _ => hpage ▸ ⟨hlt, hplain⟩) rfl rfl rfl hpos ?_
  intro x
  have htot := h.toTables.total_setPde hd hi hpte x
  rw [hnone, hw, hpage] at htot
  simp only [reduceCtorEq, if_false, true_and] at htot
  unfold bump
  simp only [eq_comm (a := t)] at htot
  omega

/-- The references that one more directory without tables of its own brings. -/
theorem Phys.total_insert (hd : d ∉ dirs)
    (hempty : ∀ i ∈ ownEntries p.mem p.kernPgdir, tableOf p.mem d i = none)
    (huser : ∀ i < userTables, i ∈ ownEntries p.mem p.kernPgdir) (q : Nat) :
    p.total (insert d dirs) q = p.total dirs q + if q = d then 1 else 0 := by
  have hsub : ∀ S : Finset Nat, dirs ×ˢ S ⊆ insert d dirs ×ˢ S := fun S =>
    product_subset_product_left (subset_insert d dirs)
  have hmap : mapCount p.mem (insert d dirs) q = mapCount p.mem dirs q := by
    refine refs_subset (hsub _) ?_
    rintro ⟨d', v⟩ hx hn
    rw [mem_product, mem_insert, mem_range] at hx
    rw [mem_product, mem_range] at hn
    rcases hx with ⟨rfl | hd', hv⟩
    · have hnone := hempty _ (huser _ (div_lt_userTables hv))
      exact mappedPage_eq_none.mpr (pteOf_eq_none_of_table hnone)
    · exact absurd ⟨hd', hv⟩ hn
  have htab : tableCount p.mem p.kernPgdir (insert d dirs) q =
      tableCount p.mem p.kernPgdir dirs q := by
    refine refs_subset (hsub _) ?_
    rintro ⟨d', i⟩ hx hn
    rw [mem_product, mem_insert] at hx
    rw [mem_product] at hn
    rcases hx with ⟨rfl | hd', hi⟩
    · exact hempty i hi
    · exact absurd ⟨hd', hi⟩ hn
  unfold Phys.total Jos.total
  rw [hmap, htab]
  by_cases hq : q = d
  · subst hq
    simp [hd]
  · simp [hq]

/-- A page that is set up as a directory without tables of its own becomes one. -/
theorem Accounts.newDir (h : Accounts K (bump extra d) dirs p) (hplain : Plain K dirs p d)
    (hlt : d < p.npages)
    (hempty : ∀ i ∈ ownEntries p.mem p.kernPgdir, tableOf p.mem d i = none)
    (hpos : ∀ x ∈ K, 0 < extra x) : Accounts K extra (insert d dirs) p := by
  have hold : ∀ {d' i t}, TableAt (insert d dirs) p d' i t → TableAt dirs p d' i t := by
    rintro d' i t ⟨hd', hi, ht⟩
    rcases mem_insert.mp hd' with rfl | hd'
    · rw [hempty i hi] at ht
      cases ht
    · exact ⟨hd', hi, ht⟩
  have htables : Tables K (insert d dirs) p :=
    { kern_mem := h.kern_mem
      kern_user := h.kern_user
      dir_not_kern := by
        intro x hx
        rcases mem_insert.mp hx with rfl | hx
        · exact hplain.not_kern
        · exact h.dir_not_kern x hx
      dir_lt := by
        intro x hx
        rcases mem_insert.mp hx with rfl | hx
        · exact hlt
        · exact h.dir_lt x hx
      table_lt := fun ht => h.table_lt (hold ht)
      table_not_dir := by
        intro d' i t ht hm
        rcases mem_insert.mp hm with rfl | hm
        · exact hplain.not_table _ _ (hold ht)
        · exact h.table_not_dir (hold ht) hm
      table_not_kern := fun ht => h.table_not_kern (hold ht)
      table_inj := fun ht ht' => h.table_inj (hold ht) (hold ht')
      mapped_lt := by
        rintro d' v w ⟨hd', hv, hw⟩
        rcases mem_insert.mp hd' with rfl | hd'
        · have hnone := hempty _ (h.toTables.own_of_user (div_lt_userTables hv))
          rw [pteOf_eq_none_of_table hnone] at hw
          cases hw
        · exact h.mapped_lt ⟨hd', hv, hw⟩ }
  refine h.transfer htables rfl rfl rfl hpos fun x => ?_
  rw [total_insert hplain.not_dir hempty (fun i hi => h.toTables.own_of_user hi) x]
  unfold bump
  omega

theorem Tables.clearPde (h : Tables K dirs p) (ht : TableAt dirs p d i t)
    (hzero : ∀ j < 1024, present (p.mem t j) = false) :
    (∀ d' ∈ dirs, ∀ v' < userPages, pteOf (p.setWord d i 0).mem d' v' = pteOf p.mem d' v') ∧
      ∀ x, (p.setWord d i 0).total dirs x + (if t = x then 1 else 0) = p.total dirs x := by
  have hpte : ∀ d' ∈ dirs, ∀ v' < userPages,
      pteOf (p.setWord d i 0).mem d' v' = pteOf p.mem d' v' := by
    intro d' hd' v' hv'
    refine h.pteOf_setPde ht.1 ?_ (fun hp => absurd hp not_present_zero) hd' hv'
    intro t' ht'
    rw [ht.2.2] at ht'
    cases ht'
    exact hzero
  refine ⟨hpte, fun x => ?_⟩
  have htot := h.total_setPde ht.1 ht.2.1 hpte x
  have hno : ¬(present 0 ∧ pageOf 0 = x) := fun hp => not_present_zero hp.1
  rw [ht.2.2, if_neg hno] at htot
  simpa only [Option.some.injEq, add_zero] using htot

section

variable (h : Accounts K extra dirs p)

include h

theorem Accounts.setPage (hq : Plain K dirs p q) : Accounts K extra dirs (p.setPage q words) := by
  have hrow : ∀ i < 1024, (p.setPage q words).mem p.kernPgdir i = p.mem p.kernPgdir i :=
    fun i _ => by rw [hq.kern_setPage h.toTables]
  refine h.transfer (h.toTables.rewrite (d := 0) (i := 0) (t := 0) rfl rfl hrow ?_ ?_) rfl rfl rfl
    h.extra_pos ?_
  · intro d' i' t' ht
    exact Or.inl (ht.of_tableOf_eq (hq.tableOf_setPage ht.1 i') rfl hrow)
  · rintro d' v' w ⟨hd', hv', hm⟩
    rw [hq.pteOf_setPage h.toTables hd' hv'] at hm
    exact h.mapped_lt ⟨hd', hv', hm⟩
  · intro x
    rw [hq.total_setPage h.toTables]

theorem Accounts.clearPte (ht : TableAt dirs p d (v / 1024) t)
    (hv : v < userPages) (hq : mappedPage p.mem d v = some q) (hw : present w = false) :
    Accounts K (bump extra q) dirs (p.setWord t (v % 1024) w) := by
  refine h.transfer (h.toTables.setPte ht ?_) rfl rfl rfl (bump_pos h.extra_pos) ?_
  · intro hp
    rw [hw] at hp
    cases hp
  · intro x
    have htot := h.toTables.total_setPte (w := w) ht hv x
    rw [hq, hw] at htot
    simp only [Option.some.injEq, Bool.false_eq_true, false_and, if_false] at htot
    unfold bump
    simp only [eq_comm (a := q)] at htot
    omega

theorem Accounts.dropTable (ht : TableAt dirs p d i t)
    (hzero : ∀ j < 1024, present (p.mem t j) = false) :
    Accounts K (bump extra t) dirs (p.setWord d i 0) := by
  obtain ⟨hpte, htotal⟩ := h.toTables.clearPde ht hzero
  refine h.transfer (h.toTables.setPde ht.1 hpte fun hp => absurd hp not_present_zero) rfl rfl rfl
    (bump_pos h.extra_pos) fun x => ?_
  have htot := htotal x
  unfold bump
  simp only [eq_comm (a := t)] at htot
  omega

theorem Accounts.dropDir (hd : d ∈ dirs)
    (hempty : ∀ i ∈ ownEntries p.mem p.kernPgdir, tableOf p.mem d i = none) :
    Accounts K (bump extra d) (dirs.erase d) p := by
  have hnew : ∀ {d' i t}, TableAt (dirs.erase d) p d' i t → TableAt dirs p d' i t :=
    fun ht => ⟨mem_of_mem_erase ht.1, ht.2⟩
  have htables : Tables K (dirs.erase d) p :=
    { kern_mem := h.kern_mem
      kern_user := h.kern_user
      dir_not_kern := fun x hx => h.dir_not_kern x (mem_of_mem_erase hx)
      dir_lt := fun x hx => h.dir_lt x (mem_of_mem_erase hx)
      table_lt := fun ht => h.table_lt (hnew ht)
      table_not_dir := fun ht hm => h.table_not_dir (hnew ht) (mem_of_mem_erase hm)
      table_not_kern := fun ht => h.table_not_kern (hnew ht)
      table_inj := fun ht ht' => h.table_inj (hnew ht) (hnew ht')
      mapped_lt := fun hm => h.mapped_lt ⟨mem_of_mem_erase hm.1, hm.2⟩ }
  refine h.transfer htables rfl rfl rfl (bump_pos h.extra_pos) fun x => ?_
  have htot := total_insert (notMem_erase d dirs) hempty
    (fun i hi => h.toTables.own_of_user hi) x
  rw [insert_erase hd] at htot
  rw [htot]
  unfold bump
  omega

end

end Rewrite

end Jos
