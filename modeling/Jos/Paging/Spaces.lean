import Jos.Paging.Directories

/-!
# Intact address spaces

A page that is mapped below `UTOP` must not be a table, a directory or a page of the kernel, and the
upper half of every directory must be that of `kern_pgdir`. Every operation that the system calls
use keeps `Intact`.
-/

namespace Jos

open Logic Finset

variable {K : Set Nat} {extra : Nat → Nat} {dirs : Finset Nat} {p p' : Phys}
  {d i v q t : Nat} {w : Word} {O : Nat → Prop} {T : Nat → Nat → Prop}

/-- From `UTOP` on, the directory `d` is `kern_pgdir` with a window onto itself. -/
def UpperHalf (p : Phys) (d : Nat) : Prop :=
  ∀ i, userTables ≤ i → i < 1024 →
    p.mem d i = if i = uvptIndex then selfEntry d else p.mem p.kernPgdir i

theorem UpperHalf.frame (h : UpperHalf p d) (hf : Frame K dirs O T p p') (hk : p.kernPgdir ∈ K)
    (hd : d ∈ dirs) (hO : ∀ i, O i → i < userTables) : UpperHalf p' d := by
  intro i hi hlt
  have hrow : p'.mem d i = p.mem d i := hf.rows d hd i fun ho => absurd (hO i ho) (by omega)
  rw [hrow, hf.kernPgdir, hf.kern _ hk]
  exact h i hi hlt

/-- The directory has no tables of its own above `UTOP`. -/
theorem UpperHalf.absent (h : UpperHalf p d) (hi : userTables ≤ i)
    (hown : i ∈ ownEntries p.mem p.kernPgdir) : tableOf p.mem d i = none := by
  obtain ⟨hlt, hu, hk⟩ := mem_ownEntries.mp hown
  rw [← hk]
  unfold tableOf
  rw [h i hi hlt, if_neg hu]

structure Intact (K : Set Nat) (extra : Nat → Nat) (dirs : Finset Nat) (p : Phys) : Prop
    extends Accounts K extra dirs p where
  extra_le : ∀ q, extra q ≤ 1
  upper : ∀ d ∈ dirs, UpperHalf p d
  plain : ∀ {d v w}, MapsAt dirs p d v w → Plain K dirs p (pageOf w)

/-- No page is mapped `2^16` times. -/
def FewMappings (dirs : Finset Nat) (p : Phys) : Prop := ∀ q, mapCount p.mem dirs q < 65536

theorem Plain.total_eq (h : Plain K dirs p q) : p.total dirs q = mapCount p.mem dirs q := by
  have htab : tableCount p.mem p.kernPgdir dirs q = 0 := by
    by_contra hne
    obtain ⟨⟨d, i⟩, hx, ht⟩ := refs_pos_iff.mp (Nat.pos_of_ne_zero hne)
    rw [mem_product] at hx
    exact h.not_table d i ⟨hx.1, hx.2, ht⟩
  unfold Phys.total total
  rw [htab, if_neg h.not_dir]
  rfl

theorem mapCount_mono {dirs' : Finset Nat}
    (h : ∀ d v w, MapsAt dirs' p' d v w → MapsAt dirs p d v w) (q : Nat) :
    mapCount p'.mem dirs' q ≤ mapCount p.mem dirs q := by
  apply refs_mono
  rintro ⟨d, v⟩ hx hm
  rw [mem_product, mem_range] at hx
  obtain ⟨w, hw, hq⟩ := mappedPage_eq_some.mp hm
  obtain ⟨hd, hv, hw'⟩ := h d v w ⟨hx.1, hx.2, hw⟩
  exact ⟨mem_product.mpr ⟨hd, mem_range.mpr hv⟩, mappedPage_eq_some.mpr ⟨w, hw', hq⟩⟩

theorem Accounts.lt_of_head (h : Accounts K extra dirs p) (hq : p.pageFreeList = some q) :
    q < 1048576 := by
  have := h.head_lt hq
  have := p.npages_le
  omega

section

variable (h : Intact K extra dirs p)

include h

theorem Intact.total_add_le (hb : FewMappings dirs p) (q : Nat) :
    p.total dirs q + extra q ≤ 65536 := by
  have hextra := h.extra_le q
  have hfew := hb q
  by_cases hmap : mapCount p.mem dirs q = 0
  · have htab := h.toTables.tableCount_le q
    unfold Phys.total total
    split <;> omega
  · obtain ⟨⟨d, v⟩, hx, hm⟩ := refs_pos_iff.mp (Nat.pos_of_ne_zero hmap)
    rw [mem_product, mem_range] at hx
    obtain ⟨w, hw, rfl⟩ := mappedPage_eq_some.mp hm
    rw [(h.plain ⟨hx.1, hx.2, hw⟩).total_eq]
    omega

theorem Intact.not_free_of_mapped (hm : MapsAt dirs p d v w) : ¬p.Free (pageOf w) := by
  apply h.not_free
  have := Phys.total_pos_of_map hm
  omega

/-- An operation keeps the address spaces intact if the only new tables come from the free
list and the only new mappings are those of pages that are plain and not free. -/
theorem Intact.of_frame (hacc : Accounts K extra dirs p')
    (hf : Frame K dirs O T p p') (hO : ∀ i, O i → i < userTables)
    (htab : ∀ {d i t}, TableAt dirs p' d i t → TableAt dirs p d i t ∨ p.pageFreeList = some t)
    (hnew : ∀ {d v w}, T d v → MapsAt dirs p' d v w →
      Plain K dirs p (pageOf w) ∧ ¬p.Free (pageOf w)) : Intact K extra dirs p' where
  toAccounts := hacc
  extra_le := h.extra_le
  upper d hd := (h.upper d hd).frame hf h.kern_mem hd hO
  plain := by
    intro d v w hm
    obtain ⟨hplain, hfree⟩ : Plain K dirs p (pageOf w) ∧ ¬p.Free (pageOf w) := by
      by_cases hT : T d v
      · exact hnew hT hm
      · have hold := hf.mapsAt hT hm
        exact ⟨h.plain hold, h.not_free_of_mapped hold⟩
    refine ⟨hplain.not_kern, hplain.not_dir, fun d' i ht => ?_⟩
    rcases htab ht with ht | hhead
    · exact hplain.not_table d' i ht
    · exact hfree (h.free_of_head hhead)

theorem Intact.of_same (hacc : Accounts K extra dirs p')
    (hf : Frame K dirs (fun _ => False) (fun _ _ => False) p p') : Intact K extra dirs p' :=
  h.of_frame hacc hf (fun _ hi => hi.elim) (fun ht => Or.inl (hf.tableAt h.kern_mem id ht))
    fun hT => hT.elim

theorem Intact.take (hq : p.pageFreeList = some q) (flags : Word) :
    Intact K extra dirs (p.take flags q) := by
  obtain ⟨hacc, _, hf⟩ := h.toAccounts.take (O := fun _ => False) (T := fun _ _ => False) hq flags
  exact h.of_same hacc hf

theorem Intact.push (hlt : q < p.npages)
    (hzero : p.total dirs q + extra q = 0) (hfree : ¬p.Free q) : Intact K extra dirs (p.push q) :=
  h.of_same (h.toAccounts.push hlt hzero hfree) (.of_mem_eq rfl rfl rfl)

/-- User code may change the contents of a page that is mapped. -/
theorem Intact.store (hm : MapsAt dirs p d v w)
    (words : Nat → Word) : Intact K extra dirs (p.setPage (pageOf w) words) :=
  h.of_same (h.toAccounts.setPage (h.plain hm)) ((h.plain hm).frame_setPage h.toTables)

theorem Intact.insert {pp : Nat} {perm : Word}
    (hplain : Plain K dirs p pp) (hfree : ¬p.Free pp) (hpp : pp < p.npages)
    (hperm : perm.toNat < 4096)
    (hins : Inserted K extra dirs p d v (pteWord pp perm) p') : Intact K extra dirs p' := by
  refine h.of_frame hins.accounts hins.frame (fun _ hi => hi) hins.tables ?_
  rintro d' v' w ⟨rfl, rfl⟩ hm
  obtain rfl : w = pteWord pp perm := Option.some.inj (hm.2.2.symm.trans hins.entry)
  have hlt : pp < 1048576 := by
    have := p.npages_le
    omega
  rw [(pteWord_spec hlt hperm).2]
  exact ⟨hplain, hfree⟩

theorem Intact.unmap (hun : Unmapped K extra dirs p d v p') : Intact K extra dirs p' := by
  refine h.of_frame hun.accounts hun.frame (fun _ hi => hi.elim)
    (fun ht => Or.inl (hun.frame.tableAt h.kern_mem id ht)) ?_
  rintro d' v' w ⟨rfl, rfl⟩ hm
  have := hm.2.2
  rw [hun.gone] at this
  cases this

theorem Intact.withDir (hq : p.pageFreeList = some q) :
    Intact K extra (Insert.insert q dirs) (p.withDir q) := by
  obtain ⟨hacc, _, hf⟩ := h.toAccounts.withDir (O := fun _ => False) (T := fun _ _ => False) hq
  have hrow := h.toAccounts.withDir_row hq
  have hempty : ∀ i ∈ ownEntries p.mem p.kernPgdir, tableOf (p.withDir q).mem q i = none := by
    intro i hi
    obtain ⟨_, hu, hk⟩ := mem_ownEntries.mp hi
    rw [← hk]
    unfold tableOf
    rw [hrow, if_neg hu]
  refine ⟨hacc, h.extra_le, ?_, ?_⟩
  · intro d hd
    rcases mem_insert.mp hd with rfl | hd
    · intro i _ _
      rw [hrow, hf.kernPgdir, hf.kern _ h.kern_mem]
    · exact (h.upper d hd).frame hf h.kern_mem hd fun _ hi => hi.elim
  · intro d v w hm
    have hold := h.toAccounts.mapsAt_withDir hq hm
    have hplain := h.plain hold
    have hne : pageOf w ≠ q := fun he => h.not_free_of_mapped hold (he ▸ h.free_of_head hq)
    refine ⟨hplain.not_kern, ?_, ?_⟩
    · rw [mem_insert, not_or]
      exact ⟨hne, hplain.not_dir⟩
    · intro d' i ht
      have hown := hf.ownEntries_eq h.kern_mem ▸ ht.2.1
      rcases mem_insert.mp ht.1 with rfl | hd'
      · have := ht.2.2
        rw [hempty i hown] at this
        cases this
      · exact hplain.not_table d' i (hf.tableAt h.kern_mem id ⟨hd', ht.2⟩)

theorem Intact.dropDir (hem : Emptying K extra dirs d p p')
    (hacc : Accounts K extra (dirs.erase d) (p'.decref d)) :
    Intact K extra (dirs.erase d) (p'.decref d) := by
  have hsub : dirs.erase d ⊆ dirs := erase_subset d dirs
  have hf : Frame K dirs (· < userTables) (fun d' _ => d' = d) p (p'.decref d) :=
    hem.frame.trans (.of_decref _ _)
  refine ⟨hacc, h.extra_le, ?_, ?_⟩
  · intro x hx
    exact (h.upper x (hsub hx)).frame hf h.kern_mem (hsub hx) fun _ hi => hi
  · intro x v w hm
    have hx := mem_erase.mp hm.1
    have hold : MapsAt dirs p x v w := hf.mapsAt hx.1 ⟨hx.2, hm.2⟩
    have hplain := h.plain hold
    refine ⟨hplain.not_kern, fun hc => hplain.not_dir (hsub hc), fun d' i ht => ?_⟩
    have ht' : TableAt dirs (p'.decref d) d' i (pageOf w) := ⟨hsub ht.1, ht.2⟩
    refine hplain.not_table d' i (hem.tables (ht'.of_tableOf_eq ?_ ?_ fun j _ => ?_))
    · rw [Phys.decref_mem]
    · exact p'.decref_kernPgdir d
    · rw [Phys.decref_mem]

end

/-- All of `env_free` that concerns physical memory. -/
def freeSpace (pgdir : Nat) : PhysM Unit := do
  Code.times (utop / ptsize) (envFreePde pgdir)
  pageDecref (← pa2page pgdir)

/-- What is left when the address space of `d` has been taken down. -/
structure SpaceFreed (K : Set Nat) (extra : Nat → Nat) (dirs : Finset Nat) (d : Nat)
    (p p' : Phys) : Prop where
  intact : Intact K extra (dirs.erase d) p'
  frame : Frame K dirs (· < userTables) (fun d' _ => d' = d) p p'
  mem : ∀ x, x ≠ d → (∀ i < userTables, tableOf p.mem d i ≠ some x) → p'.mem x = p.mem x
  frees : Frees extra dirs (dirs.erase d) p p'

theorem freeSpace_spec (h : Intact K extra dirs p) (hb : FewMappings dirs p) (hd : d ∈ dirs) :
    ∃ p', freeSpace d p = .ret () p' ∧ SpaceFreed K extra dirs d p p' := by
  obtain ⟨p1, hloop, hem, hempty⟩ := envFreePde_loop h.toAccounts hd
    (fun i hown hi => (h.upper d hd).absent hi hown) (h.total_add_le hb)
  have hlt : d < p1.npages := hem.accounts.dir_lt d hd
  have hbound := (Nat.add_le_add_right (hem.total_le d) _).trans (h.total_add_le hb d)
  obtain ⟨hacc, hfrees, hle⟩ := hem.accounts.freeDir hd hempty hbound
  refine ⟨p1.decref d, bind_run hloop (bind_run (pa2page_eq hlt) (pageDecref_eq d p1)),
    h.dropDir hem.toEmptying hacc, hem.frame.trans (.of_decref _ _), fun x hx htab => ?_,
    hem.frees.trans hfrees hem.total_le hle⟩
  rw [Phys.decref_mem, hem.mem x hx htab]

theorem freeSpace_inv (h : Intact K extra dirs p) (hb : FewMappings dirs p) (hd : d ∈ dirs)
    (hrun : freeSpace d p = .ret () p') : SpaceFreed K extra dirs d p p' := by
  obtain ⟨p1, hall, hfreed⟩ := freeSpace_spec h hb hd
  rw [hall] at hrun
  cases hrun
  exact hfreed

end Jos
