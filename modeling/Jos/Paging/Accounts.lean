import Jos.Logic.Chain
import Jos.Paging.View

/-!
# The page accounts

`Tables` says that a page table belongs to one entry of one directory. `Accounts` adds the free list
and the counters, modulo `2^16` as the code keeps them. References that no table shows (those of
boot, and one that is counted and not yet written) are counted by `extra`.
-/

namespace Jos

open Logic Finset

/-- Entry `i` of the directory `d` is its own and uses `t` as a page table. -/
def TableAt (dirs : Finset Nat) (p : Phys) (d i t : Nat) : Prop :=
  d ∈ dirs ∧ i ∈ ownEntries p.mem p.kernPgdir ∧ tableOf p.mem d i = some t

/-- The directory `d` has the present entry `w` for the user page `v`. -/
def MapsAt (dirs : Finset Nat) (p : Phys) (d v : Nat) (w : Word) : Prop :=
  d ∈ dirs ∧ v < userPages ∧ pteOf p.mem d v = some w

/-- The tables of `dirs` do not overlap each other, the directories or the kernel's pages
`K`. -/
structure Tables (K : Set Nat) (dirs : Finset Nat) (p : Phys) : Prop where
  kern_mem : p.kernPgdir ∈ K
  kern_user : ∀ i < userTables, tableOf p.mem p.kernPgdir i = none
  dir_not_kern : ∀ d ∈ dirs, d ∉ K
  dir_lt : ∀ d ∈ dirs, d < p.npages
  table_lt : ∀ {d i t}, TableAt dirs p d i t → t < p.npages
  table_not_dir : ∀ {d i t}, TableAt dirs p d i t → t ∉ dirs
  table_not_kern : ∀ {d i t}, TableAt dirs p d i t → t ∉ K
  table_inj : ∀ {d i d' i' t}, TableAt dirs p d i t → TableAt dirs p d' i' t → d' = d ∧ i' = i
  mapped_lt : ∀ {d v w}, MapsAt dirs p d v w → pageOf w < p.npages

/-- Entry `i` of the user half of the directory `d` uses `t` as a page table. -/
def UserTableAt (dirs : Finset Nat) (p : Phys) (d i t : Nat) : Prop :=
  d ∈ dirs ∧ i < userTables ∧ tableOf p.mem d i = some t

/-- The user halves of `dirs` are two-level tables: their page tables do not overlap each
other or the directories. -/
structure UserTables (dirs : Finset Nat) (p : Phys) : Prop where
  table_lt : ∀ {d i t}, UserTableAt dirs p d i t → t < p.npages
  table_not_dir : ∀ {d i t}, UserTableAt dirs p d i t → t ∉ dirs
  table_inj : ∀ {d i d' i' t}, UserTableAt dirs p d i t → UserTableAt dirs p d' i' t →
    d' = d ∧ i' = i
  mapped_lt : ∀ {d v w}, MapsAt dirs p d v w → pageOf w < p.npages

namespace Phys

/-- All references to `q` from the tables of `dirs`. -/
def total (p : Phys) (dirs : Finset Nat) (q : Nat) : Nat :=
  Jos.total p.mem p.kernPgdir dirs q

def Free (p : Phys) (q : Nat) : Prop :=
  OnChain (fun x => (p.pages x).ppLink) p.pageFreeList q

end Phys

structure Accounts (K : Set Nat) (extra : Nat → Nat) (dirs : Finset Nat) (p : Phys) : Prop
    extends Tables K dirs p where
  extra_pos : ∀ q ∈ K, 0 < extra q
  free : ∃ l, Chain (fun x => (p.pages x).ppLink) p.pageFreeList l ∧ l.Nodup ∧
    ∀ q ∈ l, q < p.npages ∧ p.total dirs q + extra q = 0
  refs : ∀ q < p.npages, (p.pages q).ppRef = BitVec.ofNat 16 (p.total dirs q + extra q)

/-- One reference to `q` more. -/
def bump (extra : Nat → Nat) (q : Nat) : Nat → Nat := fun x => extra x + if x = q then 1 else 0

variable {K : Set Nat} {extra extra' : Nat → Nat} {dirs dirs' : Finset Nat} {p p' : Phys}
  {d i v q t : Nat} {w : Word}

theorem Tables.own_of_user (h : Tables K dirs p) (hi : i < userTables) :
    i ∈ ownEntries p.mem p.kernPgdir := by
  unfold userTables at hi
  refine mem_ownEntries.mpr ⟨by omega, ?_, h.kern_user i hi⟩
  unfold uvptIndex
  omega

theorem Tables.user (h : Tables K dirs p) : UserTables dirs p := by
  have hat : ∀ {d i t}, UserTableAt dirs p d i t → TableAt dirs p d i t := fun ht =>
    ⟨ht.1, h.own_of_user ht.2.1, ht.2.2⟩
  exact ⟨fun ht => h.table_lt (hat ht), fun ht => h.table_not_dir (hat ht),
    fun ht ht' => h.table_inj (hat ht) (hat ht'), h.mapped_lt⟩

theorem Tables.tableAt_of_user (h : Tables K dirs p) (hd : d ∈ dirs) (hv : v < userPages)
    (ht : tableOf p.mem d (v / 1024) = some t) : TableAt dirs p d (v / 1024) t :=
  ⟨hd, h.own_of_user (div_lt_userTables hv), ht⟩

theorem MapsAt.mappedPage_eq (h : MapsAt dirs p d v w) : mappedPage p.mem d v = some (pageOf w) :=
  mappedPage_eq_some.mpr ⟨w, h.2.2, rfl⟩

theorem Phys.total_pos_of_table (h : TableAt dirs p d i t) : 0 < p.total dirs t := by
  refine Nat.pos_of_ne_zero fun hz => ?_
  exact (total_eq_zero_iff.mp hz).2.2 d h.1 i h.2.1 h.2.2

theorem Phys.total_pos_of_dir (h : d ∈ dirs) : 0 < p.total dirs d := by
  refine Nat.pos_of_ne_zero fun hz => ?_
  exact (total_eq_zero_iff.mp hz).1 h

theorem Phys.total_pos_of_map (h : MapsAt dirs p d v w) : 0 < p.total dirs (pageOf w) := by
  refine Nat.pos_of_ne_zero fun hz => ?_
  exact (total_eq_zero_iff.mp hz).2.1 d h.1 v h.2.1 h.mappedPage_eq

theorem Accounts.not_free (h : Accounts K extra dirs p) (hq : 0 < p.total dirs q + extra q) :
    ¬p.Free q := by
  intro hfree
  obtain ⟨l, hl, _, hz⟩ := h.free
  have := (hz q (hfree.mem hl)).2
  omega

theorem Accounts.of_free (h : Accounts K extra dirs p) (hq : p.Free q) :
    q < p.npages ∧ p.total dirs q + extra q = 0 := by
  obtain ⟨l, hl, _, hz⟩ := h.free
  exact hz q (hq.mem hl)

/-- A page without references is no kernel page, no directory and no page table. -/
structure Plain (K : Set Nat) (dirs : Finset Nat) (p : Phys) (q : Nat) : Prop where
  not_kern : q ∉ K
  not_dir : q ∉ dirs
  not_table : ∀ d i, ¬TableAt dirs p d i q

theorem Plain.congr (h : Plain K dirs p q) (hm : p'.mem = p.mem)
    (hk : p'.kernPgdir = p.kernPgdir) : Plain K dirs p' q := by
  refine ⟨h.not_kern, h.not_dir, fun d i ht => h.not_table d i ?_⟩
  unfold TableAt at ht
  rwa [hm, hk] at ht

theorem Accounts.plain (h : Accounts K extra dirs p) (hq : p.total dirs q + extra q = 0) :
    Plain K dirs p q where
  not_kern hK := by
    have := h.extra_pos q hK
    omega
  not_dir hd := by
    have := Phys.total_pos_of_dir (p := p) hd
    omega
  not_table d i ht := by
    have := Phys.total_pos_of_table ht
    omega

/-- A change of memory under which every page keeps the sum of its references. -/
theorem Accounts.transfer (h : Accounts K extra dirs p) (ht : Tables K dirs' p')
    (hpages : p'.pages = p.pages) (hhead : p'.pageFreeList = p.pageFreeList)
    (hn : p'.npages = p.npages) (hpos : ∀ q ∈ K, 0 < extra' q)
    (hsum : ∀ q, p'.total dirs' q + extra' q = p.total dirs q + extra q) :
    Accounts K extra' dirs' p' where
  toTables := ht
  extra_pos := hpos
  free := by
    obtain ⟨l, hl, hnd, hz⟩ := h.free
    refine ⟨l, ?_, hnd, ?_⟩
    · rw [hpages, hhead]
      exact hl
    · intro q hq
      rw [hn, hsum q]
      exact hz q hq
  refs := by
    intro q hq
    rw [hn] at hq
    rw [hpages, hsum q]
    exact h.refs q hq

section

variable (h : Tables K dirs p)

include h

theorem Tables.congr (hm : p'.mem = p.mem) (hn : p'.npages = p.npages)
    (hk : p'.kernPgdir = p.kernPgdir) : Tables K dirs p' := by
  cases p
  cases p'
  cases hm
  cases hn
  cases hk
  exact ⟨h.kern_mem, h.kern_user, h.dir_not_kern, h.dir_lt, h.table_lt, h.table_not_dir,
    h.table_not_kern, h.table_inj, h.mapped_lt⟩

theorem Tables.tableCount_eq_one (ht : TableAt dirs p d i t) :
    tableCount p.mem p.kernPgdir dirs t = 1 := by
  refine refs_eq_one (i := (d, i)) (mem_product.mpr ⟨ht.1, ht.2.1⟩) ht.2.2 ?_
  rintro ⟨d', i'⟩ hx ht'
  rw [mem_product] at hx
  obtain ⟨rfl, rfl⟩ := h.table_inj ht ⟨hx.1, hx.2, ht'⟩
  rfl

/-- Every mapping occupies a slot of a page table, and the tables are different pages. -/
theorem Tables.mapCount_le (q : Nat) : mapCount p.mem dirs q ≤ p.npages * 1024 := by
  let slot : Nat × Nat → Nat × Nat := fun x =>
    ((tableOf p.mem x.1 (x.2 / 1024)).getD 0, x.2 % 1024)
  have hslot : ∀ x ∈ dirs ×ˢ range userPages, mappedPage p.mem x.1 x.2 = some q →
      ∃ t, TableAt dirs p x.1 (x.2 / 1024) t ∧ slot x = (t, x.2 % 1024) := by
    rintro ⟨d, v⟩ hx hm
    rw [mem_product, mem_range] at hx
    obtain ⟨w, hw, _⟩ := mappedPage_eq_some.mp hm
    obtain ⟨t, ht, _, _⟩ := pteOf_eq_some.mp hw
    refine ⟨t, h.tableAt_of_user hx.1 hx.2 ht, ?_⟩
    simp [slot, ht]
  have hcard : #(range p.npages ×ˢ range 1024) = p.npages * 1024 := by simp
  unfold mapCount refs
  rw [← hcard]
  refine card_le_card_of_injOn slot ?_ ?_
  · intro x hx
    rw [mem_coe, mem_filter] at hx
    obtain ⟨t, ht, he⟩ := hslot x hx.1 hx.2
    rw [he, mem_coe, mem_product, mem_range, mem_range]
    exact ⟨h.table_lt ht, Nat.mod_lt _ (by decide)⟩
  · intro x hx y hy he
    rw [mem_coe, mem_filter] at hx hy
    obtain ⟨t, ht, hxt⟩ := hslot x hx.1 hx.2
    obtain ⟨u, hu, hyu⟩ := hslot y hy.1 hy.2
    rw [hxt, hyu, Prod.mk.injEq] at he
    obtain ⟨rfl, hmod⟩ := he
    obtain ⟨hd, hdiv⟩ := h.table_inj hu ht
    exact Prod.ext hd (by omega)

theorem Tables.tableCount_le (q : Nat) : tableCount p.mem p.kernPgdir dirs q ≤ 1 := by
  by_contra hgt
  have hpos : 0 < tableCount p.mem p.kernPgdir dirs q := by omega
  obtain ⟨⟨d, i⟩, hx, ht⟩ := refs_pos_iff.mp hpos
  rw [mem_product] at hx
  have := h.tableCount_eq_one ⟨hx.1, hx.2, ht⟩
  omega

theorem Tables.total_le (q : Nat) : p.total dirs q ≤ p.npages * 1024 + 2 := by
  have hmap := h.mapCount_le q
  have htab := h.tableCount_le q
  unfold Phys.total Jos.total
  split <;> omega

end

end Jos
