import Jos.Kern.Pmap
import Jos.Logic.Refs
import Jos.Paging.Entries

/-!
# What the page tables say

Which page table a directory entry refers to, which entry a directory has for a user page, and which
page that maps. A directory owns the tables of the entries that are neither the window onto itself
nor copied from `kern_pgdir`.
-/

namespace Jos

open Logic Finset

abbrev Mem := Nat → Nat → Word

/-- The page table that entry `i` of the directory `d` refers to. -/
def tableOf (mem : Mem) (d i : Nat) : Option Nat :=
  if present (mem d i) then some (pageOf (mem d i)) else none

/-- The present entry of the directory `d` for the page number `v`. -/
def pteOf (mem : Mem) (d v : Nat) : Option Word :=
  (tableOf mem d (v / 1024)).bind fun t =>
    if present (mem t (v % 1024)) then some (mem t (v % 1024)) else none

/-- The page that the directory `d` maps at the page number `v`. -/
def mappedPage (mem : Mem) (d v : Nat) : Option Nat := (pteOf mem d v).map pageOf

/-- The index of the directory entry through which a directory maps itself. -/
def uvptIndex : Nat := 957

/-- The entries of a directory that are its own and not shared with `kern_pgdir`. -/
def ownEntries (mem : Mem) (kern : Nat) : Finset Nat :=
  {i ∈ range 1024 | i ≠ uvptIndex ∧ tableOf mem kern i = none}

/-- The number of present entries of the user half that map `q`. -/
def mapCount (mem : Mem) (dirs : Finset Nat) (q : Nat) : Nat :=
  refs (dirs ×ˢ range userPages) (fun x => mappedPage mem x.1 x.2) q

/-- The number of directory entries that use `q` as a page table. -/
def tableCount (mem : Mem) (kern : Nat) (dirs : Finset Nat) (q : Nat) : Nat :=
  refs (dirs ×ˢ ownEntries mem kern) (fun x => tableOf mem x.1 x.2) q

/-- All references to the page `q` from the directories in `dirs`. -/
def total (mem : Mem) (kern : Nat) (dirs : Finset Nat) (q : Nat) : Nat :=
  mapCount mem dirs q + tableCount mem kern dirs q + if q ∈ dirs then 1 else 0

variable {mem mem' : Mem} {kern d i v q t : Nat} {dirs : Finset Nat} {w : Word}

theorem tableOf_eq_some : tableOf mem d i = some t ↔ present (mem d i) ∧ pageOf (mem d i) = t := by
  unfold tableOf
  split <;> simp [*]

theorem tableOf_eq_none : tableOf mem d i = none ↔ present (mem d i) = false := by
  unfold tableOf
  split <;> simp [*]

theorem pteOf_eq_some : pteOf mem d v = some w ↔
    ∃ t, tableOf mem d (v / 1024) = some t ∧ mem t (v % 1024) = w ∧ present w := by
  unfold pteOf
  cases tableOf mem d (v / 1024) with
  | none => simp
  | some t =>
    by_cases hp : present (mem t (v % 1024))
    · simp only [Option.bind_some, hp, if_true, Option.some.injEq, exists_eq_left']
      constructor
      · rintro rfl
        exact ⟨rfl, hp⟩
      · exact And.left
    · simp only [Option.bind_some, hp, Option.some.injEq, exists_eq_left']
      constructor
      · intro h
        cases h
      · rintro ⟨rfl, hw⟩
        exact absurd hw hp

theorem mappedPage_eq_some : mappedPage mem d v = some q ↔
    ∃ w, pteOf mem d v = some w ∧ pageOf w = q := by
  simp [mappedPage]

theorem mappedPage_eq_none : mappedPage mem d v = none ↔ pteOf mem d v = none := by
  simp [mappedPage]

theorem pteOf_eq_none_of_table (h : tableOf mem d (v / 1024) = none) : pteOf mem d v = none := by
  simp [pteOf, h]

theorem mem_ownEntries : i ∈ ownEntries mem kern ↔
    i < 1024 ∧ i ≠ uvptIndex ∧ tableOf mem kern i = none := by
  simp [ownEntries]

theorem tableOf_congr (h : mem' d i = mem d i) : tableOf mem' d i = tableOf mem d i := by
  simp [tableOf, h]

theorem pteOf_congr (hd : tableOf mem' d (v / 1024) = tableOf mem d (v / 1024))
    (ht : ∀ t, tableOf mem d (v / 1024) = some t → mem' t (v % 1024) = mem t (v % 1024)) :
    pteOf mem' d v = pteOf mem d v := by
  unfold pteOf
  rw [hd]
  cases hc : tableOf mem d (v / 1024) with
  | none => rfl
  | some t => simp [ht t hc]

theorem ownEntries_congr (h : ∀ i < 1024, mem' kern i = mem kern i) :
    ownEntries mem' kern = ownEntries mem kern := by
  ext i
  rw [mem_ownEntries, mem_ownEntries]
  constructor
  · rintro ⟨hi, hu, ht⟩
    exact ⟨hi, hu, by rwa [tableOf_congr (h i hi)] at ht⟩
  · rintro ⟨hi, hu, ht⟩
    exact ⟨hi, hu, by rwa [tableOf_congr (h i hi)]⟩

theorem mapCount_congr (h : ∀ d ∈ dirs, ∀ v < userPages, mappedPage mem' d v = mappedPage mem d v) :
    mapCount mem' dirs q = mapCount mem dirs q := by
  apply refs_congr
  rintro ⟨d, v⟩ hx
  rw [mem_product, mem_range] at hx
  exact h d hx.1 v hx.2

theorem tableCount_congr (ho : ownEntries mem' kern = ownEntries mem kern)
    (h : ∀ d ∈ dirs, ∀ i ∈ ownEntries mem kern, tableOf mem' d i = tableOf mem d i) :
    tableCount mem' kern dirs q = tableCount mem kern dirs q := by
  unfold tableCount
  rw [ho]
  apply refs_congr
  rintro ⟨d, i⟩ hx
  rw [mem_product] at hx
  exact h d hx.1 i hx.2

theorem mapCount_rewrite (hd : d ∈ dirs) (hv : v < userPages)
    (h : ∀ d' ∈ dirs, ∀ v' < userPages, ¬(d' = d ∧ v' = v) →
      mappedPage mem' d' v' = mappedPage mem d' v') :
    mapCount mem' dirs q + (if mappedPage mem d v = some q then 1 else 0) =
      mapCount mem dirs q + (if mappedPage mem' d v = some q then 1 else 0) := by
  have hx : (d, v) ∈ dirs ×ˢ range userPages := mem_product.mpr ⟨hd, mem_range.mpr hv⟩
  have hrest : ∀ x ∈ dirs ×ˢ range userPages, x ≠ (d, v) →
      mappedPage mem' x.1 x.2 = mappedPage mem x.1 x.2 := by
    rintro ⟨d', v'⟩ hx hne
    rw [mem_product, mem_range] at hx
    exact h d' hx.1 v' hx.2 fun ⟨hd', hv'⟩ => hne (Prod.ext hd' hv')
  have hcount := refs_rewrite (q := q) hx hrest
  exact hcount

theorem tableCount_rewrite (hd : d ∈ dirs) (hi : i ∈ ownEntries mem kern)
    (ho : ownEntries mem' kern = ownEntries mem kern)
    (h : ∀ d' ∈ dirs, ∀ i' ∈ ownEntries mem kern, ¬(d' = d ∧ i' = i) →
      tableOf mem' d' i' = tableOf mem d' i') :
    tableCount mem' kern dirs q + (if tableOf mem d i = some q then 1 else 0) =
      tableCount mem kern dirs q + (if tableOf mem' d i = some q then 1 else 0) := by
  unfold tableCount
  rw [ho]
  have hx : (d, i) ∈ dirs ×ˢ ownEntries mem kern := mem_product.mpr ⟨hd, hi⟩
  have hrest : ∀ x ∈ dirs ×ˢ ownEntries mem kern, x ≠ (d, i) →
      tableOf mem' x.1 x.2 = tableOf mem x.1 x.2 := by
    rintro ⟨d', i'⟩ hx hne
    rw [mem_product] at hx
    exact h d' hx.1 i' hx.2 fun ⟨hd', hi'⟩ => hne (Prod.ext hd' hi')
  have hcount := refs_rewrite (q := q) hx hrest
  exact hcount

theorem total_eq_zero_iff : total mem kern dirs q = 0 ↔
    q ∉ dirs ∧ (∀ d ∈ dirs, ∀ v < userPages, mappedPage mem d v ≠ some q) ∧
      ∀ d ∈ dirs, ∀ i ∈ ownEntries mem kern, tableOf mem d i ≠ some q := by
  have hmap : mapCount mem dirs q = 0 ↔
      ∀ d ∈ dirs, ∀ v < userPages, mappedPage mem d v ≠ some q := by
    unfold mapCount
    rw [refs_eq_zero_iff]
    simp only [mem_product, mem_range, Prod.forall]
    exact ⟨fun h d hd v hv => h d v ⟨hd, hv⟩, fun h d v hx => h d hx.1 v hx.2⟩
  have htable : tableCount mem kern dirs q = 0 ↔
      ∀ d ∈ dirs, ∀ i ∈ ownEntries mem kern, tableOf mem d i ≠ some q := by
    unfold tableCount
    rw [refs_eq_zero_iff]
    simp only [mem_product, Prod.forall]
    exact ⟨fun h d hd i hi => h d i ⟨hd, hi⟩, fun h d i hx => h d hx.1 i hx.2⟩
  unfold total
  rw [← hmap, ← htable]
  by_cases hq : q ∈ dirs
  · simp [hq]
  · simp [hq]

end Jos
