import Jos.Paging.Directories

/-!
# How many free pages an insertion takes

`page_alloc` takes one free page, and `page_insert` one more when there is no table for the address.
So the pages of `S` can be mapped if there are `demand p d S` free pages: one for each of them, and
one for each missing table.
-/

namespace Jos

open Finset Phys

variable {K : Set Nat} {extra : Nat → Nat} {dirs S : Finset Nat} {p p' : Phys}
  {d m n q pp v x : Nat} {va flags : Word}

/-- At least `n` pages are free. -/
def Stocked (p : Phys) (n : Nat) : Prop := ∃ S : Finset Nat, n ≤ S.card ∧ ∀ q ∈ S, p.Free q

theorem Stocked.one (h : Accounts K extra dirs p) (hq : p.pageFreeList = some q) :
    Stocked p 1 := by
  refine ⟨{q}, le_rfl, fun x hx => ?_⟩
  rw [mem_singleton.mp hx]
  exact h.free_of_head hq

theorem Stocked.weaken (h : Stocked p n) (hmn : m ≤ n) : Stocked p m := by
  obtain ⟨S, hcard, hfree⟩ := h
  exact ⟨S, hmn.trans hcard, hfree⟩

theorem Stocked.mono (h : Stocked p n) (hfree : ∀ x, p.Free x → p'.Free x) : Stocked p' n := by
  obtain ⟨S, hcard, hS⟩ := h
  exact ⟨S, hcard, fun q hq => hfree q (hS q hq)⟩

theorem Stocked.drop (h : Stocked p (n + 1)) (hfree : ∀ x, p.Free x → x ≠ q → p'.Free x) :
    Stocked p' n := by
  obtain ⟨S, hcard, hS⟩ := h
  refine ⟨S.erase q, ?_, fun x hx => ?_⟩
  · have := S.pred_card_le_card_erase (a := q)
    omega
  · obtain ⟨hne, hmem⟩ := mem_erase.mp hx
    exact hfree x (hS x hmem) hne

theorem Stocked.head (h : Stocked p (n + 1)) : ∃ q, p.pageFreeList = some q := by
  obtain ⟨S, hcard, hS⟩ := h
  obtain ⟨x, hx⟩ := card_pos.mp (Nat.lt_of_lt_of_le n.succ_pos hcard)
  obtain ⟨l, hl, hm⟩ := hS x hx
  cases l with
  | nil => exact absurd hm List.not_mem_nil
  | cons a l => exact ⟨a, hl.1⟩

theorem Phys.free_pop (hq : p.pageFreeList = some q) (hx : p.Free x) (hne : x ≠ q) :
    (p.pop q).Free x := by
  obtain ⟨l, hl, hm⟩ := hx
  cases l with
  | nil => exact absurd hm List.not_mem_nil
  | cons a l =>
    obtain ⟨ha, hl⟩ := hl
    obtain rfl : q = a := Option.some.inj (hq.symm.trans ha)
    exact ⟨l, hl, (List.mem_cons.mp hm).resolve_left hne⟩

theorem Phys.free_take (hq : p.pageFreeList = some q) (hx : p.Free x) (hne : x ≠ q) :
    (p.take flags q).Free x := by
  have hpop := free_pop hq hx hne
  unfold Phys.take
  rw [free_setRef_iff]
  split
  · exact hpop
  · exact hpop

theorem Phys.claim_of_not_free (h : Accounts K extra dirs p) (hfree : ¬p.Free pp) :
    p.claim pp = p :=
  if_neg fun hhead => hfree (h.free_of_head hhead)

def missingTables (p : Phys) (d : Nat) (S : Finset Nat) : Finset Nat :=
  (S.image (· / 1024)).filter fun i => tableOf p.mem d i = none

/-- The free pages that it takes to map the pages of `S` in `d`. -/
def demand (p : Phys) (d : Nat) (S : Finset Nat) : Nat := S.card + (missingTables p d S).card

theorem mem_missingTables {i : Nat} :
    i ∈ missingTables p d S ↔ (∃ v ∈ S, v / 1024 = i) ∧ tableOf p.mem d i = none := by
  unfold missingTables
  rw [mem_filter, mem_image]

theorem missingTables_congr (h : ∀ i, tableOf p'.mem d i = tableOf p.mem d i) :
    missingTables p' d S = missingTables p d S := by
  ext i
  rw [mem_missingTables, mem_missingTables, h i]

/-- With the table of `v` there, only tables of other pages are missing. -/
theorem missingTables_subset (hother : ∀ i, i ≠ v / 1024 → tableOf p'.mem d i = tableOf p.mem d i)
    (hthere : tableOf p'.mem d (v / 1024) ≠ none) :
    missingTables p' d S ⊆ (missingTables p d (insert v S)).erase (v / 1024) := by
  intro i hi
  obtain ⟨⟨u, hu, rfl⟩, hnone⟩ := mem_missingTables.mp hi
  have hne : u / 1024 ≠ v / 1024 := fun he => hthere (he ▸ hnone)
  have hold : tableOf p.mem d (u / 1024) = none := by rw [← hother _ hne, hnone]
  exact mem_erase.mpr
    ⟨hne, mem_missingTables.mpr ⟨⟨u, mem_insert_of_mem hu, rfl⟩, hold⟩⟩

/-- A page that is in use, but not mapped, is mapped when there are free pages enough; then
there are free pages enough for the other pages. -/
theorem Accounts.insert_stocked (perm : Word) (h : Accounts K extra dirs p) (hd : d ∈ dirs)
    (hva : va.toNat < utop) (hpp : Fresh extra dirs p pp)
    (hb : ∀ q, mappedPage p.mem d (pgnum va) = some q → p.total dirs q + extra q ≤ 65536)
    (hs : Stocked p (S.card + (missingTables p d (insert (pgnum va) S)).card)) :
    ∃ p', pageInsert (some d) pp va perm p = .ret 0 p' ∧ Stocked p' (demand p' d S) := by
  have hv := (lt_utop_iff va).mp hva
  rcases pageInsert_cases h.toTables.user (fun _ => h.head_lt) hd hva pp perm with
    ⟨t, ht, hrun⟩ | ⟨ht, hhead, -⟩ | ⟨q, ht, hhead, hrun⟩
  · have hun := h.unmap hd hv hb
    have hfrees := h.unmap_frees hd hv hb
    have hfree : ¬(p.unmap d (pgnum va)).Free pp := fun hc => by
      rcases (hfrees pp).mp hc with hc | ⟨hpos, -⟩
      · exact hpp.not_free hc
      · exact absurd hpp.unused hpos.ne'
    rw [claim_of_not_free hun.accounts hfree] at hrun
    have hdt : d ≠ t := fun he =>
      h.table_not_dir (h.toTables.tableAt_of_user hd hv ht) (he ▸ hd)
    have htables : ∀ i, tableOf ((p.unmap d (pgnum va)).mapAt t (pgnum va % 1024) pp perm).mem d i =
        tableOf p.mem d i := by
      intro i
      rw [← hun.tables d hd i]
      refine tableOf_congr ?_
      unfold Phys.mapAt
      rw [increfed_mem, setWord_mem_of_ne _ _ _ hdt]
    refine ⟨_, hrun, (hs.mono fun x hx => ?_).weaken ?_⟩
    · exact free_setRef_iff.mpr ((hfrees x).mpr (Or.inl hx))
    · unfold demand
      rw [missingTables_congr htables]
      exact Nat.add_le_add_left (card_le_card fun i hi => by
        obtain ⟨⟨u, hu, he⟩, hnone⟩ := mem_missingTables.mp hi
        exact mem_missingTables.mpr ⟨⟨u, mem_insert_of_mem hu, he⟩, hnone⟩) _
  all_goals
    have hmem : pgnum va / 1024 ∈ missingTables p d (insert (pgnum va) S) :=
      mem_missingTables.mpr ⟨⟨pgnum va, mem_insert_self _ _, rfl⟩, ht⟩
    have hpos := card_pos.mpr ⟨_, hmem⟩
  · obtain ⟨q, hq⟩ := (hs.weaken (m := 0 + 1) (by omega)).head
    rw [hhead] at hq
    cases hq
  · have hadd := h.withTable hd (h.toTables.own_of_user (div_lt_userTables hv)) ht hhead
    have hdq : d ≠ q := fun he => (h.head_plain hhead).not_dir (he ▸ hd)
    have htables : ∀ i, tableOf ((p.withTable d (pgnum va / 1024) q).mapAt q (pgnum va % 1024) pp
        perm).mem d i = tableOf (p.withTable d (pgnum va / 1024) q).mem d i := by
      intro i
      refine tableOf_congr ?_
      unfold Phys.mapAt
      rw [increfed_mem, setWord_mem_of_ne _ _ _ hdq]
    refine ⟨_, hrun, (hs.weaken ?_).drop (q := q) fun x hx hne => ?_⟩
    · have hsub := missingTables_subset (S := S) (p := p)
        (fun i hne => (htables i).trans (hadd.other d hd i fun hc => hne hc.2))
        (by rw [htables, hadd.table.2.2]; exact Option.some_ne_none q)
      have hle := card_le_card hsub
      rw [card_erase_of_mem hmem] at hle
      unfold demand
      omega
    · exact free_setRef_iff.mpr (free_setRef_iff.mpr (free_take hhead hx hne))

end Jos
