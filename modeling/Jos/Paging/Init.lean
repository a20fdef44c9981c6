import Jos.Paging.Operations

/-!
# The accounts after `page_init`

`page_init` marks the pages that boot has taken and chains all others. The marked pages
have one reference that no table shows.
-/

namespace Jos

open Logic Phys

/-- The pages that `page_init` marks as in use. -/
def MemLayout.InUse (L : MemLayout) (q : Nat) : Prop :=
  q = 0 ∨ q = mpPage ∨ L.npagesBasemem ≤ q ∧ q < L.firstFree

instance (L : MemLayout) : DecidablePred L.InUse := fun q =>
  inferInstanceAs (Decidable (q = 0 ∨ q = mpPage ∨ L.npagesBasemem ≤ q ∧ q < L.firstFree))

/-- The reference that `page_init` gives to the pages in use. -/
def MemLayout.marked (L : MemLayout) (q : Nat) : Nat := if L.InUse q then 1 else 0

/-- The state in which `mem_init` calls `page_init`: the free list is empty, and
`kern_pgdir` has been cleared except for the window onto itself. -/
structure BeforePageInit (L : MemLayout) (p : Phys) : Prop where
  npages : p.npages = L.npages
  pageFreeList : p.pageFreeList = none
  kern_reserved : L.npagesBasemem ≤ p.kernPgdir ∧ p.kernPgdir < L.firstFree
  kern_empty : ∀ i < npdentries, i ≠ uvptIndex → p.mem p.kernPgdir i = 0

/-- The pages below `n` have been initialised. -/
structure Initialised (L : MemLayout) (p0 : Phys) (n : Nat) (p : Phys) : Prop where
  mem : p.mem = p0.mem
  npages : p.npages = p0.npages
  kernPgdir : p.kernPgdir = p0.kernPgdir
  free : ∃ l, Chain (fun x => (p.pages x).ppLink) p.pageFreeList l ∧ l.Nodup ∧
    ∀ q ∈ l, q < n ∧ ¬L.InUse q
  refs : ∀ q < n, (p.pages q).ppRef = BitVec.ofNat 16 (L.marked q)

variable {L : MemLayout} {p0 p : Phys} {n : Nat}

theorem Initialised.setLink (h : Initialised L p0 (n + 1) p) (hn : L.InUse n)
    (link : Option Nat) : Initialised L p0 (n + 1) (p.setLink n link) where
  mem := h.mem
  npages := h.npages
  kernPgdir := h.kernPgdir
  free := by
    obtain ⟨l, hl, hnd, hz⟩ := h.free
    refine ⟨l, hl.congr fun x hx => ?_, hnd, hz⟩
    rw [setLink_ppLink, if_neg]
    rintro rfl
    exact (hz x hx).2 hn
  refs q hq := by
    rw [setLink_ppRef]
    exact h.refs q hq

section

variable (h : Initialised L p0 n p)

include h

theorem Initialised.setRef (hn : L.InUse n) : Initialised L p0 (n + 1) (p.setRef n 1) where
  mem := h.mem
  npages := h.npages
  kernPgdir := h.kernPgdir
  free := by
    obtain ⟨l, hl, hnd, hz⟩ := h.free
    refine ⟨l, hl.congr fun x _ => setRef_ppLink p n 1 x, hnd, fun q hq => ?_⟩
    exact ⟨by have := (hz q hq).1; omega, (hz q hq).2⟩
  refs q hq := by
    rw [setRef_ppRef]
    by_cases hqn : q = n
    · rw [if_pos hqn, hqn, MemLayout.marked, if_pos hn]
      rfl
    · rw [if_neg hqn]
      exact h.refs q (by omega)

theorem pageInitUsed_run (hn : L.InUse n) :
    ∃ p', pageInitUsed n p = .ret () p' ∧ Initialised L p0 (n + 1) p' :=
  ⟨_, rfl, (h.setRef hn).setLink hn none⟩

theorem pageInitFree_run (hn : L.InUse n ↔ n = mpPage) :
    ∃ p', pageInitFree n p = .ret () p' ∧ Initialised L p0 (n + 1) p' := by
  unfold pageInitFree
  by_cases hmp : n = mpPage
  · rw [if_pos hmp]
    exact ⟨_, rfl, h.setRef (hn.mpr hmp)⟩
  · rw [if_neg hmp]
    have hfree : ¬L.InUse n := fun hu => hmp (hn.mp hu)
    refine ⟨(p.setRef n 0).push n, rfl, h.mem, h.npages, h.kernPgdir, ?_, ?_⟩
    · obtain ⟨l, hl, hnd, hz⟩ := h.free
      have hnl : n ∉ l := fun hm => absurd (hz n hm).1 (by omega)
      refine ⟨n :: l, ?_, List.nodup_cons.mpr ⟨hnl, hnd⟩, ?_⟩
      · refine hl.push ?_ ?_
        · rw [push_ppLink, if_pos rfl, setRef_pageFreeList]
        · intro x hx
          rw [push_ppLink, if_neg, setRef_ppLink]
          rintro rfl
          exact hnl hx
      · intro q hq
        rcases List.mem_cons.mp hq with rfl | hq
        · exact ⟨by omega, hfree⟩
        · exact ⟨by have := (hz q hq).1; omega, (hz q hq).2⟩
    · intro q hq
      rw [push_ppRef, setRef_ppRef]
      by_cases hqn : q = n
      · rw [if_pos hqn, hqn, MemLayout.marked, if_neg hfree]
        rfl
      · rw [if_neg hqn]
        exact h.refs q (by omega)

end

theorem loopFrom_run {i b : Nat} {f : Nat → PhysM Unit} (h : Initialised L p0 i p)
    (hbody : ∀ n, i ≤ n → n < b → ∀ s, Initialised L p0 n s →
      ∃ s', f n s = .ret () s' ∧ Initialised L p0 (n + 1) s') :
    ∃ p', loopFrom i b f p = .ret (max i b) p' ∧ Initialised L p0 (max i b) p' := by
  have hloop : ∃ p', Code.times (b - i) (fun n => f (i + n)) p = .ret () p' ∧
      Initialised L p0 (i + (b - i)) p' :=
    times_run (fun n s => Initialised L p0 (i + n) s) h fun n hn s hs =>
      hbody (i + n) (by omega) (by omega) s hs
  obtain ⟨p', hrun, hp'⟩ := hloop
  have hmax : i + (b - i) = max i b := by omega
  rw [hmax] at hp'
  exact ⟨p', bind_run hrun rfl, hp'⟩

theorem pageInit_run (h : BeforePageInit L p) :
    ∃ p', pageInit L p = .ret () p' ∧ Initialised L p (max 1 L.npages) p' := by
  have h0 : Initialised L p 0 p := by
    refine ⟨rfl, rfl, rfl, ⟨[], h.pageFreeList, List.nodup_nil, ?_⟩, ?_⟩
    · intro q hq
      cases hq
    · intro q hq
      omega
  have hfree : ∀ n, 1 ≤ n → (n < L.npagesBasemem ∨ L.firstFree ≤ n) → (L.InUse n ↔ n = mpPage) := by
    intro n h1 h2
    unfold MemLayout.InUse
    omega
  obtain ⟨p1, hrun1, h1⟩ := loopFrom_run (b := 1) (f := pageInitUsed) h0 fun n _ hn s hs =>
    pageInitUsed_run hs (.inl (by omega))
  obtain ⟨p2, hrun2, h2⟩ := loopFrom_run (b := L.npagesBasemem) (f := pageInitFree) h1
    fun n hi hn s hs => pageInitFree_run hs (hfree n (by omega) (.inl hn))
  obtain ⟨p3, hrun3, h3⟩ := loopFrom_run (b := L.firstFree) (f := pageInitUsed) h2
    fun n hi hn s hs => pageInitUsed_run hs (.inr (.inr ⟨by omega, hn⟩))
  obtain ⟨p4, hrun4, h4⟩ := loopFrom_run (b := L.npages) (f := pageInitFree) h3
    fun n hi hn s hs => pageInitFree_run hs (hfree n (by omega) (.inr (by omega)))
  refine ⟨p4, ?_, ?_⟩
  · exact bind_run hrun1 (bind_run hrun2 (bind_run hrun3 (bind_run hrun4 rfl)))
  · have hb := L.basemem_le
    have hf := L.firstFree_le
    have hmax : max (max (max (max 0 1) L.npagesBasemem) L.firstFree) L.npages =
        max 1 L.npages := by omega
    rwa [hmax] at h4

theorem Phys.total_empty (p : Phys) (q : Nat) : p.total ∅ q = 0 := by
  refine total_eq_zero_iff.mpr ⟨by simp, ?_, ?_⟩
  · intro d hd
    simp at hd
  · intro d hd
    simp at hd

theorem Initialised.accounts (h : Initialised L p0 (max 1 L.npages) p) (h0 : BeforePageInit L p0) :
    Accounts {p.kernPgdir} L.marked ∅ p where
  kern_mem := rfl
  kern_user i hi := by
    have hz : p.mem p.kernPgdir i = 0 := by
      rw [h.mem, h.kernPgdir]
      unfold userTables at hi
      refine h0.kern_empty i ?_ ?_
      · unfold npdentries
        omega
      · unfold uvptIndex
        omega
    rw [tableOf_eq_none, hz]
    exact present_zero
  dir_not_kern d hd := by simp at hd
  dir_lt d hd := by simp at hd
  table_lt ht := by simp [TableAt] at ht
  table_not_dir ht := by simp [TableAt] at ht
  table_not_kern ht := by simp [TableAt] at ht
  table_inj ht := by simp [TableAt] at ht
  mapped_lt hm := by simp [MapsAt] at hm
  extra_pos q hq := by
    have hu : L.InUse q := by
      rw [Set.mem_singleton_iff.mp hq, h.kernPgdir]
      exact .inr (.inr h0.kern_reserved)
    rw [MemLayout.marked, if_pos hu]
    exact Nat.one_pos
  free := by
    obtain ⟨l, hl, hnd, hz⟩ := h.free
    refine ⟨l, hl, hnd, fun q hq => ?_⟩
    obtain ⟨hlt, hu⟩ := hz q hq
    have hq0 : q ≠ 0 := fun he => hu (.inl he)
    constructor
    · rw [h.npages, h0.npages]
      omega
    · rw [total_empty, MemLayout.marked, if_neg hu]
  refs q hq := by
    rw [total_empty, Nat.zero_add]
    rw [h.npages, h0.npages] at hq
    exact h.refs q (by omega)

end Jos
