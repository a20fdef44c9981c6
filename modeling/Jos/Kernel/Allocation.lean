import Jos.Kernel.Contents
import Jos.Kernel.Failures
import Jos.Paging.Stock

/-!
# Allocating a page and mapping it

With free pages enough for the page and for the tables that are missing, `page_alloc` and
`page_insert` both succeed. `FreshPage` says what they leave. Without, one of them fails.
-/

namespace Jos

open Logic

variable {K : Set Nat} {extra : Nat → Nat} {dirs S : Finset Nat} {p p' : Phys} {k : Kernel}
  {c d q v : Nat} {va perm : Word} {T : Nat → Nat → Prop}

/-- The entry for `v` in `d` has become `w`. -/
structure EntrySet (K : Set Nat) (dirs : Finset Nat) (p : Phys) (d v : Nat) (w : Word)
    (p' : Phys) : Prop extends EntryOnly K dirs p d v p' where
  entry : pteOf p'.mem d v = some w
  frame : Frame K dirs (· < userTables) (fun d' v' => d' = d ∧ v' = v) p p'

/-- The free page `q` has been zeroed and mapped at `v` in `d`. -/
structure FreshPage (K : Set Nat) (dirs : Finset Nat) (p : Phys) (d v q : Nat) (perm : Word)
    (p' : Phys) : Prop extends EntrySet K dirs p d v (pteWord q perm) p',
    Allocated K dirs p d v p'

theorem allocInsert_run (perm : Word) (h : Intact K extra dirs p) (hb : FewMappings dirs p)
    (hd : d ∈ dirs) (hva : va.toNat < utop) (hperm : perm.toNat < 4096) (hnew : pgnum va ∉ S)
    (hs : Stocked p (demand p d (insert (pgnum va) S))) :
    ∃ q p1 p', pageAlloc allocZero p = .ret (some q) p1 ∧
      pageInsert (some d) q va perm p1 = .ret 0 p' ∧
      FreshPage K dirs p d (pgnum va) q perm p' ∧ Stocked p' (demand p' d S) := by
  have hs1 : Stocked p (S.card + (missingTables p d (insert (pgnum va) S)).card + 1) := by
    unfold demand at hs
    rw [Finset.card_insert_of_notMem hnew] at hs
    exact hs.weaken (by omega)
  obtain ⟨q, hq⟩ := hs1.head
  obtain ⟨hacc, hfresh, hframe⟩ := h.toAccounts.take (O := (· < userTables))
    (T := fun d' v' => d' = d ∧ v' = pgnum va) hq allocZero
  have hsame : Frame K dirs (fun _ => False) (fun _ _ => False) p (p.take allocZero q) :=
    (h.toAccounts.take hq allocZero).2.2
  have hdq : d ≠ q := fun he => (h.toAccounts.head_plain hq).not_dir (he ▸ hd)
  have hdir := p.take_mem_of_ne allocZero hdq
  have hmissing : missingTables (p.take allocZero q) d (insert (pgnum va) S) =
      missingTables p d (insert (pgnum va) S) :=
    missingTables_congr fun i => tableOf_congr (by rw [hdir])
  obtain ⟨p', hins, hs'⟩ := hacc.insert_stocked (S := S) perm hd hva hfresh
    (fun x _ => (h.take hq allocZero).total_add_le (hb.frame hsame) x)
    (hmissing ▸ hs1.drop fun x hx hne => Phys.free_take hq hx hne)
  have halloc : Allocated K dirs p d (pgnum va) p' := by
    refine (wp_of_ret hins).mp (h.insertFresh_wp (E := fun _ => True)
      (Q := fun r p' => r = 0 → Allocated K dirs p d (pgnum va) p') hb hq (h.take hq allocZero)
      rfl hframe.npages hframe.kernPgdir hfresh.not_free hd hva hperm ?_ ?_) rfl
    · exact fun hc => absurd hc (by decide)
    · exact fun p' hp' _ => hp'
  obtain ⟨hframe', hentry⟩ := pageInsert_effect hacc hd hva hfresh.lt hperm hins
  refine ⟨q, _, p', pageAlloc_of_some hq (h.toAccounts.head_lt hq) allocZero, hins,
    ⟨⟨halloc.toEntryOnly, hentry, hframe.trans hframe'⟩, halloc.fresh⟩, hs'⟩

/-- From `p` to `p'` only mappings of `d` for pages in `S` have changed. The window at `UVPT`
shows the page tables of a directory, so it is not counted. -/
structure OnlyMappings (dirs : Finset Nat) (d : Nat) (S : Nat → Prop) (p p' : Phys) : Prop where
  entries : ∀ d' ∈ dirs, ∀ v < 1048576, v / 1024 ≠ uvptIndex → ¬(d' = d ∧ S v) →
    pteOf p'.mem d' v = pteOf p.mem d' v
  contents : ∀ {d' v w}, MapsAt dirs p d' v w → ¬(d' = d ∧ S v) →
    p'.mem (pageOf w) = p.mem (pageOf w)
  rows : ∀ d' ∈ dirs, ∀ i, userTables ≤ i → p'.mem d' i = p.mem d' i
  kern : ∀ x ∈ kernPages p, p'.mem x = p.mem x

section

variable (h : Intact (kernPages p) extra dirs p)

include h

theorem Intact.kernTable {i t : Nat} (hd : d ∈ dirs)
    (hu : userTables ≤ i) (hi : i < 1024) (hself : i ≠ uvptIndex)
    (ht : tableOf p.mem d i = some t) : t ∈ kernPages p := by
  refine Or.inr ⟨i, hi, hself, ?_⟩
  rw [← ht]
  unfold tableOf
  rw [h.upper d hd i hu hi, if_neg hself]

theorem Intact.pteOf_above {v : Nat}
    (hf : Frame (kernPages p) dirs (· < userTables) T p p') (hd : d ∈ dirs) (hv : userPages ≤ v)
    (hlt : v < 1048576) (hself : v / 1024 ≠ uvptIndex) :
    pteOf p'.mem d v = pteOf p.mem d v := by
  have hpages : userPages = userTables * 1024 := rfl
  have hu : userTables ≤ v / 1024 := by omega
  refine pteOf_congr (tableOf_congr (hf.rows d hd _ (by omega))) fun t ht => ?_
  rw [hf.kern t (h.kernTable hd hu (by omega) hself ht)]

theorem Intact.onlyMappings {S : Nat → Prop}
    (hf : Frame (kernPages p) dirs (· < userTables) (fun d' v => d' = d ∧ S v) p p')
    (hc : ∀ {d' v w}, MapsAt dirs p d' v w → ¬(d' = d ∧ S v) →
      p'.mem (pageOf w) = p.mem (pageOf w)) : OnlyMappings dirs d S p p' := by
  refine ⟨fun d' hd' v hv hself hne => ?_, hc, fun d' hd' i hi => hf.rows d' hd' i (by omega),
    hf.kern⟩
  by_cases hu : v < userPages
  · exact hf.entries d' hd' v hu hne
  · exact h.pteOf_above hf hd' (by omega) hv hself

end

section

variable (h : Executes c d k)

include h

theorem Executes.mem_dirs : d ∈ k.dirs := Jos.mem_dirs.mpr ⟨c, h.live, h.pgdir⟩

theorem Executes.names : Names k 0 true c := Or.inl ⟨rfl, h.current⟩

theorem Executes.withPhys {O : Nat → Prop}
    (hi : ∃ extra, Intact (kernPages k.phys) extra k.dirs p') (hb : FewMappings k.dirs p')
    (hf : Frame (kernPages k.phys) k.dirs O T k.phys p') :
    Executes c d { k with phys := p' } := by
  obtain ⟨⟨extra, hs⟩, -⟩ := h.sound
  obtain ⟨extra', hi⟩ := hi
  have hsame : SameSlots k { k with phys := p' } := .of_sameEnvs ⟨rfl, rfl, rfl, rfl, rfl⟩
  refine ⟨⟨⟨extra', hsame.slots hs.toSlots, ?_⟩, ?_⟩, h.current, h.live, h.pgdir⟩
  · rw [hsame.dirs_eq, kernPages_congr hf.kernPgdir hf.kern]
    exact hi
  · rw [hsame.dirs_eq]
    exact hb

theorem Executes.sysPageAlloc_run (hva : va.toNat < utop)
    (hpg : va.toNat % pgsize = 0) (hperm : permOk perm)
    (hs : Stocked k.phys (demand k.phys d {pgnum va})) :
    ∃ q p', sysPageAlloc 0 va perm k = .ret 0 { k with phys := p' } ∧
      FreshPage (kernPages k.phys) k.dirs k.phys d (pgnum va) q perm p' := by
  obtain ⟨⟨extra, hsp⟩, hb⟩ := h.sound
  obtain ⟨q, p1, p', halloc, hins, hfresh, -⟩ := allocInsert_run (S := ∅) perm hsp.intact hb
    h.mem_dirs hva (permOk_spec hperm).1 (Finset.notMem_empty _) hs
  refine ⟨q, p', ?_, hfresh⟩
  unfold sysPageAlloc
  rw [if_neg (by omega), if_neg (by rw [hperm]; decide)]
  refine bind_run (zoom_of_ret halloc) ?_
  refine bind_run (envid2env_ok (k := { k with phys := p1 }) h.names) ?_
  refine bind_run (bind_run (get_apply _) rfl) ?_
  dsimp only
  rw [h.pgdir]
  exact bind_run (zoom_of_ret hins) rfl

end

end Jos
