import Jos.Kernel.Teardown

/-!
# The pages of a program loaded at boot

`region_alloc` and `page_insert` both increment the counter of a page. So each page that
`env_create` maps has one reference more than mappings, and `env_free` does not return it.
-/

namespace Jos

open Logic

variable {K : Set Nat} {extra : Nat → Nat} {dirs : Finset Nat} {p p0 p' : Phys}
  {k k1 k2 : Kernel} {d e q v x : Nat} {w : Word}

/-- A program is being loaded into `d`, and `p0` was the memory before: the pages that `d`
maps were free, and each has a reference that no table holds. -/
structure CountedTwice (K : Set Nat) (dirs : Finset Nat) (d : Nat) (p0 p : Phys) : Prop where
  intact : ∃ extra, Intact K extra dirs p ∧ ∀ {v w}, MapsAt dirs p d v w → extra (pageOf w) = 1
  few : FewMappings dirs p
  taken : ∀ {v w}, MapsAt dirs p d v w → p0.Free (pageOf w)
  free : ∀ x, p.Free x → p0.Free x

theorem PageAdded.mapsAt (ha : PageAdded K extra dirs p d v q p') {v' : Nat}
    (hm : MapsAt dirs p' d v' w) : pageOf w = q ∨ MapsAt dirs p d v' w := by
  by_cases hv : v' = v
  · subst hv
    cases hm.2.2.symm.trans ha.entry
    exact Or.inl ha.page
  · exact Or.inr (ha.frame.mapsAt (fun hc => hv hc.2) hm)

theorem CountedTwice.pageAdded (hi : Intact K extra dirs p)
    (hone : ∀ {v w}, MapsAt dirs p d v w → extra (pageOf w) = 1)
    (h : CountedTwice K dirs d p0 p) (hd : d ∈ dirs) (hv : v < userPages)
    (ha : PageAdded K extra dirs p d v q p') : CountedTwice K dirs d p0 p' := by
  refine ⟨⟨bump extra q, ha.intact, fun {v' w} hm => ?_⟩, ha.few, fun {v' w} hm => ?_,
    fun x hx => ?_⟩
  · have hle := ha.intact.extra_le (pageOf w)
    rcases ha.mapsAt hm with hq | hm
    · rw [hq, bump_self] at hle ⊢
      omega
    · have hold := hone hm
      unfold bump at hle ⊢
      omega
  · rcases ha.mapsAt hm with hq | hm
    · rw [hq]
      exact h.free q (hi.toAccounts.free_of_head ha.head)
    · exact h.taken hm
  · rcases ha.free x hx with hfree | hmapped
    · exact h.free x hfree
    · -- the page that was mapped at `v` before keeps its hidden reference
      obtain ⟨w, hm, rfl⟩ := mapsAt_of_mappedPage hd hv hmapped
      have hold := hone hm
      refine absurd hx (ha.intact.toAccounts.not_free ?_)
      unfold bump
      omega

theorem countedTwice_invariant (p0 : Phys) (hd : d ∈ dirs) :
    LoadInvariant dirs d (CountedTwice K dirs d p0) where
  alloc h hva := by
    obtain ⟨extra, hi, hone⟩ := h.intact
    exact hi.regionAllocPage_wp h.few hd hva fun q p' ha =>
      h.pageAdded hi hone hd ((lt_utop_iff _).mp hva) ha
  store {p v w} words h hm := by
    obtain ⟨extra, hi, hone⟩ := h.intact
    have hf : Frame K dirs (fun _ => False) (fun _ _ => False) p (p.setPage (pageOf w) words) :=
      (hi.plain hm).frame_setPage hi.toTables
    exact ⟨⟨extra, hi.store hm words, fun hm' => hone (hf.mapsAt id hm')⟩, h.few.frame hf,
      fun hm' => h.taken (hf.mapsAt id hm'), h.free⟩

theorem EnvAllocated.countedTwice {parentId : Word} (h : Spaces K extra k)
    (hb : FewMappings k.dirs k.phys) (ha : EnvAllocated k parentId e d k1) :
    CountedTwice K k1.dirs d k.phys k1.phys := by
  obtain ⟨hhead, hphys⟩ := setupVm_inv h.intact.toAccounts ha.phys
  have hnone : ∀ {v w}, ¬ MapsAt k1.dirs k1.phys d v w := fun hm =>
    (h.intact.toAccounts.head_plain hhead).not_dir (ha.mapsAt h hm).1
  refine ⟨⟨extra, (ha.changes h).spaces.intact, fun hm => absurd hm hnone⟩, ha.few h hb,
    fun hm => absurd hm hnone, fun x hx => ?_⟩
  rw [hphys] at hx
  exact Phys.free_of_take hhead (Phys.free_setRef_iff.mp hx)

theorem regionAlloc_stack (h : Intact K extra dirs p) (hb : FewMappings dirs p) (hd : d ∈ dirs)
    (hrun : regionAlloc (some d) (toWord (ustacktop - pgsize)) (toWord pgsize) p =
      .ret () p') : ∃ v w, MapsAt dirs p' d v w := by
  have hva : (rounddown (toWord (ustacktop - pgsize)) +
      toWord (0 * pgsize)).toNat < utop := by decide
  have hwp : wp (regionAlloc (some d) (toWord (ustacktop - pgsize))
      (toWord pgsize)) (fun _ p' => ∃ v w, MapsAt dirs p' d v w) (fun _ => True) p := by
    unfold regionAlloc
    refine wp_ite.mpr ⟨fun _ => wp_bind.mpr wp_panic, fun _ => ?_⟩
    have hcount : ((roundup (toWord (ustacktop - pgsize) + toWord pgsize)).toNat -
        (rounddown (toWord (ustacktop - pgsize))).toNat) / pgsize = 1 := by decide
    rw [hcount, Code.times, wp_bind]
    refine wp_pure.mpr (h.regionAllocPage_wp hb hd hva fun q p' ha => ?_)
    exact ⟨_, _, hd, (lt_utop_iff _).mp hva, ha.entry⟩
  exact (wp_of_ret hrun).mp hwp

theorem envCreate_countedTwice {binary : Elf} {type : EnvType} (h : Spaces K extra k)
    (hb : FewMappings k.dirs k.phys) (himage : binary.InUserSpace)
    (hrun : envCreate binary type k = .ret () k1) :
    ∃ e d, k.envFreeList = some e ∧ k1.Live e ∧ (k1.envs e).envPgdir = some d ∧
      CountedTwice K k1.dirs d k.phys k1.phys ∧ ∃ v w, MapsAt k1.dirs k1.phys d v w := by
  refine (wp_of_ret hrun).mp (envCreate_keeps (E := fun _ => True)
    (Q := fun _ k1 => ∃ e d, k.envFreeList = some e ∧ k1.Live e ∧ (k1.envs e).envPgdir = some d ∧
      CountedTwice K k1.dirs d k.phys k1.phys ∧ ∃ v w, MapsAt k1.dirs k1.phys d v w)
    (I := fun q k1 => CountedTwice K k1.dirs q k.phys) h.toSlots himage (fun e q k1 ha => ?_) ?_)
  · have hq : q ∈ k1.dirs := by
      rw [ha.dirs_eq h.toSlots]
      exact Finset.mem_insert_self q _
    exact ⟨countedTwice_invariant k.phys hq, ha.countedTwice h hb⟩
  · rintro e q k1 k' ha hs hl ⟨p1, h1, hstack⟩
    obtain ⟨he, -⟩ := h.toSlots.free_list.head ha.head
    have hpgdir : (k'.envs e).envPgdir = some q := by rw [hs.pgdir e he, ha.entry]
    have hq : q ∈ k1.dirs := by
      rw [ha.dirs_eq h.toSlots]
      exact Finset.mem_insert_self q _
    obtain ⟨extra', hi, -⟩ := h1.intact
    refine ⟨e, q, ha.head, hs.live_iff.mpr ((ha.live_iff he).mpr (Or.inl rfl)), hpgdir, ?_⟩
    rw [hs.dirs_eq]
    exact ⟨hl, regionAlloc_stack hi h1.few hq hstack⟩

theorem CountedTwice.ppRef (h : CountedTwice K dirs d p0 p) (hm : MapsAt dirs p d v w) :
    (p.pages (pageOf w)).ppRef = BitVec.ofNat 16 (mapCount p.mem dirs (pageOf w) + 1) := by
  obtain ⟨extra, hi, hone⟩ := h.intact
  rw [hi.refs _ (hi.mapped_lt hm), hone hm, (hi.plain hm).total_eq]

theorem CountedTwice.envFree (h : CountedTwice K k1.dirs d p0 k1.phys) (he : k1.Live e)
    (hpgdir : (k1.envs e).envPgdir = some d) : ∃ k2, envFree e k1 = .ret () k2 ∧
      ∀ {v w}, MapsAt k1.dirs k1.phys d v w → ¬ k2.phys.Free (pageOf w) := by
  obtain ⟨extra, hi, hone⟩ := h.intact
  have hd : d ∈ k1.dirs := mem_dirs.mpr ⟨e, he, hpgdir⟩
  obtain ⟨p', hspace, hfreed⟩ := freeSpace_spec hi h.few hd
  obtain ⟨k2, hrun, -, rfl⟩ := envFree_run hpgdir hspace
  refine ⟨k2, hrun, fun {v w} hm hfree => ?_⟩
  have hextra := hone hm
  rcases (hfreed.free_iff hi hd).mp hfree with hc | ⟨-, hz⟩
  · exact hi.not_free_of_mapped hm hc
  · omega

/-- However a program is made up: none of its pages has the right counter, and none of
them comes back. -/
theorem boot_pages_leak {binary : Elf} {type : EnvType} (h : Sound k)
    (himage : binary.InUserSpace) (hrun : envCreate binary type k = .ret () k1) :
    ∃ e d k2, k.envFreeList = some e ∧ (k1.envs e).envPgdir = some d ∧
      envFree e k1 = .ret () k2 ∧ (∃ v < userPages, ∃ x, mappedPage k1.phys.mem d v = some x) ∧
      ∀ v < userPages, ∀ x, mappedPage k1.phys.mem d v = some x →
        (k1.phys.pages x).ppRef = BitVec.ofNat 16 (mapCount k1.phys.mem k1.dirs x + 1) ∧
        (k1.phys.pages x).ppRef ≠ BitVec.ofNat 16 (mapCount k1.phys.mem k1.dirs x) ∧
        k.phys.Free x ∧ ¬ k2.phys.Free x := by
  obtain ⟨⟨extra, hs⟩, hb⟩ := h
  obtain ⟨e, d, hhead, he, hpgdir, hdouble, v0, w0, hm0⟩ := envCreate_countedTwice hs hb himage hrun
  obtain ⟨k2, hfree, hkept⟩ := hdouble.envFree he hpgdir
  refine ⟨e, d, k2, hhead, hpgdir, hfree, ⟨v0, hm0.2.1, _, hm0.mappedPage_eq⟩, ?_⟩
  intro v hv x hx
  obtain ⟨w, hm, rfl⟩ := mapsAt_of_mappedPage hm0.1 hv hx
  have href := hdouble.ppRef hm
  refine ⟨href, fun hc => ?_, hdouble.taken hm, hkept hm⟩
  exact absurd ((ofNat_add_iff (le_refl 1)).mp (href.symm.trans hc)) (by decide)

theorem boot_pages_leak_hello : ∃ e d k2, snapshot.envFreeList = some e ∧
    (single.envs e).envPgdir = some d ∧ envFree e single = .ret () k2 ∧
      (∃ v < userPages, ∃ x, mappedPage single.phys.mem d v = some x) ∧
      ∀ v < userPages, ∀ x, mappedPage single.phys.mem d v = some x →
        (single.phys.pages x).ppRef = BitVec.ofNat 16 (mapCount single.phys.mem single.dirs x + 1) ∧
        (single.phys.pages x).ppRef ≠ BitVec.ofNat 16 (mapCount single.phys.mem single.dirs x) ∧
        snapshot.phys.Free x ∧ ¬ k2.phys.Free x :=
  boot_pages_leak snapshot_booted.sound hello_wellFormed.inUserSpace single_run

theorem eq_one_of_two {n : Nat} (hn : n < 65536) (h : 2 = BitVec.ofNat 16 (n + 1)) : n = 1 := by
  have hmod := congrArg BitVec.toNat h
  rw [BitVec.toNat_ofNat] at hmod
  change 2 = _ % 65536 at hmod
  omega

/-- The page of the program text of `hello` is mapped once, is counted twice and stays in
use when the environment is freed. -/
theorem hello_text_leaks : ∃ k2, envCreate hello .user snapshot = .ret () single ∧
    envFree 0 single = .ret () k2 ∧ mapCount single.phys.mem single.dirs 101 = 1 ∧
    (single.phys.pages 101).ppRef = 2 ∧ snapshot.phys.Free 101 ∧ ¬ k2.phys.Free 101 := by
  obtain ⟨⟨extra, hs⟩, hb⟩ := snapshot_booted.sound
  obtain ⟨e, d, hhead, he, hpgdir, hdouble, -⟩ :=
    envCreate_countedTwice hs hb hello_wellFormed.inUserSpace single_run
  cases hhead
  have hdir : (single.envs 0).envPgdir = some 100 := by decide +kernel
  cases hpgdir.symm.trans hdir
  have hd : 100 ∈ single.dirs := mem_dirs.mpr ⟨0, he, hpgdir⟩
  have hmapped : mappedPage single.phys.mem 100 0x800 = some 101 := by decide +kernel
  have htwo : (single.phys.pages 101).ppRef = 2 := by decide +kernel
  obtain ⟨w, hm, hw⟩ := mapsAt_of_mappedPage hd (by decide) hmapped
  obtain ⟨k2, hfree, hkept⟩ := hdouble.envFree he hpgdir
  have href := hdouble.ppRef hm
  have hfew := hdouble.few 101
  have htaken := hdouble.taken hm
  have hstay := hkept hm
  rw [hw] at href htaken hstay
  rw [htwo] at href
  refine ⟨k2, single_run, hfree, ?_, htwo, htaken, hstay⟩
  exact eq_one_of_two hfew href

end Jos
