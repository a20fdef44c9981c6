import Jos.Kernel.Calls

/-!
# Loading programs at boot

`env_create` allocates an environment, maps pages for the segments of an image and copies the image
through the new address space. The pages keep one reference that no table shows.
-/

namespace Jos

open Logic Kernel BitVec

variable {K : Set Nat} {extra : Nat → Nat} {dirs : Finset Nat} {p p0 : Phys} {k k' : Kernel}
  {d q v : Nat} {w va : Word} {binary : Elf} {e : Nat} {k1 : Kernel} {parentId : Word}

theorem Intact.incref (h : Intact K extra dirs p) (hfree : ¬p.Free q) (hz : extra q = 0) :
    Intact K (bump extra q) dirs (p.increfed q) where
  toAccounts := h.toAccounts.incref hfree
  extra_le x := by
    by_cases hx : x = q
    · rw [hx, bump_self, hz]
    · rw [bump_of_ne extra hx]
      exact h.extra_le x
  upper d hd := h.upper d hd
  plain hm := (h.plain hm).congr rfl rfl

theorem FewMappings.insert {p' : Phys} (hb : FewMappings dirs p) (hd : d ∈ dirs)
    (hv : v < userPages) (hins : Inserted K extra dirs p d v w p')
    (hz : mapCount p.mem dirs (pageOf w) + 1 < 65536) : FewMappings dirs p' := by
  intro x
  have hcount : mapCount p'.mem dirs x + (if mappedPage p.mem d v = some x then 1 else 0) =
      mapCount p.mem dirs x + (if mappedPage p'.mem d v = some x then 1 else 0) := by
    apply mapCount_rewrite hd hv
    intro d' hd' v' hv' hne
    unfold mappedPage
    rw [hins.frame.entries d' hd' v' hv' hne]
  have hmapped := mappedPage_eq_some.mpr ⟨w, hins.entry, rfl⟩
  have hx := hb x
  by_cases hxw : pageOf w = x
  · rw [← hxw] at hcount hx ⊢
    rw [hmapped, if_pos rfl] at hcount
    omega
  · rw [hmapped, if_neg (fun hc => hxw (Option.some.inj hc))] at hcount
    omega

/-- What holds while an image is loaded, for the state `p0` before. -/
structure Loading (K : Set Nat) (dirs : Finset Nat) (p0 p : Phys) : Prop where
  intact : ∃ extra, Intact K extra dirs p
  few : FewMappings dirs p
  kernPgdir : p.kernPgdir = p0.kernPgdir
  kern : ∀ x ∈ K, p.mem x = p0.mem x
  entries : ∀ {d v w}, MapsAt dirs p d v w → MapsAt dirs p0 d v w ∨ permOk (w &&& 0xfff)

theorem Loading.refl (hi : Intact K extra dirs p) (hb : FewMappings dirs p) : Loading K dirs p p :=
  ⟨⟨extra, hi⟩, hb, rfl, fun _ _ => rfl, Or.inl⟩

theorem Loading.of_frame {p' : Phys} {extra' : Nat → Nat} {O : Nat → Prop}
    {T : Nat → Nat → Prop} (h : Loading K dirs p0 p) (hi : Intact K extra' dirs p')
    (hb : FewMappings dirs p') (hf : Frame K dirs O T p p')
    (hnew : ∀ {d v w}, T d v → MapsAt dirs p' d v w → permOk (w &&& 0xfff)) :
    Loading K dirs p0 p' where
  intact := ⟨extra', hi⟩
  few := hb
  kernPgdir := hf.kernPgdir.trans h.kernPgdir
  kern x hx := (hf.kern x hx).trans (h.kern x hx)
  entries := by
    intro d v w hm
    by_cases hT : T d v
    · exact Or.inr (hnew hT hm)
    · exact h.entries (hf.mapsAt hT hm)

theorem Loading.store (h : Loading K dirs p0 p) (hm : MapsAt dirs p d v w) (words : Nat → Word) :
    Loading K dirs p0 (p.setPage (pageOf w) words) := by
  obtain ⟨extra, hi⟩ := h.intact
  have hf : Frame K dirs (fun _ => False) (fun _ _ => False) p (p.setPage (pageOf w) words) :=
    (hi.plain hm).frame_setPage hi.toTables
  exact h.of_frame (hi.store hm words) (h.few.frame hf) hf fun hc => hc.elim

/-- What one round of `region_alloc` leaves: the free page `q` is mapped at `v`, and has a
reference that no table holds. -/
structure PageAdded (K : Set Nat) (extra : Nat → Nat) (dirs : Finset Nat) (p : Phys)
    (d v q : Nat) (p' : Phys) : Prop where
  head : p.pageFreeList = some q
  intact : Intact K (bump extra q) dirs p'
  few : FewMappings dirs p'
  frame : Frame K dirs (· < userTables) (fun d' v' => d' = d ∧ v' = v) p p'
  entry : pteOf p'.mem d v = some (pteWord q (pteP ||| pteU ||| pteW))
  page : pageOf (pteWord q (pteP ||| pteU ||| pteW)) = q
  free : ∀ x, p'.Free x → p.Free x ∨ mappedPage p.mem d v = some x

theorem Intact.regionAllocPage_wp {Q : Unit → Phys → Prop} {E : Phys → Prop}
    (hi : Intact K extra dirs p) (hb : FewMappings dirs p) (hd : d ∈ dirs) (hva : va.toNat < utop)
    (hok : ∀ q p', PageAdded K extra dirs p d (pgnum va) q p' → Q () p') :
    wp (regionAllocPage (some d) va) Q E p := by
  have hv := (lt_utop_iff va).mp hva
  unfold regionAllocPage
  rw [wp_bind]
  refine hi.toAccounts.pageAlloc_wp wp_panic fun q hq => ?_
  obtain ⟨_, hfresh, hf⟩ := hi.toAccounts.take (O := fun _ => False) (T := fun _ _ => False) hq
    allocZero
  have htake := hi.take hq allocZero
  obtain ⟨htotal, hextra⟩ := Nat.add_eq_zero_iff.mp hfresh.unused
  have hinc := htake.incref hfresh.not_free hextra
  have hf' : Frame K dirs (fun _ => False) (fun _ _ => False) p
      ((p.take allocZero q).increfed q) := hf.trans (.of_mem_eq rfl rfl rfl)
  have hplain : Plain K dirs ((p.take allocZero q).increfed q) q :=
    (htake.toAccounts.plain hfresh.unused).congr rfl rfl
  have hfew := hb.frame hf'
  have hpage : pageOf (pteWord q (pteP ||| pteU ||| pteW)) = q :=
    (pteWord_spec (hi.toAccounts.lt_of_head hq) (by decide)).2
  have hzero := hplain.total_eq.symm.trans htotal
  have hsame : mappedPage ((p.take allocZero q).increfed q).mem d (pgnum va) =
      mappedPage p.mem d (pgnum va) := by
    unfold mappedPage
    rw [hf'.entries d hd _ hv id]
  rw [wp_bind]
  unfold Jos.incref
  rw [wp_modify, wp_bind]
  refine (pageInsert_noExit _ _ _ _).wp fun r p' hrun => ?_
  refine wp_ite.mpr ⟨fun _ => wp_panic, fun hr => wp_pure.mpr ?_⟩
  obtain rfl := not_not.mp hr
  have hwp := hinc.insert_wp (E := E)
    (Q := fun r p' => r = 0 → Intact K (bump extra q) dirs p' ∧ Inserted K (bump extra q) dirs
      ((p.take allocZero q).increfed q) d (pgnum va) (pteWord q (pteP ||| pteU ||| pteW)) p')
    hfew hd hva hfresh.lt hplain (fun hc => hfresh.not_free (Phys.free_setRef_iff.mp hc))
    (by decide) (fun hc => absurd hc (by decide)) fun p' hi' hins _ => ⟨hi', hins⟩
  obtain ⟨hi', hins⟩ := (wp_of_ret hrun).mp hwp rfl
  refine hok q p' ⟨hq, hi', hfew.insert hd hv hins (by rw [hpage, hzero]; decide),
    (hf'.weaken subset_rfl (fun _ hc => hc.elim) fun _ _ _ hc => hc.elim).trans hins.frame,
    hins.entry, hpage, fun x hx => ?_⟩
  rw [← hsame]
  exact (hinc.toAccounts.free_of_pageInsert hd hva hrun hx).imp_left fun hc =>
    Phys.free_of_take hq (Phys.free_setRef_iff.mp hc)

theorem regionAllocPage_loading {E : Phys → Prop} (h : Loading K dirs p0 p) (hd : d ∈ dirs)
    (hva : va.toNat < utop) :
    wp (regionAllocPage (some d) va) (fun _ => Loading K dirs p0) E p := by
  obtain ⟨extra, hi⟩ := h.intact
  refine hi.regionAllocPage_wp h.few hd hva fun q p' ha => ?_
  refine h.of_frame ha.intact ha.few ha.frame ?_
  rintro d' v' w ⟨rfl, rfl⟩ hm
  cases hm.2.2.symm.trans ha.entry
  have hperm : permOk (pteP ||| pteU ||| pteW) := by decide
  rw [pteWord_flags q hperm]
  exact hperm

/-- A property of memory that loading into the directory `d` keeps: mapping one page, and
writing to a page that `d` maps. -/
structure LoadInvariant (dirs : Finset Nat) (d : Nat) (I : Phys → Prop) : Prop where
  alloc : ∀ {E p va}, I p → va.toNat < utop →
    wp (regionAllocPage (some d) va) (fun _ => I) E p
  store : ∀ {p v w} words, I p → MapsAt dirs p d v w → I (p.setPage (pageOf w) words)

theorem loading_invariant (p0 : Phys) (hd : d ∈ dirs) : LoadInvariant dirs d (Loading K dirs p0) :=
  ⟨fun h hva => regionAllocPage_loading h hd hva, fun words h hm => h.store hm words⟩

section Keeps

variable {I : Phys → Prop} (hI : LoadInvariant dirs d I)

include hI

theorem LoadInvariant.regionAlloc {E : Phys → Prop} {len : Word} (h : I p) :
    wp (regionAlloc (some d) va len) (fun _ => I) E p := by
  unfold Jos.regionAlloc
  refine wp_ite.mpr ⟨fun _ => wp_bind.mpr wp_panic, fun hend => ?_⟩
  refine wp_times (fun _ => I) h fun i hi p1 h1 => hI.alloc h1 ?_
  have hutop : utop = 4005560320 := rfl
  unfold pgsize at hi ⊢
  rw [toNat_add, toNat_ofNat]
  omega

end Keeps

theorem translate_user {write : Bool} {page : Nat} (hd : d ∈ dirs) (hva : va.toNat < utop)
    (h : p.translate d va write = some page) :
    ∃ w, MapsAt dirs p d (pgnum va) w ∧ pageOf w = page := by
  unfold Phys.translate at h
  dsimp only at h
  split at h
  · next hc =>
    rw [Bool.and_eq_true, Bool.and_eq_true] at hc
    obtain ⟨⟨hpde, hpte⟩, _⟩ := hc
    have htab : tableOf p.mem d (pgnum va / 1024) = some (pageOf (p.mem d (pdx va))) := by
      rw [← pdx_eq]
      exact tableOf_eq_some.mpr ⟨hpde, rfl⟩
    rw [ptx_eq] at hpte h
    have hw := pteOf_eq_some.mpr ⟨pageOf (p.mem d (pdx va)), htab, rfl, hpte⟩
    exact ⟨_, ⟨hd, (lt_utop_iff va).mp hva, hw⟩, Option.some.inj h⟩
  · cases h

section Copy

variable {I : Phys → Prop} (hI : LoadInvariant dirs d I) (hd : d ∈ dirs)

include hI hd

theorem LoadInvariant.storeByte {E : Kernel → Prop} {b : BitVec 8} (h : I k.phys)
    (hcr3 : (k.cpus k.cpunum).cr3 = d) (hva : va.toNat < utop) :
    wp (storeByte va b) (fun _ k' => SameEnvs k k' ∧ I k'.phys) E k := by
  unfold Jos.storeByte
  rw [wp_bind, wp_get]
  rw [hcr3]
  cases ht : k.phys.translate d va true with
  | none => exact wp_panic
  | some page =>
    obtain ⟨w, hm, rfl⟩ := translate_user hd hva ht
    rw [wp_modify]
    exact ⟨⟨rfl, rfl, rfl, rfl, rfl⟩, hI.store _ h hm⟩

theorem LoadInvariant.copyOut {E : Kernel → Prop} {len : Nat} {bytes : Nat → BitVec 8}
    (h : I k.phys) (hcr3 : (k.cpus k.cpunum).cr3 = d) (hva : va.toNat + len ≤ utop) :
    wp (copyOut va len bytes) (fun _ k' => SameEnvs k k' ∧ I k'.phys) E k := by
  refine wp_times (fun _ k' => SameEnvs k k' ∧ I k'.phys) ⟨.refl k, h⟩ fun i hi k1 h1 => ?_
  have hutop : utop = 4005560320 := rfl
  have hlt : (va + toWord i).toNat < utop := by
    rw [toNat_add, toNat_ofNat]
    omega
  refine wp_imp (hI.storeByte hd h1.2 ?_ hlt) fun _ k2 h2 => ⟨h1.1.trans h2.1, h2.2⟩
  rw [h1.1.cpus, h1.1.cpunum, hcr3]

end Copy

/-- The segments of an image lie below `UTOP`, and a segment is not longer in the file than
in memory. The images that are linked into the kernel are of this form. -/
def Elf.WellFormed (binary : Elf) : Prop :=
  ∀ ph ∈ binary.ph, ph.pType = elfProgLoad →
    ph.pFilesz.toNat ≤ ph.pMemsz.toNat ∧ ph.pVa.toNat + ph.pMemsz.toNat ≤ utop

/-- The bytes that are copied from the file go below `UTOP`. -/
def Elf.InUserSpace (binary : Elf) : Prop :=
  ∀ ph ∈ binary.ph, ph.pType = elfProgLoad → ph.pVa.toNat + ph.pFilesz.toNat ≤ utop

theorem Elf.WellFormed.inUserSpace (h : binary.WellFormed) : binary.InUserSpace := by
  intro ph hph hload
  obtain ⟨hlen, hend⟩ := h ph hph hload
  omega

section Load

variable {I : Phys → Prop} (hI : LoadInvariant dirs d I) (hd : d ∈ dirs)

include hI hd

theorem LoadInvariant.loadSegments {E : Kernel → Prop} {segs : List Proghdr}
    (hsegs : ∀ ph ∈ segs, ph.pType = elfProgLoad → ph.pVa.toNat + ph.pFilesz.toNat ≤ utop)
    (h : I k.phys) (hcr3 : (k.cpus k.cpunum).cr3 = d) :
    wp (loadSegments (some d) binary segs) (fun _ k' => SameEnvs k k' ∧ I k'.phys) E k := by
  induction segs generalizing k with
  | nil => exact wp_pure.mpr ⟨.refl k, h⟩
  | cons ph rest ih =>
    have hrest : ∀ k1, SameEnvs k k1 → I k1.phys → wp (Jos.loadSegments (some d) binary rest)
        (fun _ k' => SameEnvs k k' ∧ I k'.phys) E k1 := by
      intro k1 hs h1
      refine wp_imp (ih (fun ph' hph' => hsegs ph' (List.mem_cons_of_mem _ hph')) h1 ?_)
        fun _ k2 h2 => ⟨hs.trans h2.1, h2.2⟩
      rw [hs.cpus, hs.cpunum, hcr3]
    unfold Jos.loadSegments
    refine wp_ite.mpr ⟨fun hload => ?_, fun _ => hrest k (.refl k) h⟩
    rw [wp_bind, wp_onPhys]
    refine wp_mono (hI.regionAlloc (E := fun _ => False) h) (fun _ p1 h1 => ?_) fun _ hf => hf.elim
    have hs1 : SameEnvs k { k with phys := p1 } := ⟨rfl, rfl, rfl, rfl, rfl⟩
    rw [wp_bind]
    exact wp_imp (hI.copyOut hd (k := { k with phys := p1 }) h1 hcr3
      (hsegs ph List.mem_cons_self hload)) fun _ k2 h2 => hrest k2 (hs1.trans h2.1) h2.2

theorem LoadInvariant.loadIcode {E : Kernel → Prop}
    (himage : binary.InUserSpace) (hpgdir : (k.envs e).envPgdir = some d) (h : I k.phys) :
    wp (loadIcode e binary) (fun _ k' => SameSlots k k' ∧ I k'.phys ∧ ∃ p1, I p1 ∧
      Jos.regionAlloc (some d) (toWord (ustacktop - pgsize)) (toWord pgsize) p1 =
        .ret () k'.phys) E k := by
  unfold Jos.loadIcode
  rw [wp_bind, wp_env, hpgdir, wp_bind, wp_paddr]
  intro x hx
  cases hx
  rw [wp_bind, wp_lcr3, wp_bind]
  have hcr3 : ((k.setCpu fun c => { c with cr3 := d }).cpus k.cpunum).cr3 = d := by
    rw [setCpu_self]
  refine wp_imp (hI.loadSegments hd (k := k.setCpu fun c => { c with cr3 := d }) himage h hcr3) ?_
  rintro _ k1 ⟨hs1, h1⟩
  simp only [wp_bind, wp_get, wp_lcr3, wp_setEnv, wp_onPhys]
  refine (regionAlloc_noExit _ _ _).wp fun _ p2 hrun => ?_
  have h2 : I p2 := (wp_of_ret hrun).mp (hI.regionAlloc (E := fun _ => True) h1)
  refine ⟨?_, h2, k1.phys, h1, hrun⟩
  have hs2 : SameSlots k (k1.setCpu fun c => { c with cr3 := k1.phys.kernPgdir }) :=
    (k.setCpu_sameSlots _).trans ((SameSlots.of_sameEnvs hs1).trans (k1.setCpu_sameSlots _))
  have hs3 := hs2.trans (setEnv_sameSlots (e := e)
    (f := fun env => { env with envTf := { env.envTf with tfEip := binary.eEntry } })
    rfl rfl Iff.rfl)
  refine SameSlots.trans ?_ (setEnv_sameSlots rfl rfl Iff.rfl)
  exact hs3.trans (.of_sameEnvs ⟨rfl, rfl, rfl, rfl, rfl⟩)

end Load

/-- What `env_create` leaves: its new mappings are user mappings. -/
structure Created (K : Set Nat) (k k' : Kernel) : Prop where
  spaces : ∃ extra, Spaces K extra k'
  few : FewMappings k'.dirs k'.phys
  kernPgdir : k'.phys.kernPgdir = k.phys.kernPgdir
  kern : ∀ x ∈ K, k'.phys.mem x = k.phys.mem x
  entries : ∀ {d v w}, MapsAt k'.dirs k'.phys d v w →
    MapsAt k.dirs k.phys d v w ∨ permOk (w &&& 0xfff)

theorem Created.of_loading (hch : Changes K extra k k1)
    (hold : ∀ {d v w}, MapsAt k1.dirs k1.phys d v w → MapsAt k.dirs k.phys d v w)
    (hs : SameSlots k1 k') (hl : Loading K k1.dirs k1.phys k'.phys) : Created K k k' where
  spaces := by
    obtain ⟨extra', hi⟩ := hl.intact
    exact ⟨extra', hs.slots hch.spaces.toSlots, hs.dirs_eq ▸ hi⟩
  few := hs.dirs_eq ▸ hl.few
  kernPgdir := hl.kernPgdir.trans hch.kernPgdir
  kern x hx := (hl.kern x hx).trans (hch.kern x hx)
  entries := by
    intro d v w hm
    rw [hs.dirs_eq] at hm
    exact (hl.entries hm).imp_left hold

theorem envCreate_keeps {Q : Unit → Kernel → Prop} {E : Kernel → Prop}
    {type : EnvType} {I : Nat → Kernel → Phys → Prop} (h : Slots k) (himage : binary.InUserSpace)
    (hI : ∀ e q k1, EnvAllocated k 0 e q k1 → LoadInvariant k1.dirs q (I q k1) ∧ I q k1 k1.phys)
    (hok : ∀ e q k1 k', EnvAllocated k 0 e q k1 → SameSlots k1 k' → I q k1 k'.phys →
      (∃ p1, I q k1 p1 ∧ regionAlloc (some q) (toWord (ustacktop - pgsize))
        (toWord pgsize) p1 = .ret () k'.phys) → Q () k') :
    wp (envCreate binary type) Q E k := by
  unfold envCreate
  rw [wp_bind]
  refine envAlloc_wp (fun _ _ _ _ => wp_panic) fun e q k1 ha => ?_
  obtain ⟨hinv, hstart⟩ := hI e q k1 ha
  have hq : q ∈ k1.dirs := by
    rw [ha.dirs_eq h]
    exact Finset.mem_insert_self q _
  have hpgdir : (k1.envs e).envPgdir = some q := by rw [ha.entry]
  rw [wp_bind]
  refine wp_imp (hinv.loadIcode hq himage hpgdir hstart) ?_
  rintro _ k2 ⟨hs, hl, hstack⟩
  rw [wp_bind, wp_setEnv]
  have hs' : SameSlots k1 (k2.setEnv e fun env => { env with envType := type }) :=
    hs.trans (setEnv_sameSlots rfl rfl Iff.rfl)
  refine wp_ite.mpr ⟨fun _ => wp_setEnv.mpr ?_, fun _ => wp_pure.mpr ?_⟩
  · exact hok e q k1 _ ha (hs'.trans (setEnv_sameSlots rfl rfl Iff.rfl)) hl hstack
  · exact hok e q k1 _ ha hs' hl hstack

theorem EnvAllocated.mapsAt (h : Spaces K extra k)
    (ha : EnvAllocated k parentId e q k1) (hm : MapsAt k1.dirs k1.phys d v w) :
    MapsAt k.dirs k.phys d v w := by
  obtain ⟨hhead, hphys⟩ := setupVm_inv h.intact.toAccounts ha.phys
  rw [ha.dirs_eq h.toSlots, hphys] at hm
  exact h.intact.toAccounts.mapsAt_withDir hhead hm

theorem EnvAllocated.few (h : Spaces K extra k)
    (hb : FewMappings k.dirs k.phys) (ha : EnvAllocated k parentId e q k1) :
    FewMappings k1.dirs k1.phys := fun x =>
  lt_of_le_of_lt (mapCount_mono (fun _ _ _ hm => ha.mapsAt h hm) x) (hb x)

theorem envCreate_created {E : Kernel → Prop} {type : EnvType}
    (h : Spaces K extra k) (hb : FewMappings k.dirs k.phys) (hwf : binary.WellFormed) :
    wp (envCreate binary type) (fun _ => Created K k) E k := by
  refine envCreate_keeps (I := fun _ k1 => Loading K k1.dirs k1.phys) h.toSlots hwf.inUserSpace
    (fun e q k1 ha => ?_) fun e q k1 k' ha hs hl _ => ?_
  · have hq : q ∈ k1.dirs := by
      rw [ha.dirs_eq h.toSlots]
      exact Finset.mem_insert_self q _
    exact ⟨loading_invariant k1.phys hq, .refl (ha.changes h).spaces.intact (ha.few h hb)⟩
  · exact .of_loading (ha.changes h) (ha.mapsAt h) hs hl

end Jos
