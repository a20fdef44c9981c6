import Jos.Kernel.Contents
import Jos.Lib.Spawn

/-!
# Pages that go to another environment

`map_segment` allocates a page in the parent, fills it, maps it into the child and removes it from
the parent. Then the child owns the page, with those bytes.
-/

namespace Jos

open Logic Function

variable {K : Set Nat} {dirs : Finset Nat} {p p' p1 p2 : Phys} {k k' : Kernel}
  {d d1 d2 v v1 v2 q : Nat} {w va perm envid : Word} {f : Nat → BitVec 8}
  {G : Nat × Nat → Option (Nat → BitVec 8)} {E : Kernel → Prop}

theorem Owns.count_le (h : Owns dirs p d v q) : mapCount p.mem dirs q ≤ 1 := by
  unfold mapCount refs
  rw [Finset.card_le_one]
  have hplace : ∀ x ∈ ({x ∈ dirs ×ˢ Finset.range userPages |
      mappedPage p.mem x.1 x.2 = some q} : Finset _), x = (d, v) := by
    rintro ⟨d', v'⟩ hx
    rw [Finset.mem_filter, Finset.mem_product, Finset.mem_range] at hx
    obtain ⟨w, hw, hpage⟩ := mappedPage_eq_some.mp hx.2
    obtain ⟨rfl, rfl⟩ := h.only ⟨hx.1.1, hx.1.2, hw⟩ hpage
    rfl
  intro x hx y hy
  rw [hplace x hx, hplace y hy]

/-- The page at `v1` in `d1` has been mapped at `v2` in `d2`, too. -/
structure Doubled (K : Set Nat) (dirs : Finset Nat) (p : Phys) (d1 v1 d2 v2 : Nat) (p' : Phys) :
    Prop extends EntryOnly K dirs p d2 v2 p' where
  same : ∃ w1 w2, MapsAt dirs p d1 v1 w1 ∧ MapsAt dirs p' d2 v2 w2 ∧ pageOf w2 = pageOf w1

theorem Contents.move (h : Contents K dirs G p) (hmap : Doubled K dirs p d1 v1 d2 v2 p1)
    (hgone : EntryOnly K dirs p1 d1 v1 p2) (hnone : pteOf p2.mem d1 v1 = none)
    (hne : ¬(d2 = d1 ∧ v2 = v1)) :
    Contents K dirs (update (update G (d1, v1) none) (d2, v2) (G (d1, v1))) p2 := by
  obtain ⟨w1, w2, hm1, hm2, hsame⟩ := hmap.same
  have hnot : ∀ {w}, ¬MapsAt dirs p2 d1 v1 w := fun hm => by
    have := hm.2.2
    rw [hnone] at this
    cases this
  refine ⟨hgone.intact, hgone.few, fun {d v f} hG => ?_⟩
  by_cases h2 : (d, v) = (d2, v2)
  · rw [h2, update_self] at hG
    cases h2
    obtain ⟨q, ho, hf⟩ := h.pages hG
    obtain ⟨w, hm, rfl⟩ := ho.mapped
    obtain rfl : w = w1 := Option.some.inj (hm.2.2.symm.trans hm1.2.2)
    refine ⟨pageOf w, ⟨⟨w2, hgone.mapsAt' hne hm2, hsame⟩, fun {d' v' w'} hm' hpage => ?_⟩,
      fun o ho' => ?_⟩
    · have hne1 : ¬(d' = d1 ∧ v' = v1) := by
        rintro ⟨rfl, rfl⟩
        exact hnot hm'
      by_contra hne2
      exact hne1 (ho.only (hmap.mapsAt hne2 (hgone.mapsAt hne1 hm')) hpage)
    · rw [Phys.byte_congr (hsame ▸ hgone.contents hm2), Phys.byte_congr (hmap.contents hm),
        hf o ho']
  · rw [update_of_ne h2] at hG
    by_cases h1 : (d, v) = (d1, v1)
    · rw [h1, update_self] at hG
      cases hG
    · rw [update_of_ne h1] at hG
      have h1' : ¬(d = d1 ∧ v = v1) := fun hc => h1 (Prod.ext hc.1 hc.2)
      refine hgone.hasPage h1' (fun _ hm => absurd hm hnot) ?_
      refine hmap.hasPage (fun hc => h2 (Prod.ext hc.1 hc.2)) (fun {w q} ho hm hq => ?_)
        (h.pages hG)
      obtain rfl : w = w2 := Option.some.inj (hm.2.2.symm.trans hm2.2.2)
      obtain ⟨rfl, rfl⟩ := ho.only hm1 (hsame.symm.trans hq)
      exact h1' ⟨rfl, rfl⟩

/-- A page that `d1` owns is mapped in `d2`. -/
theorem Contents.share_wp {Q : Int → Phys → Prop} {E : Phys → Prop} (h : Contents K dirs G p)
    (hG : G (d1, v1) = some f) (hm : MapsAt dirs p d1 v1 w) (hd : d2 ∈ dirs)
    (hva : va.toNat < utop) (hperm : permOk perm) (hfull : Q (-eNoMem) p)
    (hok : ∀ p', Doubled K dirs p d1 v1 d2 (pgnum va) p' → Q 0 p') :
    wp (pageInsert (some d2) (pageOf w) va perm) Q E p := by
  obtain ⟨extra, hi⟩ := h.intact
  have hv := (lt_utop_iff va).mp hva
  have hperm' := (permOk_spec hperm).1
  have hpage : pageOf (pteWord (pageOf w) perm) = pageOf w := (pteWord_spec (pgnum_lt _) hperm').2
  have hcount : mapCount p.mem dirs (pageOf w) ≤ 1 := by
    obtain ⟨q, ho, _⟩ := h.pages hG
    obtain ⟨w', hm', rfl⟩ := ho.mapped
    obtain rfl : w = w' := Option.some.inj (hm.2.2.symm.trans hm'.2.2)
    exact ho.count_le
  have hins := hi.insert_wp (E := E) (Q := fun r p' => r = -eNoMem ∧ p' = p ∨ r = 0 ∧
      Intact K extra dirs p' ∧ Inserted K extra dirs p d2 (pgnum va) (pteWord (pageOf w) perm) p')
    h.few hd hva (hi.mapped_lt hm) (hi.plain hm) (hi.not_free_of_mapped hm) hperm'
    (Or.inl ⟨rfl, rfl⟩) fun p' hi' hins => Or.inr ⟨rfl, hi', hins⟩
  have hkeep := pageInsert_keeps (E := E) hi.toAccounts hd hva (pageOf w) perm
  refine wp_mono (wp_and hins hkeep) ?_ fun _ he => he.1
  rintro r p' ⟨⟨rfl, rfl⟩ | ⟨rfl, hi', hins⟩, hkeep⟩
  · exact hfull
  · refine hok p' ⟨⟨⟨extra, hi'⟩, h.few.insert hd hv hins ?_, hins.frame.entries, ?_⟩,
      ⟨w, _, hm, ⟨hd, hv, hins.entry⟩, hpage⟩⟩
    · rw [hpage]
      omega
    · intro d' v' w' hm'
      exact hkeep _ (hi.plain hm') (hi.not_free_of_mapped hm')

/-- The environment that `envid` names has the page directory `d`. -/
def Directs (k : Kernel) (envid : Word) (d : Nat) : Prop :=
  ∀ e, Names k envid true e → (k.envs e).envPgdir = some d

theorem Directs.sameEnvs (h : Directs k envid d) (hs : SameEnvs k k') : Directs k' envid d := by
  intro e hn
  unfold Names at hn
  rw [hs.envs, hs.curenv] at hn
  rw [hs.envs]
  exact h e hn

theorem SameEnvs.phys (k : Kernel) (p : Phys) : SameEnvs k { k with phys := p } :=
  ⟨rfl, rfl, rfl, rfl, rfl⟩

theorem refused_wp {P : Kernel → Prop} {p : Phys} {r : Int} (hr : r < 0) :
    wp (pure r : Kern Int) (fun r k' => SameEnvs k k' ∧ (0 ≤ r → P k')) E { k with phys := p } :=
  wp_pure.mpr ⟨.phys k p, fun h0 => absurd hr (not_lt.mpr h0)⟩

theorem sysPageAlloc_allocated (h : Contents K dirs G k.phys)
    (hdir : Directs k envid d) (hd : d ∈ dirs) :
    wp (sysPageAlloc envid va perm) (fun r k' => SameEnvs k k' ∧
      (0 ≤ r → Allocated K dirs k.phys d (pgnum va) k'.phys)) E k := by
  obtain ⟨extra, hi⟩ := h.intact
  unfold sysPageAlloc
  refine wp_ite.mpr ⟨fun _ => refused_wp (by decide), fun hva => ?_⟩
  refine wp_ite.mpr ⟨fun _ => refused_wp (by decide), fun hperm => ?_⟩
  have hva : va.toNat < utop := not_le.mp (not_or.mp hva).1
  rw [Bool.not_eq_false] at hperm
  rw [wp_bind, wp_onPhys]
  refine hi.toAccounts.pageAlloc_wp (refused_wp (by decide))
    fun q hq => ?_
  obtain ⟨_, hfresh, hf⟩ := hi.toAccounts.take (O := fun _ => False) (T := fun _ _ => False) hq
    allocZero
  have htake := hi.take hq allocZero
  rw [wp_bind]
  refine envid2env_wp (refused_wp (by decide)) fun e hnames => ?_
  rw [wp_bind, wp_env, wp_bind, wp_onPhys]
  dsimp only
  rw [hdir e hnames]
  refine hi.insertFresh_wp h.few hq htake rfl hf.npages hf.kernPgdir hfresh.not_free hd hva
    (permOk_spec hperm).1 ?_ fun p' ha => ?_
  · refine wp_ite.mpr ⟨fun _ => ?_, fun hneg => absurd (by decide) hneg⟩
    have href : ((k.phys.take allocZero q).pages q).ppRef = 0 := by
      rw [htake.refs q hfresh.lt, hfresh.unused]
      rfl
    rw [wp_bind, wp_onPhys, wp_of_ret (pageFree_eq href)]
    exact refused_wp (by decide)
  · refine wp_ite.mpr ⟨fun hneg => absurd hneg (by decide), fun _ => wp_pure.mpr ?_⟩
    exact ⟨.phys k _, fun _ => ha⟩

theorem sysPageMap_doubled {srcenvid srcva dstenvid dstva : Word}
    (h : Contents K dirs G k.phys) (hsrc : Directs k srcenvid d1) (hdst : Directs k dstenvid d2)
    (hd1 : d1 ∈ dirs) (hd2 : d2 ∈ dirs) (hG : G (d1, pgnum srcva) = some f) :
    wp (sysPageMap srcenvid srcva dstenvid dstva perm) (fun r k' => SameEnvs k k' ∧
      (0 ≤ r → Doubled K dirs k.phys d1 (pgnum srcva) d2 (pgnum dstva) k'.phys)) E k := by
  obtain ⟨extra, hi⟩ := h.intact
  unfold sysPageMap
  rw [wp_bind]
  refine envid2env_wp (refused_wp (by decide)) fun src hs => ?_
  rw [wp_bind]
  refine envid2env_wp (refused_wp (by decide)) fun dst hn => ?_
  refine wp_ite.mpr ⟨fun _ => refused_wp (by decide), fun hva => ?_⟩
  simp only [not_or, not_le] at hva
  rw [wp_bind, wp_env, wp_bind, wp_onPhys, hsrc src hs]
  refine hi.toTables.lookup_wp hd1 hva.1 (refused_wp (by decide))
    fun t w hm hmem => ?_
  rw [wp_bind, wp_onPhys, wp_of_ret (loadPte_eq hmem)]
  refine wp_ite.mpr ⟨fun _ => refused_wp (by decide), fun _ => ?_⟩
  refine wp_ite.mpr ⟨fun _ => refused_wp (by decide), fun hperm => ?_⟩
  rw [wp_bind, wp_env, wp_bind, wp_onPhys]
  dsimp only
  rw [hdst dst hn]
  rw [Bool.not_eq_false] at hperm
  refine h.share_wp hG hm hd2 hva.2.2.1 hperm ?_ fun p' hdoubled => ?_
  · refine wp_ite.mpr ⟨fun _ => ?_, fun hneg => absurd (by decide) hneg⟩
    exact refused_wp (by decide)
  · refine wp_ite.mpr ⟨fun hneg => absurd hneg (by decide), fun _ => ?_⟩
    exact wp_pure.mpr ⟨.phys k _, fun _ => hdoubled⟩

theorem sysPageUnmap_own {extra : Nat → Nat} (hi : Intact K extra dirs k.phys)
    (hb : FewMappings dirs k.phys) (hdir : Directs k 0 d) (hd : d ∈ dirs) (hva : va.toNat < utop)
    (hoff : pgoff va = 0) :
    wp (sysPageUnmap 0 va) (fun _ k' => SameEnvs k k' ∧
      EntryOnly K dirs k.phys d (pgnum va) k'.phys ∧
        pteOf k'.phys.mem d (pgnum va) = none) E k := by
  have hcond : ¬(utop ≤ va.toNat ∨ pgoff va ≠ 0) := fun hc =>
    hc.elim (fun hle => absurd hva (not_lt.mpr hle)) fun hne => hne hoff
  unfold sysPageUnmap envid2env
  rw [if_pos rfl, wp_bind, wp_bind, wp_curenv]
  intro e hcur
  rw [wp_pure]
  dsimp only
  rw [if_neg hcond, wp_bind, wp_env, wp_bind, wp_onPhys, hdir e (Or.inl ⟨rfl, hcur⟩),
    wp_of_ret (pageRemove_eq hi.toTables.user hd hva), wp_pure]
  exact ⟨⟨rfl, rfl, rfl, rfl, rfl⟩, EntryOnly.of_unmap hi hb hd ((lt_utop_iff va).mp hva)⟩

variable {file : ExecFile} {buf : Word} {off n : Nat} {S : Set Nat} {m : Image}

theorem readn_done {Q : Nat → Kernel → Prop} (fuel : Nat) (hQ : Q n k) :
    wp (readn file off buf n fuel n) Q E k := by
  cases fuel with
  | zero => exact wp_pure.mpr hQ
  | succ fuel =>
    unfold readn
    rw [if_neg (lt_irrefl n)]
    exact wp_pure.mpr hQ

/-- At most a page of bytes that the file has is read in one round. -/
theorem readn_filled (h : Contents K dirs (overlay G k.cr3 S m) k.phys)
    (hd : k.cr3 ∈ dirs) (hn : n ≤ pgsize) (hfile : off + n ≤ file.size)
    (hend : buf.toNat + n ≤ utop) (hS : ∀ i < n, (buf.toNat + i) / pgsize ∈ S) :
    wp (readn file off buf n n 0) (fun _ k' => SameEnvs k k' ∧ Contents K dirs
      (overlay G k.cr3 S (setBytes m buf.toNat n fun i => file.byte (off + i))) k'.phys) E k := by
  cases n with
  | zero =>
    rw [setBytes_zero]
    exact wp_pure.mpr ⟨.refl k, h⟩
  | succ n =>
    have hread : file.read (off + 0) (n + 1 - 0) = n + 1 := by
      unfold ExecFile.read
      omega
    unfold readn
    rw [if_pos (Nat.succ_pos n)]
    dsimp only
    rw [hread, if_neg (Nat.succ_ne_zero n), wp_bind, BitVec.add_zero, Nat.add_zero, Nat.zero_add]
    exact wp_imp (copyOut_filled h hd hend hS) fun _ k' hk' => readn_done n hk'

end Jos
