import Jos.Kernel.Receiving
import Jos.Logic.Bytes
import Mathlib.Algebra.Order.Interval.Set.SuccPred
import Mathlib.Data.Nat.SuccPred

/-!
# The contents of user pages

A directory owns a page that is mapped there and nowhere else. Operations on other pages do not
change its bytes, and a store through the directory changes the byte it goes to.
-/

namespace Jos

open Logic Function BitVec Phys Set

variable {K : Set Nat} {extra extra' : Nat → Nat} {dirs : Finset Nat} {p p' p1 : Phys}
  {k k' : Kernel} {d d' d0 v v' v0 q pp x : Nat} {w va perm : Word} {f : Nat → BitVec 8}

theorem Phys.take_mem_self (p : Phys) (q : Nat) : (p.take allocZero q).mem q = fun _ => 0 := by
  unfold Phys.take
  rw [if_pos (by decide)]
  simp

theorem pageInsert_keeps {E : Phys → Prop} (h : Accounts K extra dirs p) (hd : d ∈ dirs)
    (hva : va.toNat < utop) (pp : Nat) (perm : Word) :
    wp (pageInsert (some d) pp va perm)
      (fun _ p' => ∀ x, Plain K dirs p x → ¬p.Free x → p'.mem x = p.mem x) E p := by
  have hv := (lt_utop_iff va).mp hva
  rcases pageInsert_cases h.toTables.user (fun _ => h.head_lt) hd hva pp perm with
    ⟨t, ht, hrun⟩ | ⟨-, -, hrun⟩ | ⟨q, -, hhead, hrun⟩
  · have htab := h.toTables.tableAt_of_user hd hv ht
    refine (wp_of_ret hrun).mpr fun x hx _ => ?_
    rw [p.mapAt_unmap_mem ht]
    exact setWord_mem_of_ne _ _ _ fun he => hx.not_table _ _ (he ▸ htab)
  · exact (wp_of_ret hrun).mpr fun _ _ _ => rfl
  · refine (wp_of_ret hrun).mpr fun x hx hfree => ?_
    have hq : x ≠ q := fun he => hfree (he ▸ h.free_of_head hhead)
    have hxd : x ≠ d := fun he => hx.not_dir (he ▸ hd)
    unfold Phys.mapAt Phys.withTable
    rw [increfed_mem, setWord_mem_of_ne _ _ _ hq, setWord_mem_of_ne _ _ _ hxd,
      increfed_mem, p.take_mem_of_ne allocZero hq]

theorem Accounts.unmap_keeps (h : Accounts K extra dirs p) (hd : d ∈ dirs) (hv : v < userPages)
    (hx : Plain K dirs p x) : (p.unmap d v).mem x = p.mem x := by
  cases hw : pteOf p.mem d v with
  | none => rw [unmap_of_none hw]
  | some w =>
    obtain ⟨t, ht, hmem, hp⟩ := pteOf_eq_some.mp hw
    have htab := h.toTables.tableAt_of_user hd hv ht
    rw [unmap_of_some ht hmem hp,
      setWord_mem_of_ne _ _ _ fun he => hx.not_table _ _ (he ▸ htab), decref_mem]

/-- The user page `v` of `d` is the physical page `q`, and `q` is mapped nowhere else. -/
structure Owns (dirs : Finset Nat) (p : Phys) (d v q : Nat) : Prop where
  mapped : ∃ w, MapsAt dirs p d v w ∧ pageOf w = q
  only : ∀ {d' v' w'}, MapsAt dirs p d' v' w' → pageOf w' = q → d' = d ∧ v' = v

/-- The directory `d` owns the page `v`, with the bytes `f`. -/
def HasPage (dirs : Finset Nat) (p : Phys) (d v : Nat) (f : Nat → BitVec 8) : Prop :=
  ∃ q, Owns dirs p d v q ∧ ∀ o < pgsize, p.byte q o = f o

/-- The entry for `v` in `d` may have changed, but no other one, and no page that was mapped. -/
structure EntryOnly (K : Set Nat) (dirs : Finset Nat) (p : Phys) (d v : Nat) (p' : Phys) :
    Prop where
  intact : ∃ extra, Intact K extra dirs p'
  few : FewMappings dirs p'
  entries : ∀ d' ∈ dirs, ∀ v' < userPages, ¬(d' = d ∧ v' = v) →
    pteOf p'.mem d' v' = pteOf p.mem d' v'
  contents : ∀ {d' v' w'}, MapsAt dirs p d' v' w' → p'.mem (pageOf w') = p.mem (pageOf w')

theorem Phys.byte_congr (h : p'.mem q = p.mem q) (o : Nat) : p'.byte q o = p.byte q o := by
  unfold Phys.byte
  rw [h]

section

variable (h : EntryOnly K dirs p d0 v0 p')

include h

section

variable (hne : ¬(d = d0 ∧ v = v0))

include hne

theorem EntryOnly.mapsAt (hm : MapsAt dirs p' d v w) : MapsAt dirs p d v w :=
  ⟨hm.1, hm.2.1, (h.entries d hm.1 v hm.2.1 hne) ▸ hm.2.2⟩

theorem EntryOnly.mapsAt' (hm : MapsAt dirs p d v w) : MapsAt dirs p' d v w :=
  ⟨hm.1, hm.2.1, (h.entries d hm.1 v hm.2.1 hne).trans hm.2.2⟩

theorem EntryOnly.hasPage
    (hnew : ∀ {w q}, Owns dirs p d v q → MapsAt dirs p' d0 v0 w → pageOf w ≠ q)
    (hp : HasPage dirs p d v f) : HasPage dirs p' d v f := by
  obtain ⟨q, ho, hf⟩ := hp
  obtain ⟨w, hm, rfl⟩ := ho.mapped
  refine ⟨pageOf w, ⟨⟨w, h.mapsAt' hne hm, rfl⟩, fun {d' v' w'} hm' hpage => ?_⟩, fun o ho' => ?_⟩
  · by_cases hc : d' = d0 ∧ v' = v0
    · obtain ⟨rfl, rfl⟩ := hc
      exact absurd hpage (hnew ho hm')
    · exact ho.only (h.mapsAt hc hm') hpage
  · rw [byte_congr (h.contents hm), hf o ho']

end

end

theorem EntryOnly.of_unmap (hi : Intact K extra dirs p)
    (hb : FewMappings dirs p) (hd : d ∈ dirs) (hv : v < userPages) :
    EntryOnly K dirs p d v (p.unmap d v) ∧ pteOf (p.unmap d v).mem d v = none := by
  have hun := hi.toAccounts.unmap hd hv fun q _ => hi.total_add_le hb q
  have hmaps : ∀ d' v' w', MapsAt dirs (p.unmap d v) d' v' w' → MapsAt dirs p d' v' w' := by
    intro d' v' w' hm
    refine hun.frame.mapsAt ?_ hm
    rintro ⟨rfl, rfl⟩
    have hw := hm.2.2
    rw [hun.gone] at hw
    cases hw
  refine ⟨⟨⟨extra, hi.unmap hun⟩, fun q => ?_, hun.frame.entries, fun hm => ?_⟩, hun.gone⟩
  · exact lt_of_le_of_lt (mapCount_mono hmaps q) (hb q)
  · exact hi.toAccounts.unmap_keeps hd hv (hi.plain hm)

/-- A new page of zeros has been mapped at `v` in `d`. -/
structure Allocated (K : Set Nat) (dirs : Finset Nat) (p : Phys) (d v : Nat) (p' : Phys) : Prop
    extends EntryOnly K dirs p d v p' where
  fresh : ∃ w, MapsAt dirs p' d v w ∧
    (∀ {d' v' w'}, MapsAt dirs p d' v' w' → pageOf w' ≠ pageOf w) ∧
    p'.mem (pageOf w) = fun _ => 0

theorem Allocated.zero (h : Allocated K dirs p d v p') : HasPage dirs p' d v fun _ => 0 := by
  obtain ⟨w, hm, hnew, hz⟩ := h.fresh
  refine ⟨pageOf w, ⟨⟨w, hm, rfl⟩, fun {d' v' w'} hm' hpage => ?_⟩, fun o _ => ?_⟩
  · by_contra hc
    exact hnew (h.mapsAt hc hm') hpage
  · unfold Phys.byte
    rw [hz]
    simp

theorem Allocated.other (h : Allocated K dirs p d0 v0 p') (hne : ¬(d = d0 ∧ v = v0))
    (hp : HasPage dirs p d v f) : HasPage dirs p' d v f := by
  refine h.toEntryOnly.hasPage hne (fun {w q} ho hm => ?_) hp
  obtain ⟨w0, hm0, hnew, _⟩ := h.fresh
  obtain rfl : w = w0 := Option.some.inj (hm.2.2.symm.trans hm0.2.2)
  obtain ⟨w1, hm1, rfl⟩ := ho.mapped
  exact (hnew hm1).symm

theorem Intact.insertFresh_wp {Q : Int → Phys → Prop} {E : Phys → Prop}
    (h : Intact K extra dirs p) (hb : FewMappings dirs p) (hq : p.pageFreeList = some q)
    (hi1 : Intact K extra' dirs p1) (hmem : p1.mem = (p.take allocZero q).mem)
    (hn : p1.npages = p.npages) (hk : p1.kernPgdir = p.kernPgdir) (hfree : ¬p1.Free q)
    (hd : d ∈ dirs) (hva : va.toNat < utop) (hperm : perm.toNat < 4096) (hfull : Q (-eNoMem) p1)
    (hok : ∀ p', Allocated K dirs p d (pgnum va) p' → Q 0 p') :
    wp (pageInsert (some d) q va perm) Q E p1 := by
  have hv := (lt_utop_iff va).mp hva
  obtain ⟨_, hfresh, hf⟩ := h.toAccounts.take (O := fun _ => False) (T := fun _ _ => False) hq
    allocZero
  have htake := h.take hq allocZero
  have hfk := hf.kernPgdir
  have hf1 := hf.trans (.of_mem_eq hmem (hn.trans hf.npages.symm) (hk.trans hf.kernPgdir.symm))
  have hplain : Plain K dirs p1 q :=
    (htake.toAccounts.plain hfresh.unused).congr hmem (hk.trans hfk.symm)
  have hlt : q < p1.npages := hn.symm ▸ h.toAccounts.head_lt hq
  have hpage := (pteWord_spec (h.toAccounts.lt_of_head hq) hperm).2
  have hnew : ∀ {d' v' w'}, MapsAt dirs p d' v' w' → pageOf w' ≠ q := fun hm he =>
    h.not_free_of_mapped hm (he ▸ h.toAccounts.free_of_head hq)
  have hzero : mapCount p1.mem dirs q = 0 := by
    rw [← hplain.total_eq]
    have hunused := hfresh.unused
    unfold Phys.total at hunused ⊢
    rw [hmem, hk, ← hfk]
    omega
  have hins := hi1.insert_wp (E := E) (Q := fun r p' => r = -eNoMem ∧ p' = p1 ∨ r = 0 ∧
      Intact K extra' dirs p' ∧ Inserted K extra' dirs p1 d (pgnum va) (pteWord q perm) p')
    (hb.frame hf1) hd hva hlt hplain hfree hperm (Or.inl ⟨rfl, rfl⟩)
    fun p' hi' hins => Or.inr ⟨rfl, hi', hins⟩
  have hkeep := pageInsert_keeps (E := E) hi1.toAccounts hd hva q perm
  refine wp_mono (wp_and hins hkeep) ?_ fun _ he => he.1
  rintro r p' ⟨⟨rfl, rfl⟩ | ⟨rfl, hi', hins⟩, hkeep⟩
  · exact hfull
  · have hm : MapsAt dirs p' d (pgnum va) (pteWord q perm) := ⟨hd, hv, hins.entry⟩
    refine hok p' ⟨⟨⟨extra', hi'⟩, (hb.frame hf1).insert hd hv hins ?_, ?_, ?_⟩, ⟨_, hm, ?_, ?_⟩⟩
    · rw [hpage, hzero]
      decide
    · intro d' hd' v' hv' hne
      rw [hins.frame.entries d' hd' v' hv' hne, hf1.entries d' hd' v' hv' id]
    · intro d' v' w' hm'
      have hm1 : MapsAt dirs p1 d' v' w' :=
        ⟨hm'.1, hm'.2.1, (hf1.entries d' hm'.1 v' hm'.2.1 id).trans hm'.2.2⟩
      rw [hkeep _ (hi1.plain hm1) (hi1.not_free_of_mapped hm1), hmem,
        p.take_mem_of_ne allocZero (hnew hm')]
    · intro d' v' w' hm'
      rw [hpage]
      exact hnew hm'
    · rw [hpage, hkeep q hplain hfree, hmem, take_mem_self]

theorem regionAllocPage_allocated {E : Phys → Prop} (h : Intact K extra dirs p)
    (hb : FewMappings dirs p) (hd : d ∈ dirs) (hva : va.toNat < utop) :
    wp (regionAllocPage (some d) va) (fun _ => Allocated K dirs p d (pgnum va)) E p := by
  unfold regionAllocPage
  rw [wp_bind]
  refine h.toAccounts.pageAlloc_wp wp_panic fun q hq => ?_
  obtain ⟨_, hfresh, hf⟩ := h.toAccounts.take (O := fun _ => False) (T := fun _ _ => False) hq
    allocZero
  obtain ⟨_, hextra⟩ := Nat.add_eq_zero_iff.mp hfresh.unused
  have hinc := (h.take hq allocZero).incref hfresh.not_free hextra
  rw [wp_bind]
  unfold incref
  rw [wp_modify, wp_bind]
  refine h.insertFresh_wp hb hq hinc rfl hf.npages hf.kernPgdir
    (fun hc => hfresh.not_free (free_setRef_iff.mp hc)) hd hva (by decide) ?_ fun p' hp' => ?_
  · exact wp_ite.mpr ⟨fun _ => wp_panic, fun hn => absurd (by decide) hn⟩
  · exact wp_ite.mpr ⟨fun hn => absurd rfl hn, fun _ => wp_pure.mpr hp'⟩

/-- The directories own the pages that `G` lists, with the bytes that it gives for them. -/
structure Contents (K : Set Nat) (dirs : Finset Nat) (G : Nat × Nat → Option (Nat → BitVec 8))
    (p : Phys) : Prop where
  intact : ∃ extra, Intact K extra dirs p
  few : FewMappings dirs p
  pages : ∀ {d v f}, G (d, v) = some f → HasPage dirs p d v f

variable {G G' : Nat × Nat → Option (Nat → BitVec 8)} {b : BitVec 8}

theorem replaced_byte_self (old : Word) (b : BitVec 8) {s : Nat} (hs : s < 4) :
    ((old &&& ~~~((0xff : Word) <<< (8 * s)) ||| b.setWidth 32 <<< (8 * s)) >>> (8 * s)).setWidth 8
      = b := by
  have hff : ∀ j < 8, (0xff : Word).getLsbD j = true := by decide
  ext i hi
  have hlt : 8 * s + i < 32 := by omega
  have hge : ¬8 * s + i < 8 * s := by omega
  have hsub : 8 * s + i - 8 * s = i := by omega
  have hi' : i < 32 := by omega
  simp only [getElem_setWidth, getLsbD_ushiftRight, getLsbD_or,
    getLsbD_and, getLsbD_not, getLsbD_shiftLeft, getLsbD_setWidth, hsub,
    hff i hi]
  simp [hlt, hge, hi', getLsbD_eq_getElem hi]

theorem Phys.setByte_byte_self : (p.setByte q va b).byte q (va.toNat % pgsize) = b := by
  unfold Phys.byte Phys.setByte
  rw [setWord_mem_apply, if_pos ⟨rfl, (wordIndex_eq va).symm⟩, byteShift_eq]
  exact replaced_byte_self _ _ (Nat.mod_lt _ (by decide))

section

variable (h : Contents K dirs G p)

include h

theorem Contents.weaken
    (hG : ∀ x f', G' x = some f' → ∃ f, G x = some f ∧ ∀ o < pgsize, f o = f' o) :
    Contents K dirs G' p := by
  refine ⟨h.intact, h.few, fun {d v f'} hx => ?_⟩
  obtain ⟨f, hf, hsame⟩ := hG _ _ hx
  obtain ⟨q, ho, hb⟩ := h.pages hf
  exact ⟨q, ho, fun o ho' => (hb o ho').trans (hsame o ho')⟩

theorem Contents.allocated (ha : Allocated K dirs p d v p') :
    Contents K dirs (update G (d, v) (some fun _ => 0)) p' := by
  refine ⟨ha.intact, ha.few, fun {d' v' f} hG => ?_⟩
  by_cases hx : (d', v') = (d, v)
  · rw [hx, update_self] at hG
    cases hx
    cases hG
    exact ha.zero
  · rw [update_of_ne hx] at hG
    exact ha.other (fun hc => hx (Prod.ext hc.1 hc.2)) (h.pages hG)

theorem Contents.setByte (hG : G (d, pgnum va) = some f) (hm : MapsAt dirs p d (pgnum va) w) :
    Contents K dirs (update G (d, pgnum va)
      (some (update f (va.toNat % pgsize) b))) (p.setByte (pageOf w) va b) := by
  obtain ⟨extra, hi⟩ := h.intact
  have hframe : Frame K dirs (fun _ => False) (fun _ _ => False) p (p.setByte (pageOf w) va b) :=
    (hi.plain hm).frame_setPage hi.toTables
  have hentry : ∀ {d' v' w'}, MapsAt dirs p d' v' w' →
      MapsAt dirs (p.setByte (pageOf w) va b) d' v' w' := fun hm' =>
    ⟨hm'.1, hm'.2.1, (hframe.entries _ hm'.1 _ hm'.2.1 id).trans hm'.2.2⟩
  have howns : ∀ {d' v' q'}, Owns dirs p d' v' q' →
      Owns dirs (p.setByte (pageOf w) va b) d' v' q' := by
    intro d' v' q' ho
    obtain ⟨w', hm', hpage⟩ := ho.mapped
    exact ⟨⟨w', hentry hm', hpage⟩, fun hm'' => ho.only (hframe.mapsAt id hm'')⟩
  refine ⟨⟨extra, hi.store hm _⟩, h.few.frame hframe, fun {d' v' g} hg => ?_⟩
  by_cases hx : (d', v') = (d, pgnum va)
  · rw [hx, update_self] at hg
    cases hx
    cases hg
    obtain ⟨q', ho, hf⟩ := h.pages hG
    obtain ⟨w', hm', rfl⟩ := ho.mapped
    obtain rfl : w = w' := Option.some.inj (hm.2.2.symm.trans hm'.2.2)
    refine ⟨pageOf w, howns ho, fun o ho' => ?_⟩
    by_cases hoff : o = va.toNat % pgsize
    · rw [hoff, update_self, setByte_byte_self]
    · rw [update_of_ne hoff, setByte_byte fun _ => hoff, hf o ho']
  · rw [update_of_ne hx] at hg
    obtain ⟨q', ho, hf⟩ := h.pages hg
    have hne : q' ≠ pageOf w := by
      rintro rfl
      obtain ⟨rfl, rfl⟩ := ho.only hm rfl
      exact hx rfl
    refine ⟨q', howns ho, fun o ho' => ?_⟩
    rw [byte_congr (setByte_mem hne), hf o ho']

end

theorem storeByte_filled {E : Kernel → Prop} (h : Contents K dirs G k.phys) (hd : k.cr3 ∈ dirs)
    (hva : va.toNat < utop) (hG : G (k.cr3, pgnum va) = some f) :
    wp (storeByte va b) (fun _ k' => SameEnvs k k' ∧ Contents K dirs
      (update G (k.cr3, pgnum va) (some (update f (va.toNat % pgsize) b)))
      k'.phys) E k := by
  cases ht : k.phys.translate k.cr3 va true with
  | none =>
    unfold storeByte
    rw [wp_bind, wp_get, show (k.cpus k.cpunum).cr3 = k.cr3 from rfl, ht]
    exact wp_panic
  | some page =>
    obtain ⟨w, hm, rfl⟩ := translate_user hd hva ht
    exact (wp_of_ret (storeByte_run ht)).mpr ⟨⟨rfl, rfl, rfl, rfl, rfl⟩, h.setByte hG hm⟩

open Classical in
/-- As `G`, but the pages `S` of `d` hold the bytes of the image `m`. -/
noncomputable def overlay (G : Nat × Nat → Option (Nat → BitVec 8)) (d : Nat) (S : Set Nat)
    (m : Image) : Nat × Nat → Option (Nat → BitVec 8) := fun x =>
  if x.1 = d ∧ x.2 ∈ S then some fun o => m (x.2 * pgsize + o) else G x

variable {S : Set Nat} {m m' : Image} {n : Nat} {bytes : Nat → BitVec 8}

theorem overlay_of_mem (hv : v ∈ S) :
    overlay G d S m (d, v) = some fun o => m (v * pgsize + o) := if_pos ⟨rfl, hv⟩

theorem overlay_of_not_mem (h : ¬(d' = d ∧ v ∈ S)) : overlay G d S m (d', v) = G (d', v) := if_neg h

theorem overlay_empty : overlay G d ∅ m = G := by
  funext x
  exact if_neg fun hc => hc.2

theorem div_page_add {o : Nat} (ho : o < pgsize) : (v * pgsize + o) / pgsize = v := by
  rw [Nat.add_comm, Nat.add_mul_div_right _ _ (by decide), Nat.div_eq_of_lt ho, Nat.zero_add]

theorem Contents.overlay_update (h : Contents K dirs (update (overlay G d S m) (d, v) (some f)) p)
    (hf : ∀ o < pgsize, f o = m' (v * pgsize + o)) (hm : ∀ x, x / pgsize ≠ v → m' x = m x) :
    Contents K dirs (overlay G d (insert v S) m') p := by
  refine h.weaken fun ⟨d', v'⟩ f' hx => ?_
  by_cases hv : (d', v') = (d, v)
  · cases hv
    rw [overlay_of_mem (mem_insert _ _)] at hx
    cases hx
    exact ⟨f, update_self .., hf⟩
  rw [update_of_ne hv]
  by_cases hc : d' = d ∧ v' ∈ S
  · obtain ⟨rfl, hv'⟩ := hc
    rw [overlay_of_mem (mem_insert_of_mem _ hv')] at hx
    cases hx
    refine ⟨_, overlay_of_mem hv', fun o ho => (hm _ ?_).symm⟩
    rw [div_page_add ho]
    exact fun he => hv (Prod.ext rfl he)
  · rw [overlay_of_not_mem] at hx
    · exact ⟨f', (overlay_of_not_mem hc).trans hx, fun _ _ => rfl⟩
    · rintro ⟨rfl, hv' | hv'⟩
      · exact hv (Prod.ext rfl hv')
      · exact hc ⟨rfl, hv'⟩

theorem Contents.overlay_allocated (h : Contents K dirs (overlay G d S m) p)
    (ha : Allocated K dirs p d v p') :
    Contents K dirs (overlay G d (insert v S) (setBytes m (v * pgsize) pgsize fun _ => 0)) p' := by
  refine (h.allocated ha).overlay_update (fun o ho => ?_) fun x hx => ?_
  · rw [setBytes_of_mem (by omega) (by omega)]
  · apply setBytes_of_not_mem
    have hpos : 0 < pgsize := by decide
    by_contra hc
    exact hx (Nat.div_eq_of_lt_le (by omega) (by rw [Nat.add_mul]; omega))

/-- The pages of the addresses from `a` to `a + n`, as the code rounds them. -/
def touched (a n : Nat) : Set Nat := Set.Ico (a / pgsize) ((a + n + pgsize - 1) / pgsize)

theorem mem_touched {a i : Nat} (hi : i < n) : (a + i) / pgsize ∈ touched a n := by
  refine ⟨Nat.div_le_div_right (by omega), ?_⟩
  rw [Nat.div_lt_iff_lt_mul (by decide)]
  have := Nat.lt_div_mul_add (a := a + n - 1) (b := pgsize) (by decide)
  have := Nat.add_div_right (a + n - 1) (z := pgsize) (by decide)
  rw [show a + n + pgsize - 1 = a + n - 1 + pgsize by omega, this, Nat.succ_mul]
  omega

theorem regionAlloc_filled {E : Phys → Prop} {len : Word} (h : Contents K dirs (overlay G d S m) p)
    (hd : d ∈ dirs) (hend : va.toNat + len.toNat ≤ utop) :
    wp (regionAlloc (some d) va len) (fun _ => Contents K dirs (overlay G d
      (S ∪ touched va.toNat len.toNat) (setBytes m (va.toNat / pgsize * pgsize)
        (((va.toNat + len.toNat + pgsize - 1) / pgsize - va.toNat / pgsize) * pgsize) fun _ => 0)))
      E p := by
  have hutop : utop = 4005560320 := rfl
  have hpos : 0 < pgsize := by decide
  have hsum : (va + len).toNat = va.toNat + len.toNat := by bv_omega
  have hup :
      (roundup (va + len)).toNat = (va.toNat + len.toNat + pgsize - 1) / pgsize * pgsize := by
    rw [roundup_toNat, hsum]
    rw [hsum]
    unfold pgsize
    omega
  have hdown := rounddown_toNat va
  have hpages : touched va.toNat len.toNat = Set.Ico (va.toNat / pgsize) (va.toNat / pgsize +
      ((va.toNat + len.toNat + pgsize - 1) / pgsize - va.toNat / pgsize)) := by
    unfold touched
    rw [Nat.add_sub_cancel' (Nat.div_le_div_right (by omega))]
  unfold regionAlloc
  refine wp_ite.mpr ⟨fun _ => wp_bind.mpr wp_panic, fun _ => ?_⟩
  rw [hpages, show ((roundup (va + len)).toNat - (rounddown va).toNat) / pgsize =
    (va.toNat + len.toNat + pgsize - 1) / pgsize - va.toNat / pgsize by
      rw [hup, hdown, ← Nat.sub_mul, Nat.mul_div_cancel _ (by decide)]]
  refine wp_times (fun i => Contents K dirs (overlay G d
    (S ∪ Set.Ico (va.toNat / pgsize) (va.toNat / pgsize + i))
    (setBytes m (va.toNat / pgsize * pgsize) (i * pgsize) fun _ => 0))) ?_ fun i hi p1 h1 => ?_
  · rw [Nat.zero_mul, setBytes_zero, Nat.add_zero, Set.Ico_self, union_empty]
    exact h
  · have haddr : (rounddown va + toWord (i * pgsize)).toNat =
        (va.toNat / pgsize + i) * pgsize ∧ (va.toNat / pgsize + i) * pgsize < utop := by
      rw [BitVec.toNat_add, BitVec.toNat_ofNat, hdown]
      unfold pgsize at hi ⊢
      omega
    obtain ⟨extra, hi1⟩ := h1.intact
    refine wp_imp (regionAllocPage_allocated hi1 h1.few hd ?_) fun _ p2 ha => ?_
    · rw [haddr.1]
      exact haddr.2
    · have hpg : pgnum (rounddown va + toWord (i * pgsize)) = va.toNat / pgsize + i := by
        rw [pgnum_eq, haddr.1]
        exact Nat.mul_div_cancel _ hpos
      have h2 := h1.overlay_allocated (hpg ▸ ha)
      have happ := setBytes_append (m := m) (a := va.toNat / pgsize * pgsize) (n := i * pgsize)
        (k := pgsize) (f := fun _ => 0)
      rw [← Nat.add_mul] at happ
      rwa [happ, ← union_insert, insert_Ico_right_eq_Ico_add_one (Nat.le_add_right _ i),
        ← Nat.succ_mul] at h2

theorem storeByte_overlay {E : Kernel → Prop} (h : Contents K dirs (overlay G k.cr3 S m) k.phys)
    (hd : k.cr3 ∈ dirs) (hva : va.toNat < utop) (hS : va.toNat / pgsize ∈ S) :
    wp (storeByte va b) (fun _ k' => SameEnvs k k' ∧
      Contents K dirs (overlay G k.cr3 S (setBytes m va.toNat 1 fun _ => b)) k'.phys) E k := by
  have hpg : pgnum va = va.toNat / pgsize := pgnum_eq va
  have hsplit : pgnum va * pgsize + va.toNat % pgsize = va.toNat := by
    rw [hpg, mul_comm]
    exact Nat.div_add_mod va.toNat pgsize
  rw [← hpg] at hS
  refine wp_imp (storeByte_filled h hd hva (overlay_of_mem hS)) ?_
  rintro _ k' ⟨hs, h'⟩
  rw [← insert_eq_of_mem hS]
  refine ⟨hs, h'.overlay_update (fun o _ => ?_) fun x hx => ?_⟩
  · by_cases ho : o = va.toNat % pgsize
    · rw [ho, update_self, hsplit, setBytes_of_mem le_rfl (by omega)]
    · rw [update_of_ne ho, setBytes_of_not_mem (by omega)]
  · apply setBytes_of_not_mem
    by_contra hc
    obtain rfl : x = va.toNat := by omega
    exact hx hpg.symm

theorem SameEnvs.cr3 (h : SameEnvs k k') : k'.cr3 = k.cr3 := by
  unfold Kernel.cr3
  rw [h.cpus, h.cpunum]

theorem copyOut_filled {E : Kernel → Prop} (h : Contents K dirs (overlay G k.cr3 S m) k.phys)
    (hd : k.cr3 ∈ dirs) (hend : va.toNat + n ≤ utop)
    (hS : ∀ i < n, (va.toNat + i) / pgsize ∈ S) :
    wp (copyOut va n bytes) (fun _ k' => SameEnvs k k' ∧
      Contents K dirs (overlay G k.cr3 S (setBytes m va.toNat n bytes)) k'.phys) E k := by
  unfold copyOut
  refine wp_times (fun i k' => SameEnvs k k' ∧
    Contents K dirs (overlay G k.cr3 S (setBytes m va.toNat i bytes)) k'.phys) ?_ ?_
  · rw [setBytes_zero]
    exact ⟨.refl k, h⟩
  · rintro i hi k1 ⟨hs, h1⟩
    have hutop : utop = 4005560320 := rfl
    have haddr : (va + toWord i).toNat = va.toNat + i := by bv_omega
    rw [← hs.cr3] at h1
    refine wp_imp (storeByte_overlay h1 (hs.cr3 ▸ hd) (by omega) (haddr ▸ hS i hi)) ?_
    rintro _ k2 ⟨hs2, h2⟩
    rw [hs.cr3, haddr] at h2
    have hone : setBytes (setBytes m va.toNat i bytes) (va.toNat + i) 1 (fun _ => bytes i) =
        setBytes m va.toNat (i + 1) bytes := by
      rw [← setBytes_append]
      apply setBytes_congr
      intro j hj
      rw [show j = 0 by omega, Nat.add_zero]
    exact ⟨hs.trans hs2, hone ▸ h2⟩

end Jos
