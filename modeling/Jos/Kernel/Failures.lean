import Jos.Kernel.Snapshot

/-!
# Memory calls that fail

A memory call that returns an error is to leave no trace. Each checks its arguments first, except
that `sys_page_alloc` takes a page before it looks up the environment: if there is none, the page is
on no list any more and mapped nowhere.
-/

namespace Jos

open Logic BitVec

variable {extra : Nat → Nat} {k k' : Kernel} {p p' : Phys} {c d e q v : Nat}
  {envid va perm : Word} {E : Kernel → Prop} {dirs : Finset Nat}

inductive MemoryCall where
  | pageAlloc (envid va perm : Word)
  | pageMap (srcenvid srcva dstenvid dstva perm : Word)
  | pageUnmap (envid va : Word)
  | exofork

def MemoryCall.run : MemoryCall → Kern Int
  | .pageAlloc envid va perm => sysPageAlloc envid va perm
  | .pageMap srcenvid srcva dstenvid dstva perm => sysPageMap srcenvid srcva dstenvid dstva perm
  | .pageUnmap envid va => sysPageUnmap envid va
  | .exofork => sysExofork

/-- A `sys_page_alloc` that finds a free page and no environment. -/
def MemoryCall.Leaks (k : Kernel) : MemoryCall → Prop
  | .pageAlloc envid va perm =>
    va.toNat < utop ∧ va.toNat % pgsize = 0 ∧ permOk perm ∧ k.phys.pageFreeList ≠ none ∧
      ∀ e, ¬ Names k envid true e
  | _ => False

/-- The directory `d` maps the same pages, below `UTOP` with the same contents. -/
structure SameSpace (d : Nat) (p p' : Phys) : Prop where
  rows : p'.mem d = p.mem d
  entries : ∀ v < 1048576, pteOf p'.mem d v = pteOf p.mem d v
  contents : ∀ v < userPages, ∀ w, pteOf p.mem d v = some w →
    p'.mem (pageOf w) = p.mem (pageOf w)

structure Unchanged (k k' : Kernel) : Prop where
  envs : k'.envs = k.envs
  envFreeList : k'.envFreeList = k.envFreeList
  refs : ∀ q, (k'.phys.pages q).ppRef = (k.phys.pages q).ppRef
  free : ∀ q, k'.phys.Free q ↔ k.phys.Free q
  space : ∀ e d, k.Live e → (k.envs e).envPgdir = some d → SameSpace d k.phys k'.phys

theorem SameSpace.refl (d : Nat) (p : Phys) : SameSpace d p p :=
  ⟨rfl, fun _ _ => rfl, fun _ _ _ _ => rfl⟩

theorem Unchanged.refl (k : Kernel) : Unchanged k k :=
  ⟨rfl, rfl, fun _ => rfl, fun _ => Iff.rfl, fun _ d _ _ => .refl d k.phys⟩

section

variable (h : Intact (kernPages p) extra dirs p)

include h

theorem Intact.table_cases {t i : Nat} (hd : d ∈ dirs) (hi : i < 1024)
    (ht : tableOf p.mem d i = some t) : i < userTables ∨ t = d ∨ t ∈ kernPages p := by
  by_cases hu : i < userTables
  · exact .inl hu
  · obtain ⟨hp, hpage⟩ := tableOf_eq_some.mp ht
    have hrow := h.upper d hd i (by omega) hi
    rw [hrow] at hp hpage
    by_cases hself : i = uvptIndex
    · rw [if_pos hself] at hpage
      have hlt := h.dir_lt d hd
      have hsame : pageOf (selfEntry d) = d := by
        unfold selfEntry
        rw [BitVec.or_assoc]
        exact pageOf_page2pa_or (by have := p.npages_le; omega) (by decide)
      exact .inr (.inl (hpage.symm.trans hsame))
    · rw [if_neg hself] at hp hpage
      exact .inr (.inr (.inr ⟨i, hi, hself, tableOf_eq_some.mpr ⟨hp, hpage⟩⟩))

theorem Intact.sameSpace
    (hd : d ∈ dirs) (hdir : p'.mem d = p.mem d) (hkern : ∀ x ∈ kernPages p, p'.mem x = p.mem x)
    (htab : ∀ {i t}, TableAt dirs p d i t → p'.mem t = p.mem t)
    (hpage : ∀ {v w}, MapsAt dirs p d v w → p'.mem (pageOf w) = p.mem (pageOf w)) :
    SameSpace d p p' := by
  refine ⟨hdir, fun v hv => ?_, fun v hv w hw => hpage ⟨hd, hv, hw⟩⟩
  refine pteOf_congr (tableOf_congr (by rw [hdir])) fun t ht => ?_
  rcases h.table_cases hd (by omega) ht with hi | rfl | hk
  · rw [htab ⟨hd, h.toTables.own_of_user hi, ht⟩]
  · rw [hdir]
  · rw [hkern t hk]

theorem Intact.sameSpace_of_free
    (hd : d ∈ dirs) (hm : ∀ x, ¬ p.Free x → p'.mem x = p.mem x) : SameSpace d p p' := by
  have hused : ∀ {x}, 0 < p.total dirs x + extra x → p'.mem x = p.mem x := fun hpos =>
    hm _ (h.toAccounts.not_free hpos)
  refine h.sameSpace hd (hused ?_) (fun x hx => hused ?_) (fun ht => hused ?_)
    fun hmaps => hm _ (h.not_free_of_mapped hmaps)
  · exact Nat.add_pos_left (Phys.total_pos_of_dir hd) _
  · exact Nat.add_pos_right _ (h.extra_pos x hx)
  · exact Nat.add_pos_left (Phys.total_pos_of_table ht) _

end

theorem curenv_run (hcur : k.curenv = some c) : curenv k = .ret c k := by
  refine bind_run (get_apply k) ?_
  rw [hcur]
  rfl

theorem envid2env_bad (hcur : k.curenv = some c) (h : ∀ e, ¬ Names k envid true e) :
    envid2env envid true k = .ret (.error (-eBadEnv)) k := by
  unfold envid2env
  by_cases h0 : envid = 0
  · exact absurd (.inl ⟨h0, hcur⟩) (h c)
  · rw [if_neg h0]
    refine bind_run (bind_run (get_apply k) rfl) ?_
    by_cases hbad : (k.envs (envx envid)).envStatus = .free ∨ (k.envs (envx envid)).envId ≠ envid
    · rw [if_pos hbad]
      rfl
    · rw [if_neg hbad, if_pos rfl]
      refine bind_run (curenv_run hcur) ?_
      refine bind_run (bind_run (get_apply k) rfl) ?_
      rw [if_pos]
      · rfl
      · obtain ⟨hlive, hid⟩ := not_or.mp hbad
        have hnot : ¬ (envx envid = c ∨
            (k.envs (envx envid)).envParentId = (k.envs c).envId) := fun hp =>
          h _ (.inr ⟨h0, rfl, hlive, not_not.mp hid, fun _ => ⟨c, hcur, hp⟩⟩)
        exact not_or.mp hnot

theorem envid2env_ok (h : Names k envid true e) : envid2env envid true k = .ret (.ok e) k := by
  unfold envid2env
  rcases h with ⟨rfl, hcur⟩ | ⟨h0, rfl, hlive, hid, hperm⟩
  · rw [if_pos rfl]
    exact bind_run (curenv_run hcur) rfl
  · obtain ⟨cur, hcur, hp⟩ := hperm rfl
    rw [if_neg h0]
    refine bind_run (bind_run (get_apply k) rfl) ?_
    rw [if_neg (not_or.mpr ⟨hlive, not_not.mpr hid⟩), if_pos rfl]
    refine bind_run (curenv_run hcur) ?_
    refine bind_run (bind_run (get_apply k) rfl) ?_
    rw [if_neg fun hn => hp.elim hn.1 hn.2]
    rfl

theorem sysPageMap_fails (srcenvid srcva dstenvid dstva perm : Word) :
    wp (sysPageMap srcenvid srcva dstenvid dstva perm) (fun r k' => r < 0 → k' = k) E k := by
  have hsame : ∀ r : Int, r < 0 → k = k := fun _ _ => rfl
  unfold sysPageMap
  rw [wp_bind]
  refine envid2env_wp (wp_pure.mpr (hsame _)) fun src _ => ?_
  rw [wp_bind]
  refine envid2env_wp (wp_pure.mpr (hsame _)) fun dst _ => ?_
  refine wp_ite.mpr ⟨fun _ => wp_pure.mpr (hsame _), fun _ => ?_⟩
  rw [wp_bind, wp_env, wp_bind, wp_onPhys]
  refine pageLookup_wp fun r _ => ?_
  rcases r with _ | ⟨pp, pte⟩
  · exact wp_pure.mpr (hsame _)
  · rw [wp_bind, wp_onPhys, wp_of_ret (loadPte_eq rfl)]
    refine wp_ite.mpr ⟨fun _ => wp_pure.mpr (hsame _), fun _ => ?_⟩
    refine wp_ite.mpr ⟨fun _ => wp_pure.mpr (hsame _), fun _ => ?_⟩
    rw [wp_bind, wp_env, wp_bind, wp_onPhys]
    refine pageInsert_wp (fun _ => ?_) fun p1 _ => ?_
    · exact wp_ite.mpr ⟨fun _ => wp_pure.mpr (hsame _), fun hneg => absurd (by decide) hneg⟩
    · refine wp_ite.mpr ⟨fun hneg => absurd hneg (by decide), fun _ => ?_⟩
      exact wp_pure.mpr fun hneg => absurd hneg (by decide)

theorem sysPageUnmap_fails (envid va : Word) :
    wp (sysPageUnmap envid va) (fun r k' => r < 0 → k' = k) E k := by
  have hsame : ∀ r : Int, r < 0 → k = k := fun _ _ => rfl
  unfold sysPageUnmap
  rw [wp_bind]
  refine envid2env_wp (wp_pure.mpr (hsame _)) fun e _ => ?_
  refine wp_ite.mpr ⟨fun _ => wp_pure.mpr (hsame _), fun _ => ?_⟩
  rw [wp_bind, wp_env, wp_bind, wp_onPhys]
  refine (pageRemove_noExit _ _).wp fun _ _ _ => ?_
  exact wp_pure.mpr fun hneg => absurd hneg (by decide)

theorem nextEnvId_pos (old : Word) (he : e < nenv) : 0 < (nextEnvId old e).toInt := by
  unfold nextEnvId
  dsimp only
  generalize hg : (if ((old + envgen) &&& ~~~(0x3ff : Word)).toInt ≤ 0 then envgen
    else (old + envgen) &&& ~~~(0x3ff : Word)) = g
  have hpos : 0 < g.toInt := by
    rw [← hg]
    split
    · decide
    · omega
  have hlt : 0 < g.toNat ∧ g.toNat < 2 ^ 31 := by
    rw [toInt_eq_toNat_cond] at hpos
    have := g.isLt
    split at hpos <;> omega
  have hslot : (toWord e).toNat < 2 ^ 31 := by
    rw [toNat_ofNat]
    unfold nenv at he
    omega
  have hor : (g ||| toWord e).toNat < 2 ^ 31 := by
    rw [toNat_or]
    exact Nat.or_lt_two_pow hlt.2 hslot
  have hle : g.toNat ≤ (g ||| toWord e).toNat := by
    rw [toNat_or]
    exact Nat.left_le_or
  rw [toInt_eq_toNat_of_lt (by omega)]
  omega

theorem Phys.push_take (hq : p.pageFreeList = some q) (hlink : (p.pages q).ppLink = none)
    (href : (p.pages q).ppRef = 0) :
    (p.take allocZero q).push q = p.setPage q fun _ => 0 := by
  have hz : allocZero &&& allocZero ≠ 0 := by decide
  have hpages : Function.update p.pages q ⟨none, 0⟩ = p.pages := by
    rw [← hlink, ← href, Function.update_eq_self]
  unfold Phys.take Phys.push
  rw [if_pos hz]
  simp only [Phys.setLink, Phys.setRef, Phys.setPage, Phys.pop, hlink, hq, hpages, href]

section

variable (h : Spaces (kernPages k.phys) extra k)

include h

theorem sysExofork_fails : wp sysExofork (fun r k' => r < 0 → Unchanged k k') E k := by
  unfold sysExofork
  rw [wp_bind, wp_curenv]
  intro cur _
  rw [wp_bind, wp_env, wp_bind]
  refine envAlloc_wp ?_ ?_
  · intro r k' hsame hphys
    have hp : k'.phys = k.phys := by
      rcases hphys with hp | hrun
      · exact hp
      · exact setupVm_inv_none h.intact.toAccounts hrun
    refine wp_pure.mpr fun _ => ⟨hsame.envs, hsame.envFreeList, ?_, ?_, ?_⟩
    · exact fun _ => by rw [hp]
    · exact fun _ => by rw [hp]
    · exact fun _ d _ _ => hp ▸ .refl d k.phys
  · intro e q k' ha
    have he := (h.free_list.head ha.head).1
    have hid : (k'.envs e).envId = nextEnvId (k.envs e).envId e := by rw [ha.entry]
    simp only [wp_bind, wp_setEnv, wp_modify, wp_env, wp_pure, Kernel.setEnv_self, hid]
    have hpos := nextEnvId_pos (k.envs e).envId he
    exact fun hneg => absurd hneg (by omega)

theorem sysPageAlloc_fails (hok : ¬ (MemoryCall.pageAlloc envid va perm).Leaks k) :
    wp (sysPageAlloc envid va perm) (fun r k' => r < 0 → Unchanged k k') E k := by
  have hrefl : ∀ r : Int, r < 0 → Unchanged k k := fun _ _ => .refl k
  unfold sysPageAlloc
  refine wp_ite.mpr ⟨fun _ => wp_pure.mpr (hrefl _), fun hva => ?_⟩
  refine wp_ite.mpr ⟨fun _ => wp_pure.mpr (hrefl _), fun hperm => ?_⟩
  obtain ⟨hva, hoff⟩ := not_or.mp hva
  rw [Bool.not_eq_false] at hperm
  rw [wp_bind, wp_onPhys]
  refine h.intact.toAccounts.pageAlloc_wp (wp_pure.mpr (hrefl _)) fun q hq => ?_
  obtain ⟨e, hnames⟩ : ∃ e, Names k envid true e := by
    by_contra hnone
    refine hok ⟨not_le.mp hva, not_not.mp hoff, hperm, ?_, fun e he => hnone ⟨e, he⟩⟩
    exact fun hnil => by cases hq.symm.trans hnil
  have hnames' : Names { k with phys := k.phys.take allocZero q } envid true e := hnames
  rw [wp_bind, wp_of_ret (envid2env_ok hnames'), wp_bind, wp_env, wp_bind, wp_onPhys]
  refine pageInsert_wp (fun hfull => ?_) fun p1 _ => ?_
  · refine wp_ite.mpr ⟨fun _ => ?_, fun hneg => absurd (by decide) hneg⟩
    obtain ⟨hlt, hzero⟩ := h.intact.toAccounts.of_free (h.intact.toAccounts.free_of_head hq)
    have href : (k.phys.pages q).ppRef = 0 := by
      rw [h.intact.refs q hlt, hzero]
      rfl
    have hlink : (k.phys.pages q).ppLink = none := by
      rw [← hfull]
      unfold Phys.take
      split <;> rfl
    have href' : ((k.phys.take allocZero q).pages q).ppRef = 0 := by
      unfold Phys.take
      rw [Phys.setRef_ppRef, if_pos rfl]
    rw [wp_bind, wp_onPhys, wp_of_ret (pageFree_eq href'), wp_pure]
    intro _
    dsimp only
    rw [Phys.push_take hq hlink href]
    refine ⟨rfl, rfl, fun _ => rfl, fun _ => Iff.rfl, fun e d he hd => ?_⟩
    refine h.intact.sameSpace_of_free (mem_dirs.mpr ⟨e, he, hd⟩) fun x hx => ?_
    have hne : x ≠ q := fun heq => hx (heq ▸ h.intact.toAccounts.free_of_head hq)
    simp [hne]
  · refine wp_ite.mpr ⟨fun hneg => absurd hneg (by decide), fun _ => ?_⟩
    exact wp_pure.mpr fun hneg => absurd hneg (by decide)

theorem sysPageAlloc_leaks (hcur : k.curenv = some c)
    (hleak : (MemoryCall.pageAlloc envid va perm).Leaks k) :
    ∃ k', sysPageAlloc envid va perm k = .ret (-eBadEnv) k' ∧ ¬ Unchanged k k' := by
  obtain ⟨hva, hoff, hperm, hlist, hnames⟩ := hleak
  obtain ⟨q, hq⟩ := Option.ne_none_iff_exists'.mp hlist
  obtain ⟨-, hfresh, -⟩ := h.intact.toAccounts.take (O := fun _ => False)
    (T := fun _ _ => False) hq allocZero
  refine ⟨{ k with phys := k.phys.take allocZero q }, ?_, fun hun => ?_⟩
  · unfold sysPageAlloc
    rw [if_neg (not_or.mpr ⟨not_le.mpr hva, not_not.mpr hoff⟩), if_neg (by simp [hperm])]
    have halloc := pageAlloc_of_some hq (h.intact.toAccounts.head_lt hq) allocZero
    refine bind_run (zoom_of_ret halloc) ?_
    exact bind_run (envid2env_bad (c := c) hcur hnames) rfl
  · exact hfresh.not_free ((hun.free q).mpr (h.intact.toAccounts.free_of_head hq))

end

/-- Every failing memory call leaves the state as it was, unless it is a `sys_page_alloc` that takes
a page and then does not find the environment. -/
theorem failing_memory_calls (h : Spaces (kernPages k.phys) extra k) (hcur : k.curenv = some c)
    (call : MemoryCall) :
    (∀ r k', call.run k = .ret r k' → r < 0 → Unchanged k k') ↔ ¬ call.Leaks k := by
  cases call with
  | pageAlloc envid va perm =>
    constructor
    · intro hall hleak
      obtain ⟨k', hrun, hchanged⟩ := sysPageAlloc_leaks h hcur hleak
      exact hchanged (hall _ k' hrun (by decide))
    · intro hok r k' hrun
      exact (wp_of_ret hrun).mp (sysPageAlloc_fails (E := fun _ => True) h hok)
  | pageMap srcenvid srcva dstenvid dstva perm =>
    refine iff_of_true (fun r k' hrun hneg => ?_) id
    obtain rfl := (wp_of_ret hrun).mp
      (sysPageMap_fails srcenvid srcva dstenvid dstva perm (E := fun _ => True)) hneg
    exact .refl k'
  | pageUnmap envid va =>
    refine iff_of_true (fun r k' hrun hneg => ?_) id
    obtain rfl := (wp_of_ret hrun).mp (sysPageUnmap_fails envid va (E := fun _ => True)) hneg
    exact .refl k'
  | exofork =>
    refine iff_of_true (fun r k' hrun => ?_) id
    exact (wp_of_ret hrun).mp (sysExofork_fails (E := fun _ => True) h)

/-- A call with an address above `UTOP`. -/
theorem failing_alloc_above : ∃ r k', (MemoryCall.pageAlloc 0 0xeec00000 7).run nursery =
    .ret r k' ∧ r < 0 ∧ Unchanged nursery k' := by
  obtain ⟨⟨extra, hs⟩, -⟩ := nursery_sound
  have hall := (failing_memory_calls hs nursery_cur (.pageAlloc 0 0xeec00000 7)).mpr
    fun hleak => absurd hleak.1 (by decide)
  exact ⟨_, _, rfl, by decide, hall _ _ rfl (by decide)⟩

/-- A call for the free slot 5. -/
theorem failing_alloc_leaks : ∃ k', (MemoryCall.pageAlloc 0x1005 0xa00000 7).run nursery =
    .ret (-eBadEnv) k' ∧ ¬ Unchanged nursery k' := by
  obtain ⟨⟨extra, hs⟩, -⟩ := nursery_sound
  refine sysPageAlloc_leaks hs nursery_cur ⟨by decide, by decide, by decide, ?_, ?_⟩
  · decide +kernel
  · rintro e (⟨h0, -⟩ | ⟨-, rfl, hlive, -⟩)
    · exact absurd h0 (by decide)
    · exact hlive (by decide +kernel)

end Jos
