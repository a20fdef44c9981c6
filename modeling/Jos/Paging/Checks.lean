import Jos.Paging.Operations
import Mathlib.Order.Bounds.Defs

/-!
# What `user_mem_check` establishes

The loop admits a page below `ULIM` whose entry has all bits of `perm`. That is not the permission
to access it: `page_remove` leaves the other bits when it clears `PTE_P`, and the end of a range can
wrap around. `CheckSound` is what the check is to establish.
-/

namespace Jos

open Logic

variable {p : Phys} {d t v a : Nat} {va len perm endAddr addr : Word}

/-- The page number `v` passes the tests of the loop. -/
def Admits (p : Phys) (d : Nat) (perm : Word) (v : Nat) : Prop :=
  v < ulim / pgsize ∧ ∃ t, tableOf p.mem d (v / 1024) = some t ∧ t < p.npages ∧
    ~~~(p.mem t (v % 1024)) &&& perm = 0

/-- The check returns 0. -/
def Passes (p : Phys) (d : Nat) (va len perm : Word) : Prop :=
  ∃ p', userMemCheck (some d) va len perm p = .ret 0 p'

theorem pgdirWalk_outside (ht : tableOf p.mem d (pdx va) = some t) (hlt : p.npages ≤ t)
    (create : Bool) :
    pgdirWalk (some d) va create p = .panic "KADDR called with invalid pa" := by
  obtain ⟨hp, rfl⟩ := tableOf_eq_some.mp ht
  refine bind_run (loadPte_eq rfl) ?_
  rw [if_pos hp]
  refine bind_panic (bind_run (get_apply p) ?_)
  rw [if_pos hlt]
  rfl

theorem ulim_pages : ulim / pgsize = 980992 := rfl

theorem next_page (h : addr.toNat / pgsize < ulim / pgsize) :
    (roundup (addr + 1)).toNat / pgsize = addr.toNat / pgsize + 1 := by
  rw [ulim_pages] at h
  unfold pgsize at h
  have hsum : (addr + 1).toNat = addr.toNat + 1 := by bv_omega
  rw [roundup_toNat (by unfold pgsize; omega), hsum, Nat.mul_div_cancel _ (by decide)]
  unfold pgsize
  omega

/-- What a refusal leaves. -/
def Phys.refuse (p : Phys) (addr : Word) : Phys := { p with userMemCheckAddr := addr }

/-- The table of the page number `v`, if there is one, is a page of memory. -/
def TableIn (p : Phys) (d v : Nat) : Prop :=
  ∀ t, tableOf p.mem d (v / 1024) = some t → t < p.npages

/-- The page number `v` is the first one from `first` on that is not admitted, and is in
front of `last`. -/
structure FirstRefused (p : Phys) (d : Nat) (perm : Word) (first last v : Nat) : Prop where
  ge : first ≤ v
  lt : v < last
  before : ∀ u, first ≤ u → u < v → Admits p d perm u
  refused : ¬ Admits p d perm v

theorem userMemCheckLoop_refuses (fuel : Nat) (hlt : addr.toNat < endAddr.toNat)
    (hnot : ¬ Admits p d perm (pgnum addr)) (hin : TableIn p d (pgnum addr)) :
    userMemCheckLoop (some d) endAddr perm (fuel + 1) addr p = .ret (-eFault) (p.refuse addr) := by
  rw [userMemCheckLoop, if_pos hlt]
  cases ht : tableOf p.mem d (pdx addr) with
  | none => exact bind_run (pgdirWalk_of_none ht) rfl
  | some t =>
    have htin : t < p.npages := hin t (by rwa [← pdx_eq])
    refine bind_run (pgdirWalk_of_some ht htin false) ?_
    refine bind_run (loadPte_eq rfl) (congrFun (if_pos ?_) p)
    by_contra hok
    rw [not_or, not_not, not_le] at hok
    refine hnot ⟨?_, t, by rwa [← pdx_eq], htin, by rw [← ptx_eq]; exact hok.1⟩
    rw [ulim_pages, pgnum_eq]
    have hulim : ulim = 980992 * 4096 := rfl
    omega

/-- `KADDR` stops the kernel if the table is not a page of memory. -/
theorem userMemCheckLoop_outside (fuel : Nat) (hlt : addr.toNat < endAddr.toNat)
    (hout : ¬ TableIn p d (pgnum addr)) :
    userMemCheckLoop (some d) endAddr perm (fuel + 1) addr p =
      .panic "KADDR called with invalid pa" := by
  unfold TableIn at hout
  push Not at hout
  obtain ⟨t, ht, hge⟩ := hout
  rw [← pdx_eq] at ht
  rw [userMemCheckLoop, if_pos hlt]
  exact bind_panic (pgdirWalk_outside ht hge false)

theorem userMemCheckLoop_admits (fuel : Nat) (hlt : addr.toNat < endAddr.toNat)
    (h : Admits p d perm (pgnum addr)) :
    userMemCheckLoop (some d) endAddr perm (fuel + 1) addr p =
      userMemCheckLoop (some d) endAddr perm fuel (roundup (addr + 1)) p := by
  obtain ⟨hulim, t, ht, hin, hbits⟩ := h
  rw [userMemCheckLoop, if_pos hlt]
  refine bind_run (pgdirWalk_of_some (by rwa [pdx_eq]) hin false) ?_
  refine bind_run (loadPte_eq rfl) (congrFun (if_neg ?_) p)
  rw [not_or, not_not, not_le, ptx_eq]
  refine ⟨hbits, ?_⟩
  have hulim' : ulim = 980992 * 4096 := rfl
  rw [ulim_pages, pgnum_eq] at hulim
  omega

/-- The three ends of the loop, which decides at the first page that it does not admit. -/
theorem userMemCheckLoop_cases (hend : endAddr.toNat = endAddr.toNat / pgsize * pgsize)
    {fuel : Nat} (hpos : 0 < fuel) (hfuel : ulim / pgsize + 1 ≤ fuel + addr.toNat / pgsize) :
    ((∀ v, addr.toNat / pgsize ≤ v → v < endAddr.toNat / pgsize → Admits p d perm v) ∧
      userMemCheckLoop (some d) endAddr perm fuel addr p = .ret 0 p) ∨
    ∃ v, FirstRefused p d perm (addr.toNat / pgsize) (endAddr.toNat / pgsize) v ∧
      ((TableIn p d v ∧ ∃ a : Word, a.toNat = max addr.toNat (v * pgsize) ∧
          userMemCheckLoop (some d) endAddr perm fuel addr p = .ret (-eFault) (p.refuse a)) ∨
        (¬ TableIn p d v ∧ userMemCheckLoop (some d) endAddr perm fuel addr p =
          .panic "KADDR called with invalid pa")) := by
  induction fuel generalizing addr with
  | zero => omega
  | succ fuel ih =>
    have hpage : pgnum addr = addr.toNat / pgsize := pgnum_eq addr
    by_cases hlt : addr.toNat < endAddr.toNat
    · have hfirst := Nat.div_lt_of_lt_mul (by rwa [Nat.mul_comm, ← hend])
      by_cases hadm : Admits p d perm (pgnum addr)
      · have hrun := userMemCheckLoop_admits fuel hlt hadm
        rw [hpage] at hadm
        have hnext := next_page hadm.1
        have hpos' : 0 < fuel := by
          have := hadm.1
          omega
        have hround : (roundup (addr + 1)).toNat = (addr.toNat / pgsize + 1) * pgsize := by
          rw [← hnext, roundup_mod, Nat.mul_div_cancel _ (by decide)]
        rw [hrun]
        have hrest := @ih (roundup (addr + 1)) hpos' (by rw [hnext]; omega)
        rw [hnext, hround] at hrest
        have hstep : ∀ u, addr.toNat / pgsize ≤ u →
            (addr.toNat / pgsize + 1 ≤ u → Admits p d perm u) → Admits p d perm u := by
          intro u hu hlater
          rcases Nat.eq_or_lt_of_le hu with rfl | hu
          · exact hadm
          · exact hlater hu
        refine hrest.imp (fun hall => ⟨fun v hv hve => ?_, hall.2⟩) ?_
        · exact hstep v hv fun hv' => hall.1 v hv' hve
        · rintro ⟨v, hbad, hend⟩
          have hge := hbad.ge
          have hmax : max ((addr.toNat / pgsize + 1) * pgsize) (v * pgsize) =
              max addr.toNat (v * pgsize) := by
            unfold pgsize at hge ⊢
            omega
          rw [hmax] at hend
          refine ⟨v, ⟨by omega, hbad.lt, fun u hu huv => ?_, hbad.refused⟩, hend⟩
          exact hstep u hu fun hu' => hbad.before u hu' huv
      · have hbad : FirstRefused p d perm (addr.toNat / pgsize) (endAddr.toNat / pgsize)
            (addr.toNat / pgsize) :=
          ⟨le_rfl, hfirst, fun u hu huv => absurd hu (by omega), hpage ▸ hadm⟩
        refine .inr ⟨_, hbad, ?_⟩
        by_cases hin : TableIn p d (addr.toNat / pgsize)
        · refine .inl ⟨hin, addr, ?_, userMemCheckLoop_refuses fuel hlt hadm (hpage ▸ hin)⟩
          exact (max_eq_left (Nat.div_mul_le_self _ _)).symm
        · exact .inr ⟨hin, userMemCheckLoop_outside fuel hlt (hpage ▸ hin)⟩
    · refine .inl ⟨fun v hv hve => ?_, ?_⟩
      · have := Nat.div_le_div_right (c := pgsize) (not_lt.mp hlt)
        omega
      · rw [userMemCheckLoop, if_neg hlt]
        rfl

/-- The range is checked from the page of `va` to the end, rounded up. -/
theorem userMemCheck_cases (p : Phys) (d : Nat) (va len perm : Word) :
    ((∀ v, va.toNat / pgsize ≤ v → v < (roundup (va + len)).toNat / pgsize →
        Admits p d perm v) ∧ userMemCheck (some d) va len perm p = .ret 0 p) ∨
    ∃ v, FirstRefused p d perm (va.toNat / pgsize) ((roundup (va + len)).toNat / pgsize) v ∧
      ((TableIn p d v ∧ ∃ a : Word, a.toNat = max va.toNat (v * pgsize) ∧
          userMemCheck (some d) va len perm p = .ret (-eFault) (p.refuse a)) ∨
        (¬ TableIn p d v ∧ userMemCheck (some d) va len perm p =
          .panic "KADDR called with invalid pa")) := by
  refine userMemCheckLoop_cases ?_ (Nat.succ_pos _) (Nat.le_add_right _ _)
  rw [roundup_mod, Nat.mul_div_cancel _ (by decide)]

theorem passes_iff : Passes p d va len perm ↔ ∀ v, va.toNat / pgsize ≤ v →
    v < (roundup (va + len)).toNat / pgsize → Admits p d perm v := by
  rcases userMemCheck_cases p d va len perm with ⟨hall, hrun⟩ | ⟨v, hbad, hend⟩
  · exact iff_of_true ⟨p, hrun⟩ hall
  · refine iff_of_false ?_ fun h => hbad.refused (h v hbad.ge hbad.lt)
    rintro ⟨p', hp'⟩
    rcases hend with ⟨-, a, -, hrun⟩ | ⟨-, hrun⟩
    · exact absurd (Outcome.ret.inj (hrun.symm.trans hp')).1 (by decide)
    · cases hrun.symm.trans hp'

/-- The address `a` is below `ULIM`, and a present entry maps it with all bits of `perm`. -/
def AccessGranted (p : Phys) (d : Nat) (perm : Word) (a : Nat) : Prop :=
  a < ulim ∧ ∃ w, pteOf p.mem d (a / pgsize) = some w ∧ w &&& perm = perm

def CheckSound (p : Phys) (d : Nat) (va len perm : Word) : Prop :=
  Passes p d va len perm →
    ∀ a, va.toNat ≤ a → a < va.toNat + len.toNat → AccessGranted p d perm a

theorem not_and_eq_zero_iff (w perm : Word) : ~~~w &&& perm = 0 ↔ w &&& perm = perm := by
  constructor
  · intro h
    ext i hi
    have hb := congrArg (fun x => x.getLsbD i) h
    simp only [BitVec.getLsbD_and, BitVec.getLsbD_not, hi] at hb
    simp only [BitVec.getElem_and]
    cases hw : w[i] <;> cases hp : perm[i] <;> simp_all
  · intro h
    rw [← h]
    ext i hi
    simp only [BitVec.getElem_and, BitVec.getElem_not]
    cases w[i] <;> simp

theorem Admits.granted (h : Admits p d perm (a / pgsize))
    (hp : (pteOf p.mem d (a / pgsize)).isSome) : AccessGranted p d perm a := by
  obtain ⟨hulim, t, ht, -, hbits⟩ := h
  obtain ⟨w, hw⟩ := Option.isSome_iff_exists.mp hp
  refine ⟨?_, w, hw, ?_⟩
  · have hulim' : ulim = 980992 * pgsize := rfl
    rw [ulim_pages] at hulim
    have := Nat.lt_mul_of_div_lt hulim (by decide : 0 < pgsize)
    omega
  · obtain ⟨t', ht', rfl, -⟩ := pteOf_eq_some.mp hw
    cases ht.symm.trans ht'
    exact (not_and_eq_zero_iff _ _).mp hbits

theorem present_of_and {w : Word} (h : w &&& perm = perm) (hperm : present perm) : present w := by
  have hmask : perm &&& pteP = perm &&& (w &&& pteP) := by
    rw [← BitVec.and_assoc, BitVec.and_comm perm w, h]
  unfold present at hperm ⊢
  rw [bne_iff_ne] at hperm ⊢
  intro h0
  rw [hmask, h0] at hperm
  exact hperm BitVec.and_zero

theorem AccessGranted.admits (h : AccessGranted p d perm a) (hin : TableIn p d (a / pgsize)) :
    Admits p d perm (a / pgsize) := by
  obtain ⟨hlt, w, hw, hbits⟩ := h
  obtain ⟨t, ht, rfl, -⟩ := pteOf_eq_some.mp hw
  refine ⟨?_, t, ht, hin t ht, (not_and_eq_zero_iff _ _).mpr hbits⟩
  rw [ulim_pages]
  have hulim : ulim = 980992 * 4096 := rfl
  unfold pgsize
  omega

theorem Admits.granted_of_present (h : Admits p d perm (a / pgsize)) (hperm : present perm) :
    AccessGranted p d perm a := by
  obtain ⟨-, t, ht, -, hbits⟩ := id h
  have hp := present_of_and ((not_and_eq_zero_iff _ _).mp hbits) hperm
  refine h.granted ?_
  rw [pteOf_eq_some.mpr ⟨t, ht, rfl, hp⟩]
  rfl

theorem max_lt_range (hlen : len ≠ 0) (hlt : v < (roundup (va + len)).toNat / pgsize) :
    max va.toNat (v * pgsize) < va.toNat + len.toNat := by
  have hpos : 0 < len.toNat := by bv_omega
  have hva := va.isLt
  have hl := len.isLt
  rw [roundup_mod, BitVec.toNat_add, Nat.mul_div_cancel _ (by decide)] at hlt
  unfold pgsize at hlt ⊢
  omega

/-- The address in `user_mem_check_addr` is the first one that may not be accessed, and there is
one if the check fails. -/
theorem user_mem_check_first (va len : Word) (hlen : len ≠ 0) (hperm : present perm) :
    (∀ p', userMemCheck (some d) va len perm p = .ret (-eFault) p' →
      IsLeast {a | va.toNat ≤ a ∧ a < va.toNat + len.toNat ∧ ¬ AccessGranted p d perm a}
        p'.userMemCheckAddr.toNat) ∧
    ((∀ a, va.toNat ≤ a → a < va.toNat + len.toNat → AccessGranted p d perm a) →
      ∀ p', userMemCheck (some d) va len perm p ≠ .ret (-eFault) p') := by
  have hfirst : ∀ p', userMemCheck (some d) va len perm p = .ret (-eFault) p' →
      IsLeast {a | va.toNat ≤ a ∧ a < va.toNat + len.toNat ∧ ¬ AccessGranted p d perm a}
        p'.userMemCheckAddr.toNat := by
    intro p' hrun
    rcases userMemCheck_cases p d va len perm with
      ⟨-, hrun'⟩ | ⟨v, hbad, ⟨hin, a, ha, hrun'⟩ | ⟨-, hrun'⟩⟩
    · exact absurd (Outcome.ret.inj (hrun.symm.trans hrun')).1 (by decide)
    · cases hrun.symm.trans hrun'
      have hge := hbad.ge
      have hpage : a.toNat / pgsize = v := by
        rw [ha]
        unfold pgsize at hge ⊢
        omega
      show IsLeast _ a.toNat
      refine ⟨⟨by omega, ha ▸ max_lt_range hlen hbad.lt, fun hok => ?_⟩, fun b hb => ?_⟩
      · exact hbad.refused (hpage ▸ hok.admits (hpage.symm ▸ hin))
      · obtain ⟨hle, -, hno⟩ := hb
        by_contra hlt
        have hb : b < v * pgsize := by
          rcases lt_max_iff.mp (ha ▸ not_le.mp hlt : b < max va.toNat (v * pgsize)) with h | h
          · omega
          · exact h
        refine hno ((hbad.before (b / pgsize) (Nat.div_le_div_right hle) ?_).granted_of_present
          hperm)
        exact Nat.div_lt_of_lt_mul (by rwa [Nat.mul_comm])
    · cases hrun.symm.trans hrun'
  refine ⟨hfirst, fun hall p' hrun => ?_⟩
  obtain ⟨hle, hlt, hno⟩ := (hfirst p' hrun).1
  exact hno (hall _ hle hlt)

/-- The end of the range, rounded up, is in the address space. -/
theorem checkSound_fits (hlen : 0 < len.toNat) (hfits : va.toNat + len.toNat + pgsize ≤ 2 ^ 32) :
    CheckSound p d va len perm ↔
      (∃ v, va.toNat / pgsize ≤ v ∧ v * pgsize < va.toNat + len.toNat ∧ ¬ Admits p d perm v) ∨
      ∀ v, va.toNat / pgsize ≤ v → v * pgsize < va.toNat + len.toNat →
        (pteOf p.mem d v).isSome := by
  have hsum : (va + len).toNat = va.toNat + len.toNat := by
    unfold pgsize at hfits
    bv_omega
  have hend : ∀ v, v < (roundup (va + len)).toNat / pgsize ↔ v * pgsize < va.toNat + len.toNat := by
    intro v
    rw [roundup_toNat (by rwa [hsum]), hsum, Nat.mul_div_cancel _ (by decide)]
    unfold pgsize
    omega
  unfold CheckSound
  rw [passes_iff]
  simp only [hend]
  constructor
  · intro h
    by_cases hall : ∀ v, va.toNat / pgsize ≤ v → v * pgsize < va.toNat + len.toNat →
        Admits p d perm v
    · refine .inr fun v hv hve => ?_
      -- some address of the page is in the range
      have hin : max va.toNat (v * pgsize) / pgsize = v := by
        unfold pgsize at hv ⊢
        omega
      obtain ⟨-, w, hw, -⟩ := h hall (max va.toNat (v * pgsize)) (le_max_left _ _) (by omega)
      rw [hin] at hw
      rw [hw]
      rfl
    · push Not at hall
      exact .inl hall
  · rintro (⟨v, hv, hve, hnot⟩ | hp) hall a hle hlt
    · exact absurd (hall v hv hve) hnot
    · have hlow : va.toNat / pgsize ≤ a / pgsize := Nat.div_le_div_right hle
      have hhigh := lt_of_le_of_lt (Nat.div_mul_le_self a pgsize) hlt
      exact (hall _ hlow hhigh).granted (hp _ hlow hhigh)

/-- The end of the range wraps around: at most the first page is looked at. -/
theorem checkSound_wraps (hlen : 0 < len.toNat) (hwraps : 2 ^ 32 < va.toNat + len.toNat + pgsize) :
    CheckSound p d va len perm ↔
      va.toNat < (roundup (va + len)).toNat ∧ ¬ Admits p d perm (va.toNat / pgsize) := by
  have hend : (roundup (va + len)).toNat / pgsize ≤ va.toNat / pgsize + 1 ∧
      (va.toNat < (roundup (va + len)).toNat ↔
        va.toNat / pgsize < (roundup (va + len)).toNat / pgsize) := by
    have hsum := BitVec.toNat_add va len
    have hva := va.isLt
    have hl := len.isLt
    rw [roundup_mod, hsum]
    unfold pgsize at hwraps ⊢
    omega
  have hlast : ¬ AccessGranted p d perm (va.toNat + len.toNat - 1) := by
    rintro ⟨hlt, -⟩
    have hulim : ulim = 4018143232 := rfl
    unfold pgsize at hwraps
    omega
  have hsound : CheckSound p d va len perm ↔ ¬ Passes p d va len perm :=
    ⟨fun h hp => hlast (h hp _ (by omega) (by omega)), fun h hp => absurd hp h⟩
  rw [hsound, passes_iff, hend.2]
  constructor
  · intro h
    push Not at h
    obtain ⟨v, hv, hve, hnot⟩ := h
    have heq : v = va.toNat / pgsize := by omega
    subst heq
    exact ⟨hve, hnot⟩
  · rintro ⟨hlt, hnot⟩ h
    exact hnot (h _ le_rfl hlt)

/-- For which arguments and tables a check that succeeds means that every page of the range is
present with the permissions: the range must not wrap, and a page that is not present must be
refused. -/
theorem user_mem_check_sound_iff (p : Phys) (d : Nat) (va len perm : Word) :
    CheckSound p d va len perm ↔ len = 0 ∨ (va.toNat + len.toNat + pgsize ≤ 2 ^ 32 ∧
        ((∃ v, va.toNat / pgsize ≤ v ∧ v * pgsize < va.toNat + len.toNat ∧ ¬ Admits p d perm v) ∨
          ∀ v, va.toNat / pgsize ≤ v → v * pgsize < va.toNat + len.toNat →
            (pteOf p.mem d v).isSome)) ∨
      (2 ^ 32 < va.toNat + len.toNat + pgsize ∧
        va.toNat < (roundup (va + len)).toNat ∧ ¬ Admits p d perm (va.toNat / pgsize)) := by
  by_cases hlen : len = 0
  · subst hlen
    refine iff_of_true (fun _ a hle hlt => ?_) (.inl rfl)
    rw [show (0 : Word).toNat = 0 from rfl] at hlt
    omega
  · have hpos : 0 < len.toNat := by bv_omega
    by_cases hfits : va.toNat + len.toNat + pgsize ≤ 2 ^ 32
    · rw [checkSound_fits hpos hfits]
      have hnot : ¬ 2 ^ 32 < va.toNat + len.toNat + pgsize := by omega
      simp only [hlen, hfits, hnot, false_or, true_and, false_and, or_false]
    · have hwraps : 2 ^ 32 < va.toNat + len.toNat + pgsize := by omega
      rw [checkSound_wraps hpos hwraps]
      simp only [hlen, hfits, hwraps, false_or, true_and, false_and]

/-- A directory, page 1, with one table, page 2, that maps page 3 at `0x800000`. -/
def onePageMapped : Phys where
  npages := 8
  npages_le := by decide
  kernPgdir := 1
  pages _ := ⟨none, 2⟩
  pageFreeList := none
  userMemCheckAddr := 0
  mem page i :=
    if page = 1 ∧ i = 2 then page2pa 2 ||| pteP ||| pteW ||| pteU
    else if page = 2 ∧ i = 0 then page2pa 3 ||| pteP ||| pteU
    else 0

/-- The range begins in the page that is mapped and ends in the next one. -/
theorem user_mem_check_first_small : IsLeast {a | 0x800ff0 ≤ a ∧ a < 0x800ff0 + 0x20 ∧
    ¬ AccessGranted onePageMapped 1 (pteU ||| pteP) a} 0x801000 :=
  (user_mem_check_first 0x800ff0 0x20 (by decide) (by decide)).1 (onePageMapped.refuse 0x801000) rfl

/-- The last page of the address space passes, and so does a page that `page_remove` has
unmapped. -/
theorem user_mem_check_unsound : ¬ CheckSound onePageMapped 1 0xfffff000 0x1000 (pteU ||| pteP) ∧
    ∃ p, pageRemove (some 1) 0x800000 onePageMapped = .ret () p ∧
      ¬ CheckSound p 1 0x800000 1 pteU := by
  refine ⟨?_, _, rfl, ?_⟩
  · rw [checkSound_wraps (by decide) (by decide)]
    rintro ⟨h, -⟩
    exact absurd h (by decide)
  · rw [checkSound_fits (by decide) (by decide)]
    rintro (⟨v, hv, hve, hnot⟩ | h)
    · have hpage : v = 2048 := by
        rw [show (0x800000 : Word).toNat = 2048 * 4096 from rfl] at hv hve
        rw [show (1 : Word).toNat = 1 from rfl] at hve
        unfold pgsize at hv hve
        omega
      subst hpage
      exact hnot ⟨by decide, 2, by decide, by decide, by decide⟩
    · exact absurd (h 2048 (by decide) (by decide)) (by decide)

end Jos
