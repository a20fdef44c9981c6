import Jos.Inc.Mmu

/-!
# Addresses and page table entries as numbers

The fields of addresses and entries as quotients and remainders. A user page is counted by its
number `v = va / 4096`, with directory index `v / 1024` and table index `v % 1024`.
-/

namespace Jos

open BitVec

theorem and_mask10 (n : Nat) : n &&& 1023 = n % 1024 := Nat.and_two_pow_sub_one_eq_mod n 10

theorem and_mask12 (n : Nat) : n &&& 4095 = n % 4096 := Nat.and_two_pow_sub_one_eq_mod n 12

theorem pgnum_eq (va : Word) : pgnum va = va.toNat / 4096 := by
  simp [pgnum, Nat.shiftRight_eq_div_pow]

theorem pgnum_lt (va : Word) : pgnum va < 1048576 := by
  have h := va.isLt
  rw [pgnum_eq]
  omega

theorem pdx_eq (va : Word) : pdx va = pgnum va / 1024 := by
  have h := va.isLt
  simp only [pdx, pgnum_eq, toNat_and, toNat_ushiftRight, Nat.shiftRight_eq_div_pow]
  change va.toNat / 2 ^ 22 &&& 1023 = _
  rw [and_mask10]
  omega

theorem ptx_eq (va : Word) : ptx va = pgnum va % 1024 := by
  simp only [ptx, pgnum_eq, toNat_and, toNat_ushiftRight, Nat.shiftRight_eq_div_pow]
  change va.toNat / 2 ^ 12 &&& 1023 = _
  rw [and_mask10]

theorem pgoff_toNat (va : Word) : (pgoff va).toNat = va.toNat % 4096 := by
  simp only [pgoff, toNat_and]
  exact and_mask12 _

theorem rounddown_toNat (a : Word) : (rounddown a).toNat = a.toNat / pgsize * pgsize := by
  unfold rounddown pgsize
  have hmod : (a % 4096).toNat = a.toNat % 4096 := toNat_umod
  have hlt := a.isLt
  rw [toNat_sub, hmod]
  omega

theorem roundup_mod (a : Word) :
    (roundup a).toNat = (a.toNat + pgsize - 1) % 2 ^ 32 / pgsize * pgsize := by
  have hsum : (a + 4096 - 1).toNat = (a.toNat + pgsize - 1) % 2 ^ 32 := by
    unfold pgsize
    bv_omega
  unfold roundup
  rw [rounddown_toNat, hsum]

theorem roundup_toNat {a : Word} (h : a.toNat + pgsize ≤ 2 ^ 32) :
    (roundup a).toNat = (a.toNat + pgsize - 1) / pgsize * pgsize := by
  unfold pgsize at h
  rw [roundup_mod, Nat.mod_eq_of_lt (by unfold pgsize; omega)]

theorem pgnum_pgaddr {i j : Nat} (hi : i < 1024) (hj : j < 1024) :
    pgnum (pgaddr i j 0) = i * 1024 + j := by
  have h22 : (toWord i <<< 22).toNat = 2 ^ 22 * i := by
    simp only [toNat_shiftLeft, toNat_ofNat, Nat.shiftLeft_eq]
    omega
  have h12 : (toWord j <<< 12).toNat = 2 ^ 12 * j := by
    simp only [toNat_shiftLeft, toNat_ofNat, Nat.shiftLeft_eq]
    omega
  have hor : (pgaddr i j 0).toNat = 2 ^ 22 * i + 2 ^ 12 * j := by
    unfold pgaddr
    rw [toNat_or, toNat_or, h22, h12,
      ← Nat.two_pow_add_eq_or_of_lt (i := 22) (by omega)]
    exact Nat.or_zero _
  rw [pgnum_eq, hor]
  omega

/-- The number of user pages, `UTOP / PGSIZE`. -/
def userPages : Nat := 977920

/-- The number of directory entries of the user half, `PDX(UTOP)`. -/
def userTables : Nat := 955

theorem lt_utop_iff (va : Word) : va.toNat < utop ↔ pgnum va < userPages := by
  rw [pgnum_eq]
  unfold utop uenvs upages uvpt ulim mmiobase mmiolim kstacktop kernbase ptsize pgsize
    nptentries userPages
  omega

theorem div_lt_userTables {v : Nat} (h : v < userPages) : v / 1024 < userTables := by
  unfold userPages at h
  unfold userTables
  omega

theorem pageOf_eq (w : Word) : pageOf w = w.toNat / 4096 := by
  have hbits : (w &&& ~~~(0xfff : Word)) >>> 12 = w >>> 12 := by
    ext i hi
    have hmask : (~~~(0xfff : Word)).getLsbD (12 + i) = decide (12 + i < 32) := by
      revert i
      decide
    simp only [getElem_ushiftRight, getLsbD_and, hmask]
    by_cases h : 12 + i < 32
    · simp [h]
    · simp [getLsbD_of_ge w (12 + i) (by omega)]
  unfold pageOf pgnum
  rw [hbits]
  exact pgnum_eq w

theorem page2pa_toNat {pp : Nat} (h : pp < 1048576) : (page2pa pp).toNat = pp * 4096 := by
  simp only [page2pa, toNat_ofNat, Nat.shiftLeft_eq]
  omega

theorem pageOf_page2pa_or {pp : Nat} {flags : Word} (h : pp < 1048576)
    (hf : flags.toNat < 4096) : pageOf (page2pa pp ||| flags) = pp := by
  have hor : (page2pa pp ||| flags).toNat = pp * 4096 + flags.toNat := by
    rw [toNat_or, page2pa_toNat h, Nat.mul_comm, ← Nat.two_pow_add_eq_or_of_lt (i := 12) hf]
  rw [pageOf_eq, hor]
  omega

theorem pageOf_page2pa {pp : Nat} (h : pp < 1048576) : pageOf (page2pa pp) = pp := by
  rw [pageOf_eq, page2pa_toNat h]
  omega

theorem present_or_pteP (w : Word) : present (w ||| pteP) = true := by
  simp only [present, bne_iff_ne, ne_eq]
  intro h
  have h0 := congrArg (fun x => BitVec.getLsbD x 0) h
  simp [pteP] at h0

theorem present_and_not_pteP (w : Word) : present (w &&& ~~~pteP) = false := by
  have h : w &&& ~~~pteP &&& pteP = 0 := by
    rw [BitVec.and_assoc]
    have : ~~~pteP &&& pteP = 0 := by decide
    rw [this]
    exact BitVec.and_zero
  simp [present, h]

theorem present_zero : present 0 = false := by decide

theorem not_present_zero : ¬present 0 := by decide

theorem page2pa_and {flags : Word} (pp : Nat) (hf : flags.toNat < 4096) :
    page2pa pp &&& flags = 0 := by
  have hmod : (page2pa pp).toNat = 2 ^ 12 * (pp % 2 ^ 20) := by
    simp only [page2pa, toNat_ofNat, Nat.shiftLeft_eq]
    omega
  apply eq_of_toNat_eq
  rw [toNat_and, hmod]
  apply Nat.eq_of_testBit_eq
  intro i
  rw [Nat.testBit_and, Nat.testBit_two_pow_mul]
  by_cases hi : 12 ≤ i
  · have hlt : flags.toNat < 2 ^ i :=
      lt_of_lt_of_le hf (Nat.pow_le_pow_right (n := 2) (by decide) hi)
    rw [Nat.testBit_lt_two_pow hlt]
    simp
  · simp [hi]

theorem and_eq_self {x m : Word} (h : x &&& ~~~m = 0) : x &&& m = x := by
  have hsplit : x &&& m ||| x &&& ~~~m = x := by
    rw [← and_or_distrib_left, or_not_self, and_allOnes]
  rw [h] at hsplit
  simpa using hsplit

theorem and_low {x : Word} (h : x.toNat < 4096) : x &&& 0xfff = x := by
  apply eq_of_toNat_eq
  rw [toNat_and]
  exact (Nat.and_two_pow_sub_one_eq_mod _ 12).trans (Nat.mod_eq_of_lt h)

end Jos
