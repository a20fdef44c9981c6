import Jos.Kernel.Allocation
import Mathlib.Order.Interval.Finset.Nat

/-!
# Growing the heap

`sys_sbrk` maps fresh pages below the break and moves the break down. It assumes that the break has
been set, that the request stays above address 0, that the number of pages is a positive `int`, and
that no page is refused. Then it maps these pages and changes nothing else.
-/

namespace Jos

open Logic BitVec Finset

variable {K : Set Nat} {extra : Nat → Nat} {dirs : Finset Nat} {p p' p0 : Phys}
  {k k' : Kernel} {c d first n : Nat} {inc b : Word} {r : Int}

/-- The pages that lie between the addresses `a` and `b`. -/
def wholePages (a b : Nat) : Finset Nat := Finset.Ico ((a + pgsize - 1) / pgsize) (b / pgsize)

def Kernel.brk (k : Kernel) (c : Nat) : Nat := (k.envs c).envBreak.toNat

/-- The environment `c`, with the directory `d`, has got at least `inc` bytes: zeroed, private
and writable pages, below `UTOP`. Nothing else has changed. -/
structure SbrkGrown (c d : Nat) (inc : Word) (k : Kernel) (r : Int) (k' : Kernel) : Prop where
  result : r = (k'.envs c).envBreak.toInt
  moved : k'.brk c + inc.toNat ≤ k.brk c
  heap : ∀ v ∈ wholePages (k'.brk c) (k.brk c), v < userPages ∧
    HasPage k'.dirs k'.phys d v (fun _ => 0) ∧
    ∃ w, pteOf k'.phys.mem d v = some w ∧ w &&& 0xfff = pteU ||| pteW ||| pteP
  rest : OnlyMappings k.dirs d (· ∈ wholePages (k'.brk c) (k.brk c)) k.phys k'.phys
  envs : ∀ x, k'.envs x =
    if x = c then { k.envs c with envBreak := (k'.envs c).envBreak } else k.envs x

/-- The call grows the heap, or it returns an error code and changes nothing. -/
def SbrkSafe (c d : Nat) (inc : Word) (k : Kernel) : Prop :=
  ∃ r k', sysSbrk inc k = .ret r k' ∧
    (SbrkGrown c d inc k r k' ∨ -maxerror < r ∧ r < 0 ∧ Unchanged k k')

def sbrkPages (b inc : Word) : Finset Nat :=
  Finset.Ico (b.toNat / pgsize - (inc.toNat + pgsize - 1) / pgsize) (b.toNat / pgsize)

structure SbrkFits (c d : Nat) (inc : Word) (k : Kernel) : Prop where
  aligned : k.brk c % pgsize = 0
  user : k.brk c ≤ utop
  above : inc.toNat ≤ k.brk c
  short : inc.toNat + pgsize ≤ 2 ^ 31
  stocked : Stocked k.phys (demand k.phys d (sbrkPages (k.envs c).envBreak inc))

/-- What `n` rounds have left, from the page `first` on. -/
structure HeapGrown (K : Set Nat) (dirs : Finset Nat) (d first n : Nat) (p0 p : Phys) :
    Prop where
  intact : ∃ extra, Intact K extra dirs p
  few : FewMappings dirs p
  frame : Frame K dirs (· < userTables) (fun d' v => d' = d ∧ first ≤ v ∧ v < first + n) p0 p
  contents : ∀ {d' v w}, MapsAt dirs p0 d' v w → ¬(d' = d ∧ first ≤ v ∧ v < first + n) →
    p.mem (pageOf w) = p0.mem (pageOf w)
  pages : ∀ v, first ≤ v → v < first + n → HasPage dirs p d v (fun _ => 0) ∧
    ∃ q, pteOf p.mem d v = some (pteWord q (pteU ||| pteW))

theorem HeapGrown.refl (h : Intact K extra dirs p) (hb : FewMappings dirs p) :
    HeapGrown K dirs d first 0 p p :=
  ⟨⟨extra, h⟩, hb, .refl p, fun _ _ => rfl, fun v hlo hhi => absurd hhi (by omega)⟩

theorem HeapGrown.succ {q : Nat} (h : HeapGrown K dirs d first n p0 p)
    (hq : FreshPage K dirs p d (first + n) q (pteU ||| pteW) p') :
    HeapGrown K dirs d first (n + 1) p0 p' := by
  refine ⟨hq.intact, hq.few, ?_, fun {d' v w} hm hne => ?_, fun v hlo hhi => ?_⟩
  · refine (h.frame.weaken subset_rfl (fun _ hi => hi) fun _ _ v hv => ?_).trans
      (hq.frame.weaken subset_rfl (fun _ hi => hi) fun _ _ v hv => ?_)
    · exact ⟨hv.1, hv.2.1, by omega⟩
    · exact ⟨hv.1, by omega, by omega⟩
  · have hout : ¬(d' = d ∧ first ≤ v ∧ v < first + n) := fun hc =>
      hne ⟨hc.1, hc.2.1, by omega⟩
    have hm' : MapsAt dirs p d' v w :=
      ⟨hm.1, hm.2.1, (h.frame.entries d' hm.1 v hm.2.1 hout).trans hm.2.2⟩
    rw [hq.contents hm', h.contents hm hout]
  · by_cases hv : v = first + n
    · subst hv
      exact ⟨hq.zero, q, hq.entry⟩
    · obtain ⟨hpage, q', hq'⟩ := h.pages v hlo (by omega)
      have hne : ¬(d = d ∧ v = first + n) := fun hc => hv hc.2
      obtain ⟨x, hx, -⟩ := id hpage
      obtain ⟨w, hm, -⟩ := hx.mapped
      exact ⟨hq.other hne hpage, q', (hq.entries d hm.1 v hm.2.1 hne).trans hq'⟩

theorem sbrkLoop_run (h : Intact K extra dirs p) (hb : FewMappings dirs p) (hd : d ∈ dirs)
    {start : Word} (hstart : start.toNat = first * pgsize) (hend : first + n ≤ userPages)
    (hs : Stocked p (demand p d (Finset.Ico first (first + n)))) :
    ∃ p', Code.times n (fun i => sbrkPage (some d) (start + toWord (i * pgsize))) p =
      .ret () p' ∧ HeapGrown K dirs d first n p p' := by
  have hpages : userPages = 977920 := rfl
  have hround : ∀ i, i < n → ∀ p1, HeapGrown K dirs d first i p p1 ∧
      Stocked p1 (demand p1 d (Finset.Ico (first + i) (first + n))) →
      ∃ p2, sbrkPage (some d) (start + toWord (i * pgsize)) p1 = .ret () p2 ∧
        HeapGrown K dirs d first (i + 1) p p2 ∧
        Stocked p2 (demand p2 d (Finset.Ico (first + (i + 1)) (first + n))) := by
    rintro i hi p1 ⟨hgrown, hs1⟩
    obtain ⟨extra1, hi1⟩ := hgrown.intact
    have hva : (start + toWord (i * pgsize)).toNat = (first + i) * pgsize := by
      rw [toNat_add, toNat_ofNat, hstart]
      unfold pgsize
      omega
    have hpage : pgnum (start + toWord (i * pgsize)) = first + i := by
      rw [pgnum_eq, hva]
      exact Nat.mul_div_cancel _ (by decide)
    have hsplit : Finset.Ico (first + i) (first + n) =
        insert (first + i) (Finset.Ico (first + (i + 1)) (first + n)) := by
      ext v
      rw [mem_insert, mem_Ico, mem_Ico]
      omega
    have hrange : (start + toWord (i * pgsize)).toNat < utop := by
      rw [lt_utop_iff, hpage]
      omega
    rw [hsplit] at hs1
    rw [← hpage] at hs1
    obtain ⟨q, p1', p2, halloc, hins, hfresh, hs2⟩ := allocInsert_run (pteU ||| pteW) hi1
      hgrown.few hd hrange (by decide) (by rw [hpage, mem_Ico]; omega) hs1
    rw [hpage] at hfresh
    exact ⟨p2, bind_run halloc (bind_run hins rfl), hgrown.succ hfresh, hs2⟩
  obtain ⟨p', hrun, hgrown, -⟩ := times_run (fun i p' => HeapGrown K dirs d first i p p' ∧
    Stocked p' (demand p' d (Finset.Ico (first + i) (first + n)))) ⟨.refl h hb, hs⟩ hround
  exact ⟨p', hrun, hgrown⟩

theorem sbrkStart_toNat (haligned : b.toNat % pgsize = 0) (habove : inc.toNat ≤ b.toNat) :
    (sbrkStart b inc).toNat = (b.toNat / pgsize - (inc.toNat + pgsize - 1) / pgsize) * pgsize := by
  have hsub : (b - inc).toNat = b.toNat - inc.toNat := by
    have hb := b.isLt
    rw [toNat_sub]
    omega
  unfold sbrkStart
  rw [rounddown_toNat, hsub]
  unfold pgsize at haligned ⊢
  omega

theorem sbrkTime_eq (haligned : b.toNat % pgsize = 0) (habove : inc.toNat ≤ b.toNat)
    (hshort : inc.toNat + pgsize ≤ 2 ^ 31) :
    sbrkTime b inc = (inc.toNat + pgsize - 1) / pgsize := by
  have hstart := sbrkStart_toNat haligned habove
  have hb := b.isLt
  unfold pgsize at haligned hstart hshort ⊢
  have hsum : (sbrkStart b inc + inc).toNat = (sbrkStart b inc).toNat + inc.toNat := by
    rw [toNat_add]
    omega
  have hend : (roundup (sbrkStart b inc + inc)).toNat = b.toNat := by
    rw [roundup_mod, hsum]
    unfold pgsize
    omega
  have hdiff : (roundup (sbrkStart b inc + inc) - sbrkStart b inc).toNat =
      (inc.toNat + 4096 - 1) / 4096 * 4096 := by
    rw [toNat_sub, hend]
    omega
  have hint : (roundup (sbrkStart b inc + inc) - sbrkStart b inc).toInt =
      (((inc.toNat + 4096 - 1) / 4096 * 4096 : Nat) : Int) := by
    rw [toInt_eq_toNat_of_lt (by omega), hdiff]
  unfold sbrkTime
  dsimp only
  rw [hint]
  unfold pgsize
  rw [← Int.ofNat_tdiv, Nat.mul_div_cancel _ (by decide), Int.toNat_natCast]

def Kernel.withHeap (k : Kernel) (c : Nat) (inc : Word) (p' : Phys) : Kernel :=
  ({ k with phys := p' } : Kernel).setEnv c fun env =>
    { env with envBreak := rounddown (env.envBreak - inc) }

theorem Kernel.withHeap_sameSlots (k : Kernel) (c : Nat) (inc : Word) (p' : Phys) :
    SameSlots k (k.withHeap c inc p') := by
  have hphys : SameSlots k { k with phys := p' } := .of_sameEnvs ⟨rfl, rfl, rfl, rfl, rfl⟩
  exact hphys.trans (Kernel.setEnv_sameSlots rfl rfl Iff.rfl)

theorem Kernel.withHeap_brk (k : Kernel) (c : Nat) (inc : Word) (p' : Phys) :
    ((k.withHeap c inc p').envs c).envBreak = sbrkStart (k.envs c).envBreak inc := by
  unfold Kernel.withHeap
  rw [Kernel.setEnv_self]
  rfl

theorem sysSbrk_run (hcur : k.curenv = some c) (hpgdir : (k.envs c).envPgdir = some d)
    (hloop : Code.times (sbrkTime (k.envs c).envBreak inc) (fun i => sbrkPage (some d)
      (sbrkStart (k.envs c).envBreak inc + toWord (i * pgsize))) k.phys = .ret () p') :
    sysSbrk inc k = .ret (sbrkStart (k.envs c).envBreak inc).toInt (k.withHeap c inc p') := by
  refine bind_run (curenv_run hcur) ?_
  refine bind_run (bind_run (get_apply k) rfl) ?_
  rw [hpgdir]
  refine bind_run (zoom_of_ret hloop) ?_
  refine bind_run (modify_apply _ _) ?_
  refine bind_run (bind_run (get_apply _) rfl) ?_
  rw [← k.withHeap_brk c inc p']
  rfl

theorem HeapGrown.executes (h : Executes c d k)
    (hg : HeapGrown (kernPages k.phys) k.dirs d first n k.phys p') :
    Executes c d (k.withHeap c inc p') := by
  obtain ⟨⟨extra, hs⟩, -⟩ := h.sound
  obtain ⟨extra', hi⟩ := hg.intact
  have hsame := k.withHeap_sameSlots c inc p'
  have hkern : kernPages (k.withHeap c inc p').phys = kernPages k.phys :=
    kernPages_congr hg.frame.kernPgdir hg.frame.kern
  refine ⟨⟨⟨extra', hsame.slots hs.toSlots, ?_⟩, ?_⟩, h.current, hsame.live_iff.mpr h.live, ?_⟩
  · rw [hkern, hsame.dirs_eq]
    exact hi
  · rw [hsame.dirs_eq]
    exact hg.few
  · rw [hsame.pgdir c h.live.1, h.pgdir]

theorem HeapGrown.grown (h : Executes c d k)
    (hg : HeapGrown (kernPages k.phys) k.dirs d first n k.phys p')
    (hlow : (sbrkStart (k.envs c).envBreak inc).toNat = first * pgsize)
    (htop : k.brk c = (first + n) * pgsize) (hinc : inc.toNat ≤ n * pgsize)
    (hend : first + n ≤ userPages) :
    SbrkGrown c d inc k (sbrkStart (k.envs c).envBreak inc).toInt (k.withHeap c inc p') := by
  obtain ⟨⟨extra, hs⟩, -⟩ := h.sound
  have hbrk := k.withHeap_brk c inc p'
  have hdirs := (k.withHeap_sameSlots c inc p').dirs_eq
  have hlow' : (k.withHeap c inc p').brk c = first * pgsize := by
    rw [← hlow, ← hbrk]
    rfl
  have hwhole : ∀ v, v ∈ wholePages ((k.withHeap c inc p').brk c) (k.brk c) ↔
      first ≤ v ∧ v < first + n := by
    intro v
    rw [hlow', htop, wholePages, mem_Ico]
    unfold pgsize
    omega
  refine ⟨by rw [hbrk], ?_, fun v hv => ?_, ?_, fun x => ?_⟩
  · rw [hlow', htop, Nat.add_mul]
    omega
  · obtain ⟨hlo, hhi⟩ := (hwhole v).mp hv
    obtain ⟨hpage, q, hq⟩ := hg.pages v hlo hhi
    refine ⟨by omega, hdirs.symm ▸ hpage, _, hq, ?_⟩
    exact pteWord_and q (by decide)
  · have hS : (· ∈ wholePages ((k.withHeap c inc p').brk c) (k.brk c)) =
        fun v => first ≤ v ∧ v < first + n := funext fun v => propext (hwhole v)
    rw [hS]
    exact hs.intact.onlyMappings hg.frame hg.contents
  · by_cases hx : x = c
    · subst hx
      rw [if_pos rfl]
      unfold Kernel.withHeap
      rw [Kernel.setEnv_self]
    · rw [if_neg hx]
      exact Kernel.setEnv_of_ne _ _ _ hx

theorem SbrkFits.grows (h : Executes c d k) (hf : SbrkFits c d inc k) :
    ∃ r k', sysSbrk inc k = .ret r k' ∧ SbrkGrown c d inc k r k' ∧ Executes c d k' := by
  obtain ⟨⟨extra, hs⟩, hb⟩ := h.sound
  have hd : d ∈ k.dirs := mem_dirs.mpr ⟨c, h.live, h.pgdir⟩
  have huser : k.brk c / pgsize ≤ userPages := Nat.div_le_div_right hf.user
  have habove := hf.above
  have haligned := hf.aligned
  obtain ⟨first, n, hfirst, hn, hsum⟩ : ∃ first n,
      first = k.brk c / pgsize - (inc.toNat + pgsize - 1) / pgsize ∧
      n = (inc.toNat + pgsize - 1) / pgsize ∧ first + n = k.brk c / pgsize := by
    refine ⟨_, _, rfl, rfl, ?_⟩
    unfold pgsize at haligned ⊢
    omega
  have hlow : (sbrkStart (k.envs c).envBreak inc).toNat = first * pgsize := by
    rw [sbrkStart_toNat haligned habove, hfirst]
    rfl
  have hstocked : Stocked k.phys (demand k.phys d (Finset.Ico first (first + n))) := by
    rw [hsum, hfirst]
    exact hf.stocked
  obtain ⟨p', hloop, hg⟩ := sbrkLoop_run hs.intact hb hd hlow (hsum ▸ huser) hstocked
  rw [hn, ← sbrkTime_eq haligned habove hf.short] at hloop
  refine ⟨_, _, sysSbrk_run h.current h.pgdir hloop, hg.grown h hlow ?_ ?_ ?_, hg.executes h⟩
  · rw [hsum]
    unfold pgsize at haligned ⊢
    omega
  · rw [hn]
    unfold pgsize
    omega
  · rw [hsum]
    exact huser

/-- A call for which there is room. -/
def SbrkStep (c d : Nat) (k k' : Kernel) : Prop :=
  ∃ inc r, SbrkFits c d inc k ∧ sysSbrk inc k = .ret r k'

theorem Executes.sbrkStep (h : Executes c d k) (hstep : SbrkStep c d k k') : Executes c d k' := by
  obtain ⟨inc, r, hf, hrun⟩ := hstep
  obtain ⟨r', k1, hrun', -, h1⟩ := hf.grows h
  cases hrun.symm.trans hrun'
  exact h1

theorem Executes.sbrkRun (h : Executes c d k)
    (hrun : Relation.ReflTransGen (SbrkStep c d) k k') : Executes c d k' := by
  induction hrun with
  | refl => exact h
  | tail _ hstep ih => exact ih.sbrkStep hstep

/-- In every state that calls of `sys_sbrk` reach, a call that meets the conditions maps the pages
between the new and the old break and changes nothing else. -/
theorem sbrk_grows_heap (h : Executes c d k) (hrun : Relation.ReflTransGen (SbrkStep c d) k k')
    (hf : SbrkFits c d inc k') : SbrkSafe c d inc k' := by
  obtain ⟨r, k1, hcall, hgrown, -⟩ := hf.grows (h.sbrkRun hrun)
  exact ⟨r, k1, hcall, Or.inl hgrown⟩

/-- One more page is asked for, and its table is there. -/
theorem SbrkFits.page {q : Nat} (h : Executes c d k)
    (hbrk : k.brk c % pgsize = 0 ∧ k.brk c ≤ utop ∧ 0x1000 ≤ k.brk c)
    (hdemand : demand k.phys d (sbrkPages (k.envs c).envBreak 0x1000) = 1)
    (hhead : k.phys.pageFreeList = some q) : SbrkFits c d 0x1000 k := by
  obtain ⟨⟨extra, hs⟩, -⟩ := h.sound
  refine ⟨hbrk.1, hbrk.2.1, hbrk.2.2, by decide, ?_⟩
  rw [hdemand]
  exact .one hs.intact.toAccounts hhead

@[irreducible] def grown : Kernel := (sysSbrk 0x1000 nursery).after nursery

theorem nursery_fits : SbrkFits 0 100 0x1000 nursery :=
  .page (q := 110) nursery_executes (by decide +kernel) (by decide +kernel) (by decide +kernel)

theorem grown_step : SbrkStep 0 100 nursery grown := by
  obtain ⟨r, k', hrun, -, -⟩ := nursery_fits.grows nursery_executes
  refine ⟨0x1000, r, nursery_fits, ?_⟩
  unfold grown
  rw [hrun]
  rfl

/-- A second call, after a first one. -/
theorem sbrk_grows_grown : SbrkSafe 0 100 0x1000 grown := by
  have hexec := nursery_executes.sbrkStep grown_step
  refine sbrk_grows_heap nursery_executes (.single grown_step) (.page (q := 111) hexec ?_ ?_ ?_)
  · decide +kernel
  · decide +kernel
  · decide +kernel

theorem SbrkSafe.not_of_panics {f : String → Bool} (h : (sysSbrk inc k).panics f) :
    ¬ SbrkSafe c d inc k := by
  rintro ⟨r, k', hrun, -⟩
  obtain ⟨msg, hpanic, -⟩ := Outcome.panic_of_panics h
  cases hrun.symm.trans hpanic

/-- The machine has fewer than 64 free pages: the kernel panics. The break of a child has never been
set, so its first request is for the page at the top of the address space. -/
theorem sbrk_panics : ¬ SbrkSafe 0 100 0x40000 nursery ∧
    ∃ k1 k2 k3, sysExofork nursery = .ret 0x1002 k1 ∧
      sysEnvSetStatus 0x1002 2 k1 = .ret 0 k2 ∧ envRun 2 k2 = .exit k3 ∧
      (k3.envs 2).envPgdir = some 110 ∧ k3.brk 2 = 0 ∧ ¬ SbrkSafe 2 110 0x1000 k3 := by
  have hfull : (sysSbrk 0x40000 nursery).panics fun msg =>
      msg == "syscall->sys_sbrk: page alloc failed!" := by
    decide +kernel
  have hchild : (sysExofork nursery).check fun id k1 => id == 0x1002 &&
      (sysEnvSetStatus 0x1002 2 k1).check fun r k2 => r == 0 && (envRun 2 k2).leaves &&
      (((envRun 2 k2).after k2).envs 2).envPgdir == some 110 &&
      ((envRun 2 k2).after k2).brk 2 == 0 &&
      (sysSbrk 0x1000 ((envRun 2 k2).after k2)).panics fun msg =>
        msg == "pa2page called with invalid pa" := by
    decide +kernel
  refine ⟨SbrkSafe.not_of_panics hfull, ?_⟩
  obtain ⟨id, k1, hfork, hchild⟩ := Outcome.ret_of_check hchild
  rw [Bool.and_eq_true, beq_iff_eq] at hchild
  obtain ⟨rfl, hchild⟩ := hchild
  obtain ⟨r, k2, hstatus, hchild⟩ := Outcome.ret_of_check hchild
  simp only [Bool.and_eq_true, beq_iff_eq] at hchild
  obtain ⟨⟨⟨⟨rfl, hleaves⟩, hpgdir⟩, hbrk⟩, hpanics⟩ := hchild
  exact ⟨k1, k2, _, hfork, hstatus, Outcome.exit_of_leaves hleaves k2, hpgdir, hbrk,
    SbrkSafe.not_of_panics hpanics⟩

end Jos
