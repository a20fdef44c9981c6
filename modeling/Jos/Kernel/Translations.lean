import Jos.Logic.Runs
import Jos.Kern.Tlb

/-!
# What the translation caches hold

The kernel clears an entry and then flushes the page on its own processor if the table is in use
there. Between the two the TLB may be stale, but the processor is in the kernel. `Coded` says that
the operations left to do keep to this order. Other processors do not flush, so it is the caller's
part to edit no address space that another processor is using.
-/

namespace Jos

open Logic Function List

variable {s s' : TlbState} {i j e v : Nat} {T : Nat → Table} {c d : Option Nat} {t : Table}
  {ops rest : List KernelOp} {m : Mapping} {A : TlbState → TlbMove → Prop} {call : PageCall}
  {cur : Nat} {moves : List TlbMove}

theorem setEntry_self (T : Nat → Table) (e v : Nat) (m : Option Mapping) :
    setEntry T e v m e v = m := by
  simp [setEntry]

theorem setEntry_of_ne (T : Nat → Table) {e v e' v' : Nat} (m : Option Mapping)
    (h : e' ≠ e ∨ v' ≠ v) : setEntry T e v m e' v' = T e' v' := by
  unfold setEntry
  by_cases he : e' = e
  · subst he
    rw [update_self, update_of_ne (h.resolve_left (fun hn => hn rfl))]
  · rw [update_of_ne he]

theorem setEntry_none (h : T e v = none) : setEntry T e v none = T := by
  unfold setEntry
  rw [← h, update_eq_self, update_eq_self]

/-- The operations are in the right order, for the page tables `T`, the current environment `c`
and the page directory `d` in force. -/
inductive Coded : (Nat → Table) → Option Nat → Option Nat → List KernelOp → Prop where
  | nil {T : Nat → Table} {c d : Option Nat} (h : c = d ∨ c = none) : Coded T c d []
  | clear {T : Nat → Table} {c d : Option Nat} {e v : Nat} {rest : List KernelOp}
      (h : Coded (setEntry T e v none) c d (.tlbInvalidate e v :: rest)) :
      Coded T c d (.setPte e v none :: .tlbInvalidate e v :: rest)
  | store {T : Nat → Table} {c d : Option Nat} {e v : Nat} {m : Mapping} {rest : List KernelOp}
      (hfree : T e v = none) (h : Coded (setEntry T e v (some m)) c d rest) :
      Coded T c d (.setPte e v (some m) :: rest)
  | invalidate {T : Nat → Table} {c d : Option Nat} {e v : Nat} {rest : List KernelOp}
      (huse : d = some e → c = none ∨ c = some e) (h : Coded T c d rest) :
      Coded T c d (.tlbInvalidate e v :: rest)
  | lcr3 {T : Nat → Table} {c d d' : Option Nat} {rest : List KernelOp} (h : Coded T c d' rest) :
      Coded T c d (.lcr3 d' :: rest)
  | setCurenv {T : Nat → Table} {c c' d : Option Nat} {rest : List KernelOp}
      (h : Coded T c' d rest) : Coded T c d (.setCurenv c' :: rest)
  | setStatus {T : Nat → Table} {c d : Option Nat} {e : Nat} {status : EnvStatus}
      {rest : List KernelOp} (h : Coded T c d rest) : Coded T c d (.setStatus e status :: rest)
  | iret {T : Nat → Table} {e : Nat} : Coded T (some e) (some e) [.iret]
  | hlt {T : Nat → Table} : Coded T none none [.hlt]

section

variable (huse : d = some e → c = none ∨ c = some e)

include huse

theorem pageRemoveOps_coded (h : Coded (setEntry T e v none) c d rest) :
    Coded T c d (pageRemoveOps (T e) e v ++ rest) := by
  unfold pageRemoveOps
  split
  · exact .clear (.invalidate huse h)
  next hnone =>
    rw [setEntry_none (by simpa using hnone)] at h
    exact h

theorem pageInsertOps_coded (hcd : c = d ∨ c = none) : Coded T c d (pageInsertOps (T e) e v m) :=
  pageRemoveOps_coded huse (.store (setEntry_self ..) (.nil hcd))

/-- Any number of pages can be removed if the rest does not depend on the page tables. -/
theorem pageRemoves_coded (h : ∀ T, Coded T c d rest) (vpns : List Nat) :
    ∀ T, Coded T c d (vpns.flatMap (pageRemoveOps t e) ++ rest) := by
  induction vpns with
  | nil => exact h
  | cons v vpns ih =>
    intro T
    rw [flatMap_cons, append_assoc]
    unfold pageRemoveOps
    split
    · exact .clear (.invalidate huse (ih _))
    · exact ih T

end

/-- The environment frees itself, with `kern_pgdir` in force, and nothing is current then. -/
theorem envFreeOps_self_coded : Coded T c d (envFreeOps s e e ++ [.setCurenv none]) := by
  unfold envFreeOps
  rw [if_pos rfl, append_assoc, append_assoc, cons_append, nil_append]
  have hend : ∀ T, Coded T c none ([.setStatus e .free] ++ [.setCurenv none]) :=
    fun T => .setStatus (.setCurenv (.nil (.inr rfl)))
  have huse : none = some e → c = none ∨ c = some e := nofun
  exact .lcr3 (pageRemoves_coded huse hend _ T)

theorem envFreeOps_other_coded (hne : e ≠ cur) :
    Coded T (some cur) (some cur) (envFreeOps s cur e) := by
  unfold envFreeOps
  rw [if_neg hne, nil_append]
  have huse : some cur = some e → some cur = none ∨ some cur = some e := .inr
  exact pageRemoves_coded huse (fun T => .setStatus (.nil (.inl rfl))) _ T

theorem callOps_coded (s : TlbState) (cur : Nat) (call : PageCall) :
    Coded s.tables (some cur) (some cur) (callOps s cur call) := by
  have hnil : Coded s.tables (some cur) (some cur) [] := .nil (.inl rfl)
  cases call with
  | pageAlloc e vpn writable page room =>
    unfold callOps sysPageAllocOps
    dsimp only
    split
    · cases page with
      | none => exact hnil
      | some page =>
        dsimp only
        split
        · exact pageInsertOps_coded .inr (.inl rfl)
        · exact hnil
    · exact hnil
  | pageMap src srcvpn dst dstvpn writable room =>
    unfold callOps sysPageMapOps
    dsimp only
    split
    · split
      · exact hnil
      · split
        · exact hnil
        · split
          · exact pageInsertOps_coded .inr (.inl rfl)
          · exact hnil
    · exact hnil
  | pageUnmap e vpn =>
    unfold callOps sysPageUnmapOps
    dsimp only
    split
    · have h := pageRemoveOps_coded (T := s.tables) (e := e) (v := vpn) (c := some cur) .inr
        (.nil (.inl rfl))
      rwa [append_nil] at h
    · exact hnil
  | envDestroy e =>
    unfold callOps envDestroyOps
    dsimp only
    split
    · split
      · exact .setStatus hnil
      · by_cases hcur : cur = e
        · subst hcur
          rw [if_pos rfl]
          exact envFreeOps_self_coded
        · rw [if_neg hcur, append_nil]
          exact envFreeOps_other_coded (Ne.symm hcur)
    · exact hnil
  | yield => exact hnil

theorem trapOps_coded (s : TlbState) (cur : Nat) (call : PageCall) :
    Coded s.tables (some cur) (some cur) (trapOps s cur call) := by
  unfold trapOps
  split
  · exact envFreeOps_self_coded
  · exact callOps_coded s cur call

theorem envRunOps_coded (hcd : c = d ∨ c = none) : Coded T c d (envRunOps s c e) := by
  unfold envRunOps
  by_cases hc : c = some e
  · rw [if_pos hc]
    subst hc
    cases hcd.resolve_right nofun
    exact .iret
  · rw [if_neg hc]
    have hswitch : Coded T c d ([.setCurenv (some e), .setStatus e .running, .lcr3 (some e)] ++
        [.iret]) := .setCurenv (.setStatus (.lcr3 .iret))
    cases c with
    | none => exact hswitch
    | some c =>
      dsimp only
      split
      · exact .setStatus hswitch
      · exact hswitch

theorem schedHaltOps_coded : Coded T c d schedHaltOps := .setCurenv (.lcr3 .hlt)

/-- No other processor has the environment as its current one. -/
def TlbState.Alone (s : TlbState) (i e : Nat) : Prop :=
  ∀ j < ncpu, j ≠ i → (s.cpus j).curenv ≠ some e

instance (s : TlbState) (i e : Nat) : Decidable (s.Alone i e) :=
  inferInstanceAs (Decidable (∀ j < ncpu, _))

/-- The address space that the call edits is not in use on another processor. -/
def TlbState.LeavesAloneCall (s : TlbState) (i cur : Nat) : PageCall → Prop
  | .pageAlloc e _ _ _ _ => s.Alone i e
  | .pageMap _ _ dst _ _ _ => s.Alone i dst
  | .pageUnmap e _ => s.Alone i e
  | .envDestroy e => s.status e = .running ∧ cur ≠ e ∨ s.Alone i e
  | .yield => True

/-- The moves of processors that leave alone what other processors use. -/
def LeavesAlone (s : TlbState) : TlbMove → Prop
  | .trap i call => ∀ cur, (s.cpus i).curenv = some cur →
      (s.status cur = .dying → s.Alone i cur) ∧ s.LeavesAloneCall i cur call
  | _ => True

/-- The operations edit only address spaces that no other processor uses. -/
def EditsAlone (s : TlbState) (i : Nat) (ops : List KernelOp) : Prop :=
  ∀ e v m, .setPte e v m ∈ ops → s.Alone i e

theorem EditsAlone.append (h : EditsAlone s i ops) (h' : EditsAlone s i rest) :
    EditsAlone s i (ops ++ rest) := by
  intro e v m hm
  rcases mem_append.mp hm with hm | hm
  · exact h e v m hm
  · exact h' e v m hm

theorem pageRemoveOps_alone (h : s.Alone i e) : EditsAlone s i (pageRemoveOps t e v) := by
  intro e' v' m hm
  unfold pageRemoveOps at hm
  split at hm
  · simp only [mem_cons, KernelOp.setPte.injEq, not_mem_nil, or_false, reduceCtorEq] at hm
    rw [hm.1]
    exact h
  · cases hm

theorem pageInsertOps_alone (h : s.Alone i e) : EditsAlone s i (pageInsertOps t e v m) := by
  refine (pageRemoveOps_alone h).append ?_
  intro e' v' m' hm
  simp only [mem_singleton, KernelOp.setPte.injEq] at hm
  rw [hm.1]
  exact h

theorem envFreeOps_alone (h : s.Alone i e) : EditsAlone s i (envFreeOps s cur e) := by
  refine (EditsAlone.append ?_ ?_).append ?_
  · split <;> simp [EditsAlone]
  · intro e' v' m hm
    obtain ⟨v, -, hv⟩ := mem_flatMap.mp hm
    exact pageRemoveOps_alone h e' v' m hv
  · simp [EditsAlone]

theorem callOps_alone (h : s.LeavesAloneCall i cur call) : EditsAlone s i (callOps s cur call) := by
  have hnil : EditsAlone s i [] := nofun
  cases call with
  | pageAlloc e vpn writable page room =>
    unfold callOps sysPageAllocOps
    dsimp only
    split
    · cases page with
      | none => exact hnil
      | some page =>
        dsimp only
        split
        · exact pageInsertOps_alone h
        · exact hnil
    · exact hnil
  | pageMap src srcvpn dst dstvpn writable room =>
    unfold callOps sysPageMapOps
    dsimp only
    split
    · split
      · exact hnil
      · split
        · exact hnil
        · split
          · exact pageInsertOps_alone h
          · exact hnil
    · exact hnil
  | pageUnmap e vpn =>
    unfold callOps sysPageUnmapOps
    dsimp only
    split
    · exact pageRemoveOps_alone h
    · exact hnil
  | envDestroy e =>
    unfold callOps envDestroyOps
    dsimp only
    split
    · split
      · simp [EditsAlone]
      next hnot =>
        refine (envFreeOps_alone (h.resolve_left hnot)).append ?_
        split <;> simp [EditsAlone]
    · exact hnil
  | yield => exact hnil

theorem trapOps_alone (hdying : s.status cur = .dying → s.Alone i cur)
    (h : s.LeavesAloneCall i cur call) : EditsAlone s i (trapOps s cur call) := by
  unfold trapOps
  split
  next hst =>
    refine (envFreeOps_alone (hdying hst)).append ?_
    simp [EditsAlone]
  · exact callOps_alone h

theorem envRunOps_alone : EditsAlone s i (envRunOps s c e) := by
  refine EditsAlone.append ?_ (by simp [EditsAlone])
  split
  · simp [EditsAlone]
  · refine EditsAlone.append ?_ (by simp [EditsAlone])
    split
    · split <;> simp [EditsAlone]
    · simp [EditsAlone]

/-- The processor is about to flush the page. -/
def TlbCpu.Stale (c : TlbCpu) (v : Nat) : Prop :=
  ∃ e rest, c.mode = .kernel (.tlbInvalidate e v :: rest) ∧ c.cr3 = some e

structure TlbCpu.Ok (s : TlbState) (i : Nat) (c : TlbCpu) : Prop where
  fresh : ∀ v m, c.tlb v = some m → s.tableOf c.cr3 v = some m ∨ c.Stale v
  user : c.mode = .user → c.cr3 = c.curenv ∧ c.curenv ≠ none
  halted : c.mode = .halted → c.cr3 = none ∧ c.curenv = none
  kernel : ∀ ops, c.mode = .kernel ops → Coded s.tables c.curenv c.cr3 ops ∧ EditsAlone s i ops

def CpuMode.inKernel : CpuMode → Bool
  | .kernel _ => true
  | _ => false

structure TlbState.Good (s : TlbState) : Prop where
  cpus : ∀ i, (s.cpus i).Ok s i
  one : ∀ i j, (s.cpus i).mode.inKernel → (s.cpus j).mode.inKernel → i = j
  absent : ∀ i, ncpu ≤ i → (s.cpus i).mode = .halted

/-- The processor `i` becomes `c'`. It changes the page tables only while it is in the kernel,
and only those that no other processor uses. -/
structure Change (s s' : TlbState) (i : Nat) (c' : TlbCpu) : Prop where
  lt : i < ncpu
  cpus : s'.cpus = update s.cpus i c'
  enters : c'.mode.inKernel → ∀ j, j ≠ i → (s.cpus j).mode.inKernel = false
  edits : (s.cpus i).mode.inKernel ∧ (∀ e, s'.tables e ≠ s.tables e → s.Alone i e) ∨
    s'.tables = s.tables ∧ c'.curenv = (s.cpus i).curenv

namespace Change

variable {c' : TlbCpu}

section

variable (h : Change s s' i c')

include h

theorem cpu : s'.cpus i = c' := by
  rw [h.cpus, update_self]

theorem cpu_of_ne (hj : j ≠ i) : s'.cpus j = s.cpus j := by
  rw [h.cpus, update_of_ne hj]

theorem alone_self (ha : s.Alone i e) : s'.Alone i e := by
  intro j hlt hj
  rw [h.cpu_of_ne hj]
  exact ha j hlt hj

theorem of_inKernel (hs : s.Good) (hj : j ≠ i) (hin : (s.cpus j).mode.inKernel) :
    s'.tables = s.tables ∧ c'.curenv = (s.cpus i).curenv := by
  apply h.edits.resolve_left
  rintro ⟨hi, -⟩
  exact hj (hs.one j i hin hi)

theorem tableOf (hs : s.Good) (hj : j ≠ i) :
    s'.tableOf (s.cpus j).cr3 = s.tableOf (s.cpus j).cr3 := by
  have hok := hs.cpus j
  cases hmode : (s.cpus j).mode with
  | kernel ops =>
    have ht := (h.of_inKernel hs hj (by rw [hmode]; rfl)).1
    unfold TlbState.tableOf
    rw [ht]
  | halted =>
    rw [(hok.halted hmode).1]
    rfl
  | user =>
    cases hcr3 : (s.cpus j).cr3 with
    | none => rfl
    | some e =>
      have hcur := (hok.user hmode).1.symm.trans hcr3
      change s'.tables e = s.tables e
      have hlt : j < ncpu := by
        by_contra hle
        cases (hs.absent j (Nat.le_of_not_lt hle)).symm.trans hmode
      rcases h.edits with ⟨-, hedit⟩ | ⟨ht, -⟩
      · by_contra hne
        exact hedit e hne j hlt hj hcur
      · rw [ht]

theorem other (hs : s.Good) (hj : j ≠ i) : (s'.cpus j).Ok s' j := by
  have hok := hs.cpus j
  rw [h.cpu_of_ne hj]
  refine ⟨fun v m hm => ?_, hok.user, hok.halted, fun ops hops => ?_⟩
  · rw [h.tableOf hs hj]
    exact hok.fresh v m hm
  · have hin : (s.cpus j).mode.inKernel := by rw [hops]; rfl
    obtain ⟨ht, hcur⟩ := h.of_inKernel hs hj hin
    obtain ⟨hcoded, hedits⟩ := hok.kernel ops hops
    refine ⟨ht ▸ hcoded, fun e v m hm j' hlt hj' => ?_⟩
    have halone := hedits e v m hm j' hlt hj'
    by_cases hi : j' = i
    · subst hi
      rw [h.cpu, hcur]
      exact halone
    · rw [h.cpu_of_ne hi]
      exact halone

theorem good (hs : s.Good) (hown : c'.Ok s' i) : s'.Good := by
  constructor
  · intro j
    by_cases hj : j = i
    · subst hj
      rw [h.cpu]
      exact hown
    · exact h.other hs hj
  · intro j j' hk hk'
    by_cases hj : j = i <;> by_cases hj' : j' = i
    · exact hj.trans hj'.symm
    · subst hj
      rw [h.cpu] at hk
      rw [h.cpu_of_ne hj', h.enters hk j' hj'] at hk'
      cases hk'
    · subst hj'
      rw [h.cpu] at hk'
      rw [h.cpu_of_ne hj, h.enters hk' j hj] at hk
      cases hk
    · rw [h.cpu_of_ne hj] at hk
      rw [h.cpu_of_ne hj'] at hk'
      exact hs.one j j' hk hk'
  · intro j hj
    have hlt := h.lt
    rw [h.cpu_of_ne (by omega)]
    exact hs.absent j hj

end

end Change

theorem TlbState.idle_good {tables : Nat → Table} {status : Nat → EnvStatus}
    {parent : Nat → Option Nat} : (TlbState.idle tables status parent).Good :=
  ⟨fun _ => ⟨nofun, nofun, fun _ => ⟨rfl, rfl⟩, nofun⟩, nofun, fun _ _ => rfl⟩

theorem setEntry_alone {m : Option Mapping} (h : s.Alone i e) :
    ∀ e', setEntry s.tables e v m e' ≠ s.tables e' → s.Alone i e' := by
  intro e' hne
  by_cases he : e' = e
  · rw [he]
    exact h
  · exact absurd (update_of_ne he ..) hne

theorem tableOf_setEntry {m : Option Mapping} {v' : Nat}
    (ht : s'.tables = setEntry s.tables e v m) (hne : ¬(d = some e ∧ v' = v)) :
    s'.tableOf d v' = s.tableOf d v' := by
  cases d with
  | none => rfl
  | some e' =>
    change s'.tables e' v' = s.tables e' v'
    rw [ht]
    apply setEntry_of_ne
    by_contra hboth
    simp only [not_or, not_not] at hboth
    exact hne ⟨congrArg some hboth.1, hboth.2⟩

theorem not_stale_of_user {c : TlbCpu} (hmode : c.mode = .user) : ∀ v, ¬c.Stale v := by
  rintro v ⟨e, rest, hmode', -⟩
  cases hmode.symm.trans hmode'

section

variable (h : s.Good)

include h

theorem TlbState.Good.others (hi : (s.cpus i).mode.inKernel) :
    ∀ j, j ≠ i → (s.cpus j).mode.inKernel = false := by
  intro j hj
  rw [Bool.eq_false_iff]
  intro hk
  exact hj (h.one j i hk hi)

theorem TlbState.Good.fill (hi : i < ncpu) (v : Nat) : (s.fill i v).Good := by
  have hok := h.cpus i
  unfold TlbState.fill
  dsimp only
  split
  · exact h
  · have hchange : Change s (s.setCpu i { s.cpus i with
        tlb := update (s.cpus i).tlb v (s.tableOf (s.cpus i).cr3 v) }) i _ :=
      ⟨hi, rfl, h.others, .inr ⟨rfl, rfl⟩⟩
    refine hchange.good h ⟨fun v' m hm => ?_, hok.user, hok.halted, fun ops hops => ?_⟩
    · change update (s.cpus i).tlb v (s.tableOf (s.cpus i).cr3 v) v' = some m at hm
      by_cases hv : v' = v
      · subst hv
        rw [update_self] at hm
        exact .inl hm
      · rw [update_of_ne hv] at hm
        exact hok.fresh v' m hm
    · obtain ⟨hcoded, hedits⟩ := hok.kernel ops hops
      exact ⟨hcoded, fun e v' m hm => hchange.alone_self (hedits e v' m hm)⟩

theorem TlbState.Good.enter (hi : i < ncpu)
    (hothers : ∀ j, j ≠ i → (s.cpus j).mode.inKernel = false)
    (hfresh : ∀ v, ¬(s.cpus i).Stale v)
    (hcoded : Coded s.tables (s.cpus i).curenv (s.cpus i).cr3 ops)
    (hedits : EditsAlone s i ops) : (s.enter i ops).Good := by
  have hchange : Change s (s.enter i ops) i { s.cpus i with mode := .kernel ops } :=
    ⟨hi, rfl, fun _ => hothers, .inr ⟨rfl, rfl⟩⟩
  refine hchange.good h ⟨fun v m hm => ?_, nofun, nofun, ?_⟩
  · exact .inl (((h.cpus i).fresh v m hm).resolve_right (hfresh v))
  · rintro _ ⟨⟩
    exact ⟨hcoded, fun e v m hm => hchange.alone_self (hedits e v m hm)⟩

theorem TlbState.Good.work {c' d' : Option Nat} {tlb' : Table} (hi : i < ncpu)
    (hin : (s.cpus i).mode.inKernel)
    (hcpus : s'.cpus = update s.cpus i ⟨c', d', tlb', .kernel rest⟩)
    (htables : ∀ e, s'.tables e ≠ s.tables e → s.Alone i e) (hedits : EditsAlone s i rest)
    (hcoded : Coded s'.tables c' d' rest)
    (hfresh : ∀ v m, tlb' v = some m → s'.tableOf d' v = some m ∨
      TlbCpu.Stale ⟨c', d', tlb', .kernel rest⟩ v) : s'.Good := by
  have hchange : Change s s' i ⟨c', d', tlb', .kernel rest⟩ :=
    ⟨hi, hcpus, fun _ => h.others hin, .inl ⟨hin, htables⟩⟩
  refine hchange.good h ⟨hfresh, nofun, nofun, ?_⟩
  rintro _ ⟨⟩
  exact ⟨hcoded, fun e v m hm => hchange.alone_self (hedits e v m hm)⟩

theorem TlbState.Good.exec {op : KernelOp} {tlb : Table} (hi : i < ncpu)
    (hc : s.cpus i = ⟨c, d, tlb, .kernel (op :: rest)⟩) : (s.exec i op rest).Good := by
  have hok := h.cpus i
  rw [hc] at hok
  obtain ⟨hcoded, hedits⟩ := hok.kernel _ rfl
  have hin : (s.cpus i).mode.inKernel := by
    rw [hc]
    rfl
  have hrest : EditsAlone s i rest := fun e v m hm => hedits e v m (mem_cons_of_mem _ hm)
  have hsame : ∀ e, s.tables e ≠ s.tables e → s.Alone i e := fun _ hne => absurd rfl hne
  -- a TLB is stale only when the next operation is a flush
  have hfresh : (∀ e v, op ≠ .tlbInvalidate e v) → ∀ v m, tlb v = some m →
      s.tableOf d v = some m := by
    intro hop v m hm
    apply (hok.fresh v m hm).resolve_right
    rintro ⟨e, rest', hmode, -⟩
    cases hmode
    exact hop e v rfl
  unfold TlbState.exec
  rw [hc]
  cases hcoded with
  | @clear _ _ _ e v rest hcoded =>
    refine h.work hi hin rfl (setEntry_alone (hedits e v none mem_cons_self)) hrest hcoded ?_
    intro v' m hm
    by_cases hv : d = some e ∧ v' = v
    · right
      exact ⟨e, rest, by rw [hv.2], hv.1⟩
    · left
      rw [tableOf_setEntry rfl hv]
      exact hfresh nofun v' m hm
  | @store _ _ _ e v m rest hfree hcoded =>
    refine h.work hi hin rfl (setEntry_alone (hedits e v (some m) mem_cons_self)) hrest
      hcoded ?_
    intro v' m' hm
    left
    have hold := hfresh nofun v' m' hm
    rw [tableOf_setEntry rfl ?_]
    · exact hold
    · rintro ⟨rfl, rfl⟩
      cases hfree.symm.trans hold
  | @invalidate _ _ _ e v rest huse hcoded =>
    -- a page that is stale is flushed, since its page table is the current one
    have hstale : ∀ v' m, tlb v' = some m → ¬(d = some e ∧ v' = v) → s.tableOf d v' = some m := by
      intro v' m hm hne
      apply (hok.fresh v' m hm).resolve_right
      rintro ⟨e', rest', hmode, hcr3⟩
      cases hmode
      exact hne ⟨hcr3, rfl⟩
    dsimp only
    by_cases hcur : c = none ∨ c = some e
    · rw [if_pos hcur]
      refine h.work hi hin rfl hsame hrest hcoded fun v' m hm => ?_
      by_cases hv : v' = v
      · subst hv
        rw [update_self] at hm
        cases hm
      · rw [update_of_ne hv] at hm
        exact .inl (hstale v' m hm fun hboth => hv hboth.2)
    · rw [if_neg hcur]
      refine h.work hi hin rfl hsame hrest hcoded fun v' m hm => ?_
      exact .inl (hstale v' m hm fun hboth => hcur (huse hboth.1))
  | lcr3 hcoded => exact h.work hi hin rfl hsame hrest hcoded nofun
  | setCurenv hcoded =>
    exact h.work hi hin rfl hsame hrest hcoded fun v m hm => .inl (hfresh nofun v m hm)
  | setStatus hcoded =>
    exact h.work hi hin rfl hsame hrest hcoded fun v m hm => .inl (hfresh nofun v m hm)
  | @iret _ e =>
    have hchange : Change s (s.setCpu i ⟨some e, some e, tlb, .user⟩) i _ :=
      ⟨hi, rfl, nofun, .inl ⟨hin, hsame⟩⟩
    exact hchange.good h ⟨fun v m hm => .inl (hfresh nofun v m hm), fun _ => ⟨rfl, nofun⟩,
      nofun, nofun⟩
  | hlt =>
    have hchange : Change s (s.setCpu i ⟨none, none, tlb, .halted⟩) i _ :=
      ⟨hi, rfl, nofun, .inl ⟨hin, hsame⟩⟩
    exact hchange.good h ⟨fun v m hm => .inl (hfresh nofun v m hm), nofun,
      fun _ => ⟨rfl, rfl⟩, nofun⟩

theorem TlbState.Good.leave (hi : i < ncpu) (hmode : (s.cpus i).mode = .kernel [])
    (hcoded : ((s.cpus i).curenv = (s.cpus i).cr3 ∨ (s.cpus i).curenv = none) →
      Coded s.tables (s.cpus i).curenv (s.cpus i).cr3 ops)
    (hedits : EditsAlone s i ops) : (s.enter i ops).Good := by
  have hin : (s.cpus i).mode.inKernel := by
    rw [hmode]
    rfl
  refine h.enter hi (h.others hin) ?_ (hcoded ?_) hedits
  · rintro v ⟨e, rest, hmode', -⟩
    cases hmode.symm.trans hmode'
  · have hend := ((h.cpus i).kernel [] hmode).1
    generalize (s.cpus i).curenv = c at hend ⊢
    generalize (s.cpus i).cr3 = d at hend ⊢
    cases hend with
    | nil hcd => exact hcd

theorem TlbState.Good.unlocked (hlock : s.Unlocked) (i : Nat) :
    ∀ j, j ≠ i → (s.cpus j).mode.inKernel = false := by
  intro j _
  by_cases hj : j < ncpu
  · rcases hlock j hj with hmode | hmode
    · rw [hmode]
      rfl
    · rw [hmode]
      rfl
  · rw [h.absent j (Nat.le_of_not_lt hj)]
    rfl

theorem TlbState.Good.step {m : TlbMove} (hquiet : LeavesAlone s m)
    (hstep : s.step m = some s') : s'.Good := by
  unfold TlbState.step at hstep
  by_cases hi : m.cpu < ncpu
  swap
  · rw [if_neg hi] at hstep
    cases hstep
  rw [if_pos hi] at hstep
  cases m with
  | access i v =>
    dsimp only at hstep
    split at hstep
    · cases hstep
      exact h.fill hi v
    · cases hstep
  | trap i call =>
    dsimp only at hstep
    split at hstep
    next cur hmode hcur =>
      split at hstep
      next hlock =>
        cases hstep
        obtain ⟨hdying, hcall⟩ := hquiet cur hcur
        have hcr3 := ((h.cpus i).user hmode).1
        refine h.enter hi (h.unlocked hlock i) (not_stale_of_user hmode) ?_
          (trapOps_alone hdying hcall)
        rw [hcr3, hcur]
        exact trapOps_coded s cur call
      · cases hstep
    · cases hstep
  | wake i =>
    dsimp only at hstep
    split at hstep
    next hwake =>
      cases hstep
      obtain ⟨hcr3, hcur⟩ := (h.cpus i).halted hwake.1
      refine h.enter hi (h.unlocked hwake.2 i) ?_ ?_ nofun
      · rintro v ⟨e, rest, hmode, -⟩
        cases hwake.1.symm.trans hmode
      · exact .nil (.inr hcur)
    · cases hstep
  | op i =>
    dsimp only at hstep
    split at hstep
    next op rest hmode =>
      cases hstep
      exact h.exec hi (by rw [← hmode])
    · cases hstep
  | envRun i e =>
    dsimp only at hstep
    split at hstep
    next hrun =>
      cases hstep
      refine h.leave hi hrun.1 (fun hcd => envRunOps_coded hcd) envRunOps_alone
    · cases hstep
  | schedHalt i =>
    dsimp only at hstep
    split at hstep
    next hmode =>
      cases hstep
      exact h.leave hi hmode (fun _ => schedHaltOps_coded) (by simp [EditsAlone, schedHaltOps])
    · cases hstep

end

/-- The runs whose moves all meet the condition `A`. -/
def TlbRun (A : TlbState → TlbMove → Prop) : TlbState → TlbState → Prop :=
  Relation.ReflTransGen fun s s' => ∃ m, A s m ∧ s.step m = some s'

theorem TlbRun.good (hA : ∀ s m, A s m → LeavesAlone s m)
    (hrun : TlbRun A s s') (h : s.Good) : s'.Good := by
  refine run_invariant hrun h ?_
  rintro s s' hs ⟨m, hm, hstep⟩
  exact hs.step (hA s m hm) hstep

/-- All translations of the TLB are in the page table of the current environment, which
allows at least as much. -/
def TlbState.Agrees (s : TlbState) (i : Nat) : Prop :=
  ∀ v m, (s.cpus i).tlb v = some m → ∃ e m', (s.cpus i).curenv = some e ∧
    s.tables e v = some m' ∧ m'.page = m.page ∧ (m.writable → m'.writable)

theorem TlbState.Good.agrees (h : s.Good) (hmode : (s.cpus i).mode = .user) : s.Agrees i := by
  intro v m hm
  obtain ⟨hcr3, hcur⟩ := (h.cpus i).user hmode
  obtain ⟨e, he⟩ := Option.ne_none_iff_exists'.mp hcur
  have htable := ((h.cpus i).fresh v m hm).resolve_right (not_stale_of_user hmode v)
  rw [hcr3, he] at htable
  exact ⟨e, m, he, htable, rfl, id⟩

/-- As long as no address space is edited while another processor uses it, the TLB of a processor in
user mode agrees with the page table and reaches no page that is mapped nowhere. -/
theorem tlb_agrees {tables : Nat → Table} {status : Nat → EnvStatus} {parent : Nat → Option Nat}
    (hrun : TlbRun LeavesAlone (.idle tables status parent) s) :
    (∀ i, (s.cpus i).mode = .user → s.Agrees i) ∧
    ∀ page, (∀ e v m, s.tables e v = some m → m.page ≠ page) →
      ∀ i v m, (s.cpus i).mode = .user → (s.cpus i).tlb v = some m → m.page ≠ page := by
  have h := hrun.good (fun _ _ => id) TlbState.idle_good
  refine ⟨fun i => h.agrees, fun page hgone i v m hmode hm => ?_⟩
  obtain ⟨e, m', -, htable, hpage, -⟩ := h.agrees hmode v m hm
  rw [← hpage]
  exact hgone e v m' htable

/-- Two environments, the second a child of the first, with a page each. -/
def family : TlbState := .idle
  (fun e v => if e ≤ 1 ∧ v = 512 then some ⟨5 + e, true⟩ else none)
  (fun e => if e ≤ 1 then .runnable else .free)
  (fun e => if e = 1 then some 0 else none)

def TlbState.run (s : TlbState) : List TlbMove → Option TlbState
  | [] => some s
  | m :: moves => (s.step m).bind fun s' => s'.run moves

theorem TlbRun.of_run
    (h : s.run moves = some s') (hA : ∀ m ∈ moves, ∀ s, A s m) : TlbRun A s s' := by
  induction moves generalizing s with
  | nil =>
    cases h
    exact .refl
  | cons m moves ih =>
    obtain ⟨s1, hstep, hrest⟩ := Option.bind_eq_some_iff.mp h
    exact .head ⟨m, hA m mem_cons_self s, hstep⟩
      (ih hrest fun m' hm' => hA m' (mem_cons_of_mem _ hm'))

def TlbMove.isTrap : TlbMove → Bool
  | .trap _ _ => true
  | _ => false

theorem leavesAlone_of_not_trap {m : TlbMove} (h : m.isTrap = false) : LeavesAlone s m := by
  cases m with
  | trap i call => cases h
  | _ => trivial

def pick (i e : Nat) : List TlbMove := [.wake i, .envRun i e, .op i, .op i, .op i, .op i]

/-- The first processor runs the parent, and the second the child. Both use their page. -/
def bothRun : List TlbMove := pick 0 0 ++ [.access 0 512] ++ pick 1 1 ++ [.access 1 512]

/-- The parent unmaps the page of the environment `e`: the call, its operations, and the way
back. -/
def unmapCall (e : Nat) : TlbMove := .trap 0 (.pageUnmap e 512)

def unmapRest : List TlbMove := [.op 0, .op 0, .envRun 0 0, .op 0]

@[irreducible] def beforeUnmap : TlbState := (family.run bothRun).getD family

@[irreducible] def afterUnmap (e : Nat) : TlbState :=
  (beforeUnmap.run (unmapCall e :: unmapRest)).getD family

theorem run_getD (h : (s.run moves).isSome) : s.run moves = some ((s.run moves).getD family) := by
  obtain ⟨s', hs⟩ := Option.isSome_iff_exists.mp h
  rw [hs]
  rfl

theorem beforeUnmap_run : family.run bothRun = some beforeUnmap := by
  unfold beforeUnmap
  exact run_getD (by decide +kernel)

theorem afterUnmap_run (h : (beforeUnmap.run (unmapCall e :: unmapRest)).isSome) :
    beforeUnmap.run (unmapCall e :: unmapRest) = some (afterUnmap e) := by
  unfold afterUnmap
  exact run_getD h

/-- The parent unmaps its own page, while the child runs on the other processor. -/
theorem tlb_agrees_unmap : TlbRun LeavesAlone family (afterUnmap 0) ∧
    (afterUnmap 0).tables 0 512 = none ∧ ((afterUnmap 0).cpus 0).tlb 512 = none ∧
    ((afterUnmap 0).cpus 1).tlb 512 = some ⟨6, true⟩ ∧ (afterUnmap 0).Agrees 1 := by
  have hbefore : TlbRun LeavesAlone family beforeUnmap := by
    have hno : ∀ m ∈ bothRun, m.isTrap = false := by decide
    exact .of_run beforeUnmap_run fun m hm _ => leavesAlone_of_not_trap (hno m hm)
  have hafter : beforeUnmap.run (unmapCall 0 :: unmapRest) = some (afterUnmap 0) :=
    afterUnmap_run (by decide +kernel)
  have hquiet : LeavesAlone beforeUnmap (unmapCall 0) := by
    have hcur : (beforeUnmap.cpus 0).curenv = some 0 := by decide +kernel
    have halone : beforeUnmap.Alone 0 0 := by decide +kernel
    intro cur hcur'
    cases hcur.symm.trans hcur'
    exact ⟨fun _ => halone, halone⟩
  have hrun : TlbRun LeavesAlone family (afterUnmap 0) := by
    obtain ⟨s1, hstep, hrest⟩ := Option.bind_eq_some_iff.mp hafter
    have hno : ∀ m ∈ unmapRest, m.isTrap = false := by decide
    exact (hbefore.tail ⟨_, hquiet, hstep⟩).trans
      (TlbRun.of_run hrest fun m hm _ => leavesAlone_of_not_trap (hno m hm))
  exact ⟨hrun, by decide +kernel, by decide +kernel, by decide +kernel,
    (tlb_agrees hrun).1 1 (by decide +kernel)⟩

/-- The parent unmaps the page of the child. The other processor goes on with the child, and
reaches the page, which no page table has any more. -/
theorem stale_translation : TlbRun (fun _ _ => True) family (afterUnmap 1) ∧
    ((afterUnmap 1).cpus 1).mode = .user ∧ ((afterUnmap 1).cpus 1).curenv = some 1 ∧
    ((afterUnmap 1).cpus 1).tlb 512 = some ⟨6, true⟩ ∧ (afterUnmap 1).tables 1 512 = none ∧
    ¬(afterUnmap 1).Agrees 1 := by
  have hrun : TlbRun (fun _ _ => True) family (afterUnmap 1) :=
    (TlbRun.of_run beforeUnmap_run fun _ _ _ => trivial).trans
      (TlbRun.of_run (afterUnmap_run (by decide +kernel)) fun _ _ _ => trivial)
  have hcur : ((afterUnmap 1).cpus 1).curenv = some 1 := by decide +kernel
  have htlb : ((afterUnmap 1).cpus 1).tlb 512 = some ⟨6, true⟩ := by decide +kernel
  have htable : (afterUnmap 1).tables 1 512 = none := by decide +kernel
  refine ⟨hrun, by decide +kernel, hcur, htlb, htable, fun hagrees => ?_⟩
  obtain ⟨e, m', he, hm', -⟩ := hagrees 512 _ htlb
  cases hcur.symm.trans he
  cases htable.symm.trans hm'

end Jos
