import Jos.Kernel.Processors
import Jos.Kernel.Snapshot

/-!
# Environment identifiers

The identifiers that `env_alloc` has issued since `env_init` and the slots that `env_free` has
released. An identifier says how often its slot had been allocated, so no other allocation has
issued it until the generation of a slot has used up its 19 bits.
-/

namespace Jos

open Logic BitVec List

variable {k k' k0 : Kernel} {e x n m : Nat} {id parentId : Word}

/-- How often a slot can be allocated before its generation wraps. -/
def maxGeneration : Nat := 524287

/-- The identifier that a slot has after `n` allocations. -/
def idOf (n e : Nat) : Word := if n = 0 then 0 else toWord (n * 4096 + e)

theorem idOf_toNat (hn : n ≤ maxGeneration) (he : e < nenv) :
    (idOf n e).toNat = if n = 0 then 0 else n * 4096 + e := by
  unfold idOf maxGeneration nenv at *
  by_cases h0 : n = 0
  · rw [if_pos h0, if_pos h0]
    rfl
  · rw [if_neg h0, if_neg h0, toNat_ofNat]
    omega

theorem and_not_lowBits (w : Word) : (w &&& ~~~(0x3ff : Word)).toNat = w.toNat / 1024 * 1024 := by
  have hshift : w &&& ~~~(0x3ff : Word) = (w >>> 10) <<< 10 := by
    apply eq_of_getLsbD_eq
    intro i hi
    have hmask : (~~~(0x3ff : Word)).getLsbD i = decide (10 ≤ i) := by
      have hall : ∀ i : Fin 32, (~~~(0x3ff : Word)).getLsbD i = decide (10 ≤ (i : Nat)) := by decide
      exact hall ⟨i, hi⟩
    rw [getLsbD_and, hmask, getLsbD_shiftLeft, getLsbD_ushiftRight]
    by_cases hlow : i < 10
    · simp [hlow]
    · have hback : 10 + (i - 10) = i := by omega
      simp [hlow, hi, hback, not_lt.mp hlow]
  rw [hshift, toNat_shiftLeft, toNat_ushiftRight, Nat.shiftLeft_eq,
    Nat.shiftRight_eq_div_pow]
  have := w.isLt
  omega

theorem nextEnvId_idOf (hn : n < maxGeneration) (he : e < nenv) :
    nextEnvId (idOf n e) e = idOf (n + 1) e := by
  have hold := idOf_toNat (le_of_lt hn) he
  have hgen : ((idOf n e + envgen) &&& ~~~(0x3ff : Word)).toNat = (n + 1) * 4096 := by
    have hadd : (idOf n e + envgen).toNat = (idOf n e).toNat + 4096 := by
      rw [toNat_add, show envgen.toNat = 4096 from rfl, hold]
      unfold maxGeneration nenv at *
      split <;> omega
    rw [and_not_lowBits, hadd, hold]
    unfold nenv at he
    split <;> omega
  have hpos : ¬((idOf n e + envgen) &&& ~~~(0x3ff : Word)).toInt ≤ 0 := by
    rw [toInt_eq_toNat_of_lt (by unfold maxGeneration at hn; omega), hgen]
    omega
  unfold nextEnvId
  dsimp only
  rw [if_neg hpos]
  apply eq_of_toNat_eq
  rw [toNat_or, hgen, idOf_toNat hn he, if_neg (Nat.succ_ne_zero n), toNat_ofNat,
    Nat.mod_eq_of_lt (by unfold nenv at he; omega)]
  have hor := Nat.shiftLeft_add_eq_or_of_lt (i := 12) (b := e) (by unfold nenv at he; omega) (n + 1)
  rw [Nat.shiftLeft_eq] at hor
  exact hor.symm

theorem envx_idOf (hn : 0 < n) (hle : n ≤ maxGeneration) (he : e < nenv) : envx (idOf n e) = e := by
  unfold envx
  rw [toNat_and, idOf_toNat hle he, if_neg (by omega)]
  change (n * 4096 + e) &&& 1023 = e
  rw [Nat.and_two_pow_sub_one_eq_mod (n := 10)]
  unfold nenv at he
  omega

theorem idOf_pos (hn : 0 < n) (hle : n ≤ maxGeneration) (he : e < nenv) : 0 < (idOf n e).toInt := by
  have hnat := idOf_toNat hle he
  rw [if_neg (by omega)] at hnat
  unfold maxGeneration nenv at *
  rw [toInt_eq_toNat_of_lt (by omega), hnat]
  omega

theorem idOf_inj (hn : n ≤ maxGeneration) (hm : m ≤ maxGeneration) (he : e < nenv)
    (h : idOf n e = idOf m e) : n = m := by
  have hnat := congrArg BitVec.toNat h
  rw [idOf_toNat hn he, idOf_toNat hm he] at hnat
  split at hnat <;> split at hnat <;> omega

/-- What happens to the table: `env_alloc` issues an identifier for a slot, or `env_free`
releases a slot. -/
inductive IdEvent where
  | issued (e : Nat) (id : Word)
  | freed (e : Nat)
  deriving DecidableEq

def IdEvent.slot : IdEvent → Nat
  | .issued e _ => e
  | .freed e => e

def IdEvent.id? : IdEvent → Option Word
  | .issued _ id => some id
  | .freed _ => none

variable {hist : List IdEvent} {ev : IdEvent}

/-- The identifiers that have been issued. Histories have the last event first. -/
def issuedIds (hist : List IdEvent) : List Word := hist.filterMap IdEvent.id?

def lastEvent (hist : List IdEvent) (e : Nat) : Option IdEvent := hist.find? (·.slot == e)

/-- How often a slot has been allocated. -/
def allocations (e : Nat) : List IdEvent → Nat
  | [] => 0
  | .issued e' _ :: hist => (if e' = e then 1 else 0) + allocations e hist
  | .freed _ :: hist => allocations e hist

theorem allocations_self (e : Nat) (id : Word) (hist : List IdEvent) :
    allocations e (.issued e id :: hist) = allocations e hist + 1 := by
  rw [allocations, if_pos rfl, add_comm]

theorem allocations_of_ne {e' : Nat} (h : e' ≠ e) (id : Word) (hist : List IdEvent) :
    allocations e (.issued e' id :: hist) = allocations e hist := by
  rw [allocations, if_neg h, Nat.zero_add]

theorem allocations_le_cons (e : Nat) (ev : IdEvent) (hist : List IdEvent) :
    allocations e hist ≤ allocations e (ev :: hist) := by
  cases ev with
  | issued e' id => exact Nat.le_add_left _ _
  | freed e' => exact Nat.le_refl _

theorem lastEvent_cons : lastEvent (ev :: hist) e =
    if ev.slot = e then some ev else lastEvent hist e := by
  unfold lastEvent
  rw [List.find?_cons]
  by_cases h : ev.slot = e
  · rw [if_pos h, beq_iff_eq.mpr h]
  · rw [if_neg h, beq_eq_false_iff_ne.mpr h]

/-- Every identifier carries the number of its allocation. -/
def Stamped : List IdEvent → Prop
  | [] => True
  | .issued e id :: hist => e < nenv ∧ id = idOf (allocations e hist + 1) e ∧ Stamped hist
  | .freed e :: hist => e < nenv ∧ Stamped hist

namespace Stamped

theorem mem_issuedIds (hid : id ∈ issuedIds hist) : ∃ e, .issued e id ∈ hist := by
  obtain ⟨ev, hev, heq⟩ := mem_filterMap.mp hid
  cases ev with
  | issued e id' =>
    cases heq
    exact ⟨e, hev⟩
  | freed e => cases heq

section

variable (h : Stamped hist)

include h

theorem slot_lt (hev : ev ∈ hist) : ev.slot < nenv := by
  induction hist with
  | nil => cases hev
  | cons ev' hist ih =>
    cases ev' with
    | issued e id =>
      rcases mem_cons.mp hev with rfl | hmem
      · exact h.1
      · exact ih h.2.2 hmem
    | freed e =>
      rcases mem_cons.mp hev with rfl | hmem
      · exact h.1
      · exact ih h.2 hmem

theorem issued_eq (hev : .issued e id ∈ hist) :
    ∃ n, 0 < n ∧ n ≤ allocations e hist ∧ id = idOf n e := by
  induction hist with
  | nil => cases hev
  | cons ev hist ih =>
    have htail : ∀ h' : Stamped hist, .issued e id ∈ hist →
        ∃ n, 0 < n ∧ n ≤ allocations e (ev :: hist) ∧ id = idOf n e := by
      intro h' hmem
      obtain ⟨n, hpos, hle, hid⟩ := ih h' hmem
      exact ⟨n, hpos, le_trans hle (allocations_le_cons e ev hist), hid⟩
    cases ev with
    | issued e' id' =>
      rcases mem_cons.mp hev with heq | hmem
      · cases heq
        exact ⟨allocations e hist + 1, Nat.succ_pos _, le_of_eq (allocations_self ..).symm,
          h.2.1⟩
      · exact htail h.2.2 hmem
    | freed e' =>
      rcases mem_cons.mp hev with heq | hmem
      · cases heq
      · exact htail h.2 hmem

theorem last_eq (hlast : lastEvent hist e = some (.issued e id)) :
    0 < allocations e hist ∧ id = idOf (allocations e hist) e := by
  induction hist with
  | nil => cases hlast
  | cons ev hist ih =>
    rw [lastEvent_cons] at hlast
    cases ev with
    | issued e' id' =>
      by_cases heq : e' = e
      · rw [if_pos (show IdEvent.slot (.issued e' id') = e from heq)] at hlast
        cases hlast
        rw [allocations_self]
        exact ⟨Nat.succ_pos _, h.2.1⟩
      · rw [if_neg (show IdEvent.slot (.issued e' id') ≠ e from heq)] at hlast
        rw [allocations_of_ne heq]
        exact ih h.2.2 hlast
    | freed e' =>
      by_cases heq : e' = e
      · rw [if_pos (show IdEvent.slot (.freed e') = e from heq)] at hlast
        cases hlast
      · rw [if_neg (show IdEvent.slot (.freed e') ≠ e from heq)] at hlast
        exact ih h.2 hlast

theorem nodup (hfew : ∀ e, allocations e hist ≤ maxGeneration) : (issuedIds hist).Nodup := by
  induction hist with
  | nil => exact nodup_nil
  | cons ev hist ih =>
    have hfew' : ∀ e, allocations e hist ≤ maxGeneration := fun e =>
      le_trans (allocations_le_cons e ev hist) (hfew e)
    cases ev with
    | freed e => exact ih h.2 hfew'
    | issued e id =>
      obtain ⟨he, hid, hstamped⟩ := h
      refine nodup_cons.mpr ⟨fun hmem => ?_, ih hstamped hfew'⟩
      obtain ⟨e', hev'⟩ := mem_issuedIds hmem
      obtain ⟨n, hpos, hle, hid'⟩ := hstamped.issued_eq hev'
      have hnew : allocations e hist + 1 ≤ maxGeneration := by
        rw [← allocations_self e id hist]
        exact hfew e
      have hn : n ≤ maxGeneration := le_trans hle (hfew' e')
      -- Equal identifiers are of one slot, and then of one allocation.
      have he' : e' < nenv := hstamped.slot_lt hev'
      have hslot : e' = e := by
        rw [← envx_idOf hpos hn he', ← hid', hid, envx_idOf (Nat.succ_pos _) hnew he]
      subst hslot
      have heq := idOf_inj hn hnew he (hid'.symm.trans hid)
      omega

end

end Stamped

/-- The list `env_free_list` has each free slot once, and no other slot. -/
def FreeListExact (k : Kernel) : Prop :=
  ∃ l, Chain (fun e => (k.envs e).envLink) k.envFreeList l ∧ l.Nodup ∧
    ∀ e, e ∈ l ↔ e < nenv ∧ (k.envs e).envStatus = .free

/-- The table and its history. -/
structure IdTable (hist : List IdEvent) (k : Kernel) : Prop where
  list : FreeListExact k
  pgdir : ∀ e < nenv, (k.envs e).envStatus = .free → (k.envs e).envPgdir = none
  stamped : Stamped hist
  id : ∀ e < nenv, (k.envs e).envId = idOf (allocations e hist) e
  live : ∀ e < nenv, (k.envs e).envStatus ≠ .free ↔ ∃ id, lastEvent hist e = some (.issued e id)

/-- The fields of the table that matter here are the same. -/
structure SameIds (k k' : Kernel) : Prop extends SameSlots k k' where
  id : ∀ e < nenv, (k'.envs e).envId = (k.envs e).envId

theorem IdTable.same (h : IdTable hist k) (hs : SameIds k k') : IdTable hist k' := by
  obtain ⟨l, hl, hnd, hmem⟩ := h.list
  refine ⟨⟨l, ?_, hnd, fun e => ?_⟩, fun e he hfree => ?_, h.stamped, fun e he => ?_,
    fun e he => ?_⟩
  · rw [hs.envFreeList]
    exact hl.congr fun e he => hs.link e ((hmem e).mp he).1
  · rw [hmem]
    exact and_congr_right fun he => (hs.free e he).symm
  · rw [hs.pgdir e he]
    exact h.pgdir e he ((hs.free e he).mp hfree)
  · rw [hs.id e he]
    exact h.id e he
  · rw [← h.live e he]
    exact not_congr (hs.free e he)

theorem IdTable.alloc {q : Nat} (h : IdTable hist k) (ha : EnvAllocated k parentId e q k')
    (hfew : allocations e hist < maxGeneration) :
    IdTable (.issued e (k'.envs e).envId :: hist) k' := by
  obtain ⟨l, hl, hnd, hmem⟩ := h.list
  rw [ha.head] at hl
  obtain ⟨l, rfl, htail⟩ := hl.exists_cons
  obtain ⟨he, -⟩ := (hmem e).mp mem_cons_self
  obtain ⟨hnotin, hnd⟩ := nodup_cons.mp hnd
  have hid : (k'.envs e).envId = idOf (allocations e hist + 1) e := by
    rw [ha.entry, ← nextEnvId_idOf hfew he, ← h.id e he]
  have hstatus : (k'.envs e).envStatus = .runnable := by rw [ha.entry]
  refine ⟨⟨l, ?_, hnd, fun x => ?_⟩, fun x hx hfree => ?_, ⟨he, hid, h.stamped⟩, fun x hx => ?_,
    fun x hx => ?_⟩
  · rw [ha.envFreeList]
    refine htail.congr fun x hx => ?_
    rw [ha.other x fun hxe => hnotin (hxe ▸ hx)]
  · by_cases hxe : x = e
    · rw [hxe, hstatus]
      exact ⟨fun hin => absurd hin hnotin, fun ⟨_, hfree⟩ => by cases hfree⟩
    · rw [ha.other x hxe, ← hmem x, mem_cons]
      exact ⟨Or.inr, fun hin => hin.resolve_left hxe⟩
  · by_cases hxe : x = e
    · rw [hxe, hstatus] at hfree
      cases hfree
    · rw [ha.other x hxe] at hfree ⊢
      exact h.pgdir x hx hfree
  · by_cases hxe : x = e
    · rw [hxe, allocations_self, hid]
    · rw [allocations_of_ne (Ne.symm hxe), ha.other x hxe]
      exact h.id x hx
  · rw [lastEvent_cons]
    by_cases hxe : x = e
    · rw [hxe, hstatus, if_pos (show IdEvent.slot (.issued e _) = e from rfl)]
      exact ⟨fun _ => ⟨_, rfl⟩, fun _ => nofun⟩
    · rw [ha.other x hxe, if_neg (show IdEvent.slot (.issued e _) ≠ x from Ne.symm hxe)]
      exact h.live x hx

theorem IdTable.free {d : Nat} (h : IdTable hist k) (he : e < nenv) (hf : EnvFreed k e d k') :
    IdTable (.freed e :: hist) k' := by
  obtain ⟨l, hl, hnd, hmem⟩ := h.list
  have hnotin : e ∉ l := by
    intro hin
    have hnone := h.pgdir e he ((hmem e).mp hin).2
    rw [hf.pgdir] at hnone
    cases hnone
  have hstatus : (k'.envs e).envStatus = .free := by rw [hf.entry]
  refine ⟨⟨e :: l, ?_, nodup_cons.mpr ⟨hnotin, hnd⟩, fun x => ?_⟩, fun x hx hfree => ?_,
    ⟨he, h.stamped⟩, fun x hx => ?_, fun x hx => ?_⟩
  · rw [hf.envFreeList]
    refine hl.push ?_ fun x hx => ?_
    · rw [hf.entry]
    · rw [hf.other x fun hxe => hnotin (hxe ▸ hx)]
  · by_cases hxe : x = e
    · rw [hxe]
      exact ⟨fun _ => ⟨he, hstatus⟩, fun _ => mem_cons_self⟩
    · rw [hf.other x hxe, ← hmem x, mem_cons]
      exact ⟨fun hin => hin.resolve_left hxe, Or.inr⟩
  · by_cases hxe : x = e
    · rw [hxe, hf.entry]
    · rw [hf.other x hxe] at hfree ⊢
      exact h.pgdir x hx hfree
  · have hid : (k'.envs x).envId = (k.envs x).envId := by
      by_cases hxe : x = e
      · rw [hxe, hf.entry]
      · rw [hf.other x hxe]
    exact hid.trans (h.id x hx)
  · rw [lastEvent_cons]
    by_cases hxe : x = e
    · rw [hxe, hstatus, if_pos (show IdEvent.slot (.freed e) = e from rfl)]
      refine ⟨fun hne => absurd rfl hne, fun ⟨_, hev⟩ => ?_⟩
      cases hev
    · rw [hf.other x hxe, if_neg (show IdEvent.slot (.freed e) ≠ x from Ne.symm hxe)]
      exact h.live x hx

/-- The slots from `i` on have been put in the list, in order. -/
structure InitFrom (i : Nat) (k : Kernel) : Prop where
  list : Chain (fun e => (k.envs e).envLink) k.envFreeList (List.range' i (nenv - i))
  slot : ∀ e, i ≤ e → e < nenv → (k.envs e).envId = 0 ∧ (k.envs e).envStatus = .free
  pgdir : ∀ e < nenv, (k.envs e).envPgdir = none

theorem envInitSlot_run {i : Nat} (hi : i < nenv) (h : InitFrom (i + 1) k) :
    ∃ k', envInitSlot i k = .ret () k' ∧ k'.phys = k.phys ∧ InitFrom i k' := by
  refine ⟨_, rfl, rfl, ?_, fun e hle he => ?_, fun e he => ?_⟩
  · have hrange : List.range' i (nenv - i) = i :: List.range' (i + 1) (nenv - (i + 1)) := by
      rw [show nenv - i = nenv - (i + 1) + 1 by omega, List.range'_succ]
    rw [hrange]
    refine h.list.push ?_ fun e he => ?_
    · simp
    · have hne : e ≠ i := by
        have := (mem_range'_1.mp he).1
        omega
      simp [Kernel.setEnv, hne]
  · by_cases hei : e = i
    · subst hei
      simp
    · simp only [Kernel.setEnv, Function.update_of_ne hei]
      exact h.slot e (by omega) he
  · by_cases hei : e = i
    · subst hei
      simpa using h.pgdir e he
    · simp only [Kernel.setEnv, Function.update_of_ne hei]
      exact h.pgdir e he

theorem envInit_run (h : ∀ e < nenv, (k.envs e).envPgdir = none) :
    ∃ k', envInit k = .ret () k' ∧ k'.phys = k.phys ∧ InitFrom 0 k' := by
  have hloop : ∀ j ≤ nenv, ∃ k', Code.times j (fun j => envInitSlot (nenv - 1 - j))
      { k with envFreeList := none } = .ret () k' ∧ k'.phys = k.phys ∧ InitFrom (nenv - j) k' := by
    intro j
    induction j with
    | zero =>
      intro _
      refine ⟨_, rfl, rfl, ?_, fun e hle he => by omega, h⟩
      rw [Nat.sub_zero, Nat.sub_self]
      exact rfl
    | succ j ih =>
      intro hj
      obtain ⟨k1, hrun1, hphys1, hinit1⟩ := ih (by omega)
      rw [show nenv - j = nenv - 1 - j + 1 by omega] at hinit1
      obtain ⟨k2, hrun2, hphys2, hinit2⟩ := envInitSlot_run (by omega) hinit1
      rw [show nenv - 1 - j = nenv - (j + 1) by omega] at hinit2
      exact ⟨k2, bind_run hrun1 hrun2, hphys2.trans hphys1, hinit2⟩
  obtain ⟨k', hrun, hphys, hinit⟩ := hloop nenv (Nat.le_refl _)
  rw [Nat.sub_self] at hinit
  exact ⟨k', bind_run rfl hrun, hphys, hinit⟩

theorem InitFrom.idTable (h : InitFrom 0 k) : IdTable [] k := by
  refine ⟨⟨_, h.list, nodup_range', fun e => ?_⟩, fun e he _ => h.pgdir e he, trivial,
    fun e he => (h.slot e (Nat.zero_le _) he).1, fun e he => ?_⟩
  · rw [mem_range'_1]
    exact ⟨fun hin => ⟨by omega, (h.slot e (Nat.zero_le _) (by omega)).2⟩, fun hin => by omega⟩
  · refine ⟨fun hne => absurd (h.slot e (Nat.zero_le _) he).2 hne, fun ⟨_, hev⟩ => ?_⟩
    cases hev

theorem InitFrom.head (h : InitFrom 0 k) : k.envFreeList = some 0 := h.list.1

/-- Calls of `env_alloc` and `env_free` in any order. Between them the rest of the kernel may run,
which leaves identifiers, links and freeness alone. -/
inductive EnvRun (k0 : Kernel) : List IdEvent → Kernel → Prop where
  | start : EnvRun k0 [] k0
  | alloc {hist : List IdEvent} {k k' : Kernel} {parentId : Word} {e : Nat}
      (hrun : EnvRun k0 hist k) (hret : envAlloc parentId k = .ret (.ok e) k') :
      EnvRun k0 (.issued e (k'.envs e).envId :: hist) k'
  | refused {hist : List IdEvent} {k k' : Kernel} {parentId : Word} {r : Int}
      (hrun : EnvRun k0 hist k) (hret : envAlloc parentId k = .ret (.error r) k') :
      EnvRun k0 hist k'
  | free {hist : List IdEvent} {k k' : Kernel} {e : Nat} (hrun : EnvRun k0 hist k)
      (he : e < nenv) (hret : envFree e k = .ret () k') : EnvRun k0 (.freed e :: hist) k'
  | other {hist : List IdEvent} {k k' : Kernel} (hrun : EnvRun k0 hist k) (hsame : SameIds k k') :
      EnvRun k0 hist k'

theorem EnvRun.idTable (hrun : EnvRun k0 hist k) (h0 : IdTable [] k0)
    (hfew : ∀ e, allocations e hist ≤ maxGeneration) : IdTable hist k := by
  induction hrun with
  | start => exact h0
  | @alloc hist k k' parentId e hrun hret ih =>
    have htable := ih fun x => le_trans (allocations_le_cons x _ hist) (hfew x)
    have hlt : allocations e hist < maxGeneration := by
      have := hfew e
      rw [allocations_self] at this
      exact this
    have hdone : ∃ q, EnvAllocated k parentId e q k' := by
      have hwp : wp (envAlloc parentId) (fun r k' => ∀ e, r = .ok e →
          ∃ q, EnvAllocated k parentId e q k') (fun _ => True) k :=
        envAlloc_wp (fun _ _ _ _ _ hr => by cases hr) fun e q k' ha e' hr => by
          cases hr
          exact ⟨q, ha⟩
      exact (wp_of_ret hret).mp hwp e rfl
    obtain ⟨q, ha⟩ := hdone
    exact htable.alloc ha hlt
  | @refused hist k k' parentId r hrun hret ih =>
    have hdone : SameEnvs k k' := by
      have hwp : wp (envAlloc parentId) (fun r k' => ∀ x, r = .error x → SameEnvs k k')
          (fun _ => True) k :=
        envAlloc_wp (fun _ _ hs _ _ _ => hs) fun _ _ _ _ _ hr => by cases hr
      exact (wp_of_ret hret).mp hwp r rfl
    exact (ih hfew).same ⟨.of_sameEnvs hdone, fun e _ => by rw [hdone.envs]⟩
  | @free hist k k' e hrun he hret ih =>
    have hdone : ∃ d, EnvFreed k e d k' := by
      have hwp : wp (envFree e) (fun _ k' => ∃ d, EnvFreed k e d k') (fun _ => True) k :=
        envFree_wp fun d k' hf => ⟨d, hf⟩
      exact (wp_of_ret hret).mp hwp
    obtain ⟨d, hf⟩ := hdone
    exact (ih hfew).free he hf
  | other hrun hsame ih => exact (ih hfew).same hsame

/-- The identifiers of the environments are unambiguous. -/
structure Unambiguous (hist : List IdEvent) (k : Kernel) : Prop where
  freeList : FreeListExact k
  positive : ∀ e id, .issued e id ∈ hist → 0 < id.toInt ∧ envx id = e
  distinct : (issuedIds hist).Nodup
  /-- An identifier finds the slot for which it was issued last, unless that has been freed. -/
  found : ∀ id ≠ 0, ∀ e, envid2env id false k = .ret (.ok e) k ↔
    lastEvent hist e = some (.issued e id)
  stale : ∀ id ≠ 0, (∀ e, lastEvent hist e ≠ some (.issued e id)) →
    envid2env id false k = .ret (.error (-eBadEnv)) k

theorem envid2env_eq (h0 : id ≠ 0) (k : Kernel) : envid2env id false k = .ret
    (if (k.envs (envx id)).envStatus = .free ∨ (k.envs (envx id)).envId ≠ id then
      .error (-eBadEnv) else .ok (envx id)) k := by
  unfold envid2env
  rw [if_neg h0]
  refine bind_run rfl ?_
  by_cases hbad : (k.envs (envx id)).envStatus = .free ∨ (k.envs (envx id)).envId ≠ id
  · rw [if_pos hbad, if_pos hbad]
    rfl
  · rw [if_neg hbad, if_neg hbad]
    rfl

/-- A slot answers to an identifier if that is its last one and is still in force. -/
theorem IdTable.answers_iff (h : IdTable hist k)
    (hfew : ∀ e, allocations e hist ≤ maxGeneration) (e : Nat) :
    envx id = e ∧ ¬((k.envs (envx id)).envStatus = .free ∨ (k.envs (envx id)).envId ≠ id) ↔
      lastEvent hist e = some (.issued e id) := by
  constructor
  · rintro ⟨rfl, hok⟩
    obtain ⟨hlive, hid⟩ := not_or.mp hok
    obtain ⟨id', hlast⟩ := (h.live _ (envx_lt id)).mp hlive
    have heq := (h.stamped.last_eq hlast).2
    rw [hlast, heq, ← h.id _ (envx_lt id), not_not.mp hid]
  · intro hlast
    have he : e < nenv := h.stamped.slot_lt (mem_of_find?_eq_some hlast)
    obtain ⟨hpos, hid⟩ := h.stamped.last_eq hlast
    have hslot : envx id = e := by
      rw [hid]
      exact envx_idOf hpos (hfew e) he
    rw [hslot]
    refine ⟨rfl, not_or.mpr ⟨(h.live e he).mpr ⟨id, hlast⟩, not_not.mpr ?_⟩⟩
    rw [h.id e he, hid]

/-- As long as no slot is allocated more often than its identifiers have generations, none is issued
twice, and `envid2env` finds exactly the environment that has the identifier now. -/
theorem ids_unambiguous {k1 : Kernel} (hzero : ∀ e < nenv, (k0.envs e).envPgdir = none)
    (hinit : envInit k0 = .ret () k1) (hrun : EnvRun k1 hist k)
    (hfew : ∀ e, allocations e hist ≤ maxGeneration) : Unambiguous hist k := by
  have h0 : IdTable [] k1 := by
    obtain ⟨k', hinit', -, hfrom⟩ := envInit_run hzero
    cases hinit.symm.trans hinit'
    exact hfrom.idTable
  have h := hrun.idTable h0 hfew
  refine ⟨h.list, fun e id hev => ?_, h.stamped.nodup hfew, fun id hid e => ?_,
    fun id hid hstale => ?_⟩
  · obtain ⟨n, hpos, hle, rfl⟩ := h.stamped.issued_eq hev
    have hn := le_trans hle (hfew e)
    have he : e < nenv := h.stamped.slot_lt hev
    exact ⟨idOf_pos hpos hn he, envx_idOf hpos hn he⟩
  · rw [envid2env_eq hid, ← h.answers_iff hfew e]
    by_cases hbad : (k.envs (envx id)).envStatus = .free ∨ (k.envs (envx id)).envId ≠ id
    · rw [if_pos hbad]
      constructor
      · intro hret
        cases hret
      · exact fun hok => absurd hbad hok.2
    · rw [if_neg hbad]
      constructor
      · intro hret
        cases hret
        exact ⟨rfl, hbad⟩
      · rintro ⟨rfl, -⟩
        rfl
  · rw [envid2env_eq hid, if_pos]
    by_contra hok
    exact hstale _ ((h.answers_iff hfew _).mp ⟨rfl, hok⟩)

@[irreducible] def tabled : Kernel := (envInit snapshot).after snapshot

@[irreducible] def peopled : Kernel := (envAlloc 0 tabled).after tabled

@[irreducible] def vacated : Kernel := (envFree 0 peopled).after peopled

@[irreducible] def repeopled : Kernel := (envAlloc 0 vacated).after vacated

/-- The first slot is allocated, freed and allocated again. -/
theorem ids_unambiguous_reused :
    Unambiguous [.issued 0 0x2000, .freed 0, .issued 0 0x1000] repeopled := by
  have hinit : envInit snapshot = .ret () tabled := by
    unfold tabled
    exact Outcome.eq_ret _ (by decide +kernel)
  have hfirst : envAlloc 0 tabled = .ret (.ok 0) peopled := by
    unfold peopled
    exact Outcome.eq_ret _ (by decide +kernel)
  have hfree : envFree 0 peopled = .ret () vacated := by
    unfold vacated
    exact Outcome.eq_ret _ (by decide +kernel)
  have hsecond : envAlloc 0 vacated = .ret (.ok 0) repeopled := by
    unfold repeopled
    exact Outcome.eq_ret _ (by decide +kernel)
  have hids : (peopled.envs 0).envId = 0x1000 ∧ (repeopled.envs 0).envId = 0x2000 := by
    decide +kernel
  have hrun := EnvRun.alloc (.free (.alloc .start hfirst) (by decide) hfree) hsecond
  rw [hids.1, hids.2] at hrun
  refine ids_unambiguous (fun _ _ => rfl) hinit hrun fun e => ?_
  simp only [allocations]
  unfold maxGeneration
  split <;> omega

end Jos
