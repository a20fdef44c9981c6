import Jos.Net.Arch
import Jos.Logic.Chain
import Mathlib.Data.List.Perm.Subperm

/-!
# The thread queue

The queue of runnable threads is linked through the contexts, with a pointer to its last one. A
thread that waits is in this queue or runs, so `thread_wakeup` reaches every thread that waits.
-/

namespace Jos

open Logic Function List

variable {tcs tcs' : Nat → ThreadContext} {tq : ThreadQueue} {l k : List Nat} {a i n addr : Nat}

/-- The queue is linked through the contexts of the list. -/
structure TqHolds (tcs : Nat → ThreadContext) (tq : ThreadQueue) (l : List Nat) : Prop where
  chain : Chain (fun i => (tcs i).link) tq.first l
  last : ∀ x, l.getLast? = some x → tq.last = some x

/-- Only links have changed. -/
def Relinked (tcs tcs' : Nat → ThreadContext) : Prop :=
  ∀ i, ∃ link, tcs' i = { tcs i with link := link }

theorem Relinked.refl : Relinked tcs tcs := fun _ => ⟨_, rfl⟩

theorem Relinked.trans {tcs'' : Nat → ThreadContext} (h : Relinked tcs tcs')
    (h' : Relinked tcs' tcs'') : Relinked tcs tcs'' := by
  intro i
  obtain ⟨link, hlink⟩ := h i
  obtain ⟨link', hlink'⟩ := h' i
  exact ⟨link', by rw [hlink', hlink]⟩

theorem setLink_relinked (tc : Nat) (link : Option Nat) : Relinked tcs (setLink tcs tc link) := by
  intro i
  by_cases hi : i = tc
  · subst hi
    exact ⟨link, update_self ..⟩
  · exact ⟨(tcs i).link, update_of_ne hi ..⟩

theorem setLink_of_ne {tc : Nat} {link : Option Nat} (hi : i ≠ tc) :
    setLink tcs tc link i = tcs i :=
  update_of_ne hi ..

theorem setLink_link (tc : Nat) (link : Option Nat) : (setLink tcs tc link tc).link = link := by
  unfold setLink
  rw [update_self]

namespace TqHolds

theorem congr (h : TqHolds tcs tq l) (heq : ∀ i ∈ l, (tcs' i).link = (tcs i).link) :
    TqHolds tcs' tq l :=
  ⟨h.chain.congr heq, h.last⟩

theorem first_nil (h : TqHolds tcs tq []) : tq.first = none := h.chain

theorem pop_nil (h : TqHolds tcs tq []) : threadqPop tcs tq = none := by
  unfold threadqPop
  rw [h.first_nil]
  rfl

section

variable (h : TqHolds tcs tq (a :: l))

include h

theorem first_cons : tq.first = some a := h.chain.1

theorem pop_cons :
    threadqPop tcs tq = some (a, setLink tcs a none, { tq with first := (tcs a).link }) := by
  unfold threadqPop
  rw [h.first_cons]
  rfl

theorem popped (ha : a ∉ l) : TqHolds (setLink tcs a none) { tq with first := (tcs a).link } l := by
  refine ⟨h.chain.2.congr fun i hi => ?_, ?_⟩
  · have hne : i ≠ a := fun heq => ha (heq ▸ hi)
    rw [setLink_of_ne hne]
  · intro x hx
    refine h.last x ?_
    cases l with
    | nil => cases hx
    | cons b l => exact hx

end

theorem push (h : TqHolds tcs tq l) (hl : l.Nodup) (ha : a ∉ l) :
    TqHolds (threadqPush tcs tq a).1 (threadqPush tcs tq a).2 (l ++ [a]) := by
  rcases eq_nil_or_concat l with rfl | ⟨l', b, rfl⟩
  · unfold threadqPush
    dsimp only
    rw [h.first_nil]
    refine ⟨⟨rfl, setLink_link a none⟩, ?_⟩
    intro x hx
    exact hx
  · rw [concat_eq_append] at h hl ha ⊢
    have hfirst : ∃ c, tq.first = some c := by
      cases l' with
      | nil => exact ⟨_, h.first_cons⟩
      | cons c l' => exact ⟨_, h.first_cons⟩
    obtain ⟨c, hc⟩ := hfirst
    have hlast : tq.last = some b := h.last b (by simp)
    have hba : b ≠ a := fun heq => ha (heq ▸ mem_append_right _ mem_cons_self)
    have hb : b ∉ l' := by
      intro hb
      rw [nodup_append] at hl
      exact hl.2.2 b hb b mem_cons_self rfl
    have hpush : threadqPush tcs tq a =
        (setLink (setLink tcs a none) b (some a), { tq with last := some a }) := by
      unfold threadqPush
      rw [hc, hlast]
    rw [hpush]
    dsimp only
    refine ⟨?_, ?_⟩
    · refine Chain.snoc h.chain (setLink_link b (some a)) ?_ ?_
      · rw [setLink_of_ne hba.symm, setLink_link]
      · intro i hi
        have hib : i ≠ b := fun heq => hb (heq ▸ hi)
        have hia : i ≠ a := fun heq => ha (heq ▸ mem_append_left _ hi)
        rw [setLink_of_ne hib, setLink_of_ne hia]
    · intro x hx
      rw [List.getLast?_concat] at hx
      exact hx

end TqHolds

theorem threadqPush_relinked (tcs : Nat → ThreadContext) (tq : ThreadQueue) (a : Nat) :
    Relinked tcs (threadqPush tcs tq a).1 := by
  unfold threadqPush
  dsimp only
  split
  · exact setLink_relinked a none
  · split
    · exact setLink_relinked a none
    · exact (setLink_relinked a none).trans (setLink_relinked _ _)

theorem TqHolds.push_of_not_mem (h : TqHolds tcs tq l) (hi : i ∉ l) (hia : i ≠ a) :
    (threadqPush tcs tq a).1 i = tcs i := by
  unfold threadqPush
  dsimp only
  split
  · exact setLink_of_ne hia
  · next c hc =>
    split
    · exact setLink_of_ne hia
    · next b hb =>
      have hmem : b ∈ l := by
        cases hlast : l.getLast? with
        | none =>
          rw [List.getLast?_eq_none_iff] at hlast
          subst hlast
          rw [h.first_nil] at hc
          cases hc
        | some x =>
          have hx := h.last x hlast
          rw [hb] at hx
          cases hx
          exact mem_of_getLast? hlast
      have hib : i ≠ b := fun heq => hi (heq ▸ hmem)
      exact (setLink_of_ne hib).trans (setLink_of_ne hia)

theorem mem_snoc : i ∈ l ++ [a] ++ k ↔ i = a ∨ i ∈ l ++ k := by
  simp [or_left_comm]

theorem nodup_snoc (h : (l ++ k).Nodup) (ha : a ∉ l ++ k) : (l ++ [a] ++ k).Nodup := by
  rw [append_assoc, singleton_append, nodup_middle]
  exact nodup_cons.mpr ⟨ha, h⟩

theorem TqHolds.push_both {kq : ThreadQueue} (h : TqHolds tcs tq l) (hk : TqHolds tcs kq k)
    (hnd : (l ++ k).Nodup) (ha : a ∉ l ++ k) :
    TqHolds (threadqPush tcs tq a).1 (threadqPush tcs tq a).2 (l ++ [a]) ∧
      TqHolds (threadqPush tcs tq a).1 kq k := by
  rw [mem_append, not_or] at ha
  refine ⟨h.push hnd.of_append_left ha.1, hk.congr fun i hi => ?_⟩
  have hil : i ∉ l := fun hm => disjoint_of_nodup_append hnd hm hi
  rw [h.push_of_not_mem hil (ne_of_mem_of_not_mem hi ha.2)]

theorem threadWakeup_eq {first : Option Nat} (h : Chain (fun i => (tcs i).link) first l)
    (hn : l.length ≤ n) (i : Nat) :
    threadWakeup addr n first tcs i =
      if i ∈ l ∧ (tcs i).waitAddr = some addr then { tcs i with wakeup := true } else tcs i := by
  induction l generalizing n first tcs with
  | nil =>
    rw [Chain.nil_iff] at h
    subst h
    cases n with
    | zero => rfl
    | succ n => rfl
  | cons a l ih =>
    obtain ⟨rfl, hl⟩ := h
    cases n with
    | zero => exact absurd hn (Nat.not_succ_le_zero _)
    | succ n =>
      unfold threadWakeup
      by_cases haddr : (tcs a).waitAddr = some addr
      · rw [if_pos haddr]
        have hsame : ∀ j, (update tcs a { tcs a with wakeup := true } j).link =
            (tcs j).link ∧ (update tcs a { tcs a with wakeup := true } j).waitAddr =
            (tcs j).waitAddr := by
          intro j
          by_cases hj : j = a
          · subst hj
            simp
          · simp [hj]
        rw [ih (hl.congr fun j _ => (hsame j).1) (Nat.le_of_succ_le_succ hn), (hsame i).2]
        by_cases hi : i = a
        · subst hi
          simp [haddr]
        · simp [hi]
      · rw [if_neg haddr, ih hl (Nat.le_of_succ_le_succ hn)]
        by_cases hi : i = a
        · subst hi
          simp [haddr]
        · simp [hi]

namespace Lwip

variable {s s' : Lwip} {t : Nat}

/-- The runnable threads are those of `l`, and those that wait for their end those of `k`. -/
structure QueueOk (s : Lwip) (l k : List Nat) : Prop where
  queue : TqHolds s.tcs s.queue l
  kill : TqHolds s.tcs s.killQueue k
  nodup : (l ++ k).Nodup
  lt : ∀ t ∈ l ++ k, t < s.maxTid
  cur : ∀ t, s.curTc = some t → t ∉ l ++ k ∧ t < s.maxTid

theorem QueueOk.length_le (h : QueueOk s l k) : l.length ≤ s.maxTid := by
  have hl : l.Nodup := h.nodup.of_append_left
  have hsub : l ⊆ List.range s.maxTid :=
    fun t ht => mem_range.mpr (h.lt t (mem_append_left _ ht))
  have := (hl.subperm hsub).length_le
  rwa [length_range] at this

theorem QueueOk.congr (h : QueueOk s l k) (hq : s'.queue = s.queue)
    (hk : s'.killQueue = s.killQueue) (hn : s'.maxTid = s.maxTid) (hc : s'.curTc = s.curTc)
    (hlink : ∀ i, (s'.tcs i).link = (s.tcs i).link) : QueueOk s' l k where
  queue := hq ▸ h.queue.congr fun i _ => hlink i
  kill := hk ▸ h.kill.congr fun i _ => hlink i
  nodup := h.nodup
  lt := hn ▸ h.lt
  cur := by
    rw [hn, hc]
    exact h.cur

/-- What a switch changes. -/
structure Switch (s s' : Lwip) : Prop where
  sems : s'.sems = s.sems
  mboxes : s'.mboxes = s.mboxes
  tcs : Relinked s.tcs s'.tcs
  panicked : s'.panicked = s.panicked
  semFree : s'.semFree = s.semFree
  mboxFree : s'.mboxFree = s.mboxFree
  done : s'.done = s.done

theorem Switch.refl : Switch s s := ⟨rfl, rfl, .refl, rfl, rfl, rfl, rfl⟩

theorem threadYield_switch (s : Lwip) : Switch s s.threadYield := by
  unfold threadYield
  split
  · exact .refl
  · next next tcs queue hpop =>
    unfold threadqPop at hpop
    obtain ⟨tc, -, heq⟩ := Option.map_eq_some_iff.mp hpop
    cases heq
    split
    · exact ⟨rfl, rfl, setLink_relinked _ _, rfl, rfl, rfl, rfl⟩
    · refine ⟨rfl, rfl, ?_, rfl, rfl, rfl, rfl⟩
      exact (setLink_relinked _ _).trans (threadqPush_relinked _ _ _)

theorem QueueOk.yield (h : QueueOk s l k) : ∃ l', QueueOk s.threadYield l' k ∧
      ∀ t, t ∈ l ∨ s.curTc = some t → t ∈ l' ∨ s.threadYield.curTc = some t := by
  have hnd := h.nodup
  cases l with
  | nil =>
    have hsame : s.threadYield = s := by
      unfold threadYield
      rw [h.queue.pop_nil]
    rw [hsame]
    exact ⟨[], h, fun t ht => ht⟩
  | cons a l =>
    rw [cons_append, nodup_cons, mem_append, not_or] at hnd
    obtain ⟨⟨hal, hak⟩, hnd⟩ := hnd
    have hpopped := h.queue.popped hal
    have hkill : TqHolds (setLink s.tcs a none) s.killQueue k :=
      h.kill.congr fun i hi => by rw [setLink_of_ne (ne_of_mem_of_not_mem hi hak)]
    have ha : a < s.maxTid := h.lt a mem_cons_self
    have hlt : ∀ t ∈ l ++ k, t < s.maxTid := fun t ht => h.lt t (mem_cons_of_mem _ ht)
    have halk : a ∉ l ++ k := by
      rw [mem_append, not_or]
      exact ⟨hal, hak⟩
    cases hcur : s.curTc with
    | none =>
      have hyield : s.threadYield = { s with
          tcs := setLink s.tcs a none
          queue := { s.queue with first := (s.tcs a).link }
          curTc := some a } := by
        unfold threadYield
        rw [h.queue.pop_cons, hcur]
      rw [hyield]
      refine ⟨l, ⟨hpopped, hkill, hnd, hlt, ?_⟩, ?_⟩
      · intro t ht
        cases ht
        exact ⟨halk, ha⟩
      · rintro t (ht | ht)
        · rcases mem_cons.mp ht with rfl | ht
          · exact .inr rfl
          · exact .inl ht
        · cases ht
    | some c =>
      obtain ⟨hc, hclt⟩ := h.cur c hcur
      have hyield : s.threadYield = { s with
          tcs := (threadqPush (setLink s.tcs a none) { s.queue with first := (s.tcs a).link } c).1
          queue := (threadqPush (setLink s.tcs a none) { s.queue with first := (s.tcs a).link } c).2
          curTc := some a } := by
        unfold threadYield
        rw [h.queue.pop_cons, hcur]
      rw [hyield]
      rw [cons_append, mem_cons, not_or] at hc
      obtain ⟨hpush, hkill⟩ := hpopped.push_both hkill hnd hc.2
      refine ⟨l ++ [c], ⟨hpush, hkill, nodup_snoc hnd hc.2, ?_, ?_⟩, ?_⟩
      · intro t ht
        rcases mem_snoc.mp ht with rfl | ht
        · exact hclt
        · exact hlt t ht
      · intro t ht
        cases ht
        rw [mem_snoc, not_or]
        exact ⟨⟨fun heq => hc.1 heq.symm, halk⟩, ha⟩
      · rintro t (ht | ht)
        · rcases mem_cons.mp ht with rfl | ht
          · exact .inr rfl
          · exact .inl (mem_append_left _ ht)
        · cases ht
          exact .inl (mem_append_right _ mem_cons_self)

theorem QueueOk.create (h : QueueOk s l k) (hmax : s.maxTid + 1 ≠ 2 ^ 32 - 1) :
    QueueOk s.threadCreate (l ++ [s.maxTid]) k := by
  have hfresh : s.maxTid ∉ l ++ k := fun hm => absurd (h.lt _ hm) (Nat.lt_irrefl _)
  have hsame : ∀ i ∈ l ++ k,
      (update s.tcs s.maxTid ⟨none, false, none, .idle⟩ i).link = (s.tcs i).link :=
    fun i hi => by rw [update_of_ne (ne_of_mem_of_not_mem hi hfresh)]
  have hqueue := h.queue.congr fun i hi => hsame i (List.mem_append_left _ hi)
  have hkill := h.kill.congr fun i hi => hsame i (List.mem_append_right _ hi)
  obtain ⟨hpush, hkill⟩ := hqueue.push_both hkill h.nodup hfresh
  unfold threadCreate
  rw [if_neg hmax]
  refine ⟨hpush, hkill, nodup_snoc h.nodup hfresh, ?_, ?_⟩
  · intro t ht
    show t < s.maxTid + 1
    rcases mem_snoc.mp ht with rfl | ht
    · exact Nat.lt_succ_self _
    · exact (h.lt t ht).trans (Nat.lt_succ_self _)
  · intro t ht
    obtain ⟨hmem, hlt⟩ := h.cur t ht
    rw [mem_snoc, not_or]
    exact ⟨⟨Nat.ne_of_lt hlt, hmem⟩, hlt.trans (Nat.lt_succ_self _)⟩

theorem QueueOk.halted (h : QueueOk s l k) (hc : s.curTc = some t) :
    ∃ s1 k', s.threadHalt t = s1.threadYield ∧ QueueOk s1 l k' ∧ Switch s s1 := by
  obtain ⟨htl, htlt⟩ := h.cur t hc
  have hlk := nodup_append.mp h.nodup
  -- The context that has waited longest is given up.
  obtain ⟨tcs, kq, k', hpop, hkill, hlink, hre, hsub⟩ : ∃ tcs kq k',
      threadClean s.tcs s.killQueue = (tcs, kq) ∧ TqHolds tcs kq k' ∧
      (∀ i ∈ l, tcs i = s.tcs i) ∧ Relinked s.tcs tcs ∧ k'.Sublist k := by
    have hkill := h.kill
    unfold threadClean
    cases k with
    | nil => exact ⟨_, _, [], by rw [hkill.pop_nil], hkill, fun _ _ => rfl, .refl, .slnil⟩
    | cons b k =>
      have hb := (nodup_cons.mp hlk.2.1).1
      refine ⟨_, _, k, by rw [hkill.pop_cons], hkill.popped hb, ?_, setLink_relinked _ _,
        sublist_cons_self ..⟩
      intro i hi
      exact setLink_of_ne fun heq => hlk.2.2 i hi b mem_cons_self heq
  have hsub := hsub.append (List.Sublist.refl l)
  have hnd : (k' ++ l).Nodup := (nodup_append_comm.mp h.nodup).sublist hsub
  have hlt : ∀ i ∈ k' ++ l, i ∈ l ++ k := fun i hi => by
    rw [mem_append, or_comm, ← mem_append]
    exact hsub.subset hi
  have ht : t ∉ k' ++ l := fun hm => htl (hlt t hm)
  have hqueue := h.queue.congr fun i hi => congrArg ThreadContext.link (hlink i hi)
  obtain ⟨hpush, hqueue⟩ := hkill.push_both hqueue hnd ht
  refine ⟨{ s with
      tcs := (threadqPush tcs kq t).1
      killQueue := (threadqPush tcs kq t).2
      curTc := none }, k' ++ [t], ?_,
    ⟨hqueue, hpush, nodup_append_comm.mp (nodup_snoc hnd ht), ?_, nofun⟩,
    rfl, rfl, hre.trans (threadqPush_relinked _ _ _), rfl, rfl, rfl, rfl⟩
  · unfold threadHalt
    rw [hpop]
  · intro i hi
    rw [mem_append, or_comm, ← mem_append] at hi
    rcases mem_snoc.mp hi with rfl | hi
    · exact htlt
    · exact h.lt i (hlt i hi)

end Lwip

end Jos
