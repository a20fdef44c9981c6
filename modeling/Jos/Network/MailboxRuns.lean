import Jos.Network.Mailboxes

/-!
# Runs with mailboxes

Threads come and go, and mailboxes are made and freed. A mailbox that is made takes its semaphores
from the free list, which holds none of those in use, and one that is freed has no thread inside.
-/

namespace Jos

open Logic Function List

namespace Lwip

variable {s s' : Lwip} {l k : List Nat} {t tid m x : Nat} {w : SemWait}
  {rest : List Nat}

theorem Inv.realloc (h : Inv s) (htcs : s'.tcs = s.tcs) (hq : s'.queue = s.queue)
    (hk : s'.killQueue = s.killQueue) (hn : s'.maxTid = s.maxTid) (hc : s'.curTc = s.curTc)
    (hwired : Wired s')
    (hkeep : ∀ t w pc, (s.tcs t).place = .semWait w pc → CallOk s w →
      s'.mboxes w.mbox = s.mboxes w.mbox ∧ s'.sems w.sem = s.sems w.sem)
    (hmbox : ∀ m, (s'.mboxes m).freed = false → MboxOk s' m)
    (hmem : ∀ m d, d ∈ s'.done m → d.result ≠ errMem)
    (hok : s'.panicked ≠ some .noMessage ∧ s'.panicked ≠ some .postFailed) : Inv s' := by
  obtain ⟨l, k, hshape⟩ := h.shape
  have hcall : ∀ t w pc, (s.tcs t).place = .semWait w pc → CallOk s w → CallOk s' w := by
    intro t w pc hplace hw
    obtain ⟨hmb, hsem⟩ := hkeep t w pc hplace hw
    exact ⟨hmb ▸ hw.live, hmb ▸ hw.sem, hsem ▸ hw.gen, hw.even⟩
  have hhush : ∀ t w pc, (s.tcs t).place = .semWait w pc → CallOk s w → Hushed s w.sem →
      Hushed s' w.sem := by
    intro t w pc hplace hw hh
    unfold Hushed
    rw [(hkeep t w pc hplace hw).2]
    exact hh
  refine ⟨⟨l, k, hshape.queue.congr hq hk hn hc fun i => by rw [htcs], hwired, ?_, ?_⟩, ?_, hmbox,
    hmem, hok⟩
  · intro t ht
    rw [hc] at ht
    rw [htcs]
    rcases hshape.rest t ht with hidle | ⟨w, a, su, cv, t', hplace, hw, heven, haddr, hpark⟩
    · exact .inl hidle
    · exact .inr ⟨w, a, su, cv, t', hplace, hcall t w _ hplace hw, heven, haddr,
        hpark.imp id (hhush t w _ hplace hw)⟩
  · intro t ht
    rw [hc] at ht
    rw [htcs]
    exact hshape.inQueue t ht
  · intro t ht
    rw [hc] at ht
    rw [htcs]
    exact (h.cur t ht).keep
      (fun w pc hplace hw => ⟨hcall t w pc hplace hw, hhush t w pc hplace hw⟩) rfl rfl

theorem Inv.panic {p : LwipPanic} (h : Inv s) (hp : p ≠ .noMessage ∧ p ≠ .postFailed) :
    Inv (s.panic p) := by
  obtain ⟨l, k, hshape⟩ := h.shape
  refine h.realloc rfl rfl rfl rfl rfl ?_ (fun _ _ _ _ _ => ⟨rfl, rfl⟩) ?_ h.mem ?_
  · exact hshape.wired.static (.of_eq rfl rfl rfl rfl)
  · exact fun m hm => (h.mbox m hm).congr rfl (fun _ _ => rfl) rfl
  · exact ⟨fun heq => hp.1 (Option.some.inj heq), fun heq => hp.2 (Option.some.inj heq)⟩

/-- The semaphore `a` has been taken from the free list. -/
def semTaken (s : Lwip) (a : Nat) (count : BitVec 8) (rest : List Nat) : Lwip :=
  { s.setSem a fun e =>
      { e with freed := false, counter := count.setWidth 16, gen := e.gen + 1 } with
    semFree := rest }

theorem sysSemNew_eq {a : Nat} (count : BitVec 8) (ha : s.semFree = a :: rest)
    (hfree : (s.sems a).freed = true) :
    s.sysSemNew count = .ok (a, s.semTaken a count rest) := by
  unfold Lwip.sysSemNew
  rw [ha]
  dsimp only
  rw [hfree]
  rfl

theorem Inv.semTaken {a : Nat} (h : Inv s) (count : BitVec 8) (ha : s.semFree = a :: rest) :
    Inv (s.semTaken a count rest) := by
  obtain ⟨l, k, hshape⟩ := h.shape
  have hw := hshape.wired
  have hfree : (s.sems a).freed = true := hw.semFree a (ha ▸ mem_cons_self)
  have hnd := hw.semFree_nodup
  rw [ha, nodup_cons] at hnd
  have hother : ∀ x, x ≠ a → (s.semTaken a count rest).sems x = s.sems x :=
    fun x hx => update_of_ne hx ..
  refine h.realloc rfl rfl rfl rfl rfl
    ⟨hw.ne, ?_, hw.sep, ?_, hw.mboxFree, hnd.2, hw.mboxFree_nodup⟩ ?_ ?_ h.mem h.ok
  · intro m x hm hx
    exact hother x (hw.ne_of_freed hm hx hfree) ▸ hw.live m x hm hx
  · intro x hx
    have hxa : x ≠ a := fun heq => hnd.1 (heq ▸ hx)
    exact hother x hxa ▸ hw.semFree x (ha ▸ mem_cons_of_mem _ hx)
  · exact fun t w pc _ hcall => ⟨rfl, hother _ (hw.ne_of_freed hcall.live hcall.uses hfree)⟩
  · intro m hm
    refine (h.mbox m hm).congr rfl (fun x hx => ?_) rfl
    exact congrArg SysSem.counter (hother x (hw.ne_of_freed hm hx hfree))

theorem Inv.newMbox {i a b : Nat} {mb : SysMbox} (h : Inv s)
    (hi : s.mboxFree = i :: rest) (hab : a ≠ b)
    (hunused : ∀ m x, (s.mboxes m).freed = false → Uses (s.mboxes m) x → x ≠ a ∧ x ≠ b)
    (halive : (s.sems a).freed = false) (hblive : (s.sems b).freed = false)
    (ha : (s.sems a).counter = 0) (hb : (s.sems b).counter = BitVec.ofNat 16 mboxslots)
    (hmb : mb.freed = false ∧ mb.head = -1 ∧ mb.nextq = 0 ∧ mb.queuedMsg = a ∧ mb.freeMsg = b) :
    Inv { s with
      mboxFree := rest
      mboxes := update s.mboxes i mb
      done := update s.done i [] } := by
  obtain ⟨l, k, hshape⟩ := h.shape
  obtain ⟨hlive, hhead, hnextq, hq, hf⟩ := hmb
  have hw := hshape.wired
  have hifree : (s.mboxes i).freed = true := hw.mboxFree i (hi ▸ mem_cons_self)
  have hnd := hw.mboxFree_nodup
  rw [hi, nodup_cons] at hnd
  have hself : update s.mboxes i mb i = mb := update_self ..
  have hother : ∀ m, m ≠ i → update s.mboxes i mb m = s.mboxes m := fun m hm => update_of_ne hm ..
  have hne : ∀ m, (s.mboxes m).freed = false → m ≠ i := by
    rintro m hm rfl
    rw [hm] at hifree
    cases hifree
  have huses : ∀ x, Uses mb x ↔ x = a ∨ x = b := by
    intro x
    unfold Uses
    rw [hq, hf]
  -- A live mailbox is the new one or an old one.
  have hold : ∀ m, (update s.mboxes i mb m).freed = false →
      update s.mboxes i mb m = mb ∧ m = i ∨
        update s.mboxes i mb m = s.mboxes m ∧ (s.mboxes m).freed = false ∧ m ≠ i := by
    intro m hm
    by_cases hmi : m = i
    · exact .inl ⟨hmi ▸ hself, hmi⟩
    · rw [hother m hmi] at hm ⊢
      exact .inr ⟨rfl, hm, hmi⟩
  have hnew : ∀ m x, (s.mboxes m).freed = false → Uses (s.mboxes m) x → ¬Uses mb x := by
    intro m x hm hx
    rw [huses, not_or]
    exact hunused m x hm hx
  refine h.realloc rfl rfl rfl rfl rfl ⟨?_, ?_, ?_, hw.semFree, ?_, hw.semFree_nodup, hnd.2⟩ ?_ ?_
    ?_ h.ok
  · intro m hm
    dsimp only
    rcases hold m hm with ⟨heq, -⟩ | ⟨heq, hm, -⟩ <;> rw [heq]
    · rw [hq, hf]
      exact hab
    · exact hw.ne m hm
  · intro m x hm hx
    dsimp only at hx
    rcases hold m hm with ⟨heq, -⟩ | ⟨heq, hm, -⟩ <;> rw [heq] at hx
    · rcases (huses x).mp hx with rfl | rfl
      · exact halive
      · exact hblive
    · exact hw.live m x hm hx
  · intro m m' x hm hm' hx hx'
    dsimp only at hx hx'
    rcases hold m hm with ⟨heq, hmi⟩ | ⟨heq, hm, -⟩ <;>
      rcases hold m' hm' with ⟨heq', hmi'⟩ | ⟨heq', hm', -⟩ <;> rw [heq] at hx <;> rw [heq'] at hx'
    · rw [hmi, hmi']
    · exact absurd hx (hnew m' x hm' hx')
    · exact absurd hx' (hnew m x hm hx)
    · exact hw.sep m m' x hm hm' hx hx'
  · intro m hm
    have hmi : m ≠ i := fun heq => hnd.1 (heq ▸ hm)
    show (update s.mboxes i mb m).freed = true
    rw [hother m hmi]
    exact hw.mboxFree m (hi ▸ mem_cons_of_mem _ hm)
  · exact fun t w pc _ hcall => ⟨hother _ (hne _ hcall.live), rfl⟩
  · intro m hm
    rcases hold m hm with ⟨-, rfl⟩ | ⟨heq, hm, hmi⟩
    · unfold MboxOk posted fetched
      dsimp only
      rw [hself, update_self, hq, hf, ha, hb]
      refine ⟨prefix_rfl, rfl, ?_, hnextq, hhead, RingHolds.nil⟩
      decide
    · exact (h.mbox m hm).congr heq (fun _ _ => rfl) (update_of_ne hmi ..)
  · intro m d hd
    dsimp only at hd
    by_cases hmi : m = i
    · rw [hmi, update_self] at hd
      exact absurd hd not_mem_nil
    · rw [update_of_ne hmi] at hd
      exact h.mem m d hd

theorem Inv.sysMboxNew (h : Inv s) (size : Nat) : Inv (s.sysMboxNew size) := by
  unfold Lwip.sysMboxNew
  split
  · exact h.panic ⟨nofun, nofun⟩
  · split
    · exact h
    · next i rest hi =>
      obtain ⟨l, k, hshape⟩ := h.shape
      have hw := hshape.wired
      rw [hw.mboxFree i (hi ▸ mem_cons_self), if_neg nofun]
      cases ha : s.semFree with
      | nil =>
        have hnone : s.sysSemNew 0 = .error .noSems := by
          unfold Lwip.sysSemNew
          rw [ha]
        rw [hnone]
        exact h.panic ⟨nofun, nofun⟩
      | cons a free =>
        have h1 := h.semTaken 0 ha
        have hafree : (s.sems a).freed = true := hw.semFree a (ha ▸ mem_cons_self)
        rw [sysSemNew_eq 0 ha hafree]
        dsimp only
        cases free with
        | nil => exact h1.panic ⟨nofun, nofun⟩
        | cons b free =>
          have hnd := hw.semFree_nodup
          rw [ha, nodup_cons] at hnd
          have hab : a ≠ b := fun heq => hnd.1 (heq ▸ mem_cons_self)
          have hbfree := hw.semFree b (ha ▸ mem_cons_of_mem _ mem_cons_self)
          rw [sysSemNew_eq (s := s.semTaken a 0 (b :: free)) _ rfl
            ((congrArg SysSem.freed (update_of_ne hab.symm ..)).trans hbfree)]
          refine (h1.semTaken _ rfl).newMbox hi hab ?_ ?_ ?_ ?_ ?_ ⟨rfl, rfl, rfl, rfl, rfl⟩
          · exact fun m x hm hx => ⟨hw.ne_of_freed hm hx hafree, hw.ne_of_freed hm hx hbfree⟩
          all_goals simp [Lwip.semTaken, Lwip.setSem, hab]
          rfl

theorem sysSemFree_eq (hx : (s.sems x).freed = false) : s.sysSemFree x =
    { s with
      sems := update s.sems x { s.sems x with freed := true, gen := (s.sems x).gen + 1 }
      semFree := x :: s.semFree } := by
  unfold sysSemFree
  rw [hx]
  exact if_neg (by decide)

theorem Wired.sysSemFree (h : Wired s) (hm : (s.mboxes m).freed = false) : ∃ sems,
    (s.sysSemFree (s.mboxes m).queuedMsg).sysSemFree (s.mboxes m).freeMsg =
      { s with
        sems := sems
        semFree := (s.mboxes m).freeMsg :: (s.mboxes m).queuedMsg :: s.semFree } ∧
      (∀ x, ¬Uses (s.mboxes m) x → sems x = s.sems x) ∧
      ∀ x, Uses (s.mboxes m) x → (sems x).freed = true := by
  have hne := h.ne m hm
  rw [sysSemFree_eq (h.live m _ hm (.inl rfl)), sysSemFree_eq]
  · refine ⟨_, rfl, fun x hx => ?_, ?_⟩
    · rw [Uses, not_or] at hx
      exact (update_of_ne hx.2 ..).trans (update_of_ne hx.1 ..)
    · rintro x (rfl | rfl)
      · rw [update_of_ne hne]
        dsimp only
        rw [update_self]
      · rw [update_self]
  · dsimp only
    rw [update_of_ne hne.symm]
    exact h.live m _ hm (.inr rfl)

theorem Inv.init : Inv init where
  shape := by
    refine ⟨[], [], ⟨⟨rfl, nofun⟩, ⟨rfl, nofun⟩, nodup_nil, ?_, ?_⟩, ⟨nofun, nofun, nofun, ?_,
      ?_, ?_, ?_⟩, ?_, ?_⟩
    · exact fun t ht => absurd ht not_mem_nil
    · intro t ht
      cases ht
      exact ⟨not_mem_nil, by decide⟩
    · exact fun _ _ => rfl
    · exact fun _ _ => rfl
    · unfold Lwip.init
      rw [nodup_reverse]
      exact nodup_range
    · unfold Lwip.init
      rw [nodup_reverse]
      exact nodup_range
    · exact fun _ _ => .inl ⟨rfl, rfl⟩
    · exact fun _ _ hp => absurd rfl hp
  cur _ _ := rfl
  mbox _ hm := by cases hm
  mem _ _ hd := absurd hd not_mem_nil
  ok := ⟨nofun, nofun⟩

section

variable (h : Inv s)

include h

theorem Inv.sysMboxFree
    (hout : ∀ t w pc, (s.tcs t).place = .semWait w pc → w.mbox ≠ m) : Inv (s.sysMboxFree m) := by
  obtain ⟨l, k, hshape⟩ := h.shape
  have hw := hshape.wired
  unfold Lwip.sysMboxFree
  split
  · exact h.panic ⟨nofun, nofun⟩
  · next hfreed =>
    have hm := Bool.eq_false_iff.mpr hfreed
    obtain ⟨sems, heq, hsems, hfreeSem⟩ := hw.sysSemFree hm
    have hmboxes : (s.sysSemFree (s.mboxes m).queuedMsg).mboxes = s.mboxes := by
      rw [sysSemFree_eq (hw.live m _ hm (.inl rfl))]
    dsimp only
    rw [hmboxes, heq]
    have hother : ∀ m', m' ≠ m →
        update s.mboxes m { s.mboxes m with freed := true } m' = s.mboxes m' :=
      fun m' hm' => update_of_ne hm' ..
    have hne' : ∀ m', (update s.mboxes m { s.mboxes m with freed := true } m').freed =
        false → m' ≠ m := by
      rintro m' hm' rfl
      rw [update_self] at hm'
      cases hm'
    have hsep : ∀ m' x, m' ≠ m → (s.mboxes m').freed = false → Uses (s.mboxes m') x →
        ¬Uses (s.mboxes m) x :=
      fun m' x hm' hl hx hx' => hm' (hw.sep m' m x hl hm hx hx')
    have hnot : ∀ x, Uses (s.mboxes m) x → x ∉ s.semFree := by
      intro x hx hmem
      have := hw.semFree x hmem
      rw [hw.live m x hm hx] at this
      cases this
    refine h.realloc rfl rfl rfl rfl rfl ⟨?_, ?_, ?_, ?_, ?_, ?_, ?_⟩ ?_ ?_ h.mem h.ok
    · intro m' hm'
      have hmm := hne' m' hm'
      dsimp only at hm' ⊢
      rw [hother m' hmm] at hm' ⊢
      exact hw.ne m' hm'
    · intro m' x hm' hx
      have hmm := hne' m' hm'
      dsimp only at hm' hx ⊢
      rw [hother m' hmm] at hm' hx
      rw [hsems x (hsep m' x hmm hm' hx)]
      exact hw.live m' x hm' hx
    · intro m1 m2 x hm1 hm2 hx1 hx2
      have hmm1 := hne' m1 hm1
      have hmm2 := hne' m2 hm2
      dsimp only at hm1 hm2 hx1 hx2
      rw [hother m1 hmm1] at hm1 hx1
      rw [hother m2 hmm2] at hm2 hx2
      exact hw.sep m1 m2 x hm1 hm2 hx1 hx2
    · intro x hx
      dsimp only at hx ⊢
      rw [mem_cons, mem_cons] at hx
      by_cases hu : Uses (s.mboxes m) x
      · exact hfreeSem x hu
      · rw [hsems x hu]
        unfold Uses at hu
        exact hw.semFree x ((hx.resolve_left fun heq => hu (.inr heq)).resolve_left
          fun heq => hu (.inl heq))
    · intro m' hm'
      dsimp only at hm' ⊢
      rw [mem_cons] at hm'
      by_cases hmm : m' = m
      · rw [hmm, update_self]
      · rw [hother m' hmm]
        exact hw.mboxFree m' (hm'.resolve_left hmm)
    · dsimp only
      rw [nodup_cons, nodup_cons]
      refine ⟨?_, hnot _ (.inl rfl), hw.semFree_nodup⟩
      rw [mem_cons, not_or]
      exact ⟨(hw.ne m hm).symm, hnot _ (.inr rfl)⟩
    · dsimp only
      rw [nodup_cons]
      refine ⟨fun hmem => ?_, hw.mboxFree_nodup⟩
      rw [hw.mboxFree m hmem] at hm
      cases hm
    · intro t w pc hplace hcall
      have hmm := hout t w pc hplace
      exact ⟨hother _ hmm, hsems _ (hsep _ _ hmm hcall.live hcall.uses)⟩
    · intro m' hm'
      have hmm := hne' m' hm'
      dsimp only at hm'
      rw [hother m' hmm] at hm'
      refine (h.mbox m' hm').congr (hother m' hmm) (fun x hx => ?_) rfl
      exact congrArg SysSem.counter (hsems x (hsep m' x hmm hm' hx))

theorem Inv.timeTick : Inv s.timeTick := by
  unfold Lwip.timeTick
  split
  · exact h.panic ⟨nofun, nofun⟩
  · obtain ⟨l, k, hshape⟩ := h.shape
    refine h.realloc rfl rfl rfl rfl rfl ?_ (fun _ _ _ _ _ => ⟨rfl, rfl⟩) ?_ h.mem h.ok
    · exact hshape.wired.static (.of_eq rfl rfl rfl rfl)
    · exact fun m hm => (h.mbox m hm).congr rfl (fun _ _ => rfl) rfl

theorem Inv.threadCreate : Inv s.threadCreate := by
  obtain ⟨l, k, hshape⟩ := h.shape
  by_cases hmax : s.maxTid + 1 = 2 ^ 32 - 1
  · unfold Lwip.threadCreate
    rw [if_pos hmax]
    exact h.panic ⟨nofun, nofun⟩
  · have hqueue := hshape.queue.create hmax
    unfold Lwip.threadCreate at hqueue ⊢
    rw [if_neg hmax] at hqueue ⊢
    dsimp only at hqueue ⊢
    have hrel := threadqPush_relinked
      (update s.tcs s.maxTid ⟨none, false, none, .idle⟩) s.queue s.maxTid
    have htcs : ∀ t, t ≠ s.maxTid → ∃ link,
        (threadqPush (update s.tcs s.maxTid ⟨none, false, none, .idle⟩) s.queue
          s.maxTid).1 t = { s.tcs t with link := link } := by
      intro t ht
      obtain ⟨link, hlink⟩ := hrel t
      rw [update_of_ne ht] at hlink
      exact ⟨link, hlink⟩
    obtain ⟨link0, hnew⟩ := hrel s.maxTid
    rw [update_self] at hnew
    refine ⟨⟨_, k, hqueue, hshape.wired.static (.of_eq rfl rfl rfl rfl), ?_, ?_⟩, ?_, ?_, h.mem,
      h.ok⟩
    · intro t ht
      dsimp only
      by_cases htm : t = s.maxTid
      · rw [htm, hnew]
        exact .inl ⟨rfl, rfl⟩
      · obtain ⟨link, hlink⟩ := htcs t htm
        rw [hlink]
        refine (hshape.rest t ht).relink ?_ ?_ link
        · exact .of_eq rfl rfl rfl rfl
        · rfl
    · intro t ht hp
      by_cases htm : t = s.maxTid
      · rw [htm]
        exact mem_append_right _ mem_cons_self
      · obtain ⟨link, hlink⟩ := htcs t htm
        dsimp only at hp
        rw [hlink] at hp
        exact mem_append_left _ (hshape.inQueue t ht hp)
    · intro t ht
      have htm : t ≠ s.maxTid := Nat.ne_of_lt (hshape.queue.cur t ht).2
      obtain ⟨link, hlink⟩ := htcs t htm
      dsimp only
      rw [hlink]
      refine (h.cur t ht).static ?_ ?_ link
      · exact .of_eq rfl rfl rfl rfl
      · rfl
    · exact fun m hm => (h.mbox m hm).congr rfl (fun _ _ => rfl) rfl

section

variable (hc : s.curTc = some tid)

include hc

section

variable (hplace : (s.tcs tid).place = .idle)

include hplace

theorem Inv.beginCall {c : MboxCall} : Inv (s.beginCall tid m c) := by
  have hcur := h.cur tid hc
  rw [hplace] at hcur
  unfold Lwip.beginCall
  dsimp only
  split
  · exact h.panic ⟨nofun, nofun⟩
  · next hfreed =>
    split
    · exact h.panic ⟨nofun, nofun⟩
    · exact h.setTc hc (fun _ => rfl) ⟨⟨Bool.eq_false_iff.mpr hfreed, rfl, rfl, rfl⟩, hcur⟩

theorem Inv.resting : Resting s (s.tcs tid) := by
  have hcur := h.cur tid hc
  rw [hplace] at hcur
  exact .inl ⟨hplace, hcur⟩

theorem Inv.threadYield : Inv s.threadYield := by
  obtain ⟨l, k, hshape⟩ := h.shape
  refine Inv.yield hshape ?_ h.mbox h.mem h.ok
  intro t ht
  cases ht.symm.trans hc
  exact h.resting hc hplace

theorem Inv.threadHalt : Inv (s.threadHalt tid) := by
  obtain ⟨l, k, hshape⟩ := h.shape
  obtain ⟨s1, k', heq, hqueue, hsw⟩ := hshape.queue.halted hc
  have hall : ∀ t, Resting s1 (s1.tcs t) := by
    intro t
    refine hsw.resting ?_
    by_cases ht : s.curTc = some t
    · cases ht.symm.trans hc
      exact h.resting hc hplace
    · exact hshape.rest t ht
  rw [heq]
  refine Inv.yield (l := l) (k := k') ⟨hqueue, hshape.wired.static hsw.static, fun t _ => hall t,
    ?_⟩ (fun t _ => hall t) (fun m => hsw.mboxOk (h.mbox m)) ?_ ?_
  · intro t _ hp
    rw [hsw.place] at hp
    refine hshape.inQueue t (fun ht => ?_) hp
    cases ht.symm.trans hc
    exact hp hplace
  · rw [hsw.done]
    exact h.mem
  · rw [hsw.panicked]
    exact h.ok

end

end

theorem Inv.lt_maxTid {pc : WaitPc} (hplace : (s.tcs t).place = .semWait w pc) : t < s.maxTid := by
  obtain ⟨l, k, hshape⟩ := h.shape
  by_cases ht : s.curTc = some t
  · exact (hshape.queue.cur t ht).2
  · refine hshape.queue.lt t (mem_append_left _ (hshape.inQueue t ht ?_))
    rw [hplace]
    nofun

theorem Inv.move (mv : LwipMove) : Inv (s.move mv) := by
  unfold Lwip.move
  split
  · exact h
  · exact h
  · next tid hp hc =>
    split
    · exact h.timeTick
    · next w pc hplace => exact h.stepWait hc hp hplace
    · next hplace => exact h.beginCall hc hplace
    · exact h.sysMboxNew _
    · split
      · next hall =>
        refine h.sysMboxFree fun t w pc hplace heq => ?_
        rw [all_eq_true] at hall
        have := hall t (mem_range.mpr (h.lt_maxTid hplace))
        rw [hplace] at this
        simp [ThreadPlace.inside, heq] at this
      · exact h
    · next hplace => exact h.threadYield hc hplace
    · exact h.threadCreate
    · next hplace => exact h.threadHalt hc hplace
    · exact h

theorem Inv.run (moves : List LwipMove) : Inv (s.run moves) := by
  induction moves generalizing s with
  | nil => exact h
  | cons mv moves ih => exact ih (h.move mv)

end

/-- A thread that does not run and waits for a semaphore. -/
def AsleepOn (s : Lwip) (t x : Nat) : Prop := s.curTc ≠ some t ∧ (s.tcs t).waitAddr = some x

theorem Inv.woken (h : Inv s) (ht : s.AsleepOn t x) (hx : 0 < (s.sems x).counter) :
    (s.tcs t).wakeup = true ∧ OnChain (fun i => (s.tcs i).link) s.queue.first t := by
  obtain ⟨l, k, hshape⟩ := h.shape
  refine ⟨?_, l, hshape.queue.queue.chain, hshape.mem_of_waitAddr ht.1 ht.2⟩
  rcases hshape.rest t ht.1 with ⟨-, hnone⟩ | ⟨w, a, su, cv, t', -, -, -, haddr, hpark⟩
  · rw [ht.2] at hnone
    cases hnone
  · rcases hpark with hpark | hpark
    · exact hpark
    · cases ht.2.symm.trans haddr
      rw [hpark.1] at hx
      exact absurd hx (by decide)

end Lwip

/-- For any threads and calls: what has been fetched from a live mailbox and what it holds is what
has been posted, in order, and it holds at most `MBOXSLOTS` messages; no function has panicked
because a mailbox was full or empty, and no wakeup is lost. -/
theorem mailbox_fifo (moves : List LwipMove) :
    let s := Lwip.init.run moves
    (∀ m, (s.mboxes m).freed = false → s.fetched m ++ (s.mboxes m).contents = s.posted m ∧
        (s.mboxes m).contents.length ≤ mboxslots ∧
        (s.sems (s.mboxes m).queuedMsg).counter.toNat +
          (s.sems (s.mboxes m).freeMsg).counter.toNat = mboxslots ∧
        ∀ d ∈ s.done m, d.result ≠ errMem) ∧
      s.panicked ≠ some .noMessage ∧ s.panicked ≠ some .postFailed ∧
      ∀ t x, s.AsleepOn t x → 0 < (s.sems x).counter →
        (s.tcs t).wakeup = true ∧ OnChain (fun i => (s.tcs i).link) s.queue.first t := by
  intro s
  have h : s.Inv := Lwip.Inv.init.run moves
  refine ⟨fun m hm => ?_, h.ok.1, h.ok.2, fun t x ht hx => h.woken ht hx⟩
  have hholds := h.mbox m hm
  obtain ⟨happend, hlen⟩ := hholds.append_contents
  have hfree := hholds.free_add
  exact ⟨happend, by omega, by omega, h.mem m⟩

example : (Lwip.init.run [.new 0, .call 127 (.post 7), .step, .call 127 (.fetch 0), .step]).fetched
    127 = [7] := by decide +kernel

end Jos
