import Jos.Network.Semaphores
import Jos.Logic.Ring

/-!
# Mailboxes are bounded queues

Message number `j` is in slot `j % MBOXSLOTS` until it has been fetched. Between two switches the
counters of the two semaphores say how many messages there are and how many slots are free.
-/

namespace Jos

open Logic Function BitVec List

/-- The mailbox holds the messages that have been posted and not yet fetched. -/
structure MboxHolds (mb : SysMbox) (queued free : Nat) (posted fetched : List Word) : Prop where
  order : fetched <+: posted
  queued_add : queued + fetched.length = posted.length
  free_add : free + queued = mboxslots
  nextq : mb.nextq = (posted.length % mboxslots : Nat)
  head : mb.head = if queued = 0 then -1 else ((fetched.length % mboxslots : Nat) : Int)
  slots : RingHolds mboxslots mb.msg fetched.length posted

namespace MboxHolds

variable {mb : SysMbox} {q f : Nat} {posted fetched : List Word}

theorem next_slot (n : Nat) : (((n % mboxslots : Nat) : Int) + 1).tmod mboxslots =
    ((n + 1) % mboxslots : Nat) := by
  unfold mboxslots
  rw [Int.tmod_eq_emod_of_nonneg (by omega)]
  omega

theorem post (h : MboxHolds mb q (f + 1) posted fetched) (msg : Word) :
    mb.nextq ≠ mb.head ∧
      MboxHolds { mb with
        nextq := (mb.nextq + 1).tmod mboxslots
        msg := update mb.msg mb.nextq.toNat msg
        head := if mb.head = -1 then mb.nextq else mb.head } (q + 1) f
          (posted ++ [msg]) fetched := by
  have hq := h.queued_add
  have hf := h.free_add
  have hlen : (posted ++ [msg]).length = posted.length + 1 := by simp
  have hslot : mb.nextq.toNat = posted.length % mboxslots := by
    rw [h.nextq]
    exact Int.toNat_natCast _
  have hne : q ≠ 0 → fetched.length % mboxslots ≠ posted.length % mboxslots :=
    fun hq0 => RingHolds.mod_ne_mod (by omega) (by omega)
  refine ⟨?_, ?_, ?_, ?_, ?_, ?_, ?_⟩
  · rw [h.nextq, h.head]
    split
    · omega
    · next hq0 =>
      have := hne hq0
      omega
  · exact h.order.trans (prefix_append ..)
  · rw [hlen]
    omega
  · omega
  · show (mb.nextq + 1).tmod mboxslots = _
    rw [h.nextq, next_slot, hlen]
  · show (if mb.head = -1 then mb.nextq else mb.head) = _
    rw [if_neg (Nat.succ_ne_zero q), h.head, h.nextq]
    by_cases hq0 : q = 0
    · have hsame : fetched.length = posted.length := by omega
      rw [if_pos hq0, if_pos rfl, hsame]
    · rw [if_neg hq0, if_neg (by omega)]
  · refine h.slots.push (by omega) ?_ ?_
    · show update mb.msg mb.nextq.toNat msg _ = msg
      rw [hslot, update_self]
    · intro i hi
      exact update_of_ne (hslot ▸ hi) ..

theorem fetch (h : MboxHolds mb (q + 1) f posted fetched) :
    mb.head ≠ -1 ∧
      MboxHolds { mb with
        head := if (mb.head + 1).tmod mboxslots = mb.nextq then -1
          else (mb.head + 1).tmod mboxslots } q (f + 1) posted
        (fetched ++ [mb.msg mb.head.toNat]) := by
  have hq := h.queued_add
  have hf := h.free_add
  have hhead : mb.head = (fetched.length % mboxslots : Nat) := by
    rw [h.head, if_neg (Nat.succ_ne_zero q)]
  have hlt : fetched.length < posted.length := by omega
  obtain ⟨msg, hmsg⟩ : ∃ msg, posted[fetched.length]? = some msg :=
    ⟨_, List.getElem?_eq_getElem hlt⟩
  have hget : mb.msg mb.head.toNat = msg := by
    rw [hhead, Int.toNat_natCast]
    exact h.slots _ msg le_rfl hmsg
  have hlen : (fetched ++ [msg]).length = fetched.length + 1 := by simp
  rw [hget]
  refine ⟨?_, ?_, ?_, ?_, h.nextq, ?_, ?_⟩
  · rw [hhead]
    omega
  · rw [prefix_iff_eq_take, hlen, take_add_one, hmsg,
      ← prefix_iff_eq_take.mp h.order]
    rfl
  · rw [hlen]
    omega
  · omega
  · show (if (mb.head + 1).tmod mboxslots = mb.nextq then -1
      else (mb.head + 1).tmod mboxslots) = _
    rw [hhead, next_slot, h.nextq, hlen]
    by_cases hq0 : q = 0
    · have hsame : fetched.length + 1 = posted.length := by omega
      rw [if_pos (by rw [hsame]), if_pos hq0]
    · have hne : (fetched.length + 1) % mboxslots ≠ posted.length % mboxslots :=
        RingHolds.mod_ne_mod (by omega) (by omega)
      rw [if_neg (by omega), if_neg hq0]
  · rw [hlen]
    exact h.slots.mono (Nat.le_succ _)

theorem append_contents (h : MboxHolds mb q f posted fetched) :
    fetched ++ mb.contents = posted ∧ mb.contents.length = q := by
  have hq := h.queued_add
  have hf := h.free_add
  have hdrop : mb.contents = posted.drop fetched.length := by
    unfold SysMbox.contents
    by_cases hq0 : q = 0
    · rw [h.head, if_pos hq0, if_pos rfl, drop_of_length_le (by omega)]
    · have hn : ((mb.nextq - mb.head - 1) % mboxslots + 1).toNat = q := by
        rw [h.nextq, h.head, if_neg hq0]
        unfold mboxslots at *
        omega
      have hhead : mb.head.toNat = fetched.length % mboxslots := by
        rw [h.head, if_neg hq0, Int.toNat_natCast]
      have hne : mb.head ≠ -1 := by
        rw [h.head, if_neg hq0]
        omega
      rw [if_neg hne]
      dsimp only
      rw [hn, hhead]
      refine ext_getElem? fun j => ?_
      rw [List.getElem?_drop]
      by_cases hj : j < q
      · have hlt : fetched.length + j < posted.length := by omega
        rw [List.getElem?_map, List.getElem?_range hj, List.getElem?_eq_getElem hlt]
        refine congrArg some ?_
        dsimp only
        rw [Nat.mod_add_mod]
        exact h.slots _ _ (Nat.le_add_right _ _) (List.getElem?_eq_getElem hlt)
      · rw [List.getElem?_eq_none (by simpa using hj), List.getElem?_eq_none (by omega)]
  rw [hdrop]
  refine ⟨?_, ?_⟩
  · rw [prefix_iff_eq_take.mp h.order]
    have hmin : (posted.take fetched.length).length = fetched.length := by
      rw [length_take]
      omega
    rw [hmin, take_append_drop]
  · rw [length_drop]
    omega

end MboxHolds

namespace Lwip

variable {s s' : Lwip} {l k : List Nat} {t tid m x : Nat} {w : SemWait}
  {tc tc' : ThreadContext} {d : MboxDone}

theorem CallOk.uses (h : CallOk s w) : Uses (s.mboxes w.mbox) w.sem := by
  rw [h.sem]
  exact call_uses _ _

/-- The mailbox, with the counters of its semaphores and its history. -/
def MboxOk (s : Lwip) (m : Nat) : Prop :=
  MboxHolds (s.mboxes m) (s.sems (s.mboxes m).queuedMsg).counter.toNat
    (s.sems (s.mboxes m).freeMsg).counter.toNat (s.posted m) (s.fetched m)

structure Inv (s : Lwip) : Prop where
  shape : ∃ l k, Shape s l k
  cur : ∀ t, s.curTc = some t → PlaceOk s (s.tcs t) (s.tcs t).place
  mbox : ∀ m, (s.mboxes m).freed = false → MboxOk s m
  mem : ∀ m d, d ∈ s.done m → d.result ≠ errMem
  ok : s.panicked ≠ some .noMessage ∧ s.panicked ≠ some .postFailed

theorem MboxOk.congr (h : MboxOk s m) (hmb : s'.mboxes m = s.mboxes m)
    (hsem : ∀ x, Uses (s.mboxes m) x → (s'.sems x).counter = (s.sems x).counter)
    (hdone : s'.done m = s.done m) : MboxOk s' m := by
  unfold MboxOk posted fetched
  rw [hmb, hdone, hsem _ (.inl rfl), hsem _ (.inr rfl)]
  exact h

theorem filterMap_single {α β : Type} (f : α → Option β) (a : α) :
    [a].filterMap f = (f a).toList := by
  cases h : f a with
  | none => simp [h]
  | some b => simp [h]

theorem ret_eq (hp : s.panicked = none) : s.ret tid m d =
    { s.setTc tid fun tc => { tc with place := .idle } with
      done := update s.done m (s.done m ++ [d]) } := by
  unfold ret
  rw [hp]

theorem Shape.ret (h : Shape s l k) (hc : s.curTc = some tid)
    (hp : s.panicked = none) (hwait : (s.tcs tid).waitAddr = none)
    (hothers : ∀ m', m' ≠ m → (s.mboxes m').freed = false → MboxOk s m')
    (hmem : ∀ m d, d ∈ s.done m → d.result ≠ errMem) (hd : d.result ≠ errMem)
    (hm : MboxHolds (s.mboxes m) (s.sems (s.mboxes m).queuedMsg).counter.toNat
      (s.sems (s.mboxes m).freeMsg).counter.toNat
      (s.posted m ++ (if d.result = errOk then d.call.posts else none).toList)
      (s.fetched m ++ d.msg.toList)) : Inv (s.ret tid m d) := by
  rw [ret_eq hp]
  have hshape := h.setTc (f := fun tc => { tc with place := .idle }) hc fun _ => rfl
  refine ⟨⟨l, k, hshape.keep (.of_eq rfl rfl rfl rfl) rfl rfl rfl rfl (fun _ => rfl)
    (fun _ _ => ⟨rfl, rfl, id⟩) fun _ _ _ _ => .inr id⟩, ?_, ?_, ?_, ?_⟩
  · intro t ht
    have ht : t = tid := Option.some.inj (ht.symm.trans hc)
    subst ht
    have hself : (s.setTc t fun tc => { tc with place := .idle }).tcs t =
        { s.tcs t with place := .idle } := setTc_self
    show PlaceOk _ ((s.setTc t fun tc => { tc with place := .idle }).tcs t)
      ((s.setTc t fun tc => { tc with place := .idle }).tcs t).place
    rw [hself]
    exact hwait
  · intro m' hm'
    by_cases hmm : m' = m
    · subst hmm
      show MboxHolds (s.mboxes m') _ _
        ((update s.done m' (s.done m' ++ [d]) m').filterMap _)
        ((update s.done m' (s.done m' ++ [d]) m').filterMap _)
      rw [update_self, filterMap_append, filterMap_append,
        filterMap_single, filterMap_single]
      exact hm
    · exact (hothers m' hmm hm').congr rfl (fun _ _ => rfl) (update_of_ne hmm ..)
  · intro m' d' hd'
    by_cases hmm : m' = m
    · subst hmm
      have hd' : d' ∈ update s.done m' (s.done m' ++ [d]) m' := hd'
      rw [update_self, mem_append, mem_singleton] at hd'
      rcases hd' with hd' | rfl
      · exact hmem m' d' hd'
      · exact hd
    · have hsame : update s.done m (s.done m ++ [d]) m' = s.done m' :=
        update_of_ne hmm ..
      exact hmem m' d' (hsame ▸ hd')
  · show s.panicked ≠ _ ∧ s.panicked ≠ _
    rw [hp]
    exact ⟨nofun, nofun⟩

theorem counter_pred {c : BitVec 16} (hc : 0 < c) : (c - 1).toNat + 1 = c.toNat := by
  have hpos : 0 < c.toNat := hc
  have hone : (1 : BitVec 16).toNat = 1 := rfl
  have := c.isLt
  rw [toNat_sub, hone]
  omega

theorem counter_succ {c : BitVec 16} (hc : c.toNat ≤ mboxslots) : (c + 1).toNat = c.toNat + 1 := by
  have hone : (1 : BitVec 16).toNat = 1 := rfl
  unfold mboxslots at hc
  rw [toNat_add, hone]
  omega

theorem trypostBody_eq {msg : Word} (h : (s.mboxes w.mbox).nextq ≠ (s.mboxes w.mbox).head) :
    s.trypostBody tid w msg =
      (sysSemSignal
        { s with
          mboxes := update s.mboxes w.mbox
            { s.mboxes w.mbox with
              nextq := ((s.mboxes w.mbox).nextq + 1).tmod mboxslots
              msg := update (s.mboxes w.mbox).msg (s.mboxes w.mbox).nextq.toNat msg
              head := if (s.mboxes w.mbox).head = -1 then (s.mboxes w.mbox).nextq
                else (s.mboxes w.mbox).head } }
        (s.mboxes w.mbox).queuedMsg).ret tid w.mbox ⟨w.call, errOk, none⟩ :=
  if_neg h

theorem fetchBody_eq {r : Word} (hr : r ≠ sysArchTimeout) (h : (s.mboxes w.mbox).head ≠ -1) :
    s.fetchBody tid w r =
      (sysSemSignal
        { s with
          mboxes := update s.mboxes w.mbox
            { s.mboxes w.mbox with
              head := if ((s.mboxes w.mbox).head + 1).tmod mboxslots = (s.mboxes w.mbox).nextq
                then -1
                else ((s.mboxes w.mbox).head + 1).tmod mboxslots } }
        (s.mboxes w.mbox).freeMsg).ret tid w.mbox
        ⟨w.call, r.toNat, some ((s.mboxes w.mbox).msg (s.mboxes w.mbox).head.toNat)⟩ :=
  (if_neg hr).trans (if_neg h)

theorem sem_of_posts {c : MboxCall} (mb : SysMbox) :
    c.sem mb = if c.posts.isSome then mb.freeMsg else mb.queuedMsg := by
  cases c <;> rfl

theorem PlaceOk.keep {place : ThreadPlace} (h : PlaceOk s tc place)
    (hcall : ∀ w pc, place = .semWait w pc → CallOk s w →
      CallOk s' w ∧ (Hushed s w.sem → Hushed s' w.sem))
    (hwait : tc'.waitAddr = tc.waitAddr) (hwake : tc'.wakeup = tc.wakeup) :
    PlaceOk s' tc' place := by
  cases place with
  | idle => exact hwait.trans h
  | semWait w pc =>
    obtain ⟨hw, hpc⟩ := h
    obtain ⟨hw', hhush⟩ := hcall w pc rfl hw
    have hpark : Parked s w.sem tc → Parked s' w.sem tc' :=
      fun hx => ⟨hwait.trans hx.1, hx.2.imp hwake.trans hhush⟩
    refine ⟨hw', ?_⟩
    cases pc with
    | test => exact hwait.trans hpc
    | enter a su cv => exact ⟨hwait.trans hpc.1, hpc.2.1, hhush hpc.2.2⟩
    | loop a su cv t p => exact ⟨hpc.1, hpark hpc.2⟩
    | yielded a su cv t => exact ⟨hpc.1, hpark hpc.2⟩
    | leave a => exact ⟨hwait.trans hpc.1, hpc.2⟩

theorem PlaceOk.static {place : ThreadPlace} (h : PlaceOk s tc place) (hst : Static s s')
    (hsems : s'.sems = s.sems) (link : Option Nat) :
    PlaceOk s' { tc with link := link } place := by
  refine h.keep (fun w pc _ hw => ⟨hw.static hst, fun hx => ?_⟩) rfl rfl
  unfold Hushed
  rw [hsems]
  exact hx

theorem posts_or_tm (c : MboxCall) : c.posts = none ∨ c.tm = 0 := by
  cases c with
  | post msg => exact .inr rfl
  | trypost msg => exact .inr rfl
  | fetch tm => exact .inl rfl
  | tryfetch => exact .inl rfl

section

variable (h : Inv s)

include h

section

variable (hc : s.curTc = some tid)

include hc

theorem Inv.setTc {f : ThreadContext → ThreadContext} (hf : ∀ tc, (f tc).link = tc.link)
    (hp : PlaceOk s (f (s.tcs tid)) (f (s.tcs tid)).place) : Inv (s.setTc tid f) := by
  obtain ⟨l, k, hshape⟩ := h.shape
  refine ⟨⟨l, k, hshape.setTc hc hf⟩, ?_, ?_, h.mem, h.ok⟩
  · intro t ht
    have ht : t = tid := Option.some.inj (ht.symm.trans hc)
    subst ht
    rw [setTc_self]
    refine hp.static ?_ ?_ _
    · exact .of_eq rfl rfl rfl rfl
    · rfl
  · exact fun m hm => (h.mbox m hm).congr rfl (fun _ _ => rfl) rfl

section

variable (hp : s.panicked = none)

include hp

section

variable (hwait : (s.tcs tid).waitAddr = none)

include hwait

section

variable (hcall : CallOk s w)

include hcall

/-- A unit of one semaphore of a mailbox is taken, the mailbox changes, and the other semaphore is
signalled. -/
theorem Inv.transfer {mb' : SysMbox} {y : Nat} (hd : d.result ≠ errMem)
    (hcount : 0 < (s.sems w.sem).counter)
    (hmb' : mb'.freed = (s.mboxes w.mbox).freed ∧
      mb'.queuedMsg = (s.mboxes w.mbox).queuedMsg ∧ mb'.freeMsg = (s.mboxes w.mbox).freeMsg)
    (hy : Uses (s.mboxes w.mbox) y) (hyx : y ≠ w.sem)
    (hm : ∀ sems : Nat → SysSem, (sems w.sem).counter = (s.sems w.sem).counter - 1 →
      (sems y).counter = (s.sems y).counter + 1 →
      MboxHolds mb' (sems mb'.queuedMsg).counter.toNat (sems mb'.freeMsg).counter.toNat
        (s.posted w.mbox ++ (if d.result = errOk then d.call.posts else none).toList)
        (s.fetched w.mbox ++ d.msg.toList)) :
    Inv ((sysSemSignal { s.setSem w.sem fun e => { e with counter := e.counter - 1 } with
      mboxes := update s.mboxes w.mbox mb' } y).ret tid w.mbox d) := by
  obtain ⟨l, k, hshape⟩ := h.shape
  have hw := hshape.wired
  have hshape1 : Shape (s.setSem w.sem fun e => { e with counter := e.counter - 1 }) l k := by
    refine hshape.setSem (fun _ => ⟨rfl, rfl⟩) fun hh => ?_
    rw [hh.1] at hcount
    exact absurd hcount (by decide)
  have hst : Static (s.setSem w.sem fun e => { e with counter := e.counter - 1 })
      { s.setSem w.sem fun e => { e with counter := e.counter - 1 } with
        mboxes := update s.mboxes w.mbox mb' } := by
    refine ⟨fun m => ?_, fun x => ⟨rfl, rfl⟩, rfl, rfl⟩
    dsimp only
    by_cases hm : m = w.mbox
    · subst hm
      rw [update_self]
      exact hmb'
    · rw [update_of_ne hm]
      exact ⟨rfl, rfl, rfl⟩
  have hother : ∀ z, z ≠ w.sem →
      (s.setSem w.sem fun e => { e with counter := e.counter - 1 }).sems z = s.sems z :=
    fun z hz => setSem_of_ne hz
  have hlive := hw.live w.mbox y hcall.live hy
  rw [← hother y hyx] at hlive
  obtain ⟨hsig, hshape3⟩ := (hshape1.keep hst rfl rfl rfl rfl (fun _ => rfl)
    (fun _ _ => ⟨rfl, rfl, id⟩) fun _ _ _ _ => .inr id).signal hlive
  have hmboxes : _ = update s.mboxes w.mbox mb' := hsig.mboxes
  have hdone : _ = s.done := hsig.done
  refine hshape3.ret (hsig.curTc.trans hc) (hsig.panicked.trans hp) ?_ ?_ ?_ hd ?_
  · rw [hsig.cur tid hc]
    exact hwait
  · intro m hne hm'
    have hmm := (congrFun hmboxes m).trans (update_of_ne hne ..)
    rw [hmm] at hm'
    refine (h.mbox m hm').congr hmm (fun z hz => ?_) (congrFun hdone m)
    have hz' : ∀ x, Uses (s.mboxes w.mbox) x → z ≠ x := by
      rintro x hx rfl
      exact hne (hw.sep _ _ _ hm' hcall.live hz hx)
    rw [hsig.others z (hz' _ hy)]
    exact congrArg SysSem.counter (hother z (hz' _ hcall.uses))
  · rw [hdone]
    exact h.mem
  · unfold posted fetched
    rw [hmboxes, hdone, update_self]
    refine hm _ ?_ ?_
    · rw [hsig.others _ hyx.symm]
      exact congrArg SysSem.counter (update_self w.sem _ s.sems)
    · exact hsig.counter.trans (congrArg (·.counter + 1) (hother y hyx))

theorem Inv.trypost {msg : Word}
    (hposts : w.call.posts = some msg) (hcount : 0 < (s.sems w.sem).counter) :
    Inv ((s.setSem w.sem fun e => { e with counter := e.counter - 1 }).trypostBody tid w msg) := by
  obtain ⟨l, k, hshape⟩ := h.shape
  have hsem : w.sem = (s.mboxes w.mbox).freeMsg := by
    rw [hcall.sem, sem_of_posts, hposts]
    rfl
  have hne := hshape.wired.ne w.mbox hcall.live
  have hholds := h.mbox w.mbox hcall.live
  unfold MboxOk at hholds
  rw [← hsem] at hholds hne
  have hle : (s.sems (s.mboxes w.mbox).queuedMsg).counter.toNat ≤ mboxslots := by
    have := hholds.free_add
    omega
  rw [← counter_pred hcount] at hholds
  obtain ⟨hfull, hpost⟩ := hholds.post msg
  rw [trypostBody_eq (s := s.setSem w.sem _) hfull]
  refine h.transfer hc hp hwait hcall (show errOk ≠ errMem by decide) hcount
    ⟨rfl, rfl, rfl⟩ (.inl rfl) hne ?_
  intro sems hx hy
  have hy : (sems (s.mboxes w.mbox).queuedMsg).counter =
    (s.sems (s.mboxes w.mbox).queuedMsg).counter + 1 := hy
  rw [if_pos rfl, hposts]
  show MboxHolds _ (sems (s.mboxes w.mbox).queuedMsg).counter.toNat
    (sems (s.mboxes w.mbox).freeMsg).counter.toNat (s.posted w.mbox ++ [msg])
    (s.fetched w.mbox ++ [])
  rw [← hsem, hx, hy, counter_succ hle, append_nil]
  exact hpost

theorem Inv.fetch {r : Word} (hposts : w.call.posts = none) (hr : r ≠ sysArchTimeout)
    (hcount : 0 < (s.sems w.sem).counter) :
    Inv ((s.setSem w.sem fun e => { e with counter := e.counter - 1 }).fetchBody tid w r) := by
  obtain ⟨l, k, hshape⟩ := h.shape
  have hsem : w.sem = (s.mboxes w.mbox).queuedMsg := by
    rw [hcall.sem, sem_of_posts, hposts]
    rfl
  have hne := hshape.wired.ne w.mbox hcall.live
  have hholds := h.mbox w.mbox hcall.live
  unfold MboxOk at hholds
  rw [← hsem] at hholds hne
  have hle : (s.sems (s.mboxes w.mbox).freeMsg).counter.toNat ≤ mboxslots := by
    have := hholds.free_add
    omega
  rw [← counter_pred hcount] at hholds
  obtain ⟨hempty, hfetch⟩ := hholds.fetch
  rw [fetchBody_eq (s := s.setSem w.sem _) hr hempty]
  refine h.transfer hc hp hwait hcall ?_ hcount ⟨rfl, rfl, rfl⟩ (.inr rfl) hne.symm ?_
  · show ((r.toNat : Nat) : Int) ≠ errMem
    unfold errMem
    omega
  · intro sems hx hy
    have hy : (sems (s.mboxes w.mbox).freeMsg).counter =
      (s.sems (s.mboxes w.mbox).freeMsg).counter + 1 := hy
    rw [hposts, ite_self]
    show MboxHolds _ (sems (s.mboxes w.mbox).queuedMsg).counter.toNat
      (sems (s.mboxes w.mbox).freeMsg).counter.toNat (s.posted w.mbox ++ [])
      (s.fetched w.mbox ++ [(s.mboxes w.mbox).msg (s.mboxes w.mbox).head.toNat])
    rw [← hsem, hx, hy, counter_succ hle, append_nil]
    exact hfetch

theorem Inv.timeout (hposts : w.call.posts = none) : Inv (s.semWaitRet tid w sysArchTimeout) := by
  obtain ⟨l, k, hshape⟩ := h.shape
  have hret : s.semWaitRet tid w sysArchTimeout =
      s.ret tid w.mbox ⟨w.call, sysArchTimeout.toNat, none⟩ := by
    unfold semWaitRet
    cases hw : w.call with
    | post msg => rw [hw] at hposts; cases hposts
    | trypost msg => rw [hw] at hposts; cases hposts
    | fetch tm =>
      dsimp only
      unfold fetchBody
      rw [if_pos rfl, hw]
    | tryfetch =>
      dsimp only
      unfold fetchBody
      rw [if_pos rfl, hw]
  rw [hret]
  refine hshape.ret hc hp hwait (fun m _ hm => h.mbox m hm) h.mem ?_ ?_
  · show ((sysArchTimeout.toNat : Nat) : Int) ≠ errMem
    decide
  · dsimp only
    rw [hposts, ite_self]
    show MboxHolds _ _ _ (s.posted w.mbox ++ []) (s.fetched w.mbox ++ [])
    rw [append_nil, append_nil]
    exact h.mbox w.mbox hcall.live

theorem Inv.taken (hcount : 0 < (s.sems w.sem).counter) :
    Inv ((s.setSem w.sem fun e => { e with counter := e.counter - 1 }).semWaitRet tid w
      w.waited) := by
  -- The time is a multiple of ten milliseconds, and so it is not `SYS_ARCH_TIMEOUT`.
  have htime : w.waited ≠ sysArchTimeout := by
    intro heq
    have heven := hcall.even
    rw [heq] at heven
    exact absurd heven (by decide)
  unfold semWaitRet
  cases hw : w.call with
  | post msg => exact h.trypost hc hp hwait hcall (by rw [hw]; rfl) hcount
  | trypost msg => exact h.trypost hc hp hwait hcall (by rw [hw]; rfl) hcount
  | fetch tm => exact h.fetch hc hp hwait hcall (by rw [hw]; rfl) htime hcount
  | tryfetch => exact h.fetch hc hp hwait hcall (by rw [hw]; rfl) htime hcount

end

end

end

end

end

theorem timeMsec_even (s : Lwip) : s.timeMsec.toNat % 2 = 0 := by
  have hten : (10 : Word).toNat = 10 := rfl
  unfold timeMsec
  rw [toNat_mul, hten]
  omega

theorem add_sub_even {a b c : Word} (ha : a.toNat % 2 = 0) (hb : b.toNat % 2 = 0)
    (hc : c.toNat % 2 = 0) : (a + (b - c)).toNat % 2 = 0 := by
  rw [toNat_add, toNat_sub]
  omega

section

variable (h : Switch s s')

include h

theorem Switch.place : (s'.tcs t).place = (s.tcs t).place := by
  obtain ⟨link, hlink⟩ := h.tcs t
  rw [hlink]

theorem Switch.static : Static s s' :=
  .of_eq h.mboxes h.sems h.semFree h.mboxFree

theorem Switch.resting (ht : Resting s (s.tcs t)) : Resting s' (s'.tcs t) := by
  obtain ⟨link, hlink⟩ := h.tcs t
  rw [hlink]
  exact ht.relink h.static h.sems link

theorem Switch.mboxOk (hm : (s.mboxes m).freed = false → MboxOk s m)
    (hfreed : (s'.mboxes m).freed = false) : MboxOk s' m := by
  rw [h.mboxes] at hfreed
  exact (hm hfreed).congr (by rw [h.mboxes]) (fun x _ => by rw [h.sems]) (by rw [h.done])

end

theorem Inv.yield (h : Shape s l k) (hrest : ∀ t, s.curTc = some t → Resting s (s.tcs t))
    (hmbox : ∀ m, (s.mboxes m).freed = false → MboxOk s m)
    (hmem : ∀ m d, d ∈ s.done m → d.result ≠ errMem)
    (hok : s.panicked ≠ some .noMessage ∧ s.panicked ≠ some .postFailed) :
    Inv s.threadYield := by
  have hsw := threadYield_switch s
  obtain ⟨l', hqueue, hmem'⟩ := h.queue.yield
  have hall : ∀ t, Resting s.threadYield (s.threadYield.tcs t) := by
    intro t
    refine hsw.resting ?_
    by_cases ht : s.curTc = some t
    · exact hrest t ht
    · exact h.rest t ht
  refine ⟨⟨l', k, hqueue, h.wired.static hsw.static, fun t _ => hall t, ?_⟩,
    fun t _ => (hall t).placeOk, fun m => hsw.mboxOk (hmbox m), ?_, ?_⟩
  · intro t ht hp
    rw [hsw.place] at hp
    have hold : t ∈ l ∨ s.curTc = some t := by
      by_cases hcur : s.curTc = some t
      · exact .inr hcur
      · exact .inl (h.inQueue t hcur hp)
    exact (hmem' t hold).resolve_right ht
  · rw [hsw.done]
    exact hmem
  · rw [hsw.panicked]
    exact hok

theorem Inv.stepWait {pc : WaitPc} (h : Inv s) (hc : s.curTc = some tid) (hp : s.panicked = none)
    (hplace : (s.tcs tid).place = .semWait w pc) : Inv (s.stepWait tid w pc) := by
  have hcur := h.cur tid hc
  rw [hplace] at hcur
  obtain ⟨hcall, hpc⟩ := hcur
  cases pc with
  | test =>
    unfold Lwip.stepWait
    dsimp only
    split
    · split
      · next hcount => exact h.taken hc hp hpc hcall hcount
      · next hcount =>
        split
        · next htm =>
          refine h.timeout hc hp hpc hcall ((posts_or_tm w.call).resolve_right fun h0 => ?_)
          rw [h0] at htm
          exact absurd htm (by decide)
        · -- The thread sets the flag: the counter is zero.
          have hzero : (s.sems w.sem).counter = 0 := by
            have : ¬0 < (s.sems w.sem).counter.toNat := hcount
            exact eq_of_toNat_eq (by rw [Nat.eq_zero_of_not_pos this]; rfl)
          have hhush : Hushed (s.setSem w.sem fun e => { e with waiters := 1 }) w.sem := by
            unfold Hushed
            rw [setSem_self]
            exact ⟨hzero, by dsimp only; decide⟩
          obtain ⟨l, k, hshape⟩ := h.shape
          have hst : Static s (s.setSem w.sem fun e => { e with waiters := 1 }) :=
            Static.setSem fun _ => ⟨rfl, rfl⟩
          have hcounter : ∀ x, ((s.setSem w.sem fun e => { e with waiters := 1 }).sems x).counter =
              (s.sems x).counter := by
            intro x
            by_cases hx : x = w.sem
            · subst hx
              rw [setSem_self]
            · rw [setSem_of_ne hx]
          have hinv : Inv (s.setSem w.sem fun e => { e with waiters := 1 }) := by
            refine ⟨⟨l, k, hshape.setSem (fun _ => ⟨rfl, rfl⟩) fun _ => hhush⟩, ?_, ?_, h.mem, h.ok⟩
            · intro t ht
              have ht : t = tid := Option.some.inj (ht.symm.trans hc)
              subst ht
              show PlaceOk _ (s.tcs t) (s.tcs t).place
              rw [hplace]
              exact ⟨hcall.static hst, hpc⟩
            · exact fun m hm => (h.mbox m hm).congr rfl (fun x _ => hcounter x) rfl
          exact hinv.setTc hc (fun _ => rfl) ⟨hcall.static hst, hpc, timeMsec_even s, hhush⟩
    · next hcond =>
      refine h.timeout hc hp hpc hcall ((posts_or_tm w.call).resolve_right fun h0 => ?_)
      exact hcond (.inl h0)
  | enter a su cv =>
    obtain ⟨hwait, heven, hhush⟩ := hpc
    unfold Lwip.stepWait
    exact h.setTc hc (fun _ => rfl) ⟨hcall, heven, rfl, .inr hhush⟩
  | loop a su cv t p =>
    obtain ⟨heven, hpark⟩ := hpc
    unfold Lwip.stepWait
    dsimp only
    split
    · have hinv : Inv (s.goto tid w (.yielded a su cv t)) :=
        h.setTc hc (fun _ => rfl) ⟨hcall, heven, hpark⟩
      obtain ⟨l, k, hshape⟩ := hinv.shape
      refine Inv.yield hshape ?_ hinv.mbox hinv.mem hinv.ok
      intro t' ht'
      have ht' : t' = tid := Option.some.inj (ht'.symm.trans hc)
      subst ht'
      have hplace' : ((s.goto t' w (.yielded a su cv t)).tcs t').place =
          .semWait w (.yielded a su cv t) := by
        unfold goto
        rw [setTc_self]
      have hok := hinv.cur t' hc
      rw [hplace'] at hok
      exact .inr ⟨w, a, su, cv, t, hplace', hok.1, hok.2⟩
    · exact h.setTc hc (fun _ => rfl) ⟨hcall, rfl, heven⟩
  | yielded a su cv t =>
    unfold Lwip.stepWait goto
    exact h.setTc hc (fun _ => rfl) ⟨hcall, hpc⟩
  | leave a =>
    unfold Lwip.stepWait
    dsimp only
    rw [if_neg (not_not.mpr hcall.gen)]
    refine h.setTc hc (fun _ => rfl) ⟨⟨hcall.live, hcall.sem, hcall.gen, ?_⟩, hpc.1⟩
    exact add_sub_even hcall.even (timeMsec_even s) hpc.2

end Lwip

end Jos
