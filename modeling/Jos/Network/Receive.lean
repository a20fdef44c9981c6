import Jos.Kern.E1000
import Jos.Logic.Ring
import Jos.Paging.Operations

/-!
# The receive ring delivers every stored packet once

Packet number `k` is in slot `k % N`. `RDT` stops the card before it comes round to the first packet
that has not been returned. `DD` is set exactly from the first packet that the driver has not
cleared to the last one stored, so the driver that finds it has a packet that the card is done with.
-/

namespace Jos

open Logic Function BitVec List

variable {pages : RxPages} {s s' : RxRing} {c : RxCall} {p : List Byte} {k n i j a b : Nat}
  {ph : Phys} {l : List Nat}
  {f : RxDescr → RxDescr} {len : Nat} {q : Incoming}

/-- The free list is `l`. -/
structure FreePages (p : Phys) (l : List Nat) : Prop where
  chain : Chain (fun x => (p.pages x).ppLink) p.pageFreeList l
  nodup : l.Nodup
  lt : ∀ x ∈ l, x < p.npages

theorem FreePages.rxPage {x : Nat} (h : FreePages ph (x :: l)) :
    ∃ ph', rxPage ph = .ret x ph' ∧ FreePages ph' l := by
  obtain ⟨hhead, hrest⟩ := h.chain
  have halloc := pageAlloc_of_some hhead (h.lt x mem_cons_self) allocZero
  refine ⟨_, bind_run halloc (bind_run (modify_apply _ _) rfl), ?_, h.nodup.tail, fun y hy => ?_⟩
  · exact hrest.congr fun _ _ => by simp [Phys.take, Phys.pop, allocZero]
  · exact h.lt y (mem_cons_of_mem x hy)

theorem FreePages.rxPages {l' : List Nat} (h : FreePages ph (l ++ l')) :
    ∃ ph', rxPages l.length ph = .ret l ph' := by
  induction l generalizing ph with
  | nil => exact ⟨ph, rfl⟩
  | cons x l ih =>
    obtain ⟨p1, hq, h1⟩ := h.rxPage
    obtain ⟨p2, hl⟩ := ih h1
    exact ⟨p2, bind_run hq (bind_run hl rfl)⟩

/-- With enough free pages `e1000_rx_init` returns, and no two buffers are in one half page. -/
theorem e1000RxInit_run (h : FreePages ph l) (hlen : ndesc / 2 < l.length) :
    ∃ pages : RxPages, ∃ ph', e1000RxInit ph = .ret pages.pptrs ph' := by
  cases l with
  | nil => cases hlen
  | cons x l =>
    obtain ⟨p1, hq, h1⟩ := h.rxPage
    have hlen' : (l.take (ndesc / 2)).length = ndesc / 2 :=
      length_take_of_le (Nat.le_of_lt_succ hlen)
    rw [← take_append_drop (ndesc / 2) l] at h1
    obtain ⟨p2, hrun⟩ := h1.rxPages
    rw [hlen'] at hrun
    exact ⟨⟨_, hlen', (nodup_append.mp h1.nodup).1⟩, p2, bind_run hq hrun⟩

theorem RxPages.buf_ne (pages : RxPages) (hi : i < ndesc) (hj : j < ndesc) (hne : i ≠ j)
    (ha : a < 2048) (hb : b < 2048) : rxBuf pages.pptrs i + a ≠ rxBuf pages.pptrs j + b := by
  have hhalf : ∀ {n}, n < ndesc → n / 2 < pages.pptrs.length := by
    intro n hn
    rw [pages.length]
    unfold ndesc at hn ⊢
    omega
  intro heq
  unfold rxBuf at heq
  have hpage : pages.pptrs.getD (i / 2) 0 = pages.pptrs.getD (j / 2) 0 := by omega
  rw [getD_eq_getElem _ _ (hhalf hi), getD_eq_getElem _ _ (hhalf hj)] at hpage
  have := (pages.nodup.getElem_inj_iff).mp hpage
  omega

namespace RxRing

/-- The first `n` bytes of the buffer of slot `i`. -/
def HasBytes (s : RxRing) (i : Nat) (p : List Byte) (n : Nat) : Prop :=
  ∀ j < n, s.bufs ((s.descs i).addr + j) = p.getD j 0

/-- The packet is in the slot, with its length. -/
def Holds (s : RxRing) (i : Nat) (p : List Byte) : Prop :=
  (s.descs i).length.toNat = p.length ∧ s.HasBytes i p p.length

/-- What the card knows at each place. -/
def CardOk (s : RxRing) : RxDevPc → Prop
  | .idle => s.dev.stored.length = s.dev.advanced
  | .write p k =>
    s.dev.stored.length = s.dev.advanced ∧ s.dev.stored.length + 1 < s.returned.length + ndesc ∧
      k ≤ p.val.length ∧ s.HasBytes (s.dev.advanced % ndesc) p.val k
  | .setLength p =>
    s.dev.stored.length = s.dev.advanced ∧ s.dev.stored.length + 1 < s.returned.length + ndesc ∧
      s.HasBytes (s.dev.advanced % ndesc) p.val p.val.length
  | .setDd p =>
    s.dev.stored.length = s.dev.advanced ∧ s.dev.stored.length + 1 < s.returned.length + ndesc ∧
      s.Holds (s.dev.advanced % ndesc) p.val
  | .advance => s.dev.stored.length = s.dev.advanced + 1

/-- The invariant of ring and card. The driver has cleared the status of `cleared` packets. -/
structure Good (pages : RxPages) (s : RxRing) (cleared : Nat) : Prop where
  rdt : s.rdt = toWord ((ndesc - 1 + s.returned.length) % ndesc)
  addr : ∀ i < ndesc, (s.descs i).addr = rxBuf pages.pptrs i
  returned_le : s.returned.length ≤ cleared
  cleared_le : cleared ≤ s.dev.stored.length
  room : s.dev.stored.length < s.returned.length + ndesc
  dd : ∀ k, cleared ≤ k → k < s.dev.stored.length →
    (s.descs (k % ndesc)).status &&& rxStatusDd ≠ 0
  clear : ∀ k, s.dev.stored.length ≤ k → k < cleared + ndesc →
    (s.descs (k % ndesc)).status &&& rxStatusDd = 0
  held : ∀ k p, s.returned.length ≤ k → s.dev.stored[k]? = some p →
    s.Holds (k % ndesc) p ∧ p.length ≤ maxPacket
  order : s.returned = s.dev.stored.take s.returned.length
  card : s.CardOk s.dev.pc

theorem Good.init (pages : RxPages) : Good pages (init pages.pptrs) 0 where
  rdt := rfl
  addr _ _ := rfl
  returned_le := le_rfl
  cleared_le := le_rfl
  room := show 0 < 0 + ndesc by decide
  dd k _ hk := absurd hk (Nat.not_lt_zero k)
  clear _ _ _ := show (0 : BitVec 8) &&& rxStatusDd = 0 by decide
  held k p _ hp := by cases hp
  order := rfl
  card := rfl

theorem rdh_toNat (s : RxRing) : s.rdh.toNat = s.dev.advanced % ndesc := by
  have := Nat.mod_lt s.dev.advanced ndesc_pos
  unfold rdh ndesc at *
  rw [toNat_ofNat]
  omega

theorem Good.rdt_toNat (h : Good pages s n) :
    s.rdt.toNat = (ndesc - 1 + s.returned.length) % ndesc := by
  have := Nat.mod_lt (ndesc - 1 + s.returned.length) ndesc_pos
  rw [h.rdt]
  unfold ndesc at *
  rw [toNat_ofNat]
  omega

theorem Good.next_slot (h : Good pages s n) :
    (s.rdt + 1).toNat % ndesc = s.returned.length % ndesc := by
  have hone : (1 : Word).toNat = 1 := rfl
  rw [toNat_add, h.rdt_toNat]
  unfold ndesc
  omega

/-- What the card does to what the driver knows. -/
structure CardStep (s s' : RxRing) : Prop where
  call : s'.call = s.call
  done : s'.done = s.done
  stored : s.dev.stored <+: s'.dev.stored

theorem CardStep.returned (h : CardStep s s') : s'.returned = s.returned := by
  unfold RxRing.returned
  rw [h.done]

theorem arrive_card (p : Incoming) : CardStep s (s.arrive p) := by
  unfold RxRing.arrive
  split
  · split
    · exact ⟨rfl, rfl, prefix_rfl⟩
    · exact ⟨rfl, rfl, prefix_rfl⟩
  · exact ⟨rfl, rfl, prefix_rfl⟩

theorem stepCard_card : CardStep s s.stepCard := by
  unfold RxRing.stepCard
  split
  · exact ⟨rfl, rfl, prefix_rfl⟩
  · split
    · exact ⟨rfl, rfl, prefix_rfl⟩
    · exact ⟨rfl, rfl, prefix_rfl⟩
  · exact ⟨rfl, rfl, prefix_rfl⟩
  · exact ⟨rfl, rfl, prefix_append ..⟩
  · exact ⟨rfl, rfl, prefix_rfl⟩

theorem next_ne (hroom : s.dev.stored.length + 1 < s.returned.length + ndesc)
    (hk : s.returned.length ≤ k) (hlt : k < s.dev.stored.length) :
    k % ndesc ≠ s.dev.stored.length % ndesc :=
  RingHolds.mod_ne_mod hlt (by omega)

theorem lt_of_getElem? (hp : s.dev.stored[k]? = some p) : k < s.dev.stored.length := by
  by_contra hge
  rw [List.getElem?_eq_none (Nat.le_of_not_lt hge)] at hp
  cases hp

theorem descs_setNext (hstored : s.dev.stored.length = s.dev.advanced)
    (hroom : s.dev.stored.length + 1 < s.returned.length + ndesc)
    (hk : s.returned.length ≤ k) (hlt : k < s.dev.stored.length) :
    (s.setDescr (s.dev.advanced % ndesc) f).descs (k % ndesc) = s.descs (k % ndesc) := by
  have hne := next_ne hroom hk hlt
  rw [hstored] at hne
  exact update_of_ne hne ..

theorem setDescr_keeps {α : Type} (g : RxDescr → α)
    (hf : ∀ d, g (f d) = g d) : g ((s.setDescr i f).descs j) = g (s.descs j) := by
  by_cases hj : j = i
  · subst hj
    simp [RxRing.setDescr, hf]
  · simp [RxRing.setDescr, hj]

theorem Holds.congr (h : s.Holds i p) (hbufs : s'.bufs = s.bufs)
    (hlen : (s'.descs i).length = (s.descs i).length)
    (haddr : (s'.descs i).addr = (s.descs i).addr) : s'.Holds i p := by
  refine ⟨by rw [hlen]; exact h.1, fun j hj => ?_⟩
  rw [hbufs, haddr]
  exact h.2 j hj

theorem or_dd_and (x : BitVec 8) : (x ||| rxStatusDd) &&& rxStatusDd ≠ 0 := by
  revert x
  decide

section

variable (h : Good pages s n)

include h

theorem Good.arrive (p : Incoming) : Good pages (s.arrive p) n := by
  unfold RxRing.arrive
  split
  · next hpc =>
    split
    · next hne =>
      have hcard := h.card
      rw [hpc] at hcard
      have hcard : s.dev.stored.length = s.dev.advanced := hcard
      have hroom := h.room
      refine { h with card := ⟨hcard, ?_, Nat.zero_le _, fun j hj => absurd hj j.not_lt_zero⟩ }
      by_contra hfull
      apply hne
      have heq : s.dev.advanced = s.returned.length + ndesc - 1 := by
        change ¬s.dev.stored.length + 1 < s.returned.length + ndesc at hfull
        omega
      rw [← toNat_inj, rdh_toNat, h.rdt_toNat, heq]
      congr 1
      unfold ndesc
      omega
    · exact h
  · exact h

theorem Good.write (hpc : s.dev.pc = .write q k) (hlt : k < q.val.length) : Good pages { s with
      bufs := update s.bufs ((s.descs (s.dev.advanced % ndesc)).addr + k) (q.val.getD k 0)
      dev := { s.dev with pc := .write q (k + 1) } } n := by
  have hcard := h.card
  rw [hpc] at hcard
  obtain ⟨hstored, hroom, hk, hbytes⟩ := hcard
  have hq := q.property
  refine { h with held := ?_, card := ⟨hstored, hroom, hlt, ?_⟩ }
  · intro x p hx hp
    obtain ⟨⟨hlen, hheld⟩, hmax⟩ := h.held x p hx hp
    refine ⟨⟨hlen, fun j hj => ?_⟩, hmax⟩
    rw [← hheld j hj]
    refine update_of_ne ?_ ..
    have hne := next_ne hroom hx (lt_of_getElem? hp)
    rw [hstored] at hne
    rw [h.addr _ (Nat.mod_lt _ ndesc_pos), h.addr _ (Nat.mod_lt _ ndesc_pos)]
    unfold maxPacket at hmax hq
    exact pages.buf_ne (Nat.mod_lt _ ndesc_pos) (Nat.mod_lt _ ndesc_pos) hne (by omega) (by omega)
  · intro j hj
    by_cases hjk : j = k
    · subst hjk
      exact update_self ..
    · rw [← hbytes j (by omega)]
      refine update_of_ne (fun heq => hjk ?_) ..
      exact add_left_cancel heq

theorem Good.setLength (hpc : s.dev.pc = .setLength q) :
    Good pages { s.setDescr (s.dev.advanced % ndesc) fun d =>
        { d with length := BitVec.ofNat 16 q.val.length } with
      dev := { s.dev with pc := .setDd q } } n := by
  have hcard := h.card
  rw [hpc] at hcard
  obtain ⟨hstored, hroom, hbytes⟩ := hcard
  obtain ⟨f, hf⟩ : ∃ f : RxDescr → RxDescr, f = fun d =>
    { d with length := BitVec.ofNat 16 q.val.length } := ⟨_, rfl⟩
  rw [← hf]
  have haddr : ∀ i, ((s.setDescr (s.dev.advanced % ndesc) f).descs i).addr = (s.descs i).addr :=
    fun i => setDescr_keeps RxDescr.addr fun d => by rw [hf]
  have hstatus : ∀ i,
      ((s.setDescr (s.dev.advanced % ndesc) f).descs i).status = (s.descs i).status :=
    fun i => setDescr_keeps RxDescr.status fun d => by rw [hf]
  refine ⟨h.rdt, fun i hi => (haddr i).trans (h.addr i hi), h.returned_le, h.cleared_le, h.room,
    fun k hk hlt => ?_, fun k hk hlt => ?_, ?_, h.order, hstored, hroom, ?_, ?_⟩
  · exact (hstatus (k % ndesc)).symm ▸ h.dd k hk hlt
  · exact (hstatus (k % ndesc)).symm ▸ h.clear k hk hlt
  · intro k p hk hp
    obtain ⟨hheld, hmax⟩ := h.held k p hk hp
    have hsame := descs_setNext (f := f) hstored hroom hk (lt_of_getElem? hp)
    exact ⟨hheld.congr rfl (congrArg RxDescr.length hsame) (haddr _), hmax⟩
  · have hq := q.property
    unfold maxPacket at hq
    show (update s.descs _ _ _).length.toNat = _
    rw [update_self, hf, toNat_ofNat]
    omega
  · intro j hj
    rw [← hbytes j hj, ← haddr (s.dev.advanced % ndesc)]
    rfl

theorem Good.setDd (hpc : s.dev.pc = .setDd q) :
    Good pages { s.setDescr (s.dev.advanced % ndesc) fun d =>
        { d with status := d.status ||| rxStatusDd } with
      dev := { s.dev with pc := .advance, stored := s.dev.stored ++ [q.val] } } n := by
  have hcard := h.card
  rw [hpc] at hcard
  obtain ⟨hstored, hroom, hholds⟩ := hcard
  have hle := h.returned_le
  have hle' := h.cleared_le
  have hlength : (s.dev.stored ++ [q.val]).length = s.dev.stored.length + 1 := by simp
  obtain ⟨f, hf⟩ : ∃ f : RxDescr → RxDescr, f = fun d =>
    { d with status := d.status ||| rxStatusDd } := ⟨_, rfl⟩
  rw [← hf]
  have haddr : ∀ i, ((s.setDescr (s.dev.advanced % ndesc) f).descs i).addr = (s.descs i).addr :=
    fun i => setDescr_keeps RxDescr.addr fun d => by rw [hf]
  have hlen : ∀ i, ((s.setDescr (s.dev.advanced % ndesc) f).descs i).length = (s.descs i).length :=
    fun i => setDescr_keeps RxDescr.length fun d => by rw [hf]
  refine ⟨h.rdt, fun i hi => (haddr i).trans (h.addr i hi), h.returned_le, ?_, ?_, ?_, ?_, ?_, ?_,
    ?_⟩
  · exact hle'.trans (by rw [hlength]; exact Nat.le_succ _)
  · rw [hlength]
    exact hroom
  · intro k hk hlt
    rw [hlength] at hlt
    rcases Nat.lt_or_eq_of_le (Nat.le_of_lt_succ hlt) with hlt | rfl
    · have hsame := descs_setNext (f := f) hstored hroom (hle.trans hk) hlt
      exact hsame.symm ▸ h.dd k hk hlt
    · rw [hstored]
      show (update s.descs _ _ _).status &&& _ ≠ 0
      rw [update_self, hf]
      exact or_dd_and _
  · intro k hk hlt
    rw [hlength] at hk
    have hne : k % ndesc ≠ s.dev.advanced % ndesc := by
      rw [← hstored]
      exact (RingHolds.mod_ne_mod hk (by omega)).symm
    have hsame : (s.setDescr (s.dev.advanced % ndesc) f).descs (k % ndesc) =
        s.descs (k % ndesc) := update_of_ne hne ..
    exact hsame.symm ▸ h.clear k (by omega) hlt
  · intro k p hk hp
    have hp : (s.dev.stored ++ [q.val])[k]? = some p := hp
    rcases Nat.lt_trichotomy k s.dev.stored.length with hlt | rfl | hgt
    · rw [List.getElem?_append_left hlt] at hp
      obtain ⟨hheld, hmax⟩ := h.held k p hk hp
      exact ⟨hheld.congr rfl (hlen _) (haddr _), hmax⟩
    · rw [List.getElem?_concat_length] at hp
      cases hp
      rw [hstored]
      exact ⟨hholds.congr rfl (hlen _) (haddr _), q.property⟩
    · rw [List.getElem?_eq_none (by omega)] at hp
      cases hp
  · show s.returned = (s.dev.stored ++ [q.val]).take s.returned.length
    rw [List.take_append_of_le_length (hle.trans hle')]
    exact h.order
  · show (s.dev.stored ++ [q.val]).length = s.dev.advanced + 1
    rw [hlength, hstored]

theorem Good.stepCard : Good pages s.stepCard n := by
  have hcard := h.card
  unfold RxRing.stepCard
  split
  · exact h
  · next q k hpc =>
    split
    · next hlt => exact h.write hpc hlt
    · next hge =>
      rw [hpc] at hcard
      obtain ⟨hstored, hroom, hk, hbytes⟩ := hcard
      have heq : k = q.val.length := by omega
      exact { h with card := ⟨hstored, hroom, heq ▸ hbytes⟩ }
  · next q hpc => exact h.setLength hpc
  · next q hpc => exact h.setDd hpc
  · next hpc =>
    rw [hpc] at hcard
    exact { h with card := hcard }

end

/-- The caller's buffer has the first `k` bytes of the next packet, which has `len` bytes. -/
def Copied (s : RxRing) (c : RxCall) (len k : Nat) : Prop :=
  ∃ p, s.dev.stored[s.returned.length]? = some p ∧ p.length = len ∧ k ≤ len ∧
    ∀ j < k, c.buf j = p.getD j 0

/-- What a call knows at each place. -/
def PcOk (s : RxRing) (c : RxCall) : RxPc → Prop
  | .loadRdt => True
  | .testDd rdt => rdt = s.returned.length % ndesc
  | .loadLength rdt =>
    rdt = s.returned.length % ndesc ∧ s.returned.length < s.dev.stored.length
  | .copy rdt len k => rdt = s.returned.length % ndesc ∧ s.Copied c len k
  | .storeStatus rdt len => rdt = s.returned.length % ndesc ∧ s.Copied c len len
  | .storeRdt rdt len => rdt = s.returned.length % ndesc ∧ s.Copied c len len

/-- The packets whose status the driver has cleared: those returned, and the one of a call that is
about to return. -/
def clears : RxPc → Nat
  | .storeRdt _ _ => 1
  | _ => 0

def cleared (s : RxRing) : Nat := s.returned.length + s.call.elim 0 fun c => clears c.pc

structure Inv (pages : RxPages) (s : RxRing) : Prop where
  good : Good pages s s.cleared
  call : ∀ c, s.call = some c → s.PcOk c c.pc

theorem Copied.lt (h : s.Copied c len k) : s.returned.length < s.dev.stored.length := by
  obtain ⟨p, hp, -⟩ := h
  exact lt_of_getElem? hp

theorem Copied.card (h : s.Copied c len k) (hstep : CardStep s s') : s'.Copied c len k := by
  obtain ⟨p, hp, hrest⟩ := h
  obtain ⟨more, hmore⟩ := hstep.stored
  refine ⟨p, ?_, hrest⟩
  rw [hstep.returned, ← hmore, List.getElem?_append_left (lt_of_getElem? hp)]
  exact hp

theorem PcOk.card {pc : RxPc} (hp : s.PcOk c pc) (h : CardStep s s') : s'.PcOk c pc := by
  have hret := h.returned
  cases pc with
  | loadRdt => trivial
  | testDd rdt =>
    show rdt = s'.returned.length % ndesc
    rw [hret]
    exact hp
  | loadLength rdt => exact ⟨hret.symm ▸ hp.1, hret.symm ▸ lt_of_lt_of_le hp.2 h.stored.length_le⟩
  | copy rdt len k => exact ⟨hret.symm ▸ hp.1, hp.2.card h⟩
  | storeStatus rdt len => exact ⟨hret.symm ▸ hp.1, hp.2.card h⟩
  | storeRdt rdt len => exact ⟨hret.symm ▸ hp.1, hp.2.card h⟩

theorem Inv.card (h : Inv pages s) (hgood : Good pages s' s.cleared) (hstep : CardStep s s') :
    Inv pages s' := by
  have hcl : s'.cleared = s.cleared := by
    unfold cleared
    rw [hstep.call, hstep.returned]
  refine ⟨hcl.symm ▸ hgood, ?_⟩
  intro c hc
  rw [hstep.call] at hc
  exact (h.call c hc).card hstep

theorem CardOk.driver {pc : RxDevPc} (h : s.CardOk pc) (hdev : s'.dev = s.dev)
    (hbufs : s'.bufs = s.bufs) (hret : s.returned.length ≤ s'.returned.length)
    (haddr : ∀ i, (s'.descs i).addr = (s.descs i).addr)
    (hlen : ∀ i, (s'.descs i).length = (s.descs i).length) : s'.CardOk pc := by
  have hbytes : ∀ {i p n}, s.HasBytes i p n → s'.HasBytes i p n := by
    intro i p n hb j hj
    rw [hbufs, haddr]
    exact hb j hj
  unfold CardOk at h ⊢
  rw [hdev]
  cases pc with
  | idle => exact h
  | write q k => exact ⟨h.1, by omega, h.2.2.1, hbytes h.2.2.2⟩
  | setLength q => exact ⟨h.1, by omega, hbytes h.2.2⟩
  | setDd q => exact ⟨h.1, by omega, h.2.2.congr hbufs (hlen _) (haddr _)⟩
  | advance => exact h

theorem Good.withCall (h : Good pages s n) (c : Option RxCall) :
    Good pages { s with call := c } n :=
  { h with card := h.card.driver rfl rfl le_rfl (fun _ => rfl) fun _ => rfl }

theorem Inv.goto {pc : RxPc} (h : Good pages s (s.goto c pc).cleared) (hp : s.PcOk c pc) :
    Inv pages (s.goto c pc) := by
  refine ⟨h.withCall _, ?_⟩
  intro c' hc
  cases Option.some.inj hc
  cases pc <;> exact hp

theorem returned_ret_error (buf : Image) {r : Int} (hr : r < 0) :
    (s.ret buf r).returned = s.returned := by
  unfold returned RxRing.ret
  rw [filterMap_append]
  simp [Int.not_le.mpr hr]

theorem returned_ret (buf : Image) (len : Nat) :
    (s.ret buf len).returned = s.returned ++ [(List.range len).map buf] := by
  unfold returned RxRing.ret
  rw [filterMap_append]
  simp

section

variable (h : Good pages s s.returned.length)

include h

theorem Inv.ret_error {buf : Image} {r : Int} (hr : r < 0) : Inv pages (s.ret buf r) := by
  have hret := returned_ret_error (s := s) buf hr
  refine ⟨?_, fun c hc => by cases hc⟩
  have hcl : (s.ret buf r).cleared = s.returned.length := by
    rw [← hret]
    rfl
  rw [hcl]
  refine ⟨?_, h.addr, ?_, h.cleared_le, ?_, h.dd, h.clear, ?_, ?_, ?_⟩
  · rw [hret]
    exact h.rdt
  · rw [hret]
  · rw [hret]
    exact h.room
  · rw [hret]
    exact h.held
  · rw [hret]
    exact h.order
  · exact h.card.driver rfl rfl (by rw [hret]) (fun _ => rfl) fun _ => rfl

theorem Good.dd_iff : (s.descs (s.returned.length % ndesc)).status &&& rxStatusDd ≠ 0 ↔
      s.returned.length < s.dev.stored.length := by
  constructor
  · intro hdd
    by_contra hge
    exact hdd (h.clear _ (by omega) (Nat.lt_add_of_pos_right ndesc_pos))
  · exact h.dd _ le_rfl

theorem Good.storeStatus (hlt : s.returned.length < s.dev.stored.length) :
    Good pages (s.setDescr (s.returned.length % ndesc) fun d => { d with status := 0 })
      (s.returned.length + 1) := by
  obtain ⟨f, hf⟩ : ∃ f : RxDescr → RxDescr, f = fun d => { d with status := 0 } := ⟨_, rfl⟩
  rw [← hf]
  have haddr : ∀ i, ((s.setDescr (s.returned.length % ndesc) f).descs i).addr = (s.descs i).addr :=
    fun i => setDescr_keeps RxDescr.addr fun d => by rw [hf]
  have hlen : ∀ i,
      ((s.setDescr (s.returned.length % ndesc) f).descs i).length = (s.descs i).length :=
    fun i => setDescr_keeps RxDescr.length fun d => by rw [hf]
  have hother : ∀ k, s.returned.length < k → k < s.returned.length + ndesc →
      (s.setDescr (s.returned.length % ndesc) f).descs (k % ndesc) = s.descs (k % ndesc) :=
    fun k hk hk' => update_of_ne (RingHolds.mod_ne_mod hk hk').symm ..
  have hroom := h.room
  refine ⟨h.rdt, fun i hi => (haddr i).trans (h.addr i hi), Nat.le_succ _, hlt, h.room, ?_, ?_, ?_,
    h.order, ?_⟩
  · intro k hk hk'
    rw [hother k hk (by exact hk'.trans h.room)]
    exact h.dd k (Nat.le_of_succ_le hk) hk'
  · intro k hk hk'
    by_cases hlast : k < s.returned.length + ndesc
    · rw [hother k (lt_of_lt_of_le hlt hk) hlast]
      exact h.clear k hk hlast
    · have heq : k = s.returned.length + ndesc := by omega
      rw [heq, Nat.add_mod_right]
      show (update s.descs _ _ _).status &&& _ = 0
      rw [update_self, hf]
      exact BitVec.zero_and
  · intro k p hk hp
    obtain ⟨hheld, hmax⟩ := h.held k p hk hp
    exact ⟨hheld.congr rfl (hlen _) (haddr _), hmax⟩
  · exact h.card.driver rfl rfl le_rfl haddr hlen

end

theorem Good.storeRdt (h : Good pages s (s.returned.length + 1)) (hcopied : s.Copied c len len) :
    Inv pages ({ s with rdt := toWord (s.returned.length % ndesc) }.ret c.buf len) := by
  have hret := returned_ret (s := { s with rdt := toWord (s.returned.length % ndesc) })
    c.buf len
  obtain ⟨p, hp, hlen, -, hbuf⟩ := hcopied
  have hpacket : (List.range len).map c.buf = p := by
    refine List.ext_getElem? fun j => ?_
    by_cases hj : j < len
    · have hj' : j < p.length := hlen ▸ hj
      rw [List.getElem?_map, List.getElem?_range hj, List.getElem?_eq_getElem hj']
      refine congrArg some ((hbuf j hj).trans ?_)
      rw [List.getD_eq_getElem?_getD, List.getElem?_eq_getElem hj']
      rfl
    · rw [List.getElem?_eq_none (by simpa using hj), List.getElem?_eq_none (by omega)]
  rw [hpacket] at hret
  generalize hs' : { s with rdt := toWord (s.returned.length % ndesc) }.ret c.buf len =
    s' at *
  have hret := hret
  have hlength : s'.returned.length = s.returned.length + 1 := by
    rw [hret, List.length_append]
    rfl
  have hdescs : s'.descs = s.descs := by rw [← hs']; rfl
  have hbufs : s'.bufs = s.bufs := by rw [← hs']; rfl
  have hdev : s'.dev = s.dev := by rw [← hs']; rfl
  have hcall : s'.call = none := by rw [← hs']; rfl
  have hrdt : s'.rdt = toWord (s.returned.length % ndesc) := by rw [← hs']; rfl
  have hholds : ∀ i q, s.Holds i q → s'.Holds i q :=
    fun i q hq => hq.congr hbufs (by rw [hdescs]) (by rw [hdescs])
  have hcl : s'.cleared = s.returned.length + 1 := by
    unfold cleared
    rw [hcall, hlength]
    rfl
  have hroom := h.room
  refine ⟨?_, fun c hc => by rw [hcall] at hc; cases hc⟩
  rw [hcl]
  refine ⟨?_, ?_, ?_, ?_, ?_, ?_, ?_, ?_, ?_, ?_⟩
  · rw [hrdt, hlength]
    unfold ndesc
    congr 1
    omega
  · rw [hdescs]
    exact h.addr
  · rw [hlength]
  · rw [hdev]
    exact h.cleared_le
  · rw [hdev, hlength]
    omega
  · rw [hdev, hdescs]
    exact h.dd
  · rw [hdev, hdescs]
    exact h.clear
  · intro k q hk hq
    rw [hlength] at hk
    rw [hdev] at hq
    obtain ⟨hheld, hmax⟩ := h.held k q (Nat.le_of_succ_le hk) hq
    exact ⟨hholds _ _ hheld, hmax⟩
  · rw [hlength, hret, hdev, List.take_add_one, hp, ← h.order]
    rfl
  · rw [hdev]
    refine h.card.driver hdev hbufs (by omega) (fun _ => ?_) fun _ => ?_
    · rw [hdescs]
    · rw [hdescs]

theorem Inv.init (pages : RxPages) : Inv pages (init pages.pptrs) where
  good := Good.init pages
  call c hc := by cases hc

theorem inUse_run_card {moves : List RxMove} (hm : ∀ m ∈ moves, m.byDriver = false) :
    (s.run moves).call = s.call := by
  induction moves generalizing s with
  | nil => rfl
  | cons m moves ih =>
    refine (ih fun m' hm' => hm m' (mem_cons_of_mem _ hm')).trans ?_
    have hcard := hm m mem_cons_self
    cases m with
    | begin buf => cases hcard
    | driver => cases hcard
    | arrive p => exact (arrive_card p).call
    | card => exact stepCard_card.call

section

variable (h : Inv pages s)

include h

theorem Inv.stepCall (hc : s.call = some c) : Inv pages (s.stepCall c) := by
  have hp := h.call c hc
  have hgood := h.good
  have hcl : s.cleared = s.returned.length + clears c.pc := by
    unfold cleared
    rw [hc]
    rfl
  rw [hcl] at hgood
  unfold RxRing.stepCall
  cases hpc : c.pc with
  | loadRdt =>
    rw [hpc] at hgood
    exact Inv.goto hgood hgood.next_slot
  | testDd rdt =>
    rw [hpc] at hp hgood
    have hp := hp
    have hgood := hgood
    dsimp only
    split
    · exact Inv.ret_error hgood (by decide)
    · next hdd =>
      rw [hp] at hdd
      exact Inv.goto hgood ⟨hp, hgood.dd_iff.mp hdd⟩
  | loadLength rdt =>
    rw [hpc] at hp hgood
    obtain ⟨hrdt, hlt⟩ := hp
    obtain ⟨p, hget⟩ : ∃ p, s.dev.stored[s.returned.length]? = some p :=
      ⟨_, List.getElem?_eq_getElem hlt⟩
    obtain ⟨⟨hlen, -⟩, hmax⟩ := hgood.held _ p le_rfl hget
    refine Inv.goto hgood ⟨hrdt, p, hget, ?_, Nat.zero_le _, fun j hj => absurd hj
      (Nat.not_lt_zero j)⟩
    rw [hrdt, hlen, Nat.min_eq_left hmax]
  | copy rdt len k =>
    rw [hpc] at hp hgood
    obtain ⟨hrdt, p, hget, hlen, hk, hbuf⟩ := hp
    obtain ⟨⟨-, hbytes⟩, -⟩ := hgood.held _ p le_rfl hget
    dsimp only
    split
    · next hlt =>
      refine Inv.goto hgood ⟨hrdt, p, hget, hlen, hlt, fun j hj => ?_⟩
      show update c.buf k _ j = p.getD j 0
      by_cases hjk : j = k
      · subst hjk
        rw [update_self, hrdt]
        exact hbytes j (hlen.symm ▸ hlt)
      · rw [update_of_ne hjk]
        exact hbuf j (by omega)
    · next hge =>
      have heq : k = len := by omega
      exact Inv.goto hgood ⟨hrdt, p, hget, hlen, le_rfl, heq ▸ hbuf⟩
  | storeStatus rdt len =>
    rw [hpc] at hp hgood
    obtain ⟨rfl, hcopied⟩ := hp
    exact Inv.goto (hgood.storeStatus hcopied.lt) ⟨rfl, hcopied⟩
  | storeRdt rdt len =>
    rw [hpc] at hp hgood
    obtain ⟨rfl, hcopied⟩ := hp
    exact hgood.storeRdt hcopied

theorem Inv.beginRx (buf : Option Image) : Inv pages (s.beginRx buf) := by
  have hgood := h.good
  unfold RxRing.beginRx
  split
  · exact h
  · next hc =>
    unfold cleared at hgood
    rw [hc] at hgood
    exact Inv.ret_error hgood (by decide)
  · next hc =>
    unfold cleared at hgood
    rw [hc] at hgood
    refine ⟨hgood.withCall _, ?_⟩
    intro c' hc'
    cases Option.some.inj hc'
    trivial

theorem Inv.move (m : RxMove) : Inv pages (s.move m) := by
  cases m with
  | begin buf => exact h.beginRx buf
  | driver =>
    unfold RxRing.move
    dsimp only
    split
    · exact h
    · next hc => exact h.stepCall hc
  | arrive p => exact h.card (h.good.arrive p) (arrive_card p)
  | card => exact h.card h.good.stepCard stepCard_card

theorem Inv.run (moves : List RxMove) : Inv pages (s.run moves) := by
  induction moves generalizing s with
  | nil => exact h
  | cons m moves ih => exact ih (h.move m)

theorem Inv.inUse_ne_writing (hi : s.inUse = some i) : s.writing ≠ some i := by
  have hnext : i = s.returned.length % ndesc ∧ s.returned.length < s.dev.stored.length := by
    unfold inUse at hi
    cases hc : s.call with
    | none =>
      rw [hc] at hi
      cases hi
    | some c =>
      have hp := h.call c hc
      rw [hc] at hi
      dsimp only at hi
      cases hpc : c.pc with
      | loadRdt => rw [hpc] at hi; cases hi
      | testDd rdt => rw [hpc] at hi; cases hi
      | storeRdt rdt len => rw [hpc] at hi; cases hi
      | loadLength rdt =>
        rw [hpc] at hi hp
        cases hi
        exact hp
      | copy rdt len k =>
        rw [hpc] at hi hp
        cases hi
        exact ⟨hp.1, hp.2.lt⟩
      | storeStatus rdt len =>
        rw [hpc] at hi hp
        cases hi
        exact ⟨hp.1, hp.2.lt⟩
  obtain ⟨rfl, hlt⟩ := hnext
  have hcard := h.good.card
  have hne : ∀ {q : Prop}, s.dev.stored.length = s.dev.advanced ∧
      s.dev.stored.length + 1 < s.returned.length + ndesc ∧ q →
      some (s.dev.advanced % ndesc) ≠ some (s.returned.length % ndesc) := by
    rintro q ⟨hstored, hroom, -⟩ heq
    rw [← hstored] at heq
    exact next_ne hroom le_rfl hlt (Option.some.inj heq).symm
  unfold writing
  cases hpc : s.dev.pc with
  | idle => nofun
  | advance => nofun
  | write q k =>
    rw [hpc] at hcard
    exact hne hcard
  | setLength q =>
    rw [hpc] at hcard
    exact hne hcard
  | setDd q =>
    rw [hpc] at hcard
    exact hne hcard

theorem Inv.not_mayWrite (hi : s.inUse = some i) : ¬s.MayWrite i := by
  rintro ⟨moves, hm, hw⟩
  refine (h.run moves).inUse_ne_writing ?_ hw
  unfold inUse
  rw [inUse_run_card hm]
  exact hi

theorem Inv.good_of_clears (hc : s.call = some c) (hcl : clears c.pc = 0) :
    Good pages s s.returned.length := by
  have hgood := h.good
  unfold cleared at hgood
  rw [hc, Option.elim_some, hcl] at hgood
  exact hgood

theorem Inv.again {d : RxDone} (hd : (s.move .driver).done = s.done ++ [d])
    (hr : d.result = -eAgain) : s.returned = s.dev.stored := by
  have hsame : s.done ≠ s.done ++ [d] := by
    intro heq
    have := congrArg List.length heq
    rw [length_append] at this
    exact absurd this (by simp)
  unfold RxRing.move at hd
  cases hc : s.call with
  | none =>
    rw [hc] at hd
    exact absurd hd hsame
  | some c =>
    have hp := h.call c hc
    rw [hc] at hd
    dsimp only at hd
    unfold RxRing.stepCall at hd
    cases hpc : c.pc with
    | loadRdt => rw [hpc] at hd; exact absurd hd hsame
    | loadLength rdt => rw [hpc] at hd; exact absurd hd hsame
    | storeStatus rdt len => rw [hpc] at hd; exact absurd hd hsame
    | copy rdt len k =>
      rw [hpc] at hd
      dsimp only at hd
      split at hd
      · exact absurd hd hsame
      · exact absurd hd hsame
    | storeRdt rdt len =>
      rw [hpc] at hd
      have hd := append_cancel_left hd
      cases hd
      have : (len : Int) = -eAgain := hr
      have : (0 : Int) ≤ -eAgain := by omega
      exact absurd this (by decide)
    | testDd rdt =>
      rw [hpc] at hd hp
      have hp := hp
      have hgood := h.good_of_clears hc (by rw [hpc]; rfl)
      dsimp only at hd
      split at hd
      · next hdd =>
        rw [hp] at hdd
        have hge := mt hgood.dd_iff.mpr (not_not.mpr hdd)
        rw [hgood.order, take_of_length_le (by omega)]
      · exact absurd hd hsame

end

/-- A bound on the steps that a call has still to take. -/
def left : RxPc → Nat
  | .loadRdt => maxPacket + 6
  | .testDd _ => maxPacket + 5
  | .loadLength _ => maxPacket + 4
  | .copy _ len k => len - k + 3
  | .storeStatus _ _ => 2
  | .storeRdt _ _ => 1

/-- While there is a packet, a step brings the call nearer to its end or returns the packet. -/
theorem Inv.progress (h : Inv pages s) (hc : s.call = some c)
    (hmore : s.returned.length < s.dev.stored.length) :
    (s.stepCall c).dev = s.dev ∧ ((∃ c', (s.stepCall c).call = some c' ∧ left c'.pc < left c.pc ∧
          (s.stepCall c).returned.length = s.returned.length) ∨
        (s.stepCall c).returned.length = s.returned.length + 1) := by
  have hp := h.call c hc
  unfold RxRing.stepCall
  cases hpc : c.pc with
  | loadRdt => exact ⟨rfl, .inl ⟨_, rfl, Nat.lt_succ_self _, rfl⟩⟩
  | testDd rdt =>
    rw [hpc] at hp
    have hp := hp
    have hgood := h.good_of_clears hc (by rw [hpc]; rfl)
    have hdd := hgood.dd_iff.mpr hmore
    rw [← hp] at hdd
    dsimp only
    rw [if_neg hdd]
    exact ⟨rfl, .inl ⟨_, rfl, Nat.lt_succ_self _, rfl⟩⟩
  | loadLength rdt =>
    refine ⟨rfl, .inl ⟨_, rfl, ?_, rfl⟩⟩
    show min _ maxPacket - 0 + 3 < maxPacket + 4
    omega
  | copy rdt len k =>
    dsimp only
    split
    · refine ⟨rfl, .inl ⟨_, rfl, ?_, rfl⟩⟩
      show len - (k + 1) + 3 < len - k + 3
      omega
    · refine ⟨rfl, .inl ⟨_, rfl, ?_, rfl⟩⟩
      show 2 < len - k + 3
      omega
  | storeStatus rdt len => exact ⟨rfl, .inl ⟨_, rfl, Nat.lt_succ_self _, rfl⟩⟩
  | storeRdt rdt len =>
    refine ⟨rfl, .inr ?_⟩
    dsimp only
    rw [returned_ret, List.length_append]
    rfl

theorem Inv.finish (h : Inv pages s) (hc : s.call = some c)
    (hmore : s.returned.length < s.dev.stored.length) :
    ∃ k, (s.run (List.replicate k .driver)).dev = s.dev ∧
      (s.run (List.replicate k .driver)).returned.length = s.returned.length + 1 := by
  induction hn : left c.pc using Nat.strongRecOn generalizing s c with
  | ind n ih =>
    have hmove : s.move .driver = s.stepCall c := by
      unfold RxRing.move
      rw [hc]
    obtain ⟨hdev, hstep⟩ := h.progress hc hmore
    rcases hstep with ⟨c', hc', hlt, hret⟩ | hret
    · obtain ⟨k, hk⟩ := ih (left c'.pc) (hn ▸ hlt) (h.stepCall hc) hc'
        (by rw [hdev, hret]; exact hmore) rfl
      rw [hdev, hret] at hk
      refine ⟨k + 1, ?_⟩
      rw [List.replicate_succ]
      show (RxRing.run (s.move .driver) _).dev = _ ∧
        (RxRing.run (s.move .driver) _).returned.length = _
      rw [hmove]
      exact hk
    · refine ⟨1, ?_⟩
      show (s.move .driver).dev = _ ∧ (s.move .driver).returned.length = _
      rw [hmove]
      exact ⟨hdev, hret⟩

theorem run_append (moves more : List RxMove) : s.run (moves ++ more) = (s.run moves).run more :=
  foldl_append ..

theorem Inv.drain (h : Inv pages s) :
    ∃ moves, (∀ m ∈ moves, RxMove.byDriver m = true) ∧ (s.run moves).returned = s.dev.stored := by
  induction hn : s.dev.stored.length - s.returned.length generalizing s with
  | zero =>
    refine ⟨[], fun m hm => absurd hm not_mem_nil, ?_⟩
    show s.returned = s.dev.stored
    rw [h.good.order, take_of_length_le (by omega)]
  | succ n ih =>
    have hmore : s.returned.length < s.dev.stored.length := by omega
    -- A call is going on, or one is begun.
    obtain ⟨first, hfirst, hinv, hdev, hret, c, hc⟩ : ∃ first : List RxMove,
        (∀ m ∈ first, m.byDriver = true) ∧ Inv pages (s.run first) ∧
          (s.run first).dev = s.dev ∧ (s.run first).returned = s.returned ∧
          ∃ c, (s.run first).call = some c := by
      cases hc : s.call with
      | some c => exact ⟨[], fun m hm => absurd hm not_mem_nil, h, rfl, rfl, c, hc⟩
      | none =>
        have hbegin : s.run [.begin (some fun _ => 0)] =
            { s with call := some ⟨fun _ => 0, .loadRdt⟩ } := by
          show s.beginRx _ = _
          unfold RxRing.beginRx
          rw [hc]
        refine ⟨[.begin (some fun _ => 0)], ?_, h.run _, ?_⟩
        · intro m hm
          rw [mem_singleton] at hm
          rw [hm]
          rfl
        · rw [hbegin]
          exact ⟨rfl, rfl, _, rfl⟩
    obtain ⟨k, hdev', hret'⟩ := hinv.finish hc (by rw [hdev, hret]; exact hmore)
    obtain ⟨rest, hrest, heq⟩ := ih (hinv.run (List.replicate k .driver))
      (by rw [hdev', hret', hdev, hret]; omega)
    refine ⟨first ++ (List.replicate k .driver ++ rest), ?_, ?_⟩
    · intro m hm
      rcases mem_append.mp hm with hm | hm
      · exact hfirst m hm
      · rcases mem_append.mp hm with hm | hm
        · rw [eq_of_mem_replicate hm]
          rfl
        · exact hrest m hm
    · rw [run_append, run_append, heq, hdev', hdev]

end RxRing

/-- With enough free pages `e1000_rx_init` returns, and then, in every interleaving: `e1000_rx`
returns what the card has stored, in order, and finds nothing only when all of it has been returned;
and the driver reads and clears only descriptors that the card cannot come to write. -/
theorem rx_in_order (hfree : FreePages ph l) (hlen : ndesc / 2 < l.length) (moves : List RxMove) :
    ∃ pptrs ph', e1000RxInit ph = .ret pptrs ph' ∧
    let s := (RxRing.init pptrs).run moves
    s.returned <+: s.dev.stored ∧ (∀ d, (s.move .driver).done = s.done ++ [d] → d.result = -eAgain →
        s.returned = s.dev.stored) ∧
      (∃ more, (∀ m ∈ more, RxMove.byDriver m = true) ∧ (s.run more).returned = s.dev.stored) ∧
      ∀ i, s.inUse = some i → ¬s.MayWrite i := by
  obtain ⟨pages, ph', hinit⟩ := e1000RxInit_run hfree hlen
  refine ⟨_, ph', hinit, ?_⟩
  intro s
  have h : RxRing.Inv pages s := (RxRing.Inv.init pages).run moves
  refine ⟨?_, fun d hd hr => h.again hd hr, h.drain, fun i hi => h.not_mayWrite hi⟩
  rw [h.good.order]
  exact take_prefix ..

/-- A memory of 300 pages, all but the first of them free. -/
def roomy : Phys where
  npages := 300
  npages_le := by decide
  kernPgdir := 0
  pages q := ⟨upTo 300 q, 0⟩
  pageFreeList := some 1
  userMemCheckAddr := 0
  mem _ _ := 0

theorem roomy_free : FreePages roomy (range' 1 299) where
  chain := chain_upTo (n := 300) 299 1 rfl
  nodup := nodup_range'
  lt x hx := by
    rw [mem_range'_1] at hx
    exact hx.2

theorem roomy_length : ndesc / 2 < (range' 1 299).length := by
  rw [length_range']
  decide

theorem roomy_pptrs {pptrs : List Nat} (h : e1000RxInit roomy = .ret pptrs ph) :
    pptrs = range' 2 128 := by
  have hrun := Outcome.eq_ret (a := range' 2 128) (o := e1000RxInit roomy) roomy (by decide +kernel)
  exact (Outcome.ret.inj (h.symm.trans hrun)).1

/-- The card stores a packet of two bytes. -/
def packetMoves : List RxMove := .arrive ⟨[1, 2], by decide⟩ :: replicate 6 .card

/-- The packet is stored, and then `e1000_rx` is called and returns it. -/
theorem rx_in_order_packet : ∃ pptrs ph', e1000RxInit roomy = .ret pptrs ph' ∧
    let s := (RxRing.init pptrs).run
      (packetMoves ++ .begin (some fun _ => 0) :: replicate 8 .driver)
    s.returned = [[1, 2]] ∧ s.returned <+: s.dev.stored := by
  obtain ⟨pptrs, ph', hinit, hprefix, -⟩ := rx_in_order roomy_free roomy_length
    (packetMoves ++ .begin (some fun _ => 0) :: replicate 8 .driver)
  obtain rfl := roomy_pptrs hinit
  exact ⟨_, ph', hinit, by decide +kernel, hprefix⟩

/-- In every interleaving `DD` is set for exactly the packets that are stored and not cleared. A
stored packet stands unchanged in its slot until it has been returned, and the tail counts the
packets that were. -/
theorem rx_status_exact (hfree : FreePages ph l) (hlen : ndesc / 2 < l.length)
    (moves : List RxMove) : ∃ pptrs ph', e1000RxInit ph = .ret pptrs ph' ∧
    let s := (RxRing.init pptrs).run moves
    s.rdt = toWord ((ndesc - 1 + s.returned.length) % ndesc) ∧
      s.dev.stored.length < s.returned.length + ndesc ∧
      (∀ k, s.cleared ≤ k → k < s.cleared + ndesc →
        ((s.descs (k % ndesc)).status &&& rxStatusDd ≠ 0 ↔ k < s.dev.stored.length)) ∧
      ∀ k p, s.returned.length ≤ k → s.dev.stored[k]? = some p → s.Holds (k % ndesc) p := by
  obtain ⟨pages, ph', hinit⟩ := e1000RxInit_run hfree hlen
  refine ⟨_, ph', hinit, ?_⟩
  intro s
  have h : RxRing.Good pages s s.cleared := ((RxRing.Inv.init pages).run moves).good
  refine ⟨h.rdt, h.room, fun k hk hlt => ⟨fun hdd => ?_, h.dd k hk⟩,
    fun k p hk hp => (h.held k p hk hp).1⟩
  by_contra hle
  exact hdd (h.clear k (not_lt.mp hle) hlt)

/-- The packet is stored and not yet returned: it stands in the first slot. -/
theorem rx_status_exact_packet : ∃ pptrs ph', e1000RxInit roomy = .ret pptrs ph' ∧
    ((RxRing.init pptrs).run packetMoves).Holds 0 [1, 2] := by
  obtain ⟨pptrs, ph', hinit, -, -, -, hheld⟩ :=
    rx_status_exact roomy_free roomy_length packetMoves
  obtain rfl := roomy_pptrs hinit
  exact ⟨_, ph', hinit, hheld 0 [1, 2] (by decide +kernel) (by decide +kernel)⟩

end Jos
