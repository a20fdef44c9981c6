import Jos.Kern.E1000
import Jos.Logic.Ring

/-!
# The transmit ring sends every accepted packet once

Packet number `k` is in slot `k % N`, in flight until the card has set `DD` for it. Two packets in
flight are in different slots. The driver writes to the slot of the next number only, after it has
found `DD` set there: the slot holds no packet in flight.
-/

namespace Jos

open Logic BitVec List

variable {s s' : TxRing} {c : TxCall} {k i j : Nat} {tdt : Word} {f : TxDescr → TxDescr} {r : Int}

namespace TxRing

/-- The packet has been accepted, and the card has not yet set `DD` for it. -/
def InFlight (s : TxRing) (k : Nat) : Prop :=
  (s.dev.sent ≤ k ∧ k < s.accepted.length) ∨ k ∈ s.dev.writeBack

/-- The invariant of ring and card. -/
structure Good (s : TxRing) : Prop where
  tdt : s.tdt = toWord (s.accepted.length % ndesc)
  addr : ∀ i < ndesc, (s.descs i).addr = i * txBufSize
  sent_le : s.dev.sent ≤ s.dev.fetched
  fetched_le : s.dev.fetched ≤ s.accepted.length
  advanced_le : s.dev.advanced ≤ s.dev.fetched
  room : s.accepted.length < s.dev.advanced + ndesc
  window : ∀ k, s.InFlight k → k < s.accepted.length ∧ s.accepted.length ≤ k + ndesc
  clear : ∀ k, s.InFlight k → (s.descs (k % ndesc)).status &&& txStatusDd = 0
  nodup : s.dev.writeBack.Nodup
  old : ∀ k ∈ s.dev.writeBack, k < s.dev.sent
  held : ∀ k p, s.dev.sent ≤ k → s.accepted[k]? = some p →
    s.bytesAt (k % ndesc) = p ∧ p.length ≤ maxPacket
  wire : s.dev.wire = s.accepted.take s.dev.sent

theorem Good.init : Good init where
  tdt := rfl
  addr _ _ := rfl
  sent_le := le_rfl
  fetched_le := le_rfl
  advanced_le := le_rfl
  room := by decide
  window k h := by
    rcases h with h | h
    · exact absurd h.2 (Nat.not_lt_zero k)
    · exact absurd h List.not_mem_nil
  clear k h := by
    rcases h with h | h
    · exact absurd h.2 (Nat.not_lt_zero k)
    · exact absurd h List.not_mem_nil
  nodup := List.nodup_nil
  old k h := absurd h List.not_mem_nil
  held k p _ h := by cases h
  wire := rfl

theorem Good.slot_ne (h : s.Good) (hi : s.InFlight i) (hj : s.InFlight j) (hne : i ≠ j) :
    i % ndesc ≠ j % ndesc := by
  obtain ⟨hi1, hi2⟩ := h.window i hi
  obtain ⟨hj1, hj2⟩ := h.window j hj
  rcases lt_or_gt_of_ne hne with hlt | hlt
  · exact RingHolds.mod_ne_mod hlt (by omega)
  · exact (RingHolds.mod_ne_mod hlt (by omega)).symm

theorem tdh_toNat (s : TxRing) : s.tdh.toNat = s.dev.advanced % ndesc := by
  have := Nat.mod_lt s.dev.advanced ndesc_pos
  unfold tdh ndesc at *
  rw [toNat_ofNat]
  omega

theorem Good.tdt_toNat (h : s.Good) : s.tdt.toNat = s.accepted.length % ndesc := by
  have := Nat.mod_lt s.accepted.length ndesc_pos
  rw [h.tdt]
  unfold ndesc at *
  rw [toNat_ofNat]
  omega

theorem Good.tdh_eq_iff (h : s.Good) : s.tdh = s.tdt ↔ s.dev.advanced = s.accepted.length := by
  have h1 := h.advanced_le
  have h2 := h.fetched_le
  have h3 := h.room
  rw [← toNat_inj, tdh_toNat, h.tdt_toNat]
  constructor
  · intro heq
    by_contra hne
    exact RingHolds.mod_ne_mod (n := ndesc) (show s.dev.advanced < s.accepted.length by omega)
      (by omega) heq
  · intro heq
    rw [heq]

theorem Good.fetch (h : s.Good) : s.fetch.Good := by
  unfold TxRing.fetch
  split
  · next hc =>
    have hlt : s.dev.advanced < s.accepted.length := by
      have h1 := h.advanced_le
      have h2 := h.fetched_le
      have := mt h.tdh_eq_iff.mpr hc.1
      omega
    refine { h with
      sent_le := h.sent_le.trans (Nat.le_succ _)
      fetched_le := ?_
      advanced_le := h.advanced_le.trans (Nat.le_succ _) }
    show s.dev.fetched + 1 ≤ s.accepted.length
    omega
  · exact h

theorem Good.advance (h : s.Good) : s.advance.Good := by
  unfold TxRing.advance
  split
  · next hc =>
    refine { h with advanced_le := hc, room := ?_ }
    show s.accepted.length < s.dev.advanced + 1 + ndesc
    have := h.room
    omega
  · exact h

theorem inFlight_transmit (hlt : s.dev.sent < s.dev.fetched)
    (hle : s.dev.fetched ≤ s.accepted.length) (hk : s.transmit.InFlight k) : s.InFlight k := by
  unfold TxRing.transmit at hk
  rw [if_pos hlt] at hk
  rcases hk with h | h
  · exact .inl ⟨Nat.le_of_succ_le h.1, h.2⟩
  · rcases List.mem_cons.mp h with rfl | h
    · exact .inl ⟨le_rfl, hlt.trans_le hle⟩
    · exact .inr h

theorem Good.transmit (h : s.Good) : s.transmit.Good := by
  by_cases hlt : s.dev.sent < s.dev.fetched
  · have hin : ∀ k, s.transmit.InFlight k → s.InFlight k :=
      fun k => inFlight_transmit hlt h.fetched_le
    have hs : s.transmit = { s with dev := { s.dev with
        sent := s.dev.sent + 1
        writeBack := s.dev.sent :: s.dev.writeBack
        wire := s.dev.wire ++ [s.bytesAt (s.dev.sent % ndesc)] } } := if_pos hlt
    have hacc : s.dev.sent < s.accepted.length := lt_of_lt_of_le hlt h.fetched_le
    have hwindow : ∀ k, s.transmit.InFlight k → k < s.accepted.length ∧
        s.accepted.length ≤ k + ndesc := fun k hk => h.window k (hin k hk)
    have hclear : ∀ k, s.transmit.InFlight k →
        (s.descs (k % ndesc)).status &&& txStatusDd = 0 := fun k hk => h.clear k (hin k hk)
    rw [hs] at hwindow hclear ⊢
    refine { h with
      sent_le := hlt
      window := hwindow
      clear := hclear
      nodup := ?_
      old := ?_
      held := fun k p hk => h.held k p ((Nat.le_succ _).trans hk)
      wire := ?_ }
    · refine List.nodup_cons.mpr ⟨fun hm => ?_, h.nodup⟩
      exact absurd (h.old _ hm) (Nat.lt_irrefl _)
    · intro k hk
      rcases List.mem_cons.mp hk with rfl | hk
      · exact Nat.lt_succ_self _
      · exact (h.old k hk).trans (Nat.lt_succ_self _)
    · show s.dev.wire ++ [s.bytesAt (s.dev.sent % ndesc)] = s.accepted.take (s.dev.sent + 1)
      have hbytes := (h.held s.dev.sent _ le_rfl (List.getElem?_eq_getElem hacc)).1
      rw [h.wire, hbytes, List.take_add_one, List.getElem?_eq_getElem hacc]
      rfl
  · have hs : s.transmit = s := if_neg hlt
    rw [hs]
    exact h

theorem inFlight_setDd (h : s.Good) (hk : k ∈ s.dev.writeBack) (hj : (s.setDd k).InFlight j) :
    s.InFlight j ∧ j ≠ k := by
  unfold TxRing.setDd at hj
  rw [if_pos hk] at hj
  rcases hj with hj | hj
  · exact ⟨.inl hj, ((h.old k hk).trans_le hj.1).ne'⟩
  · obtain ⟨hne, hj⟩ := h.nodup.mem_erase_iff.mp hj
    exact ⟨.inr hj, hne⟩

theorem descs_setDd (hk : k ∈ s.dev.writeBack) (hi : i ≠ k % ndesc) :
    (s.setDd k).descs i = s.descs i := by
  unfold TxRing.setDd
  rw [if_pos hk]
  exact Function.update_of_ne hi ..

theorem descs_setDd_fields (k i : Nat) : ((s.setDd k).descs i).addr = (s.descs i).addr ∧
    ((s.setDd k).descs i).length = (s.descs i).length := by
  unfold TxRing.setDd
  split
  · by_cases hi : i = k % ndesc
    · subst hi
      simp [TxRing.setDescr]
    · simp [TxRing.setDescr, hi]
  · exact ⟨rfl, rfl⟩

theorem bytesAt_setDd (k i : Nat) : (s.setDd k).bytesAt i = s.bytesAt i := by
  obtain ⟨haddr, hlen⟩ := descs_setDd_fields (s := s) k i
  have hbufs : (s.setDd k).bufs = s.bufs := by
    unfold TxRing.setDd
    split <;> rfl
  unfold TxRing.bytesAt
  rw [haddr, hlen, hbufs]

theorem Good.setDd (h : s.Good) (k : Nat) : (s.setDd k).Good := by
  by_cases hk : k ∈ s.dev.writeBack
  · have hin : ∀ j, (s.setDd k).InFlight j → s.InFlight j ∧ j ≠ k := fun j => inFlight_setDd h hk
    have hs : s.setDd k = { s.setDescr (k % ndesc) fun d =>
        { d with status := d.status ||| txStatusDd } with
          dev := { s.dev with writeBack := s.dev.writeBack.erase k } } := if_pos hk
    have hwindow : ∀ j, (s.setDd k).InFlight j → j < s.accepted.length ∧
        s.accepted.length ≤ j + ndesc := fun j hj => h.window j (hin j hj).1
    have hclear : ∀ j, (s.setDd k).InFlight j →
        ((s.setDd k).descs (j % ndesc)).status &&& txStatusDd = 0 := by
      intro j hj
      obtain ⟨hj, hne⟩ := hin j hj
      rw [descs_setDd hk (h.slot_ne hj (.inr hk) hne)]
      exact h.clear j hj
    have haddr : ∀ i < ndesc, ((s.setDd k).descs i).addr = i * txBufSize :=
      fun i hi => (descs_setDd_fields k i).1.trans (h.addr i hi)
    have hheld : ∀ j p, s.dev.sent ≤ j → s.accepted[j]? = some p →
        (s.setDd k).bytesAt (j % ndesc) = p ∧ p.length ≤ maxPacket := by
      intro j p hj hp
      rw [bytesAt_setDd]
      exact h.held j p hj hp
    rw [hs] at hwindow hclear haddr hheld ⊢
    exact { h with
      addr := haddr
      window := hwindow
      clear := hclear
      nodup := h.nodup.erase k
      old := fun j hj => h.old j (mem_of_mem_erase hj)
      held := hheld }
  · have hs : s.setDd k = s := if_neg hk
    rw [hs]
    exact h

/-- The slot of the next packet is the driver's. -/
structure Owns (s : TxRing) (tdt : Word) : Prop where
  tdt : tdt = s.tdt
  room : s.accepted.length + 1 < s.dev.advanced + ndesc
  free : ∀ k, s.InFlight k → k % ndesc ≠ s.accepted.length % ndesc

/-- The first `n` bytes of the buffer of the next packet are those of the caller. -/
def Filled (s : TxRing) (c : TxCall) (n : Nat) : Prop :=
  ∀ j < n, s.bufs ((s.descs (s.accepted.length % ndesc)).addr + j) = c.buf j

/-- The descriptor of the next packet has what the caller has passed. -/
def Ready (s : TxRing) (c : TxCall) : Prop :=
  s.bytesAt (s.accepted.length % ndesc) = packet c.buf c.len

/-- What a call knows at each place. -/
def PcOk (s : TxRing) (c : TxCall) : TxPc → Prop
  | .loadTdt => c.stores = 0
  | .loadTdh tdt => c.stores = 0 ∧ tdt = s.tdt
  | .testDd tdt =>
    c.stores = 0 ∧ tdt = s.tdt ∧ s.accepted.length + 1 < s.dev.advanced + ndesc
  | .copy tdt k => s.Owns tdt ∧ k ≤ c.len.toNat ∧ s.Filled c k
  | .storeLength tdt => s.Owns tdt ∧ s.Filled c c.len.toNat
  | .loadCmd tdt => s.Owns tdt ∧ s.Ready c
  | .storeCmd tdt _ => s.Owns tdt ∧ s.Ready c
  | .loadStatus tdt => s.Owns tdt ∧ s.Ready c
  | .storeStatus tdt _ => s.Owns tdt ∧ s.Ready c
  | .storeTdt tdt => s.Owns tdt ∧ s.Ready c ∧
    (s.descs (s.accepted.length % ndesc)).status &&& txStatusDd = 0

/-- What the card does to what the driver knows: packets may cease to be in flight, and the
descriptor of a slot without a packet in flight stays as it is. -/
structure CardStep (s s' : TxRing) : Prop where
  tdt : s'.tdt = s.tdt
  bufs : s'.bufs = s.bufs
  done : s'.done = s.done
  advanced : s.dev.advanced ≤ s'.dev.advanced
  inFlight : ∀ k, s'.InFlight k → s.InFlight k
  descs : ∀ i, (∀ k, s.InFlight k → k % ndesc ≠ i) → s'.descs i = s.descs i

theorem CardStep.accepted (h : CardStep s s') : s'.accepted = s.accepted := by
  unfold TxRing.accepted
  rw [h.done]

theorem Owns.card (ho : s.Owns tdt) (h : CardStep s s') : s'.Owns tdt where
  tdt := ho.tdt.trans h.tdt.symm
  room := by
    have h1 := ho.room
    have h2 := h.advanced
    rw [h.accepted]
    omega
  free k hk := by
    rw [h.accepted]
    exact ho.free k (h.inFlight k hk)

theorem PcOk.card {pc : TxPc} (hp : s.PcOk c pc) (h : CardStep s s') : s'.PcOk c pc := by
  have hacc := h.accepted
  have hroom : s.accepted.length + 1 < s.dev.advanced + ndesc →
      s'.accepted.length + 1 < s'.dev.advanced + ndesc := by
    have := h.advanced
    rw [hacc]
    omega
  have hslot : ∀ {tdt}, s.Owns tdt →
      s'.descs (s'.accepted.length % ndesc) = s.descs (s.accepted.length % ndesc) := by
    intro tdt ho
    rw [hacc]
    exact h.descs _ ho.free
  have hfilled : ∀ {tdt n}, s.Owns tdt → s.Filled c n → s'.Filled c n := by
    intro tdt n ho hf
    unfold TxRing.Filled
    rw [hslot ho, h.bufs]
    exact hf
  have hready : ∀ {tdt}, s.Owns tdt → s.Ready c → s'.Ready c := by
    intro tdt ho hr
    unfold TxRing.Ready TxRing.bytesAt
    rw [hslot ho, h.bufs]
    exact hr
  cases pc with
  | loadTdt => exact hp
  | loadTdh tdt => exact ⟨hp.1, hp.2.trans h.tdt.symm⟩
  | testDd tdt => exact ⟨hp.1, hp.2.1.trans h.tdt.symm, hroom hp.2.2⟩
  | copy tdt k => exact ⟨hp.1.card h, hp.2.1, hfilled hp.1 hp.2.2⟩
  | storeLength tdt => exact ⟨hp.1.card h, hfilled hp.1 hp.2⟩
  | loadCmd tdt => exact ⟨hp.1.card h, hready hp.1 hp.2⟩
  | storeCmd tdt cmd => exact ⟨hp.1.card h, hready hp.1 hp.2⟩
  | loadStatus tdt => exact ⟨hp.1.card h, hready hp.1 hp.2⟩
  | storeStatus tdt status => exact ⟨hp.1.card h, hready hp.1 hp.2⟩
  | storeTdt tdt =>
    refine ⟨hp.1.card h, hready hp.1 hp.2.1, ?_⟩
    rw [hslot hp.1]
    exact hp.2.2

theorem fetch_card (s : TxRing) : CardStep s s.fetch := by
  unfold TxRing.fetch
  split
  · exact ⟨rfl, rfl, rfl, le_rfl, fun _ h => h, fun _ _ => rfl⟩
  · exact ⟨rfl, rfl, rfl, le_rfl, fun _ h => h, fun _ _ => rfl⟩

theorem advance_card (s : TxRing) : CardStep s s.advance := by
  unfold TxRing.advance
  split
  · exact ⟨rfl, rfl, rfl, Nat.le_succ _, fun _ h => h, fun _ _ => rfl⟩
  · exact ⟨rfl, rfl, rfl, le_rfl, fun _ h => h, fun _ _ => rfl⟩

theorem Good.transmit_card (h : s.Good) : CardStep s s.transmit := by
  by_cases hlt : s.dev.sent < s.dev.fetched
  · have hin : ∀ k, s.transmit.InFlight k → s.InFlight k :=
      fun k => inFlight_transmit hlt h.fetched_le
    unfold TxRing.transmit at hin ⊢
    rw [if_pos hlt] at hin ⊢
    exact ⟨rfl, rfl, rfl, le_rfl, hin, fun _ _ => rfl⟩
  · unfold TxRing.transmit
    rw [if_neg hlt]
    exact ⟨rfl, rfl, rfl, le_rfl, fun _ h => h, fun _ _ => rfl⟩

theorem Good.setDd_card (h : s.Good) (k : Nat) : CardStep s (s.setDd k) := by
  by_cases hk : k ∈ s.dev.writeBack
  · have hin : ∀ j, (s.setDd k).InFlight j → s.InFlight j := fun j hj => (inFlight_setDd h hk hj).1
    have hdescs : ∀ i, (∀ j, s.InFlight j → j % ndesc ≠ i) → (s.setDd k).descs i = s.descs i :=
      fun i hi => descs_setDd hk (hi k (.inr hk)).symm
    unfold TxRing.setDd at hin hdescs ⊢
    rw [if_pos hk] at hin hdescs ⊢
    exact ⟨rfl, rfl, rfl, le_rfl, hin, hdescs⟩
  · unfold TxRing.setDd
    rw [if_neg hk]
    exact ⟨rfl, rfl, rfl, le_rfl, fun _ h => h, fun _ _ => rfl⟩

theorem Good.frame (h : s.Good) (htdt : s'.tdt = s.tdt) (hdev : s'.dev = s.dev)
    (hacc : s'.accepted = s.accepted)
    (haddr : ∀ i, (s'.descs i).addr = (s.descs i).addr)
    (hstatus : ∀ k, s.InFlight k → (s'.descs (k % ndesc)).status = (s.descs (k % ndesc)).status)
    (hbytes : ∀ k, s.InFlight k → (s.bytesAt (k % ndesc)).length ≤ maxPacket →
      s'.bytesAt (k % ndesc) = s.bytesAt (k % ndesc)) : s'.Good := by
  have hin : ∀ k, s'.InFlight k ↔ s.InFlight k := by
    intro k
    unfold InFlight
    rw [hdev, hacc]
  constructor
  · rw [htdt, hacc]
    exact h.tdt
  · exact fun i hi => (haddr i).trans (h.addr i hi)
  · rw [hdev]
    exact h.sent_le
  · rw [hdev, hacc]
    exact h.fetched_le
  · rw [hdev]
    exact h.advanced_le
  · rw [hdev, hacc]
    exact h.room
  · intro k hk
    rw [hacc]
    exact h.window k ((hin k).mp hk)
  · intro k hk
    rw [hstatus k ((hin k).mp hk)]
    exact h.clear k ((hin k).mp hk)
  · rw [hdev]
    exact h.nodup
  · rw [hdev]
    exact h.old
  · intro k p hk hp
    rw [hdev] at hk
    rw [hacc] at hp
    obtain ⟨hheld, hlen⟩ := h.held k p hk hp
    have hfl : s.InFlight k := by
      refine .inl ⟨hk, ?_⟩
      by_contra hge
      rw [List.getElem?_eq_none (Nat.le_of_not_lt hge)] at hp
      cases hp
    rw [hbytes k hfl (hheld.symm ▸ hlen)]
    exact ⟨hheld, hlen⟩
  · rw [hdev, hacc]
    exact h.wire

theorem Good.withCall (h : s.Good) (c : Option TxCall) : Good { s with call := c } :=
  h.frame rfl rfl rfl (fun _ => rfl) (fun _ _ => rfl) fun _ _ _ => rfl

theorem accepted_ret_error (hr : r < 0) : (s.ret c r).accepted = s.accepted := by
  unfold accepted TxRing.ret
  rw [filterMap_append, filterMap_cons_none, filterMap_nil, append_nil]
  exact if_neg (by show r ≠ (c.len.toNat : Int); omega)

theorem Good.ret_error (h : s.Good) (hr : r < 0) : (s.ret c r).Good :=
  h.frame rfl rfl (accepted_ret_error hr) (fun _ => rfl) (fun _ _ => rfl) fun _ _ _ => rfl

theorem Good.setDescr (h : s.Good) (ho : s.Owns tdt)
    (hf : ∀ d, (f d).addr = d.addr) : (s.setDescr (s.accepted.length % ndesc) f).Good := by
  have hsame : ∀ k, s.InFlight k →
      (s.setDescr (s.accepted.length % ndesc) f).descs (k % ndesc) = s.descs (k % ndesc) :=
    fun k hk => Function.update_of_ne (ho.free k hk) ..
  refine h.frame rfl rfl rfl (fun i => ?_) (fun k hk => by rw [hsame k hk]) fun k hk _ => ?_
  · by_cases hi : i = s.accepted.length % ndesc
    · subst hi
      simp [TxRing.setDescr, hf]
    · simp [TxRing.setDescr, hi]
  · unfold bytesAt
    rw [hsame k hk]
    rfl

theorem Good.storeByte {b : Byte} (h : s.Good) (ho : s.Owns tdt) (hk : k < maxPacket) :
    Good { s with bufs :=
      Function.update s.bufs ((s.descs (s.accepted.length % ndesc)).addr + k) b } := by
  refine h.frame rfl rfl rfl (fun _ => rfl) (fun _ _ => rfl) fun x hx hlen => ?_
  have hne := ho.free x hx
  have hx' := h.addr (x % ndesc) (Nat.mod_lt _ ndesc_pos)
  have hown := h.addr (s.accepted.length % ndesc) (Nat.mod_lt _ ndesc_pos)
  unfold bytesAt at hlen ⊢
  rw [length_map, length_range] at hlen
  refine map_congr_left fun j hj => Function.update_of_ne ?_ ..
  have hj : j < (s.descs (x % ndesc)).length.toNat := mem_range.mp hj
  rw [hx', hown]
  unfold maxPacket txBufSize at *
  omega

theorem Good.accept (h : s.Good) (ho : s.Owns tdt) (hlen : c.len.toNat ≤ maxPacket)
    (hready : s.Ready c)
    (hclear : (s.descs (s.accepted.length % ndesc)).status &&& txStatusDd = 0) :
    Good ({ s with tdt := toWord ((tdt + 1).toNat % ndesc) }.ret (stored c)
      c.len.toNat) := by
  have hacc : ({ s with tdt := toWord ((tdt + 1).toNat % ndesc) }.ret (stored c)
      c.len.toNat).accepted = s.accepted ++ [packet c.buf c.len] := by
    unfold accepted TxRing.ret
    rw [List.filterMap_append]
    simp [stored]
  generalize hs' : { s with tdt := toWord ((tdt + 1).toNat % ndesc) }.ret (stored c)
    c.len.toNat = s' at *
  have hdev : s'.dev = s.dev := by rw [← hs']; rfl
  have hdescs : s'.descs = s.descs := by rw [← hs']; rfl
  have hbytes : s'.bytesAt = s.bytesAt := by rw [← hs']; rfl
  have hlength : s'.accepted.length = s.accepted.length + 1 := by
    rw [hacc, List.length_append]
    rfl
  have hin : ∀ k, s'.InFlight k → s.InFlight k ∨ k = s.accepted.length := by
    intro k
    have h1 := h.sent_le
    have h2 := h.fetched_le
    unfold InFlight
    rw [hdev, hlength]
    rintro (hk | hk)
    · by_cases hlt : k < s.accepted.length
      · exact .inl (.inl ⟨hk.1, hlt⟩)
      · exact .inr (by omega)
    · exact .inl (.inr hk)
  constructor
  · have htdt : s'.tdt = toWord ((tdt + 1).toNat % ndesc) := by rw [← hs']; rfl
    rw [htdt, hlength, ho.tdt, BitVec.toNat_add, h.tdt_toNat]
    unfold ndesc
    congr 1
    have : (1 : Word).toNat = 1 := rfl
    omega
  · rw [hdescs]
    exact h.addr
  · rw [hdev]
    exact h.sent_le
  · rw [hdev, hlength]
    exact h.fetched_le.trans (Nat.le_succ _)
  · rw [hdev]
    exact h.advanced_le
  · rw [hdev, hlength]
    exact ho.room
  · intro k hk
    rw [hlength]
    rcases hin k hk with hk | rfl
    · obtain ⟨h1, h2⟩ := h.window k hk
      have hne : s.accepted.length ≠ k + ndesc := by
        intro hc
        apply ho.free k hk
        rw [hc, Nat.add_mod_right]
      omega
    · exact ⟨Nat.lt_succ_self _, Nat.add_le_add_left (by decide) _⟩
  · intro k hk
    rw [hdescs]
    rcases hin k hk with hk | rfl
    · exact h.clear k hk
    · exact hclear
  · rw [hdev]
    exact h.nodup
  · rw [hdev]
    exact h.old
  · intro k p hk hp
    rw [hdev] at hk
    rw [hbytes]
    rcases Nat.lt_trichotomy k s.accepted.length with hlt | rfl | hgt
    · rw [hacc, List.getElem?_append_left hlt] at hp
      exact h.held k p hk hp
    · rw [hacc, List.getElem?_concat_length] at hp
      cases hp
      refine ⟨hready, ?_⟩
      unfold packet
      rw [List.length_map, List.length_range]
      exact hlen
    · rw [List.getElem?_eq_none (by omega)] at hp
      cases hp
  · rw [hdev, hacc, h.wire, List.take_append_of_le_length (h.sent_le.trans h.fetched_le)]

/-- The invariant of a run: what holds of ring and card, of the call that is going on, and of the
calls that have returned. -/
structure Inv (s : TxRing) : Prop where
  good : s.Good
  call : ∀ c, s.call = some c → c.len.toNat ≤ maxPacket ∧ s.PcOk c c.pc
  done : ∀ d ∈ s.done, d.result < 0 → d.stores = 0

theorem Inv.goto {pc : TxPc} (h : s.Good) (hdone : ∀ d ∈ s.done, d.result < 0 → d.stores = 0)
    (hlen : c.len.toNat ≤ maxPacket) (hp : s.PcOk c pc) : (s.goto c pc).Inv := by
  refine ⟨h.withCall _, ?_, hdone⟩
  intro c' hc
  cases Option.some.inj hc
  refine ⟨hlen, ?_⟩
  have hstep : CardStep s (s.goto c pc) := ⟨rfl, rfl, rfl, le_rfl, fun _ hk => hk, fun _ _ => rfl⟩
  have hp := hp.card hstep
  cases pc <;> exact hp

theorem Inv.ret (h : (s.ret c r).Good)
    (hdone : ∀ d ∈ s.done, d.result < 0 → d.stores = 0) (hr : r < 0 → c.stores = 0) :
    (s.ret c r).Inv := by
  refine ⟨h, ?_, ?_⟩
  · intro c' hc
    cases hc
  · intro d hd
    rcases mem_append.mp hd with hd | hd
    · exact hdone d hd
    · rw [mem_singleton] at hd
      subst hd
      exact hr

theorem Owns.congr (ho : s.Owns tdt) (htdt : s'.tdt = s.tdt) (hdev : s'.dev = s.dev)
    (hdone : s'.done = s.done) : s'.Owns tdt := by
  have hacc : s'.accepted = s.accepted := by
    unfold accepted
    rw [hdone]
  refine ⟨ho.tdt.trans htdt.symm, ?_, ?_⟩
  · rw [hacc, hdev]
    exact ho.room
  · intro k hk
    rw [hacc]
    unfold InFlight at hk
    rw [hacc, hdev] at hk
    exact ho.free k hk

theorem Good.slot (h : s.Good) (htdt : tdt = s.tdt) :
    tdt.toNat % ndesc = s.accepted.length % ndesc := by
  rw [htdt, h.tdt_toNat, Nat.mod_mod]

theorem Good.room_of_ne (h : s.Good) (htdt : tdt = s.tdt)
    (hne : (tdt + 1).toNat % ndesc ≠ s.tdh.toNat) :
    s.accepted.length + 1 < s.dev.advanced + ndesc := by
  have hroom := h.room
  by_contra hfull
  apply hne
  have heq : s.accepted.length + 1 = s.dev.advanced + ndesc := by omega
  have hone : (1 : Word).toNat = 1 := rfl
  rw [tdh_toNat, htdt, toNat_add, h.tdt_toNat]
  unfold ndesc at *
  omega

theorem Good.owns (h : s.Good) (htdt : tdt = s.tdt)
    (hroom : s.accepted.length + 1 < s.dev.advanced + ndesc)
    (hdd : ¬(s.descs (tdt.toNat % ndesc)).status &&& txStatusDd = 0) : s.Owns tdt := by
  refine ⟨htdt, hroom, ?_⟩
  intro k hk heq
  apply hdd
  rw [h.slot htdt, ← heq]
  exact h.clear k hk

theorem Filled.succ (hf : s.Filled c k) :
    Filled { s with bufs :=
      Function.update s.bufs ((s.descs (s.accepted.length % ndesc)).addr + k) (c.buf k) }
      c (k + 1) := by
  intro j hj
  by_cases hjk : j = k
  · subst hjk
    exact Function.update_self ..
  · rw [← hf j (by omega)]
    refine Function.update_of_ne (fun heq => hjk ?_) ..
    exact add_left_cancel heq

theorem descs_setDescr (f : TxDescr → TxDescr) : (s.setDescr (s.accepted.length % ndesc) f).descs
      ((s.setDescr (s.accepted.length % ndesc) f).accepted.length % ndesc) =
      f (s.descs (s.accepted.length % ndesc)) :=
  Function.update_self ..

theorem Filled.ready (hf : s.Filled c c.len.toNat) (hlen : c.len.toNat ≤ maxPacket) :
    Ready (s.setDescr (s.accepted.length % ndesc) fun d =>
      { d with length := c.len.setWidth 16 }) c := by
  have hwidth : (c.len.setWidth 16).toNat = c.len.toNat := by
    rw [toNat_setWidth]
    unfold maxPacket at hlen
    omega
  unfold Ready bytesAt packet
  rw [descs_setDescr, hwidth]
  exact map_congr_left fun j hj => hf j (mem_range.mp hj)

theorem Ready.setDescr (hr : s.Ready c) (hf : ∀ d, (f d).addr = d.addr ∧ (f d).length = d.length) :
    Ready (s.setDescr (s.accepted.length % ndesc) f) c := by
  unfold Ready bytesAt at hr ⊢
  rw [descs_setDescr, (hf _).1, (hf _).2]
  exact hr

theorem and_not_and_self (x y : BitVec 8) : (x &&& ~~~y) &&& y = 0 := by
  ext i hi
  simp

theorem Inv.stepCall (h : s.Inv) (hc : s.call = some c) : (s.stepCall c).Inv := by
  obtain ⟨hlen, hp⟩ := h.call c hc
  obtain ⟨hgood, -, hdone⟩ := h
  unfold TxRing.stepCall
  cases hpc : c.pc with
  | loadTdt =>
    rw [hpc] at hp
    exact Inv.goto hgood hdone hlen ⟨hp, rfl⟩
  | loadTdh tdt =>
    rw [hpc] at hp
    dsimp only
    split
    · exact Inv.ret (hgood.ret_error (by decide)) hdone fun _ => hp.1
    · next hne => exact Inv.goto hgood hdone hlen ⟨hp.1, hp.2, hgood.room_of_ne hp.2 hne⟩
  | testDd tdt =>
    rw [hpc] at hp
    dsimp only
    split
    · exact Inv.ret (hgood.ret_error (by decide)) hdone fun _ => hp.1
    · next hdd =>
      refine Inv.goto hgood hdone hlen ⟨hgood.owns hp.2.1 hp.2.2 hdd, Nat.zero_le _, ?_⟩
      exact fun j hj => absurd hj (Nat.not_lt_zero j)
  | copy tdt k =>
    rw [hpc] at hp
    obtain ⟨ho, hk, hf⟩ := hp
    dsimp only
    split
    · next hlt =>
      rw [hgood.slot ho.tdt]
      have hgood' := hgood.storeByte (b := c.buf k) ho (lt_of_lt_of_le hlt hlen)
      exact Inv.goto hgood' hdone hlen ⟨ho.congr rfl rfl rfl, hlt, hf.succ⟩
    · next hge =>
      have heq : k = c.len.toNat := by omega
      exact Inv.goto hgood hdone hlen ⟨ho, heq ▸ hf⟩
  | storeLength tdt =>
    rw [hpc] at hp
    obtain ⟨ho, hf⟩ := hp
    dsimp only
    rw [hgood.slot ho.tdt]
    exact Inv.goto (hgood.setDescr ho fun _ => rfl) hdone hlen
      ⟨ho.congr rfl rfl rfl, hf.ready hlen⟩
  | loadCmd tdt =>
    rw [hpc] at hp
    exact Inv.goto hgood hdone hlen hp
  | storeCmd tdt cmd =>
    rw [hpc] at hp
    obtain ⟨ho, hr⟩ := hp
    dsimp only
    rw [hgood.slot ho.tdt]
    exact Inv.goto (hgood.setDescr ho fun _ => rfl) hdone hlen
      ⟨ho.congr rfl rfl rfl, hr.setDescr fun _ => ⟨rfl, rfl⟩⟩
  | loadStatus tdt =>
    rw [hpc] at hp
    exact Inv.goto hgood hdone hlen hp
  | storeStatus tdt status =>
    rw [hpc] at hp
    obtain ⟨ho, hr⟩ := hp
    dsimp only
    rw [hgood.slot ho.tdt]
    refine Inv.goto (hgood.setDescr ho fun _ => rfl) hdone hlen
      ⟨ho.congr rfl rfl rfl, hr.setDescr fun _ => ⟨rfl, rfl⟩, ?_⟩
    rw [descs_setDescr]
    exact and_not_and_self status txStatusDd
  | storeTdt tdt =>
    rw [hpc] at hp
    obtain ⟨ho, hr, hclear⟩ := hp
    exact Inv.ret (hgood.accept ho hlen hr hclear) hdone fun hneg => by omega

theorem Inv.beginTx (h : s.Inv) (buf : Nat → Byte) (len : Word) : (s.beginTx buf len).Inv := by
  unfold TxRing.beginTx
  split
  · exact h
  · split
    · exact Inv.ret (h.good.ret_error (by decide)) h.done fun _ => rfl
    · next hlen =>
      refine ⟨h.good.withCall _, ?_, h.done⟩
      intro c hc
      cases Option.some.inj hc
      exact ⟨Nat.le_of_not_lt hlen, rfl⟩

theorem Inv.card (h : s.Inv) (hgood : s'.Good) (hcall : s'.call = s.call)
    (hstep : CardStep s s') : s'.Inv := by
  refine ⟨hgood, ?_, ?_⟩
  · intro c hc
    obtain ⟨hlen, hp⟩ := h.call c (hcall ▸ hc)
    exact ⟨hlen, hp.card hstep⟩
  · rw [hstep.done]
    exact h.done

theorem Inv.move (h : s.Inv) (m : TxMove) : (s.move m).Inv := by
  cases m with
  | begin buf len => exact h.beginTx buf len
  | driver =>
    unfold TxRing.move
    dsimp only
    split
    · exact h
    · next hc => exact h.stepCall hc
  | fetch =>
    refine h.card h.good.fetch ?_ (fetch_card s)
    unfold TxRing.move TxRing.fetch
    dsimp only
    split <;> rfl
  | advance =>
    refine h.card h.good.advance ?_ (advance_card s)
    unfold TxRing.move TxRing.advance
    dsimp only
    split <;> rfl
  | transmit =>
    refine h.card h.good.transmit ?_ h.good.transmit_card
    unfold TxRing.move TxRing.transmit
    dsimp only
    split <;> rfl
  | setDd k =>
    refine h.card (h.good.setDd k) ?_ (h.good.setDd_card k)
    unfold TxRing.move TxRing.setDd
    dsimp only
    split <;> rfl

theorem Inv.init : Inv init where
  good := Good.init
  call c hc := by cases hc
  done d hd := absurd hd not_mem_nil

theorem Inv.run (h : s.Inv) (moves : List TxMove) : (s.run moves).Inv := by
  induction moves generalizing s with
  | nil => exact h
  | cons m moves ih => exact ih (h.move m)

theorem Good.drained (h : s.Good) (hd : s.Drained) : s.dev.wire = s.accepted := by
  have h1 := h.tdh_eq_iff.mp hd.1
  have h2 := h.advanced_le
  have h3 := h.fetched_le
  have h4 := hd.2
  rw [h.wire, take_of_length_le (by omega)]

end TxRing

/-- A step of the driver that changes the tail, a descriptor or a buffer is counted as a store. -/
theorem TxRing.stepCall_counts (s : TxRing) (c : TxCall) :
    let s' := s.stepCall c
    (s'.tdt = s.tdt ∧ s'.descs = s.descs ∧ s'.bufs = s.bufs) ∨
      (∃ pc, s'.call = some ⟨c.buf, c.len, pc, c.stores + 1⟩) ∨
      ∃ r, s'.done = s.done ++ [⟨c.buf, c.len, r, c.stores + 1⟩] := by
  unfold TxRing.stepCall
  cases c.pc with
  | loadTdt | loadCmd | loadStatus => exact .inl ⟨rfl, rfl, rfl⟩
  | loadTdh | testDd =>
    dsimp only
    split <;> exact .inl ⟨rfl, rfl, rfl⟩
  | copy =>
    dsimp only
    split
    · exact .inr (.inl ⟨_, rfl⟩)
    · exact .inl ⟨rfl, rfl, rfl⟩
  | storeLength | storeCmd | storeStatus => exact .inr (.inl ⟨_, rfl⟩)
  | storeTdt => exact .inr (.inr ⟨_, rfl⟩)

/-- In every interleaving, what the card has put on the wire is, in order, the beginning of what
`e1000_tx` has accepted, and all of it once the ring is drained; and a call that failed has stored
nothing. -/
theorem tx_in_order (moves : List TxMove) :
    let s := TxRing.init.run moves
    s.dev.wire <+: s.accepted ∧ (s.Drained → s.dev.wire = s.accepted) ∧
      ∀ d ∈ s.done, d.result < 0 → d.stores = 0 := by
  intro s
  have h : s.Inv := TxRing.Inv.init.run moves
  refine ⟨?_, h.good.drained, h.done⟩
  rw [h.good.wire]
  exact take_prefix ..

example : (TxRing.init.run (.begin (fun _ => 7) 2 :: replicate 12 .driver ++
    [.fetch, .transmit])).dev.wire = [[7, 7]] := by decide +kernel

/-- In every interleaving, a packet that the card has still to send stands unchanged in its slot,
with `DD` clear, and no other one has the slot. The tail counts the packets that were accepted. -/
theorem tx_in_flight_kept (moves : List TxMove) :
    let s := TxRing.init.run moves
    s.tdt = toWord (s.accepted.length % ndesc) ∧
      s.accepted.length < s.dev.advanced + ndesc ∧
      ∀ k p, s.dev.sent ≤ k → s.accepted[k]? = some p → s.bytesAt (k % ndesc) = p ∧
        (s.descs (k % ndesc)).status &&& txStatusDd = 0 ∧
        ∀ j, s.InFlight j → j ≠ k → j % ndesc ≠ k % ndesc := by
  intro s
  have h : s.Good := (TxRing.Inv.init.run moves).good
  refine ⟨h.tdt, h.room, fun k p hk hp => ?_⟩
  have hflight : s.InFlight k := .inl ⟨hk, (List.getElem?_eq_some_iff.mp hp).1⟩
  exact ⟨(h.held k p hk hp).1, h.clear k hflight, fun j hj hne => h.slot_ne hj hflight hne⟩

end Jos
