import Jos.Kernel.Exclusion

/-!
# What `sys_net_recv` writes

`e1000_rx` copies as many bytes as the descriptor says and does not look at the length that
`sys_net_recv` has checked. The copy goes through the address space in force, byte by byte, and does
what it should as long as it overwrites no page table that it goes through.
-/

namespace Jos

open Logic BitVec

variable {k k' : Kernel} {p p' : Phys} {buf len va : Word} {b : BitVec 8} {n page off : Nat}

def Phys.byte (p : Phys) (page off : Nat) : BitVec 8 :=
  (p.mem page (off / 4) >>> (8 * (off % 4))).setWidth 8

def Kernel.cr3 (k : Kernel) : Nat := (k.cpus k.cpunum).cr3

/-- A store at `va` goes to this byte. -/
def Kernel.StoresAt (k : Kernel) (va : Word) (page off : Nat) : Prop :=
  k.phys.translate k.cr3 va true = some page ∧ va.toNat % pgsize = off

theorem wordIndex_eq (va : Word) : wordIndex va = va.toNat % pgsize / 4 := by
  unfold wordIndex pgoff pgsize
  rw [toNat_ushiftRight, toNat_and, Nat.shiftRight_eq_div_pow]
  exact congrArg (· / 4) (Nat.and_two_pow_sub_one_eq_mod va.toNat 12)

theorem byteShift_eq (va : Word) : byteShift va = 8 * (va.toNat % pgsize % 4) := by
  have h : (va &&& 3).toNat = va.toNat % 4 := by
    rw [toNat_and]
    exact Nat.and_two_pow_sub_one_eq_mod va.toNat 2
  unfold byteShift pgsize
  omega

theorem replaced_byte (old : Word) (b : BitVec 8) {s t : Nat} (hne : t ≠ s) :
    ((old &&& ~~~((0xff : Word) <<< (8 * s)) ||| b.setWidth 32 <<< (8 * s)) >>> (8 * t)).setWidth 8
      = (old >>> (8 * t)).setWidth 8 := by
  have hff : ∀ j, 8 ≤ j → (0xff : Word).getLsbD j = false := by
    intro j hj
    exact getLsbD_of_ge (0xff : BitVec 8) j hj
  ext i hi
  simp only [getElem_setWidth, getLsbD_ushiftRight, getLsbD_or,
    getLsbD_and, getLsbD_not, getLsbD_shiftLeft, getLsbD_setWidth]
  have hlt : old.getLsbD (8 * t + i) = true → 8 * t + i < 32 := lt_of_getLsbD
  by_cases hlow : 8 * t + i < 8 * s
  · simpa [hlow] using hlt
  · have hhigh : 8 ≤ 8 * t + i - 8 * s := by omega
    rw [hff _ hhigh, getLsbD_of_ge b _ hhigh]
    simpa using hlt

/-- Replace the byte of a page at the offset of `va`. -/
def Phys.setByte (p : Phys) (page : Nat) (va : Word) (b : BitVec 8) : Phys :=
  p.setWord page (wordIndex va) (p.mem page (wordIndex va) &&&
    ~~~((0xff : Word) <<< byteShift va) ||| b.setWidth 32 <<< byteShift va)

theorem Phys.setByte_mem (h : n ≠ page) : (p.setByte page va b).mem n = p.mem n :=
  Phys.setWord_mem_of_ne _ _ _ h

theorem Phys.setByte_byte (h : n = page → off ≠ va.toNat % pgsize) :
    (p.setByte page va b).byte n off = p.byte n off := by
  unfold Phys.byte Phys.setByte
  rw [Phys.setWord_mem_apply]
  split
  · next hc =>
    obtain ⟨rfl, hw⟩ := hc
    rw [← hw, byteShift_eq]
    apply replaced_byte
    rw [wordIndex_eq] at hw
    have := h rfl
    omega
  · rfl

theorem storeByte_run (h : k.phys.translate k.cr3 va true = some page) :
    storeByte va b k = .ret () { k with phys := k.phys.setByte page va b } := by
  unfold storeByte
  rw [bind_apply, get_apply]
  dsimp only
  rw [show (k.cpus k.cpunum).cr3 = k.cr3 from rfl, h]
  rfl

/-- The table that the translation of `va` goes through. -/
def Kernel.tableAt (k : Kernel) (va : Word) : Nat := pageOf (k.phys.mem k.cr3 (pdx va))

/-- Each of the `n` bytes at `va` can be stored. -/
def Kernel.Storable (k : Kernel) (va : Word) (n : Nat) : Prop :=
  ∀ i < n, ∃ page, k.phys.translate k.cr3 (va + toWord i) true = some page

/-- None of the `n` bytes at `va` is on a page that holds the directory or a table through which
one of them is reached. -/
def Kernel.OffTables (k : Kernel) (va : Word) (n : Nat) : Prop :=
  ∀ i < n, ∀ page, k.phys.translate k.cr3 (va + toWord i) true = some page →
    page ≠ k.cr3 ∧ ∀ j < n, present (k.phys.mem k.cr3 (pdx (va + toWord j))) →
      page ≠ k.tableAt (va + toWord j)

/-- `p` differs from the memory of `k` in the first `n` bytes at `va` at most. -/
structure CopiedOut (k : Kernel) (va : Word) (n : Nat) (p : Phys) : Prop where
  /-- A page that has changed is the page of one of the bytes. -/
  pages : ∀ x, p.mem x ≠ k.phys.mem x →
    ∃ i < n, k.phys.translate k.cr3 (va + toWord i) true = some x
  bytes : ∀ x off, off < pgsize → p.byte x off ≠ k.phys.byte x off →
    ∃ i < n, k.StoresAt (va + toWord i) x off

theorem translate_congr {d : Nat} {write : Bool} (hd : p'.mem d = p.mem d)
    (ht : p'.mem (pageOf (p.mem d (pdx va))) = p.mem (pageOf (p.mem d (pdx va)))) :
    p'.translate d va write = p.translate d va write := by
  unfold Phys.translate
  dsimp only
  rw [hd, ht]

theorem CopiedOut.zero : CopiedOut k va 0 k.phys :=
  ⟨fun _ h => absurd rfl h, fun _ _ _ h => absurd rfl h⟩

theorem CopiedOut.mono {m : Nat} (h : CopiedOut k va n p) (hnm : n ≤ m) : CopiedOut k va m p where
  pages x hx := by
    obtain ⟨i, hi, ht⟩ := h.pages x hx
    exact ⟨i, by omega, ht⟩
  bytes x off hoff hne := by
    obtain ⟨i, hi, ht⟩ := h.bytes x off hoff hne
    exact ⟨i, by omega, ht⟩

theorem CopiedOut.translate {m : Nat} (ho : k.OffTables va m) (h : CopiedOut k va n p)
    (hn : n < m) : p.translate k.cr3 (va + toWord n) true =
      k.phys.translate k.cr3 (va + toWord n) true := by
  have hdir : p.mem k.cr3 = k.phys.mem k.cr3 := by
    by_contra hne
    obtain ⟨i, hi, ht⟩ := h.pages _ hne
    exact (ho i (by omega) _ ht).1 rfl
  by_cases hp : present (k.phys.mem k.cr3 (pdx (va + toWord n)))
  · apply translate_congr hdir
    by_contra hne
    obtain ⟨i, hi, ht⟩ := h.pages _ hne
    exact (ho i (by omega) _ ht).2 n hn hp rfl
  · simp [Phys.translate, hdir, hp]

theorem CopiedOut.step (h : CopiedOut k va n p) (ht : k.phys.translate k.cr3
    (va + toWord n) true = some page) :
    CopiedOut k va (n + 1) (p.setByte page (va + toWord n) b) where
  pages x hx := by
    by_cases hxp : x = page
    · exact ⟨n, by omega, hxp ▸ ht⟩
    · rw [Phys.setByte_mem hxp] at hx
      exact (h.mono (Nat.le_succ n)).pages x hx
  bytes x off hoff hne := by
    by_cases hxp : x = page ∧ off = (va + toWord n).toNat % pgsize
    · exact ⟨n, by omega, hxp.1 ▸ ht, hxp.2.symm⟩
    · rw [Phys.setByte_byte fun hx ho => hxp ⟨hx, ho⟩] at hne
      exact (h.mono (Nat.le_succ n)).bytes x off hoff hne

theorem copyOut_run (bytes : Nat → BitVec 8) (ho : k.OffTables va n) (hs : k.Storable va n) :
    ∃ p', copyOut va n bytes k = .ret () { k with phys := p' } ∧ CopiedOut k va n p' := by
  have hbody : ∀ i, i < n → ∀ k1, (∃ p1, k1 = { k with phys := p1 } ∧ CopiedOut k va i p1) →
      ∃ k2, storeByte (va + toWord i) (bytes i) k1 = .ret () k2 ∧
        ∃ p2, k2 = { k with phys := p2 } ∧ CopiedOut k va (i + 1) p2 := by
    rintro i hi _ ⟨p1, rfl, hc⟩
    obtain ⟨page, ht⟩ := hs i hi
    exact ⟨_, storeByte_run ((hc.translate ho hi).trans ht), _, rfl, hc.step ht⟩
  obtain ⟨_, hrun, p', rfl, hc⟩ := times_run _ ⟨_, rfl, CopiedOut.zero⟩ hbody
  exact ⟨p', hrun, hc⟩

/-- A byte that cannot be stored is a page fault in the kernel. -/
theorem copyOut_storable {bytes : Nat → BitVec 8} (ho : k.OffTables va n)
    (hrun : copyOut va n bytes k = .ret () k') : k.Storable va n := by
  have hw : wp (copyOut va n bytes) (fun _ k1 =>
      (∃ p1, k1 = { k with phys := p1 } ∧ CopiedOut k va n p1) ∧ k.Storable va n)
      (fun _ => True) k := by
    refine wp_times (fun i k1 => (∃ p1, k1 = { k with phys := p1 } ∧ CopiedOut k va i p1) ∧
      k.Storable va i) ⟨⟨_, rfl, .zero⟩, nofun⟩ ?_
    rintro i hi _ ⟨⟨p1, rfl, hc⟩, hs⟩
    have hsame := hc.translate ho hi
    cases ht : k.phys.translate k.cr3 (va + toWord i) true with
    | none =>
      rw [ht] at hsame
      unfold storeByte
      rw [wp_bind, wp_get]
      dsimp only
      rw [show (k.cpus k.cpunum).cr3 = k.cr3 from rfl, hsame]
      exact wp_panic
    | some page =>
      refine (wp_of_ret (storeByte_run (hsame.trans ht))).mpr ⟨⟨_, rfl, hc.step ht⟩, fun j hj => ?_⟩
      rcases Nat.lt_succ_iff_lt_or_eq.mp hj with hj | rfl
      · exact hs j hj
      · exact ⟨page, ht⟩
  exact ((wp_of_ret hrun).mp hw).2

def Kernel.nextRx (k : Kernel) : RxDesc := k.e1000.rxDescs ((k.e1000.rdt + 1).toNat % ndesc)

/-- `e1000_rx` returns before it copies, or what it copies fits and can be stored. -/
def Kernel.RxFits (k : Kernel) (buf len : Word) : Prop :=
  buf = 0 ∨ k.nextRx.status &&& 1 = 0 ∨
    k.nextRx.copied ≤ len.toNat ∧ k.Storable buf k.nextRx.copied

/-- The call returns an error or a count of at most `len`, and every byte of memory that it
has changed is one of the `len` bytes at `buf`. -/
def StaysInBuffer (k : Kernel) (buf len : Word) (o : Outcome String Kernel Int) : Prop :=
  ∃ r k', o = .ret r k' ∧ (r < 0 ∨ r ≤ len.toNat) ∧ CopiedOut k buf len.toNat k'.phys

theorem userMemCheck_mem (pgdir : Option Nat) (perm : Word) {E : Phys → Prop} :
    wp (userMemCheck pgdir va len perm) (fun r p' => 0 ≤ r → p' = p) E p := by
  unfold userMemCheck
  generalize ulim / pgsize + 1 = fuel
  generalize roundup (va + len) = endAddr
  induction fuel generalizing va with
  | zero => exact wp_pure.mpr fun h => absurd h (by decide)
  | succ fuel ih =>
    rw [userMemCheckLoop]
    refine wp_ite.mpr ⟨fun _ => ?_, fun _ => wp_pure.mpr fun _ => rfl⟩
    rw [wp_bind]
    refine pgdirWalk_false_wp fun r => ?_
    have hfault : ¬(0 : Int) ≤ -eFault := by decide
    cases r with
    | none =>
      rw [wp_bind, wp_modify]
      exact wp_pure.mpr fun h => absurd h hfault
    | some pte =>
      unfold loadPte
      simp only [wp_bind, wp_get, wp_pure]
      refine wp_ite.mpr ⟨fun _ => ?_, fun _ => ih⟩
      rw [wp_bind, wp_modify]
      exact wp_pure.mpr fun h => absurd h hfault

theorem sysNetRecv_eq {e : Nat} {r : Int} (hcur : k.curenv = some e)
    (hcheck : userMemCheck (k.envs e).envPgdir buf len (pteU ||| pteP ||| pteW) k.phys = .ret r p)
    (hr : 0 ≤ r) : sysNetRecv buf len k = e1000Rx buf k := by
  have hp : p = k.phys := (wp_of_ret hcheck).mp (userMemCheck_mem (E := fun _ => False) _ _) hr
  subst hp
  have hcur' : curenv k = .ret e k := by
    unfold curenv
    rw [bind_apply, get_apply]
    dsimp only
    rw [hcur]
    rfl
  unfold sysNetRecv
  refine bind_run hcur' (bind_run (show env e k = .ret (k.envs e) k from rfl) ?_)
  refine bind_run (zoom_of_ret hcheck) ?_
  rw [if_neg (by omega)]

theorem e1000Rx_invalid : e1000Rx 0 k = .ret (-eInval) k := rfl

theorem e1000Rx_again (hbuf : buf ≠ 0) (h : k.nextRx.status &&& 1 = 0) :
    e1000Rx buf k = .ret (-eAgain) k := by
  unfold e1000Rx
  rw [if_neg hbuf]
  refine bind_run (get_apply k) ?_
  dsimp only
  rw [show k.e1000.rxDescs ((k.e1000.rdt + 1).toNat % ndesc) = k.nextRx from rfl, if_pos h]
  rfl

/-- The end of `e1000_rx`: the descriptor goes back to the card. -/
def Kernel.giveBack (k : Kernel) (rdt : Nat) : Kernel :=
  { k with e1000 :=
    { k.e1000 with
      rdt := toWord rdt
      rxDescs := Function.update k.e1000.rxDescs rdt { k.e1000.rxDescs rdt with status := 0 } } }

theorem e1000Rx_copies (hbuf : buf ≠ 0) (h : k.nextRx.status &&& 1 ≠ 0) : e1000Rx buf k = (do
      copyOut buf k.nextRx.copied k.nextRx.buf
      Code.modify fun k1 => k1.giveBack ((k.e1000.rdt + 1).toNat % ndesc)
      return k.nextRx.copied : Kern Int) k := by
  unfold e1000Rx
  rw [if_neg hbuf]
  refine bind_run (get_apply k) ?_
  dsimp only
  rw [show k.e1000.rxDescs ((k.e1000.rdt + 1).toNat % ndesc) = k.nextRx from rfl, if_neg h]
  rfl

theorem Kernel.OffTables.mono {m : Nat} (h : k.OffTables va n) (hmn : m ≤ n) :
    k.OffTables va m := fun i hi page ht =>
  ⟨(h i (by omega) page ht).1, fun j hj => (h i (by omega) page ht).2 j (by omega)⟩

/-- A call that returns a count returns the length of the packet, and has stored it. -/
theorem RxFits.of_stays (ho : k.OffTables buf len.toNat)
    (h : StaysInBuffer k buf len (e1000Rx buf k)) : k.RxFits buf len := by
  by_cases hbuf : buf = 0
  · exact .inl hbuf
  by_cases hdd : k.nextRx.status &&& 1 = 0
  · exact .inr (.inl hdd)
  obtain ⟨r, k', hrun, hle, _⟩ := h
  rw [e1000Rx_copies hbuf hdd] at hrun
  obtain ⟨_, _, hcopy, hrest⟩ := ret_of_bind hrun
  obtain ⟨_, _, _, hret⟩ := ret_of_bind hrest
  cases hret
  have hfit : k.nextRx.copied ≤ len.toNat := by omega
  exact .inr (.inr ⟨hfit, copyOut_storable (ho.mono hfit) hcopy⟩)

theorem RxFits.stays (ho : k.OffTables buf len.toNat) (h : k.RxFits buf len) :
    StaysInBuffer k buf len (e1000Rx buf k) := by
  by_cases hbuf : buf = 0
  · subst hbuf
    exact ⟨_, _, e1000Rx_invalid, .inl (by decide), CopiedOut.zero.mono (Nat.zero_le _)⟩
  by_cases hdd : k.nextRx.status &&& 1 = 0
  · exact ⟨_, _, e1000Rx_again hbuf hdd, .inl (by decide), CopiedOut.zero.mono (Nat.zero_le _)⟩
  obtain ⟨hfit, hs⟩ := (h.resolve_left hbuf).resolve_left hdd
  obtain ⟨p', hrun, hc⟩ := copyOut_run k.nextRx.buf (ho.mono hfit) hs
  have hret : e1000Rx buf k = .ret k.nextRx.copied
      (Kernel.giveBack { k with phys := p' } ((k.e1000.rdt + 1).toNat % ndesc)) := by
    rw [e1000Rx_copies hbuf hdd]
    exact bind_run hrun rfl
  exact ⟨_, _, hret, .inr (by omega), hc.mono hfit⟩

/-- After a successful check, the call stays in the buffer if and only if there is no packet, or the
packet is not longer than the buffer and each of its bytes can be stored. -/
theorem netRecv_in_buffer {e : Nat} {r : Int} (hcur : k.curenv = some e)
    (hcheck : userMemCheck (k.envs e).envPgdir buf len (pteU ||| pteP ||| pteW) k.phys = .ret r p)
    (hr : 0 ≤ r) (ho : k.OffTables buf len.toNat) :
    StaysInBuffer k buf len (sysNetRecv buf len k) ↔ k.RxFits buf len := by
  rw [sysNetRecv_eq hcur hcheck hr]
  exact ⟨RxFits.of_stays ho, RxFits.stays ho⟩

/-- Below `UTOP` no byte is on a directory or a table while the address spaces are in order. -/
theorem Executes.offTables {c d : Nat} (h : Executes c d k) (hcr3 : k.cr3 = d)
    (hlt : va.toNat + n ≤ utop) : k.OffTables va n := by
  obtain ⟨⟨extra, hs⟩, -⟩ := h.sound
  have hd : d ∈ k.dirs := mem_dirs.mpr ⟨c, h.live, h.pgdir⟩
  subst hcr3
  have hva : ∀ i < n, (va + toWord i).toNat < utop := by
    intro i hi
    unfold utop at *
    rw [toNat_add, toNat_ofNat]
    omega
  intro i hi page ht
  obtain ⟨w, hm, rfl, -⟩ := translate_user hd (hva i hi) ht
  have hplain := hs.intact.plain hm
  refine ⟨fun hc => hplain.not_dir (hc ▸ hd), fun j hj hp hc => ?_⟩
  refine hplain.not_table k.cr3 _ ⟨hd, ?_, tableOf_eq_some.mpr ⟨hp, hc.symm⟩⟩
  rw [pdx_eq]
  exact hs.intact.toTables.own_of_user (div_lt_userTables ((lt_utop_iff _).mp (hva j hj)))

/-- A program runs, and a packet of 4 bytes has arrived. -/
@[irreducible] def arrived : Kernel :=
  { nursery with
    e1000 := { nursery.e1000 with
      rdt := 255
      rxDescs := fun _ => ⟨4, 1, fun _ => 7⟩ } }

theorem arrived_executes : Executes 0 100 arrived := by
  unfold arrived
  have hsame := SameSlots.refl nursery
  exact ⟨nursery_sound.of_sameSlots ⟨hsame.1, hsame.2, hsame.3, hsame.4⟩ rfl, nursery_cur,
    nursery_executes.live, nursery_executes.pgdir⟩

theorem arrived_stack : ∀ i < 4, arrived.phys.translate arrived.cr3
    (0xeebfd000 + toWord i) true = some 103 := by decide +kernel

/-- The packet fits into the first bytes of the stack page. -/
theorem netRecv_in_buffer_stack :
    StaysInBuffer arrived 0xeebfd000 4 (sysNetRecv 0xeebfd000 4 arrived) := by
  have hcheck : userMemCheck (arrived.envs 0).envPgdir 0xeebfd000 4 (pteU ||| pteP ||| pteW)
      arrived.phys = .ret 0 _ := Outcome.eq_ret arrived.phys (by decide +kernel)
  have hcopied : arrived.nextRx.copied = 4 := by decide +kernel
  have hfit : arrived.RxFits 0xeebfd000 4 := by
    refine .inr (.inr ⟨hcopied.le, fun i hi => ?_⟩)
    exact ⟨103, arrived_stack i (hcopied ▸ hi)⟩
  have hoff := arrived_executes.offTables (by decide +kernel)
    (show (0xeebfd000 : Word).toNat + 4 ≤ utop by decide)
  exact (netRecv_in_buffer arrived_executes.current hcheck le_rfl hoff).mpr hfit

/-- The call of `net/input.c`: the buffer has the length 0, the check succeeds, and 4 bytes are
written. -/
theorem netRecv_ignores_length : ∃ r k' p, arrived.curenv = some 0 ∧
    userMemCheck (arrived.envs 0).envPgdir 0xeebfd000 0 (pteU ||| pteP ||| pteW) arrived.phys =
      .ret 0 p ∧
    sysNetRecv 0xeebfd000 0 arrived = .ret r k' ∧ r = 4 ∧
    k'.phys.byte 103 0 = 7 ∧ arrived.phys.byte 103 0 = 0 ∧
    ¬StaysInBuffer arrived 0xeebfd000 0 (sysNetRecv 0xeebfd000 0 arrived) := by
  have hcheck : userMemCheck (arrived.envs 0).envPgdir 0xeebfd000 0 (pteU ||| pteP ||| pteW)
      arrived.phys = .ret 0 _ := Outcome.eq_ret arrived.phys (by decide +kernel)
  have hrun : sysNetRecv 0xeebfd000 0 arrived = .ret 4 _ :=
    Outcome.eq_ret arrived (by decide +kernel)
  have hbyte : ((sysNetRecv 0xeebfd000 0 arrived).after arrived).phys.byte 103 0 = 7 := by
    decide +kernel
  refine ⟨4, _, _, by decide +kernel, hcheck, hrun, rfl, hbyte, by decide +kernel, ?_⟩
  rintro ⟨r1, k1, hrun1, hle, _⟩
  rw [hrun] at hrun1
  cases hrun1
  rcases hle with hlt | hle
  · exact absurd hlt (by decide)
  · exact absurd hle (by decide)

end Jos
