import Jos.Kernel.Allocation
import Jos.Kernel.SetFrame

/-!
# The frame of a page fault

`page_fault_handler` puts a `struct UTrapframe` below the stack pointer if this is inside the
exception stack, and at its top if not. The lowest address counts as outside, so there earlier
frames are overwritten. A full stack is noticed only if the page below cannot be written.
-/

namespace Jos

open Logic BitVec

variable {k k' : Kernel} {p p' p1 : Phys} {c d i j n o q v : Nat} {va utf a : Word}
  {tf : Trapframe} {f : Nat → Byte} {m m' : Kern Unit}

/-- The first `n` bytes of `f` have been stored in the page `q` from the offset `o` on. -/
structure BytesStored (p p' : Phys) (q o n : Nat) (f : Nat → Byte) : Prop where
  rest : p' = p.setPage q (p'.mem q)
  bytes : ∀ x < pgsize, p'.byte q x = setBytes (p.byte q) o n f x

theorem BytesStored.refl (p : Phys) (q o : Nat) (f : Nat → Byte) : BytesStored p p q o 0 f := by
  refine ⟨?_, fun x _ => by rw [setBytes_zero]⟩
  unfold Phys.setPage
  rw [Function.update_eq_self]

theorem BytesStored.setByte (h : BytesStored p p' q o n f) (ho : va.toNat % pgsize = o + n) :
    BytesStored p (p'.setByte q va (f n)) q o (n + 1) f := by
  refine ⟨?_, fun x hx => ?_⟩
  · unfold Phys.setByte
    rw [Phys.setWord_eq_setPage, h.rest]
    simp [Phys.setPage]
  · by_cases hlast : x = o + n
    · rw [hlast, ← ho, Phys.setByte_byte_self, ho, setBytes_of_mem (by omega) (by omega)]
      congr
      omega
    · rw [Phys.setByte_byte fun _ => by omega, h.bytes x hx]
      unfold setBytes
      by_cases hin : o ≤ x ∧ x < o + n
      · rw [if_pos hin, if_pos (by omega)]
      · rw [if_neg hin, if_neg (by omega)]

theorem Intact.translate_setPage {extra : Nat → Nat} {dirs : Finset Nat} {words : Nat → Word}
    {write : Bool} (h : Intact (kernPages p) extra dirs p) (hd : d ∈ dirs)
    (hq : Plain (kernPages p) dirs p q) (va : Word) :
    (p.setPage q words).translate d va write = p.translate d va write := by
  have hdq : d ≠ q := fun he => hq.not_dir (he ▸ hd)
  have hdir : (p.setPage q words).mem d = p.mem d := by simp [hdq]
  unfold Phys.translate
  dsimp only
  rw [hdir]
  by_cases hp : present (p.mem d (pdx va))
  · obtain ⟨t, ht⟩ : ∃ t, pageOf (p.mem d (pdx va)) = t := ⟨_, rfl⟩
    have htable := tableOf_eq_some.mpr ⟨hp, ht⟩
    have hlt : pdx va < 1024 := by
      have := pgnum_lt va
      rw [pdx_eq]
      omega
    have hne : t ≠ q := by
      rcases h.table_cases hd hlt htable with hi | rfl | hk
      · exact fun he => hq.not_table d (pdx va) ⟨hd, h.toTables.own_of_user hi, he ▸ htable⟩
      · exact hdq
      · exact fun he => hq.not_kern (he ▸ hk)
    have htab : (p.setPage q words).mem t = p.mem t := by simp [hne]
    rw [ht, htab]
  · simp [hp]

/-- Started when `i` bytes are stored, the code stores the bytes up to `j`. -/
def StoresTo (k : Kernel) (q o : Nat) (f : Nat → Byte) (i j : Nat) (m : Kern Unit) : Prop :=
  ∀ p1, BytesStored k.phys p1 q o i f →
    ∃ p2, m { k with phys := p1 } = .ret () { k with phys := p2 } ∧ BytesStored k.phys p2 q o j f

theorem StoresTo.seq (h : StoresTo k q o f i j m) (h' : StoresTo k q o f j n m') :
    StoresTo k q o f i n (do m; m') := by
  intro p1 h1
  obtain ⟨p2, hrun, h2⟩ := h p1 h1
  obtain ⟨p3, hrun', h3⟩ := h' p2 h2
  exact ⟨p3, bind_run hrun hrun', h3⟩

theorem wordByte_eq (w : Word) (i : Nat) : wordByte w i = (w >>> (8 * i)).setWidth 8 := by
  ext j hj
  simp [wordByte, getElem_setWidth]

section Page

variable (h : Executes c d k) (hcr3 : k.cr3 = d) (ht : k.phys.translate d utf true = some q)
  (hutf : utf.toNat < utop) (hn : utf.toNat % pgsize + n ≤ pgsize)

include h hcr3 ht hutf hn

theorem storesTo_byte (hi : i < n) : StoresTo k q (utf.toNat % pgsize) f i (i + 1)
    (storeByte (utf + toWord i) (f i)) := by
  intro p1 h1
  obtain ⟨⟨extra, hs⟩, -⟩ := h.sound
  obtain ⟨w, hm, rfl⟩ := translate_user h.mem_dirs hutf ht
  have hsum : (utf + toWord i).toNat = utf.toNat + i := by
    have hlt : utf.toNat < 4005560320 := hutf
    unfold pgsize at hn
    rw [toNat_add, toNat_ofNat]
    omega
  have hpage : pgnum (utf + toWord i) = pgnum utf := by
    unfold pgsize at hn
    rw [pgnum_eq, pgnum_eq, hsum]
    omega
  have htrans : p1.translate d (utf + toWord i) true = some (pageOf w) := by
    rw [h1.rest, hs.intact.translate_setPage h.mem_dirs (hs.intact.plain hm), ← ht]
    unfold Phys.translate
    rw [pdx_eq, ptx_eq, pdx_eq, ptx_eq, hpage]
  refine ⟨_, storeByte_run (k := { k with phys := p1 }) (hcr3.symm ▸ htrans), h1.setByte ?_⟩
  rw [hsum]
  unfold pgsize at hn ⊢
  omega

theorem storesTo_word {w : Word} (hi : i + 4 ≤ n) (ha : a = utf + toWord i)
    (hf : ∀ x < 4, f (i + x) = wordByte w x) :
    StoresTo k q (utf.toNat % pgsize) f i (i + 4) (store32 a w) := by
  have hbyte : ∀ x < 4, StoresTo k q (utf.toNat % pgsize) f (i + x) (i + x + 1)
      (storeByte (a + toWord x) ((w >>> (8 * x)).setWidth 8)) := by
    intro x hx
    have hstore := storesTo_byte (f := f) h hcr3 ht hutf hn (i := i + x) (by omega)
    rwa [hf x hx, wordByte_eq, toWord_add, ← BitVec.add_assoc, ← ha] at hstore
  have h0 := hbyte 0 (by decide)
  rw [Nat.mul_zero, BitVec.ushiftRight_zero, BitVec.add_zero] at h0
  exact h0.seq ((hbyte 1 (by decide)).seq ((hbyte 2 (by decide)).seq (hbyte 3 (by decide))))

end Page

/-- The words of the frame. -/
def utfWord (va : Word) (tf : Trapframe) (i : Nat) : Word :=
  [va, tf.tfErr, tf.tfRegs.regEdi, tf.tfRegs.regEsi, tf.tfRegs.regEbp, tf.tfRegs.regOesp,
    tf.tfRegs.regEbx, tf.tfRegs.regEdx, tf.tfRegs.regEcx, tf.tfRegs.regEax, tf.tfEip,
    tf.tfEflags, tf.tfEsp].getD i 0

def utfByte (va : Word) (tf : Trapframe) (i : Nat) : Byte :=
  wordByte (utfWord va tf (i / 4)) (i % 4)

theorem storeUTrapframe_run (h : Executes c d k) (hcr3 : k.cr3 = d)
    (ht : k.phys.translate d utf true = some q) (hutf : utf.toNat < utop)
    (hn : utf.toNat % pgsize + 52 ≤ pgsize) (va : Word) (tf : Trapframe) :
    ∃ p', storeUTrapframe utf va tf k = .ret () { k with phys := p' } ∧
      BytesStored k.phys p' q (utf.toNat % pgsize) 52 (utfByte va tf) := by
  have hword : ∀ i < 13, ∀ a, a = utf + toWord (4 * i) →
      StoresTo k q (utf.toNat % pgsize) (utfByte va tf) (4 * i) (4 * (i + 1))
        (store32 a (utfWord va tf i)) := by
    intro i hi a ha
    refine storesTo_word h hcr3 ht hutf hn (by omega) ha fun x hx => ?_
    unfold utfByte
    rw [show (4 * i + x) / 4 = i by omega, show (4 * i + x) % 4 = x by omega]
  have hreg : ∀ i < 13, 2 ≤ i → StoresTo k q (utf.toNat % pgsize) (utfByte va tf) (4 * i)
      (4 * (i + 1)) (store32 (utf + 8 + toWord (4 * (i - 2))) (utfWord va tf i)) := by
    intro i hi hge
    refine hword i hi _ ?_
    rw [BitVec.add_assoc, show (8 : Word) = toWord 8 from rfl, ← toWord_add]
    congr
    omega
  have hregs := (hword 2 (by decide) _ rfl).seq ((hreg 3 (by decide) (by decide)).seq
      ((hreg 4 (by decide) (by decide)).seq ((hreg 5 (by decide) (by decide)).seq
      ((hreg 6 (by decide) (by decide)).seq ((hreg 7 (by decide) (by decide)).seq
      ((hreg 8 (by decide) (by decide)).seq (hreg 9 (by decide) (by decide))))))))
  have hall :=
    (hword 0 (by decide) _ (BitVec.add_zero utf).symm).seq ((hword 1 (by decide) _ rfl).seq
      (hregs.seq ((hword 10 (by decide) _ rfl).seq ((hword 11 (by decide) _ rfl).seq
      (hword 12 (by decide) _ rfl)))))
  exact hall k.phys (.refl _ _ _ _)

/-- The check of the frame admits all pages that it looks at. -/
def UtfAdmitted (p : Phys) (d : Nat) (esp : Word) : Prop :=
  ∀ v, (utfAddr esp).toNat / pgsize ≤ v →
    v < (roundup (utfAddr esp + sizeofUTrapframe)).toNat / pgsize → Admits p d (pteW ||| pteU) v

/-- The environment is destroyed, or it goes on in the handler with a frame inside the exception
stack and below the stack pointer, and this frame is all that has been stored. -/
def StackSafe (c d : Nat) (tf : Trapframe) (va : Word) (k : Kernel) : Prop :=
  ∃ k', pageFaultHandler tf va k = .exit k' ∧ ((k'.envs c).envStatus = .free ∨
    ∃ q utf, (k'.envs c).envTf.tfEsp = utf ∧ uxstacktop - pgsize ≤ utf.toNat ∧
      utf.toNat + 52 + 4 ≤ tf.tfEsp.toNat ∧ k.phys.translate d utf true = some q ∧
      BytesStored k.phys k'.phys q (utf.toNat % pgsize) 52 (utfByte va tf))

theorem pageFaultHandler_eq (hcur : k.curenv = some c) (hcs : tf.tfCs &&& 3 ≠ 0)
    (hup : (k.envs c).envPgfaultUpcall ≠ 0) (va : Word) : pageFaultHandler tf va k = (do
      userMemAssert c (utfAddr tf.tfEsp) sizeofUTrapframe pteW
      storeUTrapframe (utfAddr tf.tfEsp) va tf
      setEnv c fun env =>
        { env with envTf := { env.envTf with tfEip := env.envPgfaultUpcall } }
      setEnv c fun env => { env with envTf := { env.envTf with tfEsp := utfAddr tf.tfEsp } }
      envRun c
      envDestroy c : Kern Unit) k := by
  unfold pageFaultHandler
  rw [if_neg hcs]
  refine bind_run (curenv_run hcur) ?_
  refine bind_run (bind_run (get_apply k) rfl) ?_
  exact congrFun (if_pos hup) k

theorem UtfAdmitted.check (hadm : UtfAdmitted k.phys d tf.tfEsp) (h : Executes c d k) :
    userMemAssert c (utfAddr tf.tfEsp) sizeofUTrapframe pteW k = .ret () k := by
  rcases userMemAssert_range h.pgdir (utfAddr tf.tfEsp) sizeofUTrapframe pteW with
    ⟨-, hrun⟩ | ⟨v, hbad, -⟩
  · exact hrun
  · exact absurd (hadm v hbad.ge hbad.lt) hbad.refused

/-- The environment `c` is to go on in its handler. -/
def Kernel.upcalled (k : Kernel) (c : Nat) (utf : Word) : Kernel :=
  (k.setEnv c fun env => { env with
    envTf := { env.envTf with tfEip := env.envPgfaultUpcall } }).setEnv c fun env =>
      { env with envTf := { env.envTf with tfEsp := utf } }

section Fault

variable (h : Executes c d k) (hcs : tf.tfCs &&& 3 ≠ 0) (hup : (k.envs c).envPgfaultUpcall ≠ 0)

include h hcs hup

section

variable (hcheck : userMemAssert c (utfAddr tf.tfEsp) sizeofUTrapframe pteW k = .ret () k)

include hcheck

theorem Executes.upcall_run {k1 : Kernel}
    (hstore : storeUTrapframe (utfAddr tf.tfEsp) va tf k = .ret () k1) :
    ∃ k', pageFaultHandler tf va k = .exit k' ∧ k'.phys = k1.phys ∧
      (k'.envs c).envStatus = (k.envs c).envStatus ∧
      (k'.envs c).envTf.tfEsp = utfAddr tf.tfEsp := by
  have hsame := ret_of_wp ((storeUTrapframe_quiet _ va tf).same k) hstore
  have hcur := hsame.curenv.trans h.current
  refine ⟨(k1.upcalled c (utfAddr tf.tfEsp)).resume c, ?_, rfl, ?_, ?_⟩
  · rw [pageFaultHandler_eq h.current hcs hup]
    refine bind_run hcheck (bind_run hstore ?_)
    refine bind_run (modify_apply _ _) (bind_run (modify_apply _ _) ?_)
    exact Code.bind_exit (envRun_of_cur hcur)
  · simp [Kernel.resume, Kernel.upcalled, hsame.envs]
  · simp [Kernel.resume, Kernel.upcalled]

theorem Executes.upcall_exit (hrun : pageFaultHandler tf va k = .exit k') :
    (k'.envs c).envStatus = (k.envs c).envStatus ∧ (k'.envs c).envTf.tfEsp = utfAddr tf.tfEsp := by
  cases hstore : storeUTrapframe (utfAddr tf.tfEsp) va tf k with
  | ret u k1 =>
    obtain ⟨k2, hrun2, -, hstatus, hesp⟩ := h.upcall_run hcs hup hcheck hstore
    cases hrun.symm.trans hrun2
    exact ⟨hstatus, hesp⟩
  | exit k1 => exact (exit_of_wp ((storeUTrapframe_quiet _ va tf).same k) hstore).elim
  | panic msg =>
    rw [pageFaultHandler_eq h.current hcs hup, bind_apply, hcheck] at hrun
    cases hrun.symm.trans (bind_panic hstore)

end

theorem StackSafe.room (hsafe : StackSafe c d tf va k) (hadm : UtfAdmitted k.phys d tf.tfEsp) :
    uxstacktop - pgsize + 56 ≤ tf.tfEsp.toNat ∧
      ∃ q, k.phys.translate d (utfAddr tf.tfEsp) true = some q := by
  obtain ⟨k', hrun, hend⟩ := hsafe
  obtain ⟨hstatus, hesp⟩ := h.upcall_exit hcs hup (hadm.check h) hrun
  rcases hend with hfree | ⟨q, utf, rfl, hge, hbelow, ht, -⟩
  · exact absurd (hstatus.symm.trans hfree) h.live.2
  · rw [hesp] at hge hbelow ht
    exact ⟨by omega, q, ht⟩

theorem Executes.overflow_destroys (va : Word) (hlt : (utfAddr tf.tfEsp).toNat + 52 ≤ utop)
    (hno : ¬ UtfAdmitted k.phys d tf.tfEsp) :
    ∃ k', pageFaultHandler tf va k = .exit k' ∧ (k'.envs c).envStatus = .free := by
  obtain ⟨⟨extra, hs⟩, -⟩ := h.sound
  have hround : (roundup (utfAddr tf.tfEsp + sizeofUTrapframe)).toNat / pgsize ≤ userPages := by
    have hutop : utop = 4005560320 := rfl
    have hsum : (utfAddr tf.tfEsp + sizeofUTrapframe).toNat = (utfAddr tf.tfEsp).toNat + 52 := by
      rw [toNat_add, show sizeofUTrapframe.toNat = 52 from rfl]
      omega
    rw [roundup_mod, hsum]
    unfold pgsize userPages
    omega
  rcases userMemAssert_range h.pgdir (utfAddr tf.tfEsp) sizeofUTrapframe pteW with
    ⟨hall, -⟩ | ⟨v, hbad, ⟨-, a, hrun⟩ | ⟨hout, -⟩⟩
  · exact absurd hall hno
  · obtain ⟨k', hdestroy, hfree, -⟩ := envDestroy_current (h.sound.refuse a) h.current h.live
    refine ⟨k', ?_, hfree⟩
    rw [pageFaultHandler_eq h.current hcs hup]
    exact Code.bind_exit (hrun.trans hdestroy)
  · refine absurd (fun t ht => ?_) hout
    exact hs.intact.toTables.user.table_lt
      ⟨h.mem_dirs, div_lt_userTables (hbad.lt.trans_le hround), ht⟩

end Fault

theorem utfAddr_spec {esp : Word} (hlo : uxstacktop - pgsize ≤ esp.toNat)
    (hhi : esp.toNat < uxstacktop) :
    esp.toNat = uxstacktop - pgsize ∧ (utfAddr esp).toNat = uxstacktop - 52 ∨
      uxstacktop - pgsize < esp.toNat ∧ (utfAddr esp).toNat = esp.toNat - 56 := by
  have htop : uxstacktop = 4005560320 := rfl
  unfold pgsize at hlo
  unfold utfAddr
  by_cases hin : esp.toNat < uxstacktop ∧ uxstacktop - pgsize < esp.toNat
  · rw [if_pos hin]
    refine Or.inr ⟨hin.2, ?_⟩
    unfold sizeofUTrapframe
    bv_omega
  · rw [if_neg hin]
    exact Or.inl ⟨by unfold pgsize at hin ⊢; omega, by decide⟩

/-- Unless the check refuses the frame, there must be room for it in the exception stack, and
the entry for this page must be present. -/
theorem exception_stack_safe_iff (h : Executes c d k) (hcr3 : k.cr3 = d)
    (hcs : tf.tfCs &&& 3 ≠ 0) (hup : (k.envs c).envPgfaultUpcall ≠ 0)
    (hlo : uxstacktop - pgsize ≤ tf.tfEsp.toNat) (hhi : tf.tfEsp.toNat < uxstacktop) :
    StackSafe c d tf va k ↔ (UtfAdmitted k.phys d tf.tfEsp →
      uxstacktop - pgsize + 56 ≤ tf.tfEsp.toNat ∧
        ∃ q, k.phys.translate d (utfAddr tf.tfEsp) true = some q) := by
  have htop : uxstacktop = 4005560320 := rfl
  have hutf := utfAddr_spec hlo hhi
  by_cases hadm : UtfAdmitted k.phys d tf.tfEsp
  swap
  · have hfits : (utfAddr tf.tfEsp).toNat + 52 ≤ utop := by
      have hutop : utop = 4005560320 := rfl
      unfold pgsize at hutf
      omega
    obtain ⟨k', hrun, hfree⟩ := h.overflow_destroys hcs hup va hfits hadm
    exact iff_of_true ⟨k', hrun, Or.inl hfree⟩ fun hc => absurd hc hadm
  constructor
  · exact fun hsafe _ => hsafe.room h hcs hup hadm
  · intro hcond
    have hcheck := hadm.check h
    obtain ⟨hroom, q, ht⟩ := hcond hadm
    unfold pgsize at hutf hroom
    have hbelow : (utfAddr tf.tfEsp).toNat < utop := by
      have hutop : utop = 4005560320 := rfl
      omega
    have hin : (utfAddr tf.tfEsp).toNat % pgsize + 52 ≤ pgsize := by
      unfold pgsize
      omega
    obtain ⟨p', hstore, hbytes⟩ := storeUTrapframe_run h hcr3 ht hbelow hin va tf
    obtain ⟨k', hrun, hphys, -, hesp⟩ := h.upcall_run hcs hup hcheck hstore
    refine ⟨k', hrun, Or.inr ⟨q, _, hesp, ?_, by omega, ht, hphys ▸ hbytes⟩⟩
    unfold pgsize
    omega

def watchful : Kernel := nursery.setEnv 0 fun env => { env with envPgfaultUpcall := 0x800020 }

theorem watchful_run : sysEnvSetPgfaultUpcall 0 0x800020 nursery = .ret 0 watchful :=
  bind_run (envid2env_ok nursery_executes.names) rfl

theorem watchful_executes : Executes 0 100 watchful :=
  ⟨nursery_sound.of_sameSlots (Kernel.setEnv_sameSlots rfl rfl Iff.rfl) rfl, nursery_cur,
    ⟨by decide, by decide +kernel⟩, by decide +kernel⟩

/-- The handler and its stack have been set up. -/
@[irreducible] def stacked : Kernel := (sysPageAlloc 0 0xeebff000 7 watchful).after watchful

theorem stacked_spec :
    sysPageAlloc 0 0xeebff000 7 watchful = .ret 0 stacked ∧ Executes 0 100 stacked := by
  have hcall : sysPageAlloc 0 0xeebff000 7 watchful = .ret 0 stacked := by
    unfold stacked
    exact Outcome.eq_ret watchful (by decide +kernel)
  obtain ⟨⟨extra, hs⟩, -⟩ := watchful_executes.sound
  have hdemand : demand watchful.phys 100 {pgnum 0xeebff000} = 1 := by decide +kernel
  have hstock : Stocked watchful.phys (demand watchful.phys 100 {pgnum 0xeebff000}) := by
    rw [hdemand]
    exact .one hs.intact.toAccounts (show _ = some 110 by decide +kernel)
  obtain ⟨q, p', hrun, hq⟩ :=
    watchful_executes.sysPageAlloc_run (by decide) (by decide) (show permOk 7 by decide) hstock
  refine ⟨hcall, ?_⟩
  rw [(Outcome.ret.inj (hcall.symm.trans hrun)).2]
  exact watchful_executes.withPhys hq.intact hq.few hq.frame

/-- The frame is stored below the stack pointer. -/
theorem exception_stack_safe_stacked :
    StackSafe 0 100 { initialTf with tfEsp := 0xeebfff00 } 0x1000 stacked := by
  refine (exception_stack_safe_iff stacked_spec.2 ?_ ?_ ?_ ?_ ?_).mpr fun _ => ⟨?_, 110, ?_⟩
  · decide +kernel
  · decide
  · decide +kernel
  · decide
  · decide
  · decide
  · decide +kernel

/-- The stack pointer is at the bottom of the exception stack: the new frame goes to its top. -/
theorem exception_stack_overwritten : ∃ k1 k2,
    sysEnvSetPgfaultUpcall 0 0x800020 nursery = .ret 0 k1 ∧
      sysPageAlloc 0 0xeebff000 7 k1 = .ret 0 k2 ∧
      ¬ StackSafe 0 100 { initialTf with tfEsp := 0xeebff000 } 0x1000 k2 := by
  refine ⟨watchful, stacked, watchful_run, stacked_spec.1, fun hsafe => ?_⟩
  have hup : (stacked.envs 0).envPgfaultUpcall ≠ 0 := by decide +kernel
  refine absurd (hsafe.room stacked_spec.2 (by decide) hup fun v hge hlt => ?_).1 (by decide)
  obtain rfl : v = 977919 := by
    rw [show (utfAddr 0xeebff000).toNat / pgsize = 977919 from by decide] at hge
    rw [show (roundup (utfAddr 0xeebff000 + sizeofUTrapframe)).toNat / pgsize = 977920 from
      by decide] at hlt
    omega
  exact ⟨by decide, 104, by decide +kernel, by decide +kernel, by decide +kernel⟩

end Jos
