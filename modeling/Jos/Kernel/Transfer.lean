import Jos.Kernel.Snapshot

/-!
# Sending pages

A page is to be mapped when the sender offers one and the receiver accepts one, both with an address
below `UTOP`. The code looks at the sender's address only, and reports the sender's permission word
in every case.
-/

namespace Jos

open Logic Kernel

variable {extra : Nat → Nat} {k k' : Kernel} {c e : Nat} {envid value srcva perm : Word}

/-- The environment `e` waits in `sys_ipc_recv`. -/
structure Blocked (k : Kernel) (e : Nat) : Prop where
  recving : (k.envs e).envIpcRecving
  status : (k.envs e).envStatus = .notRunnable

/-- What a send from `c` to `e` should do. Entries of the window `UVPT` are not compared,
because they show the page tables themselves. -/
def RespectsAddresses (k k' : Kernel) (c e : Nat) (srcva perm : Word) : Prop :=
  if srcva.toNat < utop ∧ (k.envs e).envIpcDstva.toNat < utop then
    (∃ d d' w, (k.envs c).envPgdir = some d ∧ (k.envs e).envPgdir = some d' ∧
      pteOf k.phys.mem d (pgnum srcva) = some w ∧
      pteOf k'.phys.mem d' (pgnum (k.envs e).envIpcDstva) = some (pteWord (pageOf w) perm)) ∧
    (∀ x d, k.Live x → (k.envs x).envPgdir = some d → ∀ v < 2 ^ 20, v / 1024 ≠ uvptIndex →
      ¬(x = e ∧ v = pgnum (k.envs e).envIpcDstva) →
      pteOf k'.phys.mem d v = pteOf k.phys.mem d v) ∧
    (k'.envs e).envIpcPerm = perm
  else
    (∀ x d, k.Live x → (k.envs x).envPgdir = some d → ∀ v < 2 ^ 20,
      pteOf k'.phys.mem d v = pteOf k.phys.mem d v) ∧
    (k'.envs e).envIpcPerm = 0

theorem Intact.pteOf_upper {p p' : Phys} {dirs : Finset Nat} {d v : Nat} {O : Nat → Prop}
    {T : Nat → Nat → Prop} (h : Intact (kernPages p) extra dirs p) (hd : d ∈ dirs)
    (hf : Frame (kernPages p) dirs O T p p') (hO : ∀ i, O i → i < userTables)
    (hv : userPages ≤ v) (hlt : v < 2 ^ 20) (hu : v / 1024 ≠ uvptIndex) :
    pteOf p'.mem d v = pteOf p.mem d v := by
  unfold userPages at hv
  have hi : userTables ≤ v / 1024 := by
    unfold userTables
    omega
  have hrow : p'.mem d (v / 1024) = p.mem d (v / 1024) :=
    hf.rows d hd _ fun ho => absurd (hO _ ho) (by omega)
  refine pteOf_congr (tableOf_congr hrow) fun t ht => ?_
  have htk : t ∈ kernPages p := by
    refine Or.inr ⟨v / 1024, by omega, hu, ?_⟩
    rw [← ht]
    unfold tableOf
    rw [h.upper d hd _ hi (by omega), if_neg hu]
  rw [hf.kern t htk]

theorem Kernel.deliver_perm (k : Kernel) (c e : Nat) (value perm : Word) :
    ((k.deliver c e value perm).envs e).envIpcPerm = perm := by
  unfold Kernel.deliver
  rw [setEnv_self]

theorem PageSent.respects {p1 : Phys} (h : Spaces (kernPages k.phys) extra k) (hc : k.Live c)
    (he : k.Live e) (hsrc : srcva.toNat < utop) (hdst : (k.envs e).envIpcDstva.toNat < utop)
    (hsent : PageSent k c e srcva perm p1) :
    RespectsAddresses k ({ k with phys := p1 }.deliver c e value perm) c e srcva perm := by
  cases hsent with
  | none hge => exact absurd hge (by omega)
  | page _ hoff hperm hlookup hwr hins =>
    obtain ⟨d, hd, hpgdir⟩ := h.dir_of_live hc
    obtain ⟨d', hd', hpgdir'⟩ := h.dir_of_live he
    rw [hpgdir] at hlookup
    rw [hpgdir'] at hins
    obtain ⟨w, hm, rfl, _⟩ := h.intact.toTables.lookup_inv hd hsrc hlookup
    obtain ⟨hf, hentry⟩ := pageInsert_effect h.intact.toAccounts hd' hdst
      (h.intact.mapped_lt hm) (permOk_spec hperm).1 hins
    unfold RespectsAddresses
    rw [if_pos ⟨hsrc, hdst⟩]
    refine ⟨⟨d, d', w, hpgdir, hpgdir', hm.2.2, hentry⟩, ?_, deliver_perm _ _ _ _ _⟩
    intro x dx hx hdx v hv hu hne
    have hxd : dx ∈ k.dirs := mem_dirs.mpr ⟨x, hx, hdx⟩
    change pteOf p1.mem dx v = _
    by_cases hlow : v < userPages
    · refine hf.entries dx hxd v hlow fun hslot => hne ⟨?_, hslot.2⟩
      rw [hslot.1] at hdx
      exact h.inj hx he hdx hpgdir'
    · exact h.intact.pteOf_upper hxd hf (fun _ hi => hi) (by omega) hv hu

/-- A send that succeeds treats the addresses of both sides as it should exactly when both
are below `UTOP`, or when no page is offered and the permission word is zero. -/
theorem send_respects_iff (h : Spaces (kernPages k.phys) extra k) (hc : k.curenv = some c)
    (hlive : k.Live c) (hnames : Names k envid false e)
    (hrun : sysIpcTrySend envid value srcva perm k = .ret 0 k') :
    RespectsAddresses k k' c e srcva perm ↔
      (srcva.toNat < utop ∧ (k.envs e).envIpcDstva.toNat < utop) ∨
        (utop ≤ srcva.toNat ∧ perm = 0) := by
  have hcur : k.LiveCur := fun x hx => Option.some.inj (hc.symm.trans hx) ▸ hlive
  obtain ⟨p1, hsent, rfl⟩ : ∃ p1, PageSent k c e srcva perm p1 ∧
      k' = { k with phys := p1 }.deliver c e value perm := by
    have hw : wp (sysIpcTrySend envid value srcva perm) (fun r k' => r = 0 →
        ∃ p1, PageSent k c e srcva perm p1 ∧ k' = { k with phys := p1 }.deliver c e value perm)
        (fun _ => True) k := by
      refine sysIpcTrySend_wp (fun r hr h0 => absurd hr (by omega)) ?_
      intro c' e' p1 hc' hnames' _ hsent _
      obtain rfl : c = c' := Option.some.inj (hc.symm.trans hc')
      obtain rfl : e = e' := hnames.unique hnames'
      exact ⟨p1, hsent, rfl⟩
    exact (wp_of_ret hrun).mp hw rfl
  constructor
  · intro hresp
    by_cases hboth : srcva.toNat < utop ∧ (k.envs e).envIpcDstva.toNat < utop
    · exact Or.inl hboth
    · unfold RespectsAddresses at hresp
      rw [if_neg hboth, deliver_perm] at hresp
      refine Or.inr ⟨?_, hresp.2⟩
      cases hsent with
      | none hge => exact hge
      | page _ _ hperm _ _ _ =>
        rw [hresp.2] at hperm
        exact absurd hperm (by decide)
  · rintro (⟨hsrc, hdst⟩ | ⟨hge, rfl⟩)
    · exact hsent.respects h hlive (hnames.live hcur) hsrc hdst
    · cases hsent with
      | page hsrc _ _ _ _ _ => exact absurd hsrc (by omega)
      | none _ =>
        unfold RespectsAddresses
        rw [if_neg (by omega)]
        exact ⟨fun _ _ _ _ _ _ => rfl, deliver_perm _ _ _ _ _⟩

def Call.recv (slot : Nat) (dstva : Word) : Call := ⟨0, slot, 13, dstva, 0, 0, 0, 0⟩

/-- The environment in slot 0 of the pair waits, and the one in slot 1 has entered the
kernel. -/
@[irreducible] def waiting (dstva : Word) : Kernel :=
  (((Call.recv 0 dstva).run (pair.enter (.recv 0 dstva))).after pair).enter (.recv 1 0)

theorem waiting_spaces (dstva : Word)
    (h : ((Call.recv 0 dstva).run (pair.enter (.recv 0 dstva))).leaves) :
    ∃ extra, Spaces (kernPages (waiting dstva).phys) extra (waiting dstva) := by
  obtain ⟨⟨extra, hs⟩, hb⟩ := pair_sound
  have hlive : pair.Live 0 := by decide +kernel
  have hch := exit_of_wp (Call.run_changes (c := .recv 0 dstva) hs hb hlive rfl (by decide)
    fun hsend => by cases hsend) (Outcome.exit_of_leaves h pair)
  have hsp := Changes.spaces_kernPages (k := pair.enter (.recv 0 dstva)) hch
  unfold waiting
  exact ⟨extra, hsp.of_sameSlots (enter_sameSlots _ _) rfl⟩

/-- A page goes from slot 1 to the address `0xa00000` of slot 0. -/
theorem send_respects_iff_below : ∃ k', Blocked (waiting 0xa00000) 0 ∧
    sysIpcTrySend 0x1000 5 0x800000 7 (waiting 0xa00000) = .ret 0 k' ∧
    RespectsAddresses (waiting 0xa00000) k' 1 0 0x800000 7 := by
  obtain ⟨extra, hs⟩ := waiting_spaces 0xa00000 (by decide +kernel)
  have hrun : sysIpcTrySend 0x1000 5 0x800000 7 (waiting 0xa00000) = .ret 0 _ :=
    Outcome.eq_ret pair (by decide +kernel)
  have hcur : (waiting 0xa00000).curenv = some 1 := by decide +kernel
  have hlive : (waiting 0xa00000).Live 1 := by decide +kernel
  have hnames : Names (waiting 0xa00000) 0x1000 false 0 :=
    Or.inr ⟨by decide, rfl, by decide +kernel, by decide +kernel, fun hf => by cases hf⟩
  have hdst : ((waiting 0xa00000).envs 0).envIpcDstva.toNat < utop := by decide +kernel
  exact ⟨_, ⟨by decide +kernel, by decide +kernel⟩, hrun,
    (send_respects_iff hs hcur hlive hnames hrun).mpr (Or.inl ⟨by decide, hdst⟩)⟩

/-- The receiver wants no page, and says so with `dstva = UTOP`. The page is mapped all the same, in
a table of the kernel. -/
theorem send_at_utop_maps_kernel_table : ∃ k', Blocked (waiting (toWord utop)) 0 ∧
    ((waiting (toWord utop)).envs 0).envIpcDstva.toNat = utop ∧
    sysIpcTrySend 0x1000 5 0x800000 7 (waiting (toWord utop)) = .ret 0 k' ∧
    pteOf k'.phys.mem k'.phys.kernPgdir (utop / pgsize) ≠
      pteOf (waiting (toWord utop)).phys.mem k'.phys.kernPgdir (utop / pgsize) ∧
    (k'.envs 0).envIpcPerm = 7 ∧
    ¬RespectsAddresses (waiting (toWord utop)) k' 1 0 0x800000 7 := by
  have hrun : sysIpcTrySend 0x1000 5 0x800000 7 (waiting (toWord utop)) = .ret 0 _ :=
    Outcome.eq_ret pair (by decide +kernel)
  have hdst : ((waiting (toWord utop)).envs 0).envIpcDstva.toNat = utop := by
    decide +kernel
  have hperm : (((sysIpcTrySend 0x1000 5 0x800000 7
      (waiting (toWord utop))).after pair).envs 0).envIpcPerm = 7 := by decide +kernel
  refine ⟨_, ⟨by decide +kernel, by decide +kernel⟩, hdst, hrun, by decide +kernel, hperm, ?_⟩
  intro hresp
  unfold RespectsAddresses at hresp
  rw [if_neg (by omega), hperm] at hresp
  exact absurd hresp.2 (by decide)

end Jos
