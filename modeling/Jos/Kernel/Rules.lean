import Jos.Kern.Trap

/-!
# Rules for kernel code

How the accesses of kernel code to its state enter a weakest precondition, and which
functions do nothing to the environments and the processors.
-/

namespace Jos

open Logic

variable {α β : Type} {Q : α → Kernel → Prop} {E : Kernel → Prop} {k k' : Kernel} {e : Nat}

@[simp] theorem wp_env {Q : Env → Kernel → Prop} : wp (env e) Q E k ↔ Q (k.envs e) k := by
  unfold env
  rw [wp_bind, wp_get, wp_pure]

@[simp] theorem wp_setEnv {f : Env → Env} {Q : Unit → Kernel → Prop} :
    wp (setEnv e f) Q E k ↔ Q () (k.setEnv e f) :=
  wp_modify

@[simp] theorem wp_setCurenv {e : Option Nat} {Q : Unit → Kernel → Prop} :
    wp (setCurenv e) Q E k ↔ Q () (k.setCpu fun c => { c with cpuEnv := e }) :=
  wp_modify

@[simp] theorem wp_lcr3 {d : Nat} {Q : Unit → Kernel → Prop} :
    wp (lcr3 d) Q E k ↔ Q () (k.setCpu fun c => { c with cr3 := d }) :=
  wp_modify

@[simp] theorem wp_curenv {Q : Nat → Kernel → Prop} :
    wp curenv Q E k ↔ ∀ e, k.curenv = some e → Q e k := by
  unfold curenv
  rw [wp_bind, wp_get]
  cases h : k.curenv with
  | none => simp
  | some e => simp

@[simp] theorem wp_paddr {d : Option Nat} {Q : Nat → Kernel → Prop} :
    wp (paddr d) Q E k ↔ ∀ x, d = some x → Q x k := by
  cases d with
  | none => simp [paddr]
  | some x => simp [paddr]

@[simp] theorem wp_onPhys {m : PhysM α} : wp (onPhys m) Q E k ↔
      wp m (fun a p => Q a { k with phys := p }) (fun p => E { k with phys := p }) k.phys :=
  wp_zoom

/-! ## Physical memory

No function of `kern/pmap.c` leaves the kernel. -/

theorem loadPte_noExit (pte : Nat × Nat) : (loadPte pte).NoExit := .bind .get fun _ => .pure _

theorem kaddr_noExit (page : Nat) : (kaddr page).NoExit :=
  .bind .get fun _ => .ite (.panic _) (.pure _)

theorem pa2page_noExit (page : Nat) : (pa2page page).NoExit :=
  .bind .get fun _ => .ite (.panic _) (.pure _)

theorem pageAlloc_noExit (flags : Word) : (pageAlloc flags).NoExit := by
  refine .bind .get fun p => ?_
  cases p.pageFreeList with
  | none => exact .pure _
  | some q =>
    have htail : (do
        Code.modify fun p : Phys => p.setRef q 0
        pure (some q) : PhysM (Option Nat)).NoExit := .bind (.modify _) fun _ => .pure _
    refine .bind (.modify _) fun _ => .ite ?_ htail
    exact .bind (kaddr_noExit _) fun _ => .bind (.modify _) fun _ => htail

theorem pageFree_noExit (pp : Nat) : (pageFree pp).NoExit := by
  refine .bind .get fun p => .ite ?_ ?_
  · exact .bind (.panic _) fun _ => .bind (.modify _) fun _ => .modify _
  · exact .bind (.modify _) fun _ => .modify _

theorem pageDecref_noExit (pp : Nat) : (pageDecref pp).NoExit :=
  .bind (.modify _) fun _ => .bind .get fun _ => .ite (pageFree_noExit pp) (.pure _)

theorem setupVm_noExit : setupVm.NoExit := by
  refine .bind (pageAlloc_noExit _) fun r => ?_
  cases r with
  | none => exact .pure _
  | some q =>
    refine .bind (.modify _) fun _ => .bind (kaddr_noExit _) fun _ => ?_
    exact .bind (.modify _) fun _ => .bind (.modify _) fun _ => .pure _

section

variable (pgdir : Option Nat)

include pgdir

theorem pgdirWalk_noExit (va : Word) (create : Bool) : (pgdirWalk pgdir va create).NoExit := by
  cases pgdir with
  | none => exact .panic _
  | some d =>
    refine .bind (loadPte_noExit _) fun _ => .ite ?_ (.ite (.pure _) ?_)
    · exact .bind (kaddr_noExit _) fun _ => .pure _
    · refine .bind (pageAlloc_noExit _) fun r => ?_
      cases r with
      | none => exact .pure _
      | some q =>
        refine .bind (.modify _) fun _ => .bind (.modify _) fun _ => ?_
        exact .bind (loadPte_noExit _) fun _ => .bind (kaddr_noExit _) fun _ => .pure _

theorem pageLookup_noExit (va : Word) : (pageLookup pgdir va).NoExit := by
  refine .bind (pgdirWalk_noExit _ _ _) fun r => ?_
  cases r with
  | none => exact .pure _
  | some pte =>
    refine .bind (loadPte_noExit _) fun _ => .ite ?_ (.pure _)
    exact .bind (pa2page_noExit _) fun _ => .pure _

theorem pageRemove_noExit (va : Word) : (pageRemove pgdir va).NoExit := by
  refine .bind (pageLookup_noExit _ _) fun r => ?_
  rcases r with _ | ⟨q, pte⟩
  · exact .pure _
  · exact .bind (pageDecref_noExit _) fun _ => .bind (loadPte_noExit _) fun _ => .modify _

theorem pageInsert_noExit (pp : Nat) (va perm : Word) : (pageInsert pgdir pp va perm).NoExit := by
  have hat : ∀ pte, (pageInsertAt pte pp perm).NoExit := fun _ =>
    .bind (.modify _) fun _ => .bind (.modify _) fun _ => .pure _
  refine .bind (pgdirWalk_noExit _ _ _) fun r => ?_
  cases r with
  | none =>
    refine .bind (pgdirWalk_noExit _ _ _) fun r => ?_
    cases r with
    | none => exact .pure _
    | some pte => exact hat pte
  | some pte =>
    have htail : (do
        if (← Code.get).pageFreeList = some pp then
          Code.modify fun p : Phys => { p with pageFreeList := (p.pages pp).ppLink }
        pageInsertAt pte pp perm : PhysM Int).NoExit :=
      .bind .get fun _ => .ite (.bind (.modify _) fun _ => hat pte) (hat pte)
    refine .bind (loadPte_noExit _) fun _ => .ite ?_ htail
    exact .bind (pageRemove_noExit _ _) fun _ => htail

theorem userMemCheck_noExit (va len perm : Word) : (userMemCheck pgdir va len perm).NoExit := by
  have hloop : ∀ fuel addr,
      (userMemCheckLoop pgdir (roundup (va + len)) perm fuel addr).NoExit := by
    intro fuel
    induction fuel with
    | zero => exact fun _ => .pure _
    | succ fuel ih =>
      intro addr
      rw [userMemCheckLoop]
      refine .ite ?_ (.pure _)
      refine .bind (pgdirWalk_noExit _ _ _) fun r => ?_
      cases r with
      | none => exact .bind (.modify _) fun _ => .pure _
      | some pte =>
        refine .bind (loadPte_noExit _) fun _ => .ite ?_ (ih _)
        exact .bind (.modify _) fun _ => .pure _
  exact hloop _ _

theorem regionAlloc_noExit (va len : Word) : (regionAlloc pgdir va len).NoExit := by
  have hpage : ∀ addr, (regionAllocPage pgdir addr).NoExit := by
    intro addr
    refine .bind (pageAlloc_noExit _) fun r => ?_
    cases r with
    | none => exact .panic _
    | some q =>
      refine .bind (.modify _) fun _ => .bind (pageInsert_noExit _ _ _ _) fun _ => ?_
      exact .ite (.panic _) (.pure _)
  unfold regionAlloc
  refine .ite ?_ (.times fun _ => hpage _)
  exact .bind (.panic _) fun _ => .times fun _ => hpage _

theorem sbrkPage_noExit (va : Word) : (sbrkPage pgdir va).NoExit := by
  refine .bind (pageAlloc_noExit _) fun r => ?_
  cases r with
  | none => exact .panic _
  | some q => exact .bind (pageInsert_noExit _ _ _ _) fun _ => .pure _

end

theorem envFreePde_noExit (pgdir pdeno : Nat) : (envFreePde pgdir pdeno).NoExit := by
  have hinner : ∀ pt, (Code.times nptentries (envFreePte pgdir pt pdeno)).NoExit := fun _ =>
    .times fun _ => .bind (loadPte_noExit _) fun _ => .ite (pageRemove_noExit _ _) (.pure _)
  refine .bind (loadPte_noExit _) fun _ => .ite ?_ (.pure _)
  refine .bind (kaddr_noExit _) fun _ => .bind (hinner _) fun _ => ?_
  exact .bind (.modify _) fun _ => .bind (pa2page_noExit _) fun _ => pageDecref_noExit _

/-- The environments and the processors are the same. -/
structure SameEnvs (k k' : Kernel) : Prop where
  envs : k'.envs = k.envs
  envFreeList : k'.envFreeList = k.envFreeList
  cpus : k'.cpus = k.cpus
  cpunum : k'.cpunum = k.cpunum
  envLog : k'.envLog = k.envLog

theorem SameEnvs.refl (k : Kernel) : SameEnvs k k := ⟨rfl, rfl, rfl, rfl, rfl⟩

section

variable (h : SameEnvs k k')

include h

theorem SameEnvs.trans {k'' : Kernel} (h' : SameEnvs k' k'') : SameEnvs k k'' :=
  ⟨h'.envs.trans h.envs, h'.envFreeList.trans h.envFreeList, h'.cpus.trans h.cpus,
    h'.cpunum.trans h.cpunum, h'.envLog.trans h.envLog⟩

theorem SameEnvs.curenv : k'.curenv = k.curenv := by
  unfold Kernel.curenv
  rw [h.cpus, h.cpunum]

theorem SameEnvs.setEnv (e : Nat) (f : Env → Env) : SameEnvs (k.setEnv e f) (k'.setEnv e f) := by
  refine ⟨?_, h.envFreeList, h.cpus, h.cpunum, h.envLog⟩
  unfold Kernel.setEnv
  rw [h.envs]

theorem SameEnvs.setCpu (f : Cpu → Cpu) : SameEnvs (k.setCpu f) (k'.setCpu f) := by
  refine ⟨h.envs, h.envFreeList, ?_, h.cpunum, h.envLog⟩
  unfold Kernel.setCpu
  rw [h.cpus, h.cpunum]

end

theorem SameEnvs.of_entry {f g : Env → Env} (h : f (k.envs e) = g (k.envs e)) :
    SameEnvs (k.setEnv e f) (k.setEnv e g) := by
  refine ⟨?_, rfl, rfl, rfl, rfl⟩
  unfold Kernel.setEnv
  rw [h]

/-- Code that stays in the kernel and changes neither environments nor processors. -/
structure Quiet (m : Kern α) : Prop where
  same : ∀ k, wp m (fun _ => SameEnvs k) (fun _ => False) k

namespace Quiet

theorem wp {m : Kern α} (h : Quiet m) (hQ : ∀ a k', SameEnvs k k' → Q a k') : wp m Q E k :=
  wp_mono (h.same k) hQ fun _ hf => hf.elim

theorem bind {m : Kern α} {f : α → Kern β} (h : Quiet m) (hf : ∀ a, Quiet (f a)) :
    Quiet (m >>= f) := by
  refine ⟨fun k => wp_bind.mpr (h.wp fun a k' hk' => (hf a).wp ?_)⟩
  exact fun _ _ hk'' => hk'.trans hk''

theorem pure (a : α) : Quiet (Pure.pure a : Kern α) := ⟨fun k => wp_pure.mpr (.refl k)⟩

theorem panic (e : String) : Quiet (Code.panic e : Kern α) := ⟨fun _ => wp_panic⟩

theorem get : Quiet (Code.get : Kern Kernel) := ⟨fun k => wp_get.mpr (.refl k)⟩

theorem modify {f : Kernel → Kernel} (h : ∀ k, SameEnvs k (f k)) : Quiet (Code.modify f) :=
  ⟨fun k => wp_modify.mpr (h k)⟩

theorem ite {c : Prop} [Decidable c] {m m' : Kern α} (h : Quiet m) (h' : Quiet m') :
    Quiet (if c then m else m') := by
  split
  · exact h
  · exact h'

theorem times {n : Nat} {body : Nat → Kern Unit} (h : ∀ i, Quiet (body i)) :
    Quiet (Code.times n body) := by
  induction n with
  | zero => exact .pure ()
  | succ n ih => exact ih.bind fun _ => h n

theorem onPhys {m : PhysM α} (h : m.NoExit) : Quiet (onPhys m) :=
  ⟨fun _ => wp_onPhys.mpr (h.wp fun _ _ _ => ⟨rfl, rfl, rfl, rfl, rfl⟩)⟩

theorem env (e : Nat) : Quiet (env e) := .bind .get fun _ => .pure _

theorem curenv : Quiet curenv := ⟨fun k => wp_curenv.mpr fun _ _ => .refl k⟩

end Quiet

section

variable (va : Word)

include va

theorem loadByte_quiet : Quiet (loadByte va) := by
  refine .bind .get fun k => ?_
  cases k.phys.translate (k.cpus k.cpunum).cr3 va false with
  | none => exact .panic _
  | some page => exact .pure _

theorem storeByte_quiet (b : BitVec 8) : Quiet (storeByte va b) := by
  refine .bind .get fun k => ?_
  cases k.phys.translate (k.cpus k.cpunum).cr3 va true with
  | none => exact .panic _
  | some page => exact .modify fun _ => ⟨rfl, rfl, rfl, rfl, rfl⟩

theorem load16_quiet : Quiet (load16 va) :=
  .bind (loadByte_quiet _) fun _ => .bind (loadByte_quiet _) fun _ => .pure _

theorem load32_quiet : Quiet (load32 va) :=
  .bind (load16_quiet _) fun _ => .bind (load16_quiet _) fun _ => .pure _

theorem loadTrapframe_quiet : Quiet (loadTrapframe va) := by
  have hregs : Quiet (loadPushRegs va) := by
    unfold loadPushRegs
    iterate 8 refine .bind (load32_quiet _) fun _ => ?_
    exact .pure _
  refine .bind hregs fun _ => ?_
  iterate 2 refine .bind (load16_quiet _) fun _ => ?_
  iterate 3 refine .bind (load32_quiet _) fun _ => ?_
  refine .bind (load16_quiet _) fun _ => ?_
  iterate 2 refine .bind (load32_quiet _) fun _ => ?_
  exact .bind (load16_quiet _) fun _ => .pure _

theorem copyOut_quiet (len : Nat) (bytes : Nat → BitVec 8) :
    Quiet (copyOut va len bytes) := .times fun _ => storeByte_quiet _ _

end

theorem store32_quiet (va w : Word) : Quiet (store32 va w) :=
  .bind (storeByte_quiet _ _) fun _ => .bind (storeByte_quiet _ _) fun _ =>
    .bind (storeByte_quiet _ _) fun _ => storeByte_quiet _ _

theorem storeUTrapframe_quiet (utf faultVa : Word) (tf : Trapframe) :
    Quiet (storeUTrapframe utf faultVa tf) := by
  have hregs : ∀ va, Quiet (storePushRegs va tf.tfRegs) := by
    intro va
    unfold storePushRegs
    iterate 7 refine .bind (store32_quiet _ _) fun _ => ?_
    exact store32_quiet _ _
  iterate 2 refine .bind (store32_quiet _ _) fun _ => ?_
  refine .bind (hregs _) fun _ => ?_
  iterate 2 refine .bind (store32_quiet _ _) fun _ => ?_
  exact store32_quiet _ _

theorem copyIn_quiet (len : Nat) : ∀ va : Word, Quiet (copyIn va len) := by
  induction len with
  | zero => exact fun _ => .pure _
  | succ len ih => exact fun _ => .bind (loadByte_quiet _) fun _ => .bind (ih _) fun _ => .pure _

theorem cprintfChars_quiet (fuel : Nat) : ∀ (p : Word) (precision : Int),
    Quiet (cprintfChars fuel p precision) := by
  induction fuel with
  | zero => exact fun _ _ => .pure _
  | succ fuel ih =>
    intro p precision
    refine .bind (loadByte_quiet _) fun ch => .ite (.pure _) ?_
    exact .ite (ih _ _) (.ite (ih _ _) (.pure _))

theorem timeTick_quiet : Quiet timeTick :=
  .bind (.modify fun _ => ⟨rfl, rfl, rfl, rfl, rfl⟩) fun _ => .bind .get fun _ =>
    .ite (.panic _) (.pure _)

theorem sysCgetc_quiet : Quiet sysCgetc := by
  refine .bind .get fun k => ?_
  cases k.cons with
  | nil => exact .pure _
  | cons c rest => exact .bind (.modify fun _ => ⟨rfl, rfl, rfl, rfl, rfl⟩) fun _ => .pure _

theorem e1000Tx_quiet (buf len : Word) : Quiet (e1000Tx buf len) := by
  refine .ite (.pure _) (.bind .get fun k => .ite (.pure _) (.ite (.pure _) ?_))
  exact .bind (copyIn_quiet _ _) fun _ =>
    .bind (.modify fun _ => ⟨rfl, rfl, rfl, rfl, rfl⟩) fun _ => .pure _

theorem e1000Rx_quiet (buf : Word) : Quiet (e1000Rx buf) := by
  refine .ite (.pure _) (.bind .get fun k => .ite (.pure _) ?_)
  exact .bind (copyOut_quiet _ _ _) fun _ =>
    .bind (.modify fun _ => ⟨rfl, rfl, rfl, rfl, rfl⟩) fun _ => .pure _

end Jos
