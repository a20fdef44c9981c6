import Jos.Kernel.Lifecycle

/-!
# What a send does

`sys_ipc_try_send` either fails and has changed nothing, in any state, or it maps the page if one is
sent and writes the receiver's slot. `page_insert` fails only before it has written anything.
-/

namespace Jos

open Logic

variable {k : Kernel} {p p' : Phys} {pgdir : Option Nat} {pp c e : Nat}
  {va perm envid value srcva : Word} {E : Phys → Prop} {Q : Option (Nat × Nat) → Phys → Prop}

theorem pgdirWalk_false_wp (h : ∀ r, Q r p) : wp (pgdirWalk pgdir va false) Q E p := by
  unfold pgdirWalk kaddr loadPte
  cases pgdir with
  | none => exact wp_panic
  | some d =>
    simp only [wp_bind, wp_get, wp_pure, wp_ite, if_true]
    refine ⟨fun _ => ⟨fun _ => wp_panic, fun _ => h _⟩, fun _ => h _⟩

theorem pageLookup_wp {Q : Option (Nat × (Nat × Nat)) → Phys → Prop}
    (h : ∀ r, pageLookup pgdir va p = .ret r p → Q r p) : wp (pageLookup pgdir va) Q E p := by
  have hsame : wp (pageLookup pgdir va) (fun _ p' => p' = p) (fun _ => False) p := by
    unfold pageLookup
    rw [wp_bind]
    refine pgdirWalk_false_wp fun r => ?_
    cases r with
    | none => exact wp_pure.mpr rfl
    | some pte =>
      unfold loadPte pa2page
      simp only [wp_bind, wp_get, wp_pure, wp_ite]
      exact ⟨fun _ => ⟨fun _ => wp_panic, fun _ => trivial⟩, fun _ => trivial⟩
  refine (pageLookup_noExit pgdir va).wp fun r p1 hrun => ?_
  obtain rfl := (wp_of_ret hrun).mp hsame
  exact h r hrun

theorem pageAlloc_inv_none {flags : Word} (h : pageAlloc flags p = .ret none p') :
    p.pageFreeList = none ∧ p' = p := by
  cases hq : p.pageFreeList with
  | none =>
    rw [pageAlloc_of_none hq] at h
    cases h
    exact ⟨rfl, rfl⟩
  | some q =>
    have hw : wp (pageAlloc flags) (fun r _ => r ≠ none) (fun _ => True) p := by
      unfold pageAlloc
      rw [wp_bind, wp_get, hq]
      have htail : ∀ p1, wp (do
          Code.modify fun p : Phys => p.setRef q 0
          pure (some q) : PhysM (Option Nat)) (fun r _ => r ≠ none) (fun _ => True) p1 := by
        intro p1
        rw [wp_bind, wp_modify, wp_pure]
        exact Option.some_ne_none q
      rw [wp_bind, wp_modify]
      refine wp_ite.mpr ⟨fun _ => ?_, fun _ => htail _⟩
      rw [wp_bind]
      refine (kaddr_noExit _).wp fun _ _ _ => ?_
      rw [wp_bind, wp_modify]
      exact htail _
    exact absurd rfl ((wp_of_ret h).mp hw)

theorem pgdirWalk_true_wp
    (hnone : p.pageFreeList = none → Q none p) (hsome : ∀ pte p', Q (some pte) p') :
    wp (pgdirWalk pgdir va true) Q E p := by
  unfold pgdirWalk
  cases pgdir with
  | none => exact wp_panic
  | some d =>
    rw [wp_bind]
    refine (loadPte_noExit _).wp fun w p1 hload => ?_
    cases hload
    refine wp_ite.mpr ⟨fun _ => ?_, fun _ => ?_⟩
    · rw [wp_bind]
      exact (kaddr_noExit _).wp fun _ _ _ => wp_pure.mpr (hsome _ _)
    · rw [if_neg (by decide), wp_bind]
      refine (pageAlloc_noExit _).wp fun r p1 halloc => ?_
      cases r with
      | none =>
        obtain ⟨hfull, rfl⟩ := pageAlloc_inv_none halloc
        exact wp_pure.mpr (hnone hfull)
      | some q =>
        unfold incref storePte
        simp only [wp_bind, wp_modify]
        refine (loadPte_noExit _).wp fun _ _ _ => ?_
        exact (kaddr_noExit _).wp fun _ _ _ => wp_pure.mpr (hsome _ _)

theorem pageInsert_wp {Q : Int → Phys → Prop} (hfull : p.pageFreeList = none → Q (-eNoMem) p)
    (hok : ∀ p', pageInsert pgdir pp va perm p = .ret 0 p' → Q 0 p') :
    wp (pageInsert pgdir pp va perm) Q E p := by
  have hcases : wp (pageInsert pgdir pp va perm)
      (fun r p' => r = 0 ∨ p.pageFreeList = none ∧ r = -eNoMem ∧ p' = p) (fun _ => False) p := by
    have hat : ∀ pte p1, wp (pageInsertAt pte pp perm)
        (fun r p' => r = 0 ∨ p.pageFreeList = none ∧ r = -eNoMem ∧ p' = p) (fun _ => False) p1 := by
      intro pte p1
      unfold pageInsertAt storePte incref
      simp only [wp_bind, wp_modify, wp_pure]
      exact Or.inl trivial
    unfold pageInsert
    rw [wp_bind]
    refine pgdirWalk_false_wp fun r => ?_
    cases r with
    | none =>
      rw [wp_bind]
      exact pgdirWalk_true_wp (fun hf => wp_pure.mpr (Or.inr ⟨hf, rfl, rfl⟩)) hat
    | some pte =>
      have htail : ∀ p1, wp (do
          if (← Code.get).pageFreeList = some pp then
            Code.modify fun p : Phys => { p with pageFreeList := (p.pages pp).ppLink }
          pageInsertAt pte pp perm : PhysM Int)
          (fun r p' => r = 0 ∨ p.pageFreeList = none ∧ r = -eNoMem ∧ p' = p) (fun _ => False)
          p1 := by
        intro p1
        rw [wp_bind, wp_get]
        refine wp_ite.mpr ⟨fun _ => ?_, fun _ => hat pte p1⟩
        rw [wp_bind, wp_modify]
        exact hat pte _
      rw [wp_bind]
      refine (loadPte_noExit _).wp fun _ p1 _ => ?_
      refine wp_ite.mpr ⟨fun _ => ?_, fun _ => htail p1⟩
      rw [wp_bind]
      exact (pageRemove_noExit _ _).wp fun _ p2 _ => htail p2
  refine (pageInsert_noExit pgdir pp va perm).wp fun r p1 hrun => ?_
  rcases (wp_of_ret hrun).mp hcases with rfl | ⟨hf, rfl, rfl⟩
  · exact hok p1 hrun
  · exact hfull hf

/-- The receiver `e` gets a message from `c`. -/
def Kernel.deliver (k : Kernel) (c e : Nat) (value perm : Word) : Kernel :=
  k.setEnv e fun env =>
    { env with
      envIpcRecving := false
      envIpcFrom := (k.envs c).envId
      envIpcValue := value
      envIpcPerm := perm
      envStatus := .runnable
      envTf := env.envTf.withEax 0 }

/-- What a send from `c` to `e` does to physical memory: nothing if no page is sent, and otherwise
the page is inserted at the address that `e` has given. -/
inductive PageSent (k : Kernel) (c e : Nat) (srcva perm : Word) : Phys → Prop where
  | none (hsrc : utop ≤ srcva.toNat) : PageSent k c e srcva perm k.phys
  | page {pp : Nat} {pte : Nat × Nat} {p1 : Phys} (hsrc : srcva.toNat < utop)
      (hoff : pgoff srcva = 0) (hperm : permOk perm)
      (hlookup : pageLookup (k.envs c).envPgdir srcva k.phys = .ret (some (pp, pte)) k.phys)
      (hwr : writable perm → writable (k.phys.mem pte.1 pte.2))
      (hins : pageInsert (k.envs e).envPgdir pp (k.envs e).envIpcDstva perm k.phys = .ret 0 p1) :
      PageSent k c e srcva perm p1

theorem sysIpcTrySend_wp {Q : Int → Kernel → Prop} {E : Kernel → Prop}
    (hfail : ∀ r : Int, r < 0 → Q r k)
    (hok : ∀ c e p1, k.curenv = some c → Names k envid false e → (k.envs e).envIpcRecving →
      PageSent k c e srcva perm p1 → Q 0 ({ k with phys := p1 }.deliver c e value perm)) :
    wp (sysIpcTrySend envid value srcva perm) Q E k := by
  have hinval : Q (-eInval) k := hfail _ (by decide)
  unfold sysIpcTrySend
  rw [wp_bind]
  refine envid2env_wp (wp_pure.mpr (hfail _ (by decide))) fun e hnames => ?_
  rw [wp_bind, wp_env]
  refine wp_ite.mpr ⟨fun _ => wp_pure.mpr (hfail _ (by decide)), fun hrecv => ?_⟩
  rw [Bool.not_eq_false] at hrecv
  refine wp_ite.mpr ⟨fun hsrc => ?_, fun hsrc => ?_⟩
  · refine wp_ite.mpr ⟨fun _ => wp_pure.mpr hinval, fun hoff => ?_⟩
    refine wp_ite.mpr ⟨fun _ => wp_pure.mpr hinval, fun hperm => ?_⟩
    rw [Bool.not_eq_false] at hperm
    rw [wp_bind, wp_curenv]
    intro c hc
    rw [wp_bind, wp_env, wp_bind, wp_onPhys]
    refine pageLookup_wp fun r hlookup => ?_
    rcases r with _ | ⟨pp, pte⟩
    · exact wp_pure.mpr hinval
    · rw [wp_bind, wp_onPhys, wp_of_ret (loadPte_eq rfl)]
      refine wp_ite.mpr ⟨fun _ => wp_pure.mpr hinval, fun hwr => ?_⟩
      rw [wp_bind, wp_env, wp_bind, wp_onPhys]
      refine pageInsert_wp (fun _ => ?_) fun p1 hins => ?_
      · refine wp_ite.mpr ⟨fun _ => ?_, fun hneg => absurd (by decide) hneg⟩
        exact wp_pure.mpr (hfail _ (by decide))
      · refine wp_ite.mpr ⟨fun hneg => absurd hneg (by decide), fun _ => ?_⟩
        rw [wp_bind, wp_curenv]
        intro c' hc'
        obtain rfl : c = c' := Option.some.inj (hc.symm.trans hc')
        rw [wp_bind, wp_env, wp_bind, wp_setEnv, wp_pure]
        refine hok c e p1 hc hnames hrecv (.page hsrc (not_not.mp hoff) hperm hlookup ?_ hins)
        intro hw
        by_contra hnw
        exact hwr ⟨hw, by simpa using hnw⟩
  · rw [wp_bind, wp_curenv]
    intro c hc
    rw [wp_bind, wp_env, wp_bind, wp_setEnv, wp_pure]
    exact hok c e k.phys hc hnames hrecv (.none (by omega))

end Jos
