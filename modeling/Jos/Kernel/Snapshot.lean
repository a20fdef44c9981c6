import Jos.Kernel.Loading
import Jos.Paging.Init

/-!
# A machine after boot

`Booted` says what `mem_init` and `env_init` leave: the page accounts are in order, the
lower half of `kern_pgdir` is empty, and all environments are free. The snapshot is such
a machine with 128 pages of memory.
-/

namespace Jos

open Logic Finset List

/-- The pages of `kern_pgdir` and of the page tables it refers to. -/
def kernPages (p : Phys) : Set Nat :=
  {x | x = p.kernPgdir ∨ ∃ i < 1024, i ≠ uvptIndex ∧ tableOf p.mem p.kernPgdir i = some x}

theorem kernPages_congr {p p' : Phys} (hk : p'.kernPgdir = p.kernPgdir)
    (hm : ∀ x ∈ kernPages p, p'.mem x = p.mem x) : kernPages p' = kernPages p := by
  have hrow : ∀ i, tableOf p'.mem p'.kernPgdir i = tableOf p.mem p.kernPgdir i := by
    intro i
    unfold tableOf
    rw [hk, hm _ (Or.inl rfl)]
  unfold kernPages
  simp only [hk, ← hrow]

theorem Changes.spaces_kernPages {extra : Nat → Nat} {k k' : Kernel}
    (h : Changes (kernPages k.phys) extra k k') : Spaces (kernPages k'.phys) extra k' := by
  rw [kernPages_congr h.kernPgdir h.kern]
  exact h.spaces

/-- The state after `mem_init` and `env_init`. A page has one reference that no directory
of an environment shows if the kernel uses it, and none otherwise. -/
structure Booted (extra : Nat → Nat) (k : Kernel) : Prop where
  accounts : Accounts (kernPages k.phys) extra ∅ k.phys
  extra_le : ∀ q, extra q ≤ 1
  free : ∀ e < nenv, (k.envs e).envStatus = .free
  free_list : ∃ l, Chain (fun e => (k.envs e).envLink) k.envFreeList l ∧ l.Nodup ∧
    ∀ e ∈ l, e < nenv

variable {extra : Nat → Nat} {k : Kernel}

section

variable (h : Booted extra k)

include h

theorem Booted.not_live (e : Nat) : ¬k.Live e := fun hl => hl.2 (h.free e hl.1)

theorem Booted.dirs_eq : k.dirs = ∅ := by
  ext d
  rw [mem_dirs]
  constructor
  · rintro ⟨e, he, _⟩
    exact absurd he (h.not_live e)
  · intro hd
    exact absurd hd (notMem_empty d)

theorem Booted.spaces : Spaces (kernPages k.phys) extra k := by
  refine ⟨⟨?_, ?_, ?_⟩, ?_⟩
  · exact fun he => absurd he (h.not_live _)
  · exact fun he => absurd he (h.not_live _)
  · obtain ⟨l, hl, hnd, hlt⟩ := h.free_list
    exact ⟨l, hl, hnd, fun e he => ⟨hlt e he, h.free e (hlt e he)⟩⟩
  · rw [h.dirs_eq]
    refine ⟨h.accounts, h.extra_le, ?_, ?_⟩
    · exact fun d hd => absurd hd (notMem_empty d)
    · exact fun hm => absurd hm.1 (notMem_empty _)

theorem Booted.few : FewMappings k.dirs k.phys := by
  intro q
  rw [h.dirs_eq]
  have hz : mapCount k.phys.mem ∅ q = 0 := by
    rw [mapCount, refs_eq_zero_iff]
    intro x hx
    rw [empty_product] at hx
    exact absurd hx (notMem_empty x)
  omega

end

/-- The entries of `kern_pgdir`, which is page 1. The tables for `UENVS`, `UPAGES`, the
devices, the kernel stacks and all of physical memory are the pages 2 to 70. -/
def snapshotDir (i : Nat) : Word :=
  if i = uvptIndex then selfEntry 1
  else if 955 ≤ i ∧ i < 1024 then pdeWord (i - 953)
  else 0

def snapshotMem (page i : Nat) : Word :=
  if page = 1 then snapshotDir i
  else if page = 2 ∧ i < 24 then page2pa (71 + i) ||| pteU ||| pteP
  else if page = 3 ∧ i = 0 then page2pa 95 ||| pteU ||| pteP
  else if 7 ≤ page ∧ page < 71 then page2pa ((page - 7) * 1024 + i) ||| pteW ||| pteP
  else 0

/-- The first 100 pages are in use, and the others are free. -/
def snapshotPhys : Phys where
  npages := 128
  npages_le := by decide
  kernPgdir := 1
  pages q := ⟨if q < 100 then none else upTo 128 q, if q < 100 then 1 else 0⟩
  pageFreeList := some 100
  userMemCheckAddr := 0
  mem := snapshotMem

def snapshotEnv (e : Nat) : Env where
  envTf := .zero
  envLink := upTo nenv e
  envId := 0
  envParentId := 0
  envType := .user
  envStatus := .free
  envRuns := 0
  envCpunum := 0
  envPgdir := none
  envPgfaultUpcall := 0
  envIpcRecving := false
  envIpcDstva := 0
  envIpcValue := 0
  envIpcFrom := 0
  envIpcPerm := 0
  envBreak := 0

def snapshotCpu : Cpu where
  cpuStatus := .started
  cpuEnv := none
  cr3 := 1
  mode := .boot
  userTf := .zero

def snapshot : Kernel where
  phys := snapshotPhys
  envs := snapshotEnv
  envFreeList := some 0
  cpus _ := snapshotCpu
  cpunum := 0
  ticks := 0
  cons := []
  e1000 := ⟨0, 0, 0, fun _ => ⟨0, 0, 1, []⟩, fun _ => ⟨0, 0, fun _ => 0⟩⟩
  envLog := []

def hello : Elf where
  eEntry := 0x800020
  ph := [⟨elfProgLoad, 0, 0x800000, 4, 4096⟩]
  byte i := BitVec.ofNat 8 i

/-- The references of the snapshot that no table of an environment shows. -/
def snapshotExtra (q : Nat) : Nat := if q < 100 then 1 else 0

theorem snapshotDir_table {i t : Nat} (hu : i ≠ uvptIndex) (h : present (snapshotDir i))
    (ht : pageOf (snapshotDir i) = t) : 955 ≤ i ∧ t < 100 := by
  unfold snapshotDir at h ht
  rw [if_neg hu] at h ht
  by_cases hi : 955 ≤ i ∧ i < 1024
  · rw [if_pos hi, (pdeWord_spec (by omega)).2] at ht
    omega
  · rw [if_neg hi, present_zero] at h
    cases h

theorem snapshot_booted : Booted snapshotExtra snapshot := by
  have htable : ∀ i t, i ≠ uvptIndex → tableOf snapshotMem 1 i = some t → 955 ≤ i ∧ t < 100 := by
    intro i t hu ht
    obtain ⟨hp, hpage⟩ := tableOf_eq_some.mp ht
    exact snapshotDir_table hu hp hpage
  refine ⟨⟨⟨Or.inl rfl, ?_, ?_, ?_, ?_, ?_, ?_, ?_, ?_⟩, ?_, ?_, ?_⟩, ?_, fun _ _ => rfl, ?_⟩
  · intro i hi
    cases ht : tableOf snapshotMem 1 i with
    | none => exact ht
    | some t =>
      unfold userTables at hi
      have := (htable i t (by unfold uvptIndex; omega) ht).1
      omega
  · exact fun d hd => absurd hd (notMem_empty d)
  · exact fun d hd => absurd hd (notMem_empty d)
  · exact fun ht => absurd ht.1 (notMem_empty _)
  · exact fun ht => absurd ht.1 (notMem_empty _)
  · exact fun ht => absurd ht.1 (notMem_empty _)
  · exact fun ht => absurd ht.1 (notMem_empty _)
  · exact fun hm => absurd hm.1 (notMem_empty _)
  · intro q hq
    have hlt : q < 100 := by
      rcases hq with rfl | ⟨i, _, hu, ht⟩
      · decide
      · exact (htable i q hu ht).2
    unfold snapshotExtra
    rw [if_pos hlt]
    exact Nat.one_pos
  · refine ⟨List.range' 100 28, ?_, nodup_range', fun q hq => ?_⟩
    · refine (chain_upTo (n := 128) 28 100 rfl).congr fun q hq => ?_
      rw [mem_range'_1] at hq
      exact if_neg (by omega)
    · rw [mem_range'_1] at hq
      refine ⟨hq.2, ?_⟩
      rw [Phys.total_empty, snapshotExtra, if_neg (by omega)]
  · intro q _
    rw [Phys.total_empty, Nat.zero_add]
    by_cases hq : q < 100
    · simp [snapshot, snapshotPhys, snapshotExtra, hq]
    · simp [snapshot, snapshotPhys, snapshotExtra, hq]
  · intro q
    unfold snapshotExtra
    split <;> omega
  · refine ⟨List.range' 0 nenv, chain_upTo (n := nenv) nenv 0 (Nat.zero_add _),
      nodup_range', fun e he => ?_⟩
    rw [mem_range'_1] at he
    omega

theorem hello_wellFormed : hello.WellFormed := by
  intro ph hph _
  obtain rfl := List.mem_singleton.mp hph
  decide

@[irreducible] def single : Kernel := (envCreate hello .user snapshot).after snapshot

@[irreducible] def pair : Kernel := (envCreate hello .user single).after single

/-- Address spaces in order, with the kernel's pages as their own `kern_pgdir` gives them. -/
def Sound (k : Kernel) : Prop :=
  (∃ extra, Spaces (kernPages k.phys) extra k) ∧ FewMappings k.dirs k.phys

/-- The environment `c`, with the directory `d`, executes. -/
structure Executes (c d : Nat) (k : Kernel) : Prop where
  sound : Sound k
  current : k.curenv = some c
  live : k.Live c
  pgdir : (k.envs c).envPgdir = some d

theorem Booted.sound (h : Booted extra k) : Sound k := ⟨⟨extra, h.spaces⟩, h.few⟩

theorem Sound.create {binary : Elf} {type : EnvType} {k' : Kernel} (h : Sound k)
    (hwf : binary.WellFormed) (hrun : envCreate binary type k = .ret () k') : Sound k' := by
  obtain ⟨⟨extra, hs⟩, hb⟩ := h
  have hw : wp (envCreate binary type) (fun _ => Created (kernPages k.phys) k)
      (fun _ => True) k := envCreate_created hs hb hwf
  have hc := (wp_of_ret hrun).mp hw
  refine ⟨?_, hc.few⟩
  rw [kernPages_congr hc.kernPgdir hc.kern]
  exact hc.spaces

theorem Sound.of_sameSlots {k' : Kernel} (h : Sound k) (hsame : SameSlots k k')
    (hphys : k'.phys = k.phys) : Sound k' := by
  obtain ⟨⟨extra, hs⟩, hb⟩ := h
  unfold Sound
  rw [hphys, hsame.dirs_eq]
  exact ⟨⟨extra, hs.of_sameSlots hsame hphys⟩, hb⟩

theorem single_run : envCreate hello .user snapshot = .ret () single := by
  unfold single
  exact Outcome.eq_ret snapshot (by decide +kernel)

theorem pair_run : envCreate hello .user single = .ret () pair := by
  unfold pair
  exact Outcome.eq_ret single (by decide +kernel)

theorem pair_sound : Sound pair :=
  (snapshot_booted.sound.create hello_wellFormed single_run).create hello_wellFormed pair_run

/-- The first environment of `pair` executes, and the second one is its child. -/
@[irreducible] def nursery : Kernel :=
  (pair.setEnv 1 fun env => { env with envParentId := 0x1000 }).setCpu fun c =>
    { c with
      cpuEnv := some 0
      cr3 := ((pair.envs 0).envPgdir).getD 0 }

theorem nursery_sound : Sound nursery := by
  unfold nursery
  exact pair_sound.of_sameSlots
    ((Kernel.setEnv_sameSlots rfl rfl Iff.rfl).trans (Kernel.setCpu_sameSlots _ _)) rfl

theorem nursery_cur : nursery.curenv = some 0 := by decide +kernel

theorem nursery_executes : Executes 0 100 nursery :=
  ⟨nursery_sound, nursery_cur, ⟨by decide, by decide +kernel⟩, by decide +kernel⟩

end Jos
