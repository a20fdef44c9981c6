import Mathlib.Data.Finset.Option
import Jos.Kernel.Lifecycle

/-!
# The address spaces of the environments

Every live environment has a directory of its own, and the page accounts cover the tables of these.
`Changes` is what system calls may do: the kernel's pages stay as they are, and every new mapping is
one that the rules for sharing allow.
-/

namespace Jos

open Logic List Finset

variable {K : Set Nat} {extra : Nat → Nat} {k k' k'' : Kernel} {e d q : Nat} {w : Word}

/-- The slot `e` holds an environment. -/
def Kernel.Live (k : Kernel) (e : Nat) : Prop := e < nenv ∧ (k.envs e).envStatus ≠ .free

instance (k : Kernel) (e : Nat) : Decidable (k.Live e) := inferInstanceAs (Decidable (_ ∧ _))

/-- The directories of the live environments. -/
@[irreducible] def Kernel.dirs (k : Kernel) : Finset Nat :=
  {e ∈ Finset.range nenv | k.Live e}.biUnion fun e => (k.envs e).envPgdir.toFinset

theorem mem_dirs : d ∈ k.dirs ↔ ∃ e, k.Live e ∧ (k.envs e).envPgdir = some d := by
  unfold Kernel.dirs
  simp only [Finset.mem_biUnion, Finset.mem_filter, Finset.mem_range, Option.mem_toFinset,
    Option.mem_def]
  constructor
  · rintro ⟨e, ⟨_, hlive⟩, hd⟩
    exact ⟨e, hlive, hd⟩
  · rintro ⟨e, hlive, hd⟩
    exact ⟨e, ⟨hlive.1, hlive⟩, hd⟩

/-- The list `env_free_list` is finite, without repetition, and holds free slots only. -/
def FreeSlots (k : Kernel) : Prop :=
  ∃ l, Chain (fun e => (k.envs e).envLink) k.envFreeList l ∧ l.Nodup ∧
    ∀ e ∈ l, e < nenv ∧ (k.envs e).envStatus = .free

/-- The environment table is in order. -/
structure Slots (k : Kernel) : Prop where
  pgdir : ∀ {e}, k.Live e → ∃ d, (k.envs e).envPgdir = some d
  inj : ∀ {e e' d}, k.Live e → k.Live e' → (k.envs e).envPgdir = some d →
    (k.envs e').envPgdir = some d → e = e'
  free_list : FreeSlots k

structure Spaces (K : Set Nat) (extra : Nat → Nat) (k : Kernel) : Prop extends Slots k where
  intact : Intact K extra k.dirs k.phys

def Kernel.LiveCur (k : Kernel) : Prop := ∀ c, k.curenv = some c → k.Live c

theorem Names.live {envid : Word} {checkperm : Bool} (h : Names k envid checkperm e)
    (hcur : k.LiveCur) : k.Live e := by
  rcases h with ⟨_, hc⟩ | ⟨_, rfl, hs, _⟩
  · exact hcur e hc
  · exact ⟨envx_lt envid, hs⟩

structure SameSlots (k k' : Kernel) : Prop where
  envFreeList : k'.envFreeList = k.envFreeList
  pgdir : ∀ e < nenv, (k'.envs e).envPgdir = (k.envs e).envPgdir
  link : ∀ e < nenv, (k'.envs e).envLink = (k.envs e).envLink
  free : ∀ e < nenv, (k'.envs e).envStatus = .free ↔ (k.envs e).envStatus = .free

theorem SameSlots.refl (k : Kernel) : SameSlots k k :=
  ⟨rfl, fun _ _ => rfl, fun _ _ => rfl, fun _ _ => Iff.rfl⟩

section

variable (h : SameSlots k k')

include h

theorem SameSlots.live_iff : k'.Live e ↔ k.Live e := by
  unfold Kernel.Live
  constructor
  · rintro ⟨he, hs⟩
    exact ⟨he, fun hf => hs ((h.free e he).mpr hf)⟩
  · rintro ⟨he, hs⟩
    exact ⟨he, fun hf => hs ((h.free e he).mp hf)⟩

theorem SameSlots.dirs_eq : k'.dirs = k.dirs := by
  ext d
  rw [mem_dirs, mem_dirs]
  constructor
  · rintro ⟨e, he, hd⟩
    exact ⟨e, h.live_iff.mp he, h.pgdir e he.1 ▸ hd⟩
  · rintro ⟨e, he, hd⟩
    exact ⟨e, h.live_iff.mpr he, (h.pgdir e he.1).trans hd⟩

theorem SameSlots.freeSlots (hs : FreeSlots k) : FreeSlots k' := by
  obtain ⟨l, hl, hnd, hfree⟩ := hs
  refine ⟨l, ?_, hnd, fun e he => ?_⟩
  · rw [h.envFreeList]
    exact hl.congr fun e he => h.link e (hfree e he).1
  · obtain ⟨hlt, hst⟩ := hfree e he
    exact ⟨hlt, (h.free e hlt).mpr hst⟩

theorem SameSlots.slots (hs : Slots k) : Slots k' where
  pgdir := by
    intro e he
    rw [h.pgdir e he.1]
    exact hs.pgdir (h.live_iff.mp he)
  inj := by
    intro e e' d he he' hd hd'
    rw [h.pgdir e he.1] at hd
    rw [h.pgdir e' he'.1] at hd'
    exact hs.inj (h.live_iff.mp he) (h.live_iff.mp he') hd hd'
  free_list := h.freeSlots hs.free_list

theorem SameSlots.trans (h' : SameSlots k' k'') : SameSlots k k'' where
  envFreeList := h'.envFreeList.trans h.envFreeList
  pgdir e he := (h'.pgdir e he).trans (h.pgdir e he)
  link e he := (h'.link e he).trans (h.link e he)
  free e he := (h'.free e he).trans (h.free e he)

end

theorem SameSlots.of_sameEnvs (h : SameEnvs k k') : SameSlots k k' := by
  refine ⟨h.envFreeList, ?_, ?_, ?_⟩ <;> intro e _ <;> rw [h.envs]

theorem Kernel.setEnv_sameSlots {f : Env → Env} (hp : (f (k.envs e)).envPgdir = (k.envs e).envPgdir)
    (hl : (f (k.envs e)).envLink = (k.envs e).envLink)
    (hs : (f (k.envs e)).envStatus = .free ↔ (k.envs e).envStatus = .free) :
    SameSlots k (k.setEnv e f) where
  envFreeList := rfl
  pgdir x _ := k.setEnv_field e f Env.envPgdir hp x
  link x _ := k.setEnv_field e f Env.envLink hl x
  free x _ := by
    by_cases hx : x = e
    · rw [hx, Kernel.setEnv_self]
      exact hs
    · rw [k.setEnv_of_ne e f hx]

theorem Kernel.setCpu_sameSlots (k : Kernel) (f : Cpu → Cpu) : SameSlots k (k.setCpu f) :=
  ⟨rfl, fun _ _ => rfl, fun _ _ => rfl, fun _ _ => Iff.rfl⟩

theorem Scheduled.sameSlots (h : Scheduled k k') : SameSlots k k' where
  envFreeList := h.elsewhere.envFreeList
  pgdir e _ := (h.envs e).field Env.envPgdir fun _ _ _ => rfl
  link e _ := (h.envs e).field Env.envLink fun _ _ _ => rfl
  free e _ := (h.envs e).free_iff

/-- The mapping `w` may be created between `k` and `k'`: its page was free, or some environment maps
it, and then `w` is writable only if that mapping is. -/
def Granted (k k' : Kernel) (w : Word) : Prop :=
  ∃ pp perm, w = pteWord pp perm ∧ permOk perm ∧
    ((k.phys.Free pp ∧ ¬k'.phys.Free pp) ∨
      ∃ d v w', MapsAt k.dirs k.phys d v w' ∧ pageOf w' = pp ∧ (writable perm → writable w'))

structure Changes (K : Set Nat) (extra : Nat → Nat) (k k' : Kernel) : Prop where
  spaces : Spaces K extra k'
  kernPgdir : k'.phys.kernPgdir = k.phys.kernPgdir
  kern : ∀ x ∈ K, k'.phys.mem x = k.phys.mem x
  entries : ∀ {d v w}, MapsAt k'.dirs k'.phys d v w →
    MapsAt k.dirs k.phys d v w ∨ Granted k k' w

section

variable (h : Spaces K extra k)

include h

theorem Spaces.of_sameSlots (hs : SameSlots k k') (hp : k'.phys = k.phys) : Spaces K extra k' := by
  refine ⟨hs.slots h.toSlots, ?_⟩
  rw [hs.dirs_eq, hp]
  exact h.intact

theorem Changes.of_sameSlots (hs : SameSlots k k')
    (hp : k'.phys = k.phys) : Changes K extra k k' where
  spaces := h.of_sameSlots hs hp
  kernPgdir := by rw [hp]
  kern _ _ := by rw [hp]
  entries := by
    intro d v w hm
    rw [hs.dirs_eq, hp] at hm
    exact .inl hm

theorem Changes.refl : Changes K extra k k := .of_sameSlots h (.refl k) rfl

theorem Changes.of_phys {O : Nat → Prop} {T : Nat → Nat → Prop}
    (hs : SameSlots k k') (hi : Intact K extra k.dirs k'.phys)
    (hf : Frame K k.dirs O T k.phys k'.phys)
    (hnew : ∀ {d v w}, T d v → MapsAt k.dirs k'.phys d v w → Granted k k' w) :
    Changes K extra k k' where
  spaces := ⟨hs.slots h.toSlots, hs.dirs_eq ▸ hi⟩
  kernPgdir := hf.kernPgdir
  kern := hf.kern
  entries := by
    intro d v w hm
    rw [hs.dirs_eq] at hm
    by_cases hT : T d v
    · exact .inr (hnew hT hm)
    · exact .inl (hf.mapsAt hT hm)

end

theorem Changes.then (h : Changes K extra k k') (hs : SameSlots k' k'')
    (hp : k''.phys = k'.phys) : Changes K extra k k'' where
  spaces := h.spaces.of_sameSlots hs hp
  kernPgdir := hp ▸ h.kernPgdir
  kern x hx := by rw [hp, h.kern x hx]
  entries := by
    intro d v w hm
    rw [hs.dirs_eq, hp] at hm
    unfold Granted
    rw [hp]
    exact h.entries hm

theorem FreeSlots.head (h : FreeSlots k) (he : k.envFreeList = some e) :
    e < nenv ∧ (k.envs e).envStatus = .free := by
  obtain ⟨l, hl, _, hfree⟩ := h
  rw [he] at hl
  obtain ⟨l, rfl, -⟩ := hl.exists_cons
  exact hfree e mem_cons_self

section Allocation

variable {parentId : Word}

section

variable (h : EnvAllocated k parentId e q k')

include h

theorem EnvAllocated.live_iff (he : e < nenv) {x : Nat} : k'.Live x ↔ x = e ∨ k.Live x := by
  unfold Kernel.Live
  by_cases hx : x = e
  · rw [hx, h.entry]
    simp [he]
  · rw [h.other x hx]
    simp [hx]

theorem EnvAllocated.dirs_eq (hs : Slots k) : k'.dirs = insert q k.dirs := by
  obtain ⟨hlt, hfree⟩ := hs.free_list.head h.head
  have hpgdir : (k'.envs e).envPgdir = some q := by rw [h.entry]
  ext d
  rw [mem_insert, mem_dirs, mem_dirs]
  constructor
  · rintro ⟨x, hx, hd⟩
    by_cases hxe : x = e
    · rw [hxe, hpgdir] at hd
      exact .inl (Option.some.inj hd).symm
    · refine .inr ⟨x, ((h.live_iff hlt).mp hx).resolve_left hxe, ?_⟩
      rw [← h.other x hxe]
      exact hd
  · rintro (rfl | ⟨x, hx, hd⟩)
    · exact ⟨e, (h.live_iff hlt).mpr (.inl rfl), hpgdir⟩
    · have hxe : x ≠ e := fun hc => hx.2 (hc ▸ hfree)
      refine ⟨x, (h.live_iff hlt).mpr (.inr hx), ?_⟩
      rw [h.other x hxe]
      exact hd

theorem EnvAllocated.freeSlots (hs : FreeSlots k) : FreeSlots k' := by
  obtain ⟨l, hl, hnd, hfl⟩ := hs
  rw [h.head] at hl
  obtain ⟨l, rfl, htail⟩ := hl.exists_cons
  obtain ⟨hel, hnd⟩ := nodup_cons.mp hnd
  have hne : ∀ x ∈ l, x ≠ e := fun x hx hc => hel (hc ▸ hx)
  refine ⟨l, ?_, hnd, fun x hx => ?_⟩
  · rw [h.envFreeList]
    exact htail.congr fun x hx => by rw [h.other x (hne x hx)]
  · rw [h.other x (hne x hx)]
    exact hfl x (mem_cons_of_mem _ hx)

theorem EnvAllocated.slots (hs : Slots k) (hq : q ∉ k.dirs) : Slots k' := by
  obtain ⟨hlt, hfree⟩ := hs.free_list.head h.head
  have hpgdir : (k'.envs e).envPgdir = some q := by rw [h.entry]
  have hold : ∀ {x d}, x ≠ e → k'.Live x → (k'.envs x).envPgdir = some d →
      k.Live x ∧ (k.envs x).envPgdir = some d := by
    intro x d hx hlive hd
    rw [h.other x hx] at hd
    exact ⟨((h.live_iff hlt).mp hlive).resolve_left hx, hd⟩
  refine ⟨?_, ?_, h.freeSlots hs.free_list⟩
  · intro x hx
    by_cases hxe : x = e
    · exact ⟨q, hxe ▸ hpgdir⟩
    · rw [h.other x hxe]
      exact hs.pgdir (((h.live_iff hlt).mp hx).resolve_left hxe)
  · intro x y d hx hy hxd hyd
    by_cases hxe : x = e
    · by_cases hye : y = e
      · exact hxe.trans hye.symm
      · obtain ⟨hly, hdy⟩ := hold hye hy hyd
        rw [hxe, hpgdir] at hxd
        cases hxd
        exact absurd (mem_dirs.mpr ⟨y, hly, hdy⟩) hq
    · obtain ⟨hlx, hdx⟩ := hold hxe hx hxd
      by_cases hye : y = e
      · rw [hye, hpgdir] at hyd
        cases hyd
        exact absurd (mem_dirs.mpr ⟨x, hlx, hdx⟩) hq
      · obtain ⟨hly, hdy⟩ := hold hye hy hyd
        exact hs.inj hlx hly hdx hdy

end

theorem EnvAllocated.changes (h : Spaces K extra k) (ha : EnvAllocated k parentId e q k') :
    Changes K extra k k' := by
  have hacc := h.intact.toAccounts
  obtain ⟨hhead, hphys⟩ := setupVm_inv hacc ha.phys
  obtain ⟨_, _, hf⟩ := hacc.withDir (O := fun _ => False) (T := fun _ _ => False) hhead
  have hdirs := ha.dirs_eq h.toSlots
  have hi : Intact K extra k'.dirs k'.phys := by
    rw [hdirs, hphys]
    exact h.intact.withDir hhead
  refine ⟨⟨ha.slots h.toSlots (hacc.head_plain hhead).not_dir, hi⟩, ?_, ?_, ?_⟩
  · rw [hphys, hf.kernPgdir]
  · rw [hphys]
    exact hf.kern
  · intro d v w hm
    rw [hdirs, hphys] at hm
    exact .inl (hacc.mapsAt_withDir hhead hm)

end Allocation

section

variable (h : EnvFreed k e d k')

include h

theorem EnvFreed.live_iff {x : Nat} : k'.Live x ↔ x ≠ e ∧ k.Live x := by
  unfold Kernel.Live
  by_cases hx : x = e
  · rw [hx, h.entry]
    simp
  · rw [h.other x hx]
    simp [hx]

theorem EnvFreed.dirs_eq (hs : Slots k) (he : k.Live e) : k'.dirs = k.dirs.erase d := by
  ext x
  rw [mem_erase, mem_dirs, mem_dirs]
  constructor
  · rintro ⟨y, hy, hx⟩
    obtain ⟨hne, hlive⟩ := h.live_iff.mp hy
    rw [h.other y hne] at hx
    refine ⟨?_, y, hlive, hx⟩
    rintro rfl
    exact hne (hs.inj hlive he hx h.pgdir)
  · rintro ⟨hne, y, hlive, hx⟩
    have hye : y ≠ e := by
      rintro rfl
      rw [h.pgdir] at hx
      exact hne (Option.some.inj hx).symm
    refine ⟨y, h.live_iff.mpr ⟨hye, hlive⟩, ?_⟩
    rw [h.other y hye]
    exact hx

theorem EnvFreed.freeSlots (hs : FreeSlots k) (he : k.Live e) : FreeSlots k' := by
  obtain ⟨l, hl, hnd, hfl⟩ := hs
  have hel : e ∉ l := fun hm => he.2 (hfl e hm).2
  have hne : ∀ x ∈ l, x ≠ e := fun x hx hc => hel (hc ▸ hx)
  refine ⟨e :: l, ?_, nodup_cons.mpr ⟨hel, hnd⟩, fun x hx => ?_⟩
  · rw [h.envFreeList]
    refine hl.push ?_ fun x hx => ?_
    · rw [h.entry]
    · rw [h.other x (hne x hx)]
  · rcases mem_cons.mp hx with rfl | hx
    · rw [h.entry]
      exact ⟨he.1, rfl⟩
    · rw [h.other x (hne x hx)]
      exact hfl x hx

theorem EnvFreed.slots (hs : Slots k) (he : k.Live e) : Slots k' := by
  refine ⟨?_, ?_, h.freeSlots hs.free_list he⟩
  · intro x hx
    obtain ⟨hne, hlive⟩ := h.live_iff.mp hx
    rw [h.other x hne]
    exact hs.pgdir hlive
  · intro x y c hx hy hxd hyd
    obtain ⟨hxe, hlx⟩ := h.live_iff.mp hx
    obtain ⟨hye, hly⟩ := h.live_iff.mp hy
    rw [h.other x hxe] at hxd
    rw [h.other y hye] at hyd
    exact hs.inj hlx hly hxd hyd

end

theorem EnvFreed.changes (h : Spaces K extra k) (hb : FewMappings k.dirs k.phys)
    (he : k.Live e) (hfr : EnvFreed k e d k') : Changes K extra k k' := by
  have hd : d ∈ k.dirs := mem_dirs.mpr ⟨e, he, hfr.pgdir⟩
  obtain ⟨hi, hf, -, -⟩ := freeSpace_inv h.intact hb hd hfr.phys
  have hdirs := hfr.dirs_eq h.toSlots he
  refine ⟨⟨hfr.slots h.toSlots he, hdirs ▸ hi⟩, hf.kernPgdir, hf.kern, ?_⟩
  intro x v w hm
  rw [hdirs] at hm
  obtain ⟨hne, hx⟩ := mem_erase.mp hm.1
  exact .inl (hf.mapsAt hne ⟨hx, hm.2⟩)

end Jos
