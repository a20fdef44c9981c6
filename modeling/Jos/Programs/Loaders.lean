import Jos.Programs.Pages
import Mathlib.Order.CompletePartialOrder

/-!
# The two program loaders

`load_icode` copies the file through the address space of the new environment, and `map_segment`
prepares page after page in the parent and moves it into the child. Both leave the same bytes in the
segments. The page of the stack differs: `load_icode` maps it after the segments, `spawn` before.
-/

namespace Jos

open Logic Function Set

variable {K : Set Nat} {dirs : Finset Nat} {k k' : Kernel} {d d1 d2 v : Nat} {va perm child : Word}
  {G : Nat × Nat → Option (Nat → BitVec 8)} {S : Set Nat} {m m1 m' img : Image}
  {ph : Proghdr} {file : ExecFile} {n : Nat} {E : Kernel → Prop}

/-- The byte `x` of a segment: it is in the file, or zero. -/
def Proghdr.byte (ph : Proghdr) (img : Image) (x : Nat) : Byte :=
  if x < ph.pFilesz.toNat then img (ph.pOffset.toNat + x) else 0

/-- The pages of a segment. -/
def Proghdr.pages (ph : Proghdr) : Set Nat := touched ph.pVa.toNat ph.pMemsz.toNat

/-- A segment that can be loaded from a file of the given size. -/
structure Proghdr.Fits (ph : Proghdr) (size : Nat) : Prop where
  filesz : ph.pFilesz.toNat ≤ ph.pMemsz.toNat
  below : ph.pVa.toNat + ph.pMemsz.toNat ≤ utop
  offset : pgoff ph.pOffset = pgoff ph.pVa
  present : ph.pOffset.toNat + ph.pFilesz.toNat ≤ size

/-- The image `m'` is `m` with the segment, and other pages are as they were. -/
structure Proghdr.In (ph : Proghdr) (img m m' : Image) : Prop where
  bytes : ∀ x < ph.pMemsz.toNat, m' (ph.pVa.toNat + x) = ph.byte img x
  rest : ∀ x, x / pgsize ∉ ph.pages → m' x = m x

/-- The pages of the segments that are loaded. -/
def segmentPages (l : List Proghdr) : Set Nat :=
  {v | ∃ ph ∈ l, ph.pType = elfProgLoad ∧ v ∈ ph.pages}

/-- The image `m'` is `m` with all these segments. -/
structure SegmentsIn (l : List Proghdr) (img m m' : Image) : Prop where
  bytes : ∀ ph ∈ l, ph.pType = elfProgLoad → ∀ x < ph.pMemsz.toNat,
    m' (ph.pVa.toNat + x) = ph.byte img x
  rest : ∀ x, x / pgsize ∉ segmentPages l → m' x = m x

/-- No two segments that are loaded have a page in common. -/
def ApartSegments (l : List Proghdr) : Prop :=
  l.Pairwise fun ph ph' =>
    ph.pType = elfProgLoad → ph'.pType = elfProgLoad → Disjoint ph.pages ph'.pages

variable {l : List Proghdr}

theorem SegmentsIn.nil : SegmentsIn [] img m m := ⟨nofun, fun _ _ => rfl⟩

theorem segmentPages_nil : segmentPages [] = ∅ := by
  simp [segmentPages]

theorem segmentPages_skip (h : ph.pType ≠ elfProgLoad) :
    segmentPages (ph :: l) = segmentPages l := by
  ext v
  simp [segmentPages, h]

theorem segmentPages_load (h : ph.pType = elfProgLoad) :
    segmentPages (ph :: l) = ph.pages ∪ segmentPages l := by
  ext v
  simp [segmentPages, h]

theorem SegmentsIn.skip (h : ph.pType ≠ elfProgLoad) (hl : SegmentsIn l img m m') :
    SegmentsIn (ph :: l) img m m' := by
  refine ⟨fun ph' hph' hload => ?_, fun x hx => ?_⟩
  · rcases List.mem_cons.mp hph' with rfl | hmem
    · exact absurd hload h
    · exact hl.bytes ph' hmem hload
  · rw [segmentPages_skip h] at hx
    exact hl.rest x hx

theorem SegmentsIn.cons (h : ph.pType = elfProgLoad) (hph : ph.In img m m1)
    (hapart : ApartSegments (ph :: l)) (hl : SegmentsIn l img m1 m') :
    SegmentsIn (ph :: l) img m m' := by
  refine ⟨fun ph' hph' hload x hx => ?_, fun x hx => ?_⟩
  · rcases List.mem_cons.mp hph' with rfl | hmem
    · rw [hl.rest, hph.bytes x hx]
      rintro ⟨ph2, hmem2, hload2, hpage⟩
      have hdisj := (List.pairwise_cons.mp hapart).1 ph2 hmem2 h hload2
      exact disjoint_left.mp hdisj (mem_touched hx) hpage
    · exact hl.bytes ph' hmem hload x hx
  · rw [segmentPages_load h, mem_union, not_or] at hx
    rw [hl.rest x hx.2, hph.rest x hx.1]

theorem Proghdr.mem_pages_iff (x : Nat) : x / pgsize ∈ ph.pages ↔
    ph.pVa.toNat / pgsize * pgsize ≤ x ∧ x < ph.pVa.toNat / pgsize * pgsize +
      ((ph.pVa.toNat + ph.pMemsz.toNat + pgsize - 1) / pgsize - ph.pVa.toNat / pgsize) *
        pgsize := by
  have hle : ph.pVa.toNat / pgsize ≤ (ph.pVa.toNat + ph.pMemsz.toNat + pgsize - 1) / pgsize :=
    Nat.div_le_div_right (by unfold pgsize; omega)
  unfold Proghdr.pages touched
  rw [mem_Ico, Nat.le_div_iff_mul_le (by decide), Nat.div_lt_iff_lt_mul (by decide),
    ← Nat.add_mul, Nat.add_sub_cancel' hle]

/-- Zeros in all pages of a segment, and then the bytes of the file. -/
theorem Proghdr.in_setBytes (hfit : ph.Fits n) :
    ph.In img m (setBytes (setBytes m (ph.pVa.toNat / pgsize * pgsize)
        (((ph.pVa.toNat + ph.pMemsz.toNat + pgsize - 1) / pgsize - ph.pVa.toNat / pgsize) * pgsize)
        fun _ => 0)
      ph.pVa.toNat ph.pFilesz.toNat fun i => img (ph.pOffset.toNat + i)) := by
  have hlen := hfit.filesz
  refine ⟨fun x hx => ?_, fun x hx => ?_⟩
  · unfold Proghdr.byte
    by_cases hfile : x < ph.pFilesz.toNat
    · rw [if_pos hfile, setBytes_of_mem (by omega) (by omega), Nat.add_sub_cancel_left]
    · obtain ⟨hlo, hhi⟩ := (ph.mem_pages_iff _).mp (mem_touched hx)
      rw [if_neg hfile, setBytes_of_not_mem (by omega), setBytes_of_mem hlo hhi]
  · have hout : x < ph.pVa.toNat ∨ ph.pVa.toNat + ph.pFilesz.toNat ≤ x := by
      by_contra hc
      have hin := mem_touched (a := ph.pVa.toNat) (n := ph.pMemsz.toNat)
        (i := x - ph.pVa.toNat) (by omega)
      rw [Nat.add_sub_cancel' (by omega)] at hin
      exact hx hin
    rw [ph.mem_pages_iff] at hx
    rw [setBytes_of_not_mem hout, setBytes_of_not_mem (by omega)]

theorem loadSegment_filled (img : Image) (hfit : ph.Fits n)
    (h : Contents K dirs (overlay G k.cr3 S m) k.phys) (hd : k.cr3 ∈ dirs) :
    wp (do
        onPhys (regionAlloc (some k.cr3) ph.pVa ph.pMemsz)
        copyOut ph.pVa ph.pFilesz.toNat fun i => img (ph.pOffset.toNat + i))
      (fun _ k' => SameEnvs k k' ∧ ∃ m', ph.In img m m' ∧
        Contents K dirs (overlay G k.cr3 (S ∪ ph.pages) m') k'.phys) E k := by
  have hlen := hfit.filesz
  have hbelow := hfit.below
  rw [wp_bind, wp_onPhys]
  refine wp_mono (regionAlloc_filled (E := fun _ => False) h hd hbelow) (fun _ p1 h1 => ?_)
    fun _ hf => hf.elim
  refine wp_imp (copyOut_filled (k := { k with phys := p1 }) h1 hd (by omega)
    fun i hi => .inr (mem_touched (by omega))) ?_
  rintro _ k2 ⟨hs, h2⟩
  exact ⟨⟨hs.envs, hs.envFreeList, hs.cpus, hs.cpunum, hs.envLog⟩, _, Proghdr.in_setBytes hfit, h2⟩

theorem loadSegments_filled {binary : Elf}
    (hfit : ∀ ph ∈ l, ph.pType = elfProgLoad → ph.Fits n) (hapart : ApartSegments l)
    (h : Contents K dirs (overlay G d S m) k.phys) (hd : d ∈ dirs) (hcr3 : k.cr3 = d) :
    wp (loadSegments (some d) binary l) (fun _ k' => SameEnvs k k' ∧ ∃ m',
      SegmentsIn l binary.byte m m' ∧
        Contents K dirs (overlay G d (S ∪ segmentPages l) m') k'.phys) E k := by
  induction l generalizing k S m with
  | nil =>
    refine wp_pure.mpr ⟨.refl k, m, .nil, ?_⟩
    rw [segmentPages_nil, union_empty]
    exact h
  | cons ph rest ih =>
    have hfit' : ∀ ph' ∈ rest, ph'.pType = elfProgLoad → ph'.Fits n :=
      fun ph' hmem => hfit ph' (List.mem_cons_of_mem _ hmem)
    have hapart' : ApartSegments rest := (List.pairwise_cons.mp hapart).2
    unfold loadSegments
    by_cases hload : ph.pType = elfProgLoad
    · rw [if_pos hload]
      subst hcr3
      have hseg := loadSegment_filled (E := E) binary.byte (hfit ph List.mem_cons_self hload) h hd
      rw [wp_bind] at hseg ⊢
      refine wp_imp hseg fun _ k0 h0 => ?_
      rw [wp_bind]
      refine wp_imp h0 ?_
      rintro _ k1 ⟨hs1, m1, hm1, h1⟩
      refine wp_imp (ih hfit' hapart' h1 hs1.cr3) ?_
      rintro _ k2 ⟨hs2, m2, hm2, h2⟩
      refine ⟨hs1.trans hs2, m2, hm2.cons hload hm1 hapart, ?_⟩
      rwa [segmentPages_load hload, ← union_assoc]
    · rw [if_neg hload]
      refine wp_imp (ih hfit' hapart' h hcr3) ?_
      rintro _ k1 ⟨hs1, m1, hm1, h1⟩
      refine ⟨hs1, m1, hm1.skip hload, ?_⟩
      rwa [segmentPages_skip hload]

def stackPage : Nat := (ustacktop - pgsize) / pgsize

theorem touched_stack : touched (ustacktop - pgsize) pgsize = {stackPage} := by
  have hend : (ustacktop - pgsize + pgsize + pgsize - 1) / pgsize = stackPage + 1 := by decide
  unfold touched
  rw [hend]
  ext v
  rw [mem_Ico, mem_singleton_iff]
  show stackPage ≤ v ∧ v < stackPage + 1 ↔ v = stackPage
  omega

/-- What `load_icode` leaves: the stack is mapped behind the segments. -/
theorem loadIcode_filled {e : Nat} {binary : Elf}
    (hfit : ∀ ph ∈ binary.ph, ph.pType = elfProgLoad → ph.Fits n)
    (hapart : ApartSegments binary.ph) (hpgdir : (k.envs e).envPgdir = some d)
    (h : Contents K dirs (overlay G d S m) k.phys) (hd : d ∈ dirs) :
    wp (loadIcode e binary) (fun _ k' => (k'.envs e).envPgdir = some d ∧ ∃ m' m'',
      SegmentsIn binary.ph binary.byte m m' ∧ (∀ x, x / pgsize ≠ stackPage → m'' x = m' x) ∧
        Contents K dirs (overlay G d (S ∪ segmentPages binary.ph ∪ {stackPage}) m'')
          k'.phys) E k := by
  unfold loadIcode
  rw [wp_bind, wp_env, hpgdir, wp_bind, wp_paddr]
  intro x hx
  cases hx
  rw [wp_bind, wp_lcr3, wp_bind]
  have hcr3 : (k.setCpu fun c => { c with cr3 := d }).cr3 = d := by
    show ((k.setCpu _).cpus k.cpunum).cr3 = d
    rw [Kernel.setCpu_self]
  refine wp_imp (loadSegments_filled (k := k.setCpu fun c => { c with cr3 := d }) hfit hapart h
    hd hcr3) ?_
  rintro _ k1 ⟨hs, m1, hm1, h1⟩
  simp only [wp_bind, wp_get, wp_lcr3, wp_setEnv, wp_onPhys]
  refine wp_mono (regionAlloc_filled (E := fun _ => False) h1 hd (by decide))
    (fun _ p2 h2 => ?_) fun _ hf => hf.elim
  refine ⟨?_, m1, _, hm1, fun x hx => setBytes_of_not_mem ?_, touched_stack ▸ h2⟩
  · simp [Kernel.setEnv, hs.envs, hpgdir]
  · have hstart : (toWord (ustacktop - pgsize)).toNat / pgsize * pgsize =
        stackPage * pgsize := by decide
    have hpages : ((toWord (ustacktop - pgsize)).toNat + (toWord pgsize).toNat +
        pgsize - 1) / pgsize - (toWord (ustacktop - pgsize)).toNat / pgsize = 1 := by
      decide
    rw [hstart, hpages]
    unfold pgsize at hx ⊢
    omega

/-- The parent with the directory `d1` loads a program for the child with the directory `d2`. -/
structure Spawning (dirs : Finset Nat) (child : Word) (d1 d2 : Nat) (k : Kernel) : Prop where
  cr3 : k.cr3 = d1
  parent : Directs k 0 d1
  child : Directs k child d2
  parent_mem : d1 ∈ dirs
  child_mem : d2 ∈ dirs
  ne : d2 ≠ d1

theorem Spawning.sameEnvs (h : Spawning dirs child d1 d2 k) (hs : SameEnvs k k') :
    Spawning dirs child d1 d2 k' :=
  ⟨hs.cr3.trans h.cr3, h.parent.sameEnvs hs, h.child.sameEnvs hs, h.parent_mem, h.child_mem, h.ne⟩

/-- The byte `x` behind the start of the first page of a segment. -/
def ExecFile.pageByte (file : ExecFile) (filesz fileoffset x : Nat) : Byte :=
  if x < filesz then file.byte (fileoffset + x) else 0

variable {filesz fileoffset i : Word}

/-- The page that has been filled at `UTEMP` goes to the child. -/
theorem Contents.overlay_move {p p1 p2 : Phys} {u : Nat}
    (h : Contents K dirs (overlay (overlay (fun _ => none) d2 S m) d1 {u} m1) p) (hne : d2 ≠ d1)
    (hmap : Doubled K dirs p d1 u d2 v p1) (hgone : EntryOnly K dirs p1 d1 u p2)
    (hnone : pteOf p2.mem d1 u = none) :
    Contents K dirs (overlay (fun _ => none) d2 (insert v S)
      (setBytes m (v * pgsize) pgsize fun o => m1 (u * pgsize + o))) p2 := by
  have hmove := h.move hmap hgone hnone fun hc => hne hc.1
  rw [overlay_of_mem (mem_singleton u)] at hmove
  refine Contents.overlay_update (m := m) (f := fun o => m1 (u * pgsize + o)) ?_ (fun o ho => ?_)
    fun x hx => ?_
  · refine hmove.weaken fun ⟨d', v'⟩ f' hx => ⟨f', ?_, fun _ _ => rfl⟩
    by_cases hv : (d', v') = (d2, v)
    · rw [hv, update_self] at hx ⊢
      exact hx
    · rw [update_of_ne hv] at hx ⊢
      have hu : ¬(d' = d1 ∧ v' ∈ ({u} : Set Nat)) := by
        rintro ⟨rfl, _⟩
        rw [overlay_of_not_mem fun hc => hne hc.1.symm] at hx
        cases hx
      rw [update_of_ne fun he => hu ⟨(Prod.mk.inj he).1, (Prod.mk.inj he).2⟩,
        overlay_of_not_mem hu, hx]
  · rw [setBytes_of_mem (by omega) (by omega), Nat.add_sub_cancel_left]
  · apply setBytes_of_not_mem
    by_contra hc
    apply hx
    unfold pgsize at hc ⊢
    omega

theorem utemp_toNat : utemp.toNat = pgnum utemp * pgsize := by decide

theorem pgnum_of_page {a : Word} (h : a.toNat = v * pgsize) : pgnum a = v := by
  rw [pgnum_eq, h]
  exact Nat.mul_div_cancel _ (by decide)

section

variable (hs : Spawning dirs child d1 d2 k)
  (h : Contents K dirs (overlay (fun _ => none) d2 S m) k.phys)
  (haddr : (va + i).toNat = v * pgsize)

include hs h haddr

theorem mapPage_blank (hblank : filesz.toNat ≤ i.toNat) :
    wp (mapPage child file va filesz fileoffset perm i) (fun r k' => SameEnvs k k' ∧
      (0 ≤ r → Contents K dirs (overlay (fun _ => none) d2 (insert v S)
        (setBytes m (v * pgsize) pgsize fun o =>
          file.pageByte filesz.toNat fileoffset.toNat (i.toNat + o))) k'.phys)) E k := by
  have hpg := pgnum_of_page haddr
  unfold mapPage
  rw [if_pos hblank]
  refine wp_imp (sysPageAlloc_allocated h hs.child hs.child_mem) ?_
  rintro r k' ⟨hs', ha⟩
  refine ⟨hs', fun hr => ?_⟩
  have h' := h.overlay_allocated (hpg ▸ ha hr)
  rwa [setBytes_congr fun o ho => ?_] at h'
  unfold ExecFile.pageByte
  rw [if_neg (by omega)]

theorem mapPage_file (hin : i.toNat < filesz.toNat)
    (hfile : fileoffset.toNat + filesz.toNat ≤ file.size) :
    wp (mapPage child file va filesz fileoffset perm i) (fun r k' => SameEnvs k k' ∧
      (0 ≤ r → Contents K dirs (overlay (fun _ => none) d2 (insert v S)
        (setBytes m (v * pgsize) pgsize fun o =>
          file.pageByte filesz.toNat fileoffset.toNat (i.toNat + o))) k'.phys)) E k := by
  have hpg := pgnum_of_page haddr
  have hsize := file.size_lt
  have hoff : (fileoffset + i).toNat = fileoffset.toNat + i.toNat := by bv_omega
  have hleft : (filesz - i).toNat = filesz.toNat - i.toNat := by bv_omega
  rw [← overlay_empty (G := overlay (fun _ => none) d2 S m) (d := d1) (m := fun _ => 0)] at h
  unfold mapPage
  rw [if_neg (not_le.mpr hin), wp_bind]
  refine wp_imp (sysPageAlloc_allocated h hs.parent hs.parent_mem) ?_
  rintro r k1 ⟨hs1, ha⟩
  refine wp_ite.mpr ⟨fun hneg => wp_pure.mpr ⟨hs1, fun hr => absurd hneg (by omega)⟩, fun hr => ?_⟩
  have h1 := h.overlay_allocated (ha (by omega))
  have hsp1 := hs.sameEnvs hs1
  rw [← hsp1.cr3, LawfulSingleton.insert_empty_eq] at h1
  rw [wp_bind, hoff, hleft]
  refine wp_imp (readn_filled h1 (hsp1.cr3 ▸ hs.parent_mem) (Nat.min_le_left _ _) (by omega) ?_
    fun o ho => ?_) ?_
  · have hutemp : utemp.toNat + pgsize ≤ utop := by decide
    exact le_trans (Nat.add_le_add_left (Nat.min_le_left _ _) _) hutemp
  · rw [utemp_toNat, div_page_add (lt_of_lt_of_le ho (Nat.min_le_left _ _))]
    exact rfl
  rintro _ k2 ⟨hs2, h2⟩
  have hs12 := hs1.trans hs2
  have hsp2 := hs.sameEnvs hs12
  rw [hsp1.cr3] at h2
  rw [wp_bind]
  refine wp_imp (sysPageMap_doubled h2 hsp2.parent hsp2.child hs.parent_mem hs.child_mem
    (overlay_of_mem (mem_singleton _))) ?_
  rintro r k3 ⟨hs3, hmap⟩
  refine wp_ite.mpr ⟨fun _ => wp_bind.mpr wp_panic, fun hr => ?_⟩
  have hmap := hmap (by omega)
  obtain ⟨extra, hi⟩ := hmap.intact
  have hsp3 := hsp2.sameEnvs hs3
  rw [wp_bind]
  refine wp_imp (sysPageUnmap_own hi hmap.few hsp3.parent hs.parent_mem (by decide) (by decide)) ?_
  rintro _ k4 ⟨hs4, hgone, hnone⟩
  refine wp_pure.mpr ⟨(hs12.trans hs3).trans hs4, fun _ => ?_⟩
  have h4 := h2.overlay_move hs.ne (hpg ▸ hmap) hgone hnone
  rwa [setBytes_congr fun o ho => ?_] at h4
  unfold ExecFile.pageByte
  by_cases hread : i.toNat + o < filesz.toNat
  · rw [if_pos hread, ← utemp_toNat, setBytes_of_mem (by omega) (by omega),
      Nat.add_sub_cancel_left, Nat.add_assoc]
  · rw [if_neg hread, ← utemp_toNat, setBytes_of_not_mem (by omega)]
    exact ite_self _

end

theorem mapPages_filled {rounds j : Nat} (hva : va.toNat = v * pgsize)
    (hi : i.toNat = j * pgsize) (hend : (v + j + rounds) * pgsize ≤ utop)
    (hfile : fileoffset.toNat + filesz.toNat ≤ file.size) (hs : Spawning dirs child d1 d2 k)
    (h : Contents K dirs (overlay (fun _ => none) d2 S m) k.phys) :
    wp (mapPages child file va filesz fileoffset perm rounds i)
      (fun r k' => SameEnvs k k' ∧ (0 ≤ r → Contents K dirs (overlay (fun _ => none) d2
        (S ∪ Set.Ico (v + j) (v + j + rounds)) (setBytes m ((v + j) * pgsize) (rounds * pgsize)
          fun o => file.pageByte filesz.toNat fileoffset.toNat
            (j * pgsize + o))) k'.phys)) E k := by
  induction rounds generalizing k S m j i with
  | zero =>
    refine wp_pure.mpr ⟨.refl k, fun _ => ?_⟩
    rw [Nat.zero_mul, setBytes_zero, Nat.add_zero, Set.Ico_self, union_empty]
    exact h
  | succ rounds ih =>
    have hutop : utop = 4005560320 := rfl
    have hround : v + (j + 1) + rounds = v + j + (rounds + 1) := by omega
    have haddr : (va + i).toNat = (v + j) * pgsize := by
      rw [BitVec.toNat_add, hi, hva]
      unfold pgsize at hend ⊢
      omega
    have hnext : (i + toWord pgsize).toNat = (j + 1) * pgsize := by
      rw [BitVec.toNat_add, hi, show (toWord pgsize).toNat = 4096 from rfl]
      unfold pgsize at hend ⊢
      omega
    have hpage : wp (mapPage child file va filesz fileoffset perm i)
        (fun r k' => SameEnvs k k' ∧ (0 ≤ r → Contents K dirs (overlay (fun _ => none) d2
          (insert (v + j) S) (setBytes m ((v + j) * pgsize) pgsize
            fun o => file.pageByte filesz.toNat fileoffset.toNat (i.toNat + o))) k'.phys)) E k := by
      by_cases hblank : filesz.toNat ≤ i.toNat
      · exact mapPage_blank hs h haddr hblank
      · exact mapPage_file hs h haddr (not_le.mp hblank) hfile
    rw [hi] at hpage
    unfold mapPages
    rw [wp_bind]
    refine wp_imp hpage ?_
    rintro r k1 ⟨hs1, h1⟩
    refine wp_ite.mpr ⟨fun hneg => wp_pure.mpr ⟨hs1, fun hr => absurd hneg (by omega)⟩,
      fun hr => ?_⟩
    refine wp_imp (ih hnext (hround ▸ hend) (hs.sameEnvs hs1) (h1 (by omega))) ?_
    rintro r' k2 ⟨hs2, h2⟩
    refine ⟨hs1.trans hs2, fun hr' => ?_⟩
    have himage : setBytes (setBytes m ((v + j) * pgsize) pgsize fun o =>
          file.pageByte filesz.toNat fileoffset.toNat (j * pgsize + o))
        ((v + (j + 1)) * pgsize) (rounds * pgsize)
        (fun o => file.pageByte filesz.toNat fileoffset.toNat ((j + 1) * pgsize + o)) =
        setBytes m ((v + j) * pgsize) ((rounds + 1) * pgsize) fun o =>
          file.pageByte filesz.toNat fileoffset.toNat (j * pgsize + o) := by
      rw [← add_assoc, Nat.succ_mul, Nat.succ_mul rounds, add_comm (rounds * pgsize),
        ← setBytes_append]
      apply setBytes_congr
      intro o _
      rw [Nat.succ_mul, add_assoc]
    have hset : insert (v + j) S ∪ Set.Ico (v + (j + 1)) (v + (j + 1) + rounds) =
        S ∪ Set.Ico (v + j) (v + j + (rounds + 1)) := by
      rw [hround, ← add_assoc v j 1, insert_union, ← union_insert,
        insert_Ico_add_one_left_eq_Ico (by omega)]
    rw [← hset, ← himage]
    exact h2 hr'

/-- The values that `map_segment` adjusts to the start of the first page. -/
theorem Proghdr.Fits.adjusted (h : ph.Fits n) :
    (ph.pVa - pgoff ph.pVa).toNat = ph.pVa.toNat / pgsize * pgsize ∧
    (ph.pMemsz + pgoff ph.pVa).toNat = ph.pMemsz.toNat + ph.pVa.toNat % pgsize ∧
    (ph.pFilesz + pgoff ph.pVa).toNat = ph.pFilesz.toNat + ph.pVa.toNat % pgsize ∧
    (ph.pOffset - pgoff ph.pVa).toNat + ph.pVa.toNat % pgsize = ph.pOffset.toNat := by
  have hutop : utop = 4005560320 := rfl
  have hva := pgoff_toNat ph.pVa
  have hoff := pgoff_toNat ph.pOffset
  rw [h.offset, hva] at hoff
  have hle : ph.pVa.toNat % 4096 ≤ ph.pOffset.toNat := hoff ▸ Nat.mod_le _ _
  have hfilesz := h.filesz
  have hbelow := h.below
  have hlt := ph.pOffset.isLt
  unfold pgsize
  rw [BitVec.toNat_sub, BitVec.toNat_add, BitVec.toNat_add, BitVec.toNat_sub, hva]
  clear hva hoff
  refine ⟨?_, ?_, ?_, ?_⟩ <;> omega

theorem mapSegment_filled (hfit : ph.Fits file.size) (hs : Spawning dirs child d1 d2 k)
    (h : Contents K dirs (overlay (fun _ => none) d2 S m) k.phys) :
    wp (mapSegment child file ph.pVa ph.pMemsz ph.pFilesz ph.pOffset perm)
      (fun r k' => SameEnvs k k' ∧ (0 ≤ r → ∃ m', ph.In file.byte m m' ∧
        Contents K dirs (overlay (fun _ => none) d2 (S ∪ ph.pages) m') k'.phys)) E k := by
  obtain ⟨hva, hmem, hfile, hoff⟩ := hfit.adjusted
  have hpresent := hfit.present
  have hbelow := hfit.below
  have hrounds : ph.pVa.toNat / pgsize + 0 +
      (ph.pMemsz.toNat + ph.pVa.toNat % pgsize + pgsize - 1) /
      pgsize = (ph.pVa.toNat + ph.pMemsz.toNat + pgsize - 1) / pgsize := by
    unfold pgsize
    omega
  unfold mapSegment
  dsimp only
  rw [hmem]
  refine wp_imp (mapPages_filled (j := 0) hva rfl ?_ ?_ hs h) ?_
  · rw [hrounds]
    have hutop : utop = 4005560320 := rfl
    unfold pgsize
    omega
  · omega
  rintro r k' ⟨hs', h'⟩
  rw [hrounds, Nat.add_zero] at h'
  refine ⟨hs', fun hr => ⟨_, ⟨fun x hx => ?_, fun x hx => ?_⟩, h' hr⟩⟩
  · have hsplit : ph.pVa.toNat / pgsize * pgsize + ph.pVa.toNat % pgsize = ph.pVa.toNat := by
      rw [mul_comm]
      exact Nat.div_add_mod _ _
    have hle : ph.pMemsz.toNat + ph.pVa.toNat % pgsize ≤
        (ph.pMemsz.toNat + ph.pVa.toNat % pgsize + pgsize - 1) / pgsize * pgsize := by
      unfold pgsize
      omega
    rw [setBytes_of_mem (by omega) (by omega)]
    have hplace : 0 * pgsize + (ph.pVa.toNat + x - ph.pVa.toNat / pgsize * pgsize) =
        ph.pVa.toNat % pgsize + x := by omega
    unfold ExecFile.pageByte Proghdr.byte
    rw [hplace, hfile]
    by_cases hin : x < ph.pFilesz.toNat
    · rw [if_pos hin, if_pos (by omega), ← hoff, add_assoc]
    · rw [if_neg hin, if_neg (by omega)]
  · rw [ph.mem_pages_iff] at hx
    apply setBytes_of_not_mem
    unfold pgsize at *
    omega

theorem mapSegments_filled {hdrs : List SegmentHdr}
    (hfit : ∀ ph ∈ hdrs.map SegmentHdr.toProghdr, ph.pType = elfProgLoad → ph.Fits file.size)
    (hapart : ApartSegments (hdrs.map SegmentHdr.toProghdr)) (hs : Spawning dirs child d1 d2 k)
    (h : Contents K dirs (overlay (fun _ => none) d2 S m) k.phys) :
    wp (mapSegments child file hdrs) (fun r k' => SameEnvs k k' ∧ (0 ≤ r → ∃ m',
      SegmentsIn (hdrs.map SegmentHdr.toProghdr) file.byte m m' ∧ Contents K dirs (overlay
        (fun _ => none) d2 (S ∪ segmentPages (hdrs.map SegmentHdr.toProghdr)) m')
          k'.phys)) E k := by
  induction hdrs generalizing k S m with
  | nil =>
    refine wp_pure.mpr ⟨.refl k, fun _ => ⟨m, .nil, ?_⟩⟩
    rw [List.map_nil, segmentPages_nil, union_empty]
    exact h
  | cons hdr rest ih =>
    rw [List.map_cons] at hfit hapart ⊢
    have hfit' : ∀ ph ∈ rest.map SegmentHdr.toProghdr, ph.pType = elfProgLoad → ph.Fits file.size :=
      fun ph hmem => hfit ph (List.mem_cons_of_mem _ hmem)
    have hapart' := (List.pairwise_cons.mp hapart).2
    unfold mapSegments
    by_cases hload : hdr.pType = elfProgLoad
    · rw [if_neg (not_not.mpr hload)]
      rw [wp_bind]
      refine wp_imp (mapSegment_filled (hfit _ List.mem_cons_self hload) hs h) ?_
      rintro r k1 ⟨hs1, h1⟩
      refine wp_ite.mpr ⟨fun hneg => wp_pure.mpr ⟨hs1, fun hr => absurd hneg (by omega)⟩,
        fun hr => ?_⟩
      obtain ⟨m1, hm1, h1⟩ := h1 (by omega)
      refine wp_imp (ih hfit' hapart' (hs.sameEnvs hs1) h1) ?_
      rintro r' k2 ⟨hs2, h2⟩
      refine ⟨hs1.trans hs2, fun hr' => ?_⟩
      obtain ⟨m2, hm2, h2⟩ := h2 hr'
      refine ⟨m2, hm2.cons hload hm1 hapart, ?_⟩
      rwa [segmentPages_load hload, ← union_assoc]
    · rw [if_pos hload]
      refine wp_imp (ih hfit' hapart' hs h) ?_
      rintro r k1 ⟨hs1, h1⟩
      refine ⟨hs1, fun hr => ?_⟩
      obtain ⟨m1, hm1, h1⟩ := h1 hr
      refine ⟨m1, hm1.skip hload, ?_⟩
      rwa [segmentPages_skip hload]

theorem segmentHdr_congr {a : Nat} (h : ∀ x < a + 32, m' x = m x) :
    segmentHdr m' a = segmentHdr m a := by
  unfold segmentHdr
  rw [word_congr fun i _ => h _ (by omega), word_congr fun i _ => h _ (by omega),
    word_congr fun i _ => h _ (by omega), word_congr fun i _ => h _ (by omega),
    word_congr fun i _ => h _ (by omega), word_congr fun i _ => h _ (by omega)]

/-- The program headers lie in the first 512 bytes. -/
def HeadersInFront (m : Image) : Prop := phoff m + 32 * phnum m ≤ 512

/-- What `spawn` finds in `elf_buf` are then the headers of the file. -/
theorem ExecFile.segmentHdrs_elfBuf {old : Image} (hsize : 512 ≤ file.size)
    (h : HeadersInFront file.byte) : segmentHdrs (file.elfBuf old) = segmentHdrs file.byte := by
  have hbuf : ∀ x < 512, file.elfBuf old x = file.byte x := fun x hx => if_pos (by omega)
  have hoff : phoff (file.elfBuf old) = phoff file.byte := by
    unfold phoff
    rw [word_congr fun i _ => hbuf _ (by omega)]
  have hnum : phnum (file.elfBuf old) = phnum file.byte := by
    unfold phnum half
    rw [hbuf _ (by omega), hbuf _ (by omega)]
  unfold HeadersInFront at h
  unfold segmentHdrs
  rw [hoff, hnum]
  refine List.map_congr_left fun i hi => segmentHdr_congr fun x hx => hbuf x ?_
  have := List.mem_range.mp hi
  omega

theorem spawnSegments_filled (old : Image) (hhdrs : HeadersInFront file.byte)
    (hfit : ∀ ph ∈ (Elf.ofImage file.byte).ph, ph.pType = elfProgLoad → ph.Fits file.size)
    (hapart : ApartSegments (Elf.ofImage file.byte).ph) (hs : Spawning dirs child d1 d2 k)
    (h : Contents K dirs (overlay (fun _ => none) d2 S m) k.phys) :
    wp (spawnSegments child file old) (fun r k' => SameEnvs k k' ∧ (0 ≤ r → ∃ m',
      SegmentsIn (Elf.ofImage file.byte).ph file.byte m m' ∧ Contents K dirs (overlay
        (fun _ => none) d2 (S ∪ segmentPages (Elf.ofImage file.byte).ph) m') k'.phys)) E k := by
  refine wp_ite.mpr ⟨fun _ => wp_pure.mpr ⟨.refl k, fun hr => absurd hr (by decide)⟩,
    fun hgood => ?_⟩
  rw [ExecFile.segmentHdrs_elfBuf (by omega) hhdrs]
  exact mapSegments_filled hfit hapart hs h

/-- The byte at an address of the environment `e`. -/
def Kernel.userByte (k : Kernel) (e va : Nat) : Option Byte := do
  let d ← (k.envs e).envPgdir
  let w ← pteOf k.phys.mem d (va / pgsize)
  return k.phys.byte (pageOf w) (va % pgsize)

theorem Contents.userByte {e a : Nat} (h : Contents K dirs (overlay G d S m) k.phys)
    (hpgdir : (k.envs e).envPgdir = some d) (ha : a / pgsize ∈ S) :
    k.userByte e a = some (m a) := by
  obtain ⟨q, ho, hf⟩ := h.pages (overlay_of_mem ha)
  obtain ⟨w, hm, rfl⟩ := ho.mapped
  have hsplit : a / pgsize * pgsize + a % pgsize = a := by
    rw [mul_comm]
    exact Nat.div_add_mod a pgsize
  unfold Kernel.userByte
  rw [hpgdir, Option.bind_eq_bind, Option.bind_some, hm.2.2, Option.bind_eq_bind, Option.bind_some,
    hf _ (Nat.mod_lt a (by decide))]
  show some (m (a / pgsize * pgsize + a % pgsize)) = some (m a)
  rw [hsplit]

/-- A program that can be loaded: headers in front, all bytes of its segments in the file, and
segments below `UTOP` with no page in common. -/
structure Loadable (file : ExecFile) : Prop where
  headers : HeadersInFront file.byte
  fits : ∀ ph ∈ (Elf.ofImage file.byte).ph, ph.pType = elfProgLoad → ph.Fits file.size
  apart : ApartSegments (Elf.ofImage file.byte).ph

theorem Sound.filled (h : Sound k) :
    Contents (kernPages k.phys) k.dirs (overlay (fun _ => none) d ∅ m) k.phys := by
  obtain ⟨⟨extra, hs⟩, hb⟩ := h
  refine ⟨⟨extra, hs.intact⟩, hb, fun {d' v' f} hG => ?_⟩
  rw [overlay_empty] at hG
  cases hG

/-- `spawn` in the parent `c`, for a child `e` that it may manage. -/
structure Parent (k : Kernel) (c : Nat) (child : Word) (e : Nat) : Prop where
  cur : k.curenv = some c
  live : k.Live c
  cr3 : (k.envs c).envPgdir = some k.cr3
  child : Names k child true e
  ne : e ≠ c

theorem Parent.spawning {c e : Nat} (h : Parent k c child e) (hk : Sound k) :
    ∃ d2, (k.envs e).envPgdir = some d2 ∧ Spawning k.dirs child k.cr3 d2 k := by
  obtain ⟨⟨extra, hs⟩, _⟩ := hk
  have hlive : k.Live e := h.child.live fun x hx => by
    cases hx.symm.trans h.cur
    exact h.live
  obtain ⟨d2, hd2, hpgdir⟩ := hs.dir_of_live hlive
  have hunique : ∀ {envid e' e''}, Names k envid true e' → Names k envid true e'' → e' = e'' := by
    rintro envid e' e'' (⟨h0, hc⟩ | ⟨h0, he, _⟩) (⟨h0', hc'⟩ | ⟨h0', he', _⟩)
    · exact Option.some.inj (hc.symm.trans hc')
    · exact absurd h0 h0'
    · exact absurd h0' h0
    · exact he.trans he'.symm
  refine ⟨d2, hpgdir, rfl, fun e' hn => ?_, fun e' hn => ?_, mem_dirs.mpr ⟨c, h.live, h.cr3⟩, hd2,
    ?_⟩
  · rw [hunique hn (.inl ⟨rfl, h.cur⟩), h.cr3]
  · rw [hunique hn h.child, hpgdir]
  · rintro rfl
    exact h.ne (hs.inj hlive h.live hpgdir h.cr3)

/-- If no segment has the page of the stack, both loaders leave the bytes of the file and zeros
behind them. -/
theorem loaders_agree {k1 k1' k2 k2' : Kernel} {e c e' : Nat} {old : Image} {r : Int}
    (hfile : Loadable file) (hstack : stackPage ∉ segmentPages (Elf.ofImage file.byte).ph)
    (h1 : Sound k1) (he : k1.Live e)
    (hload : loadIcode e (Elf.ofImage file.byte) k1 = .ret () k1')
    (h2 : Sound k2) (hpar : Parent k2 c child e')
    (hspawn : spawnSegments child file old k2 = .ret r k2') (hr : 0 ≤ r) :
    ∀ ph ∈ (Elf.ofImage file.byte).ph, ph.pType = elfProgLoad → ∀ x < ph.pMemsz.toNat,
      k1'.userByte e (ph.pVa.toNat + x) = some (ph.byte file.byte x) ∧
      k2'.userByte e' (ph.pVa.toNat + x) = some (ph.byte file.byte x) := by
  intro ph hph hpload x hx
  have hpage : (ph.pVa.toNat + x) / pgsize ∈ segmentPages (Elf.ofImage file.byte).ph :=
    ⟨ph, hph, hpload, mem_touched hx⟩
  constructor
  · obtain ⟨extra, hs⟩ := h1.1
    obtain ⟨d, hd, hpgdir⟩ := hs.dir_of_live he
    have hwp := loadIcode_filled (E := fun _ => True) hfile.fits hfile.apart hpgdir
      (h1.filled (m := fun _ => 0)) hd
    obtain ⟨hpgdir', m1, m2, hm1, hm2, hfilled⟩ := (wp_of_ret hload).mp hwp
    rw [hfilled.userByte hpgdir' (.inl (.inr hpage)), hm2, hm1.bytes ph hph hpload x hx]
    · rfl
    · exact fun hc => hstack (hc ▸ hpage)
  · obtain ⟨d2, hpgdir, hsp⟩ := hpar.spawning h2
    have hwp := spawnSegments_filled (E := fun _ => True) old hfile.headers hfile.fits
      hfile.apart hsp (h2.filled (m := fun _ => 0))
    obtain ⟨hs, hfilled⟩ := (wp_of_ret hspawn).mp hwp
    obtain ⟨m1, hm1, hfilled⟩ := hfilled hr
    rw [hfilled.userByte (by rw [hs.envs, hpgdir]) (.inr hpage), hm1.bytes ph hph hpload x hx]

/-- A file with one segment of six bytes at `va`. Four of them are in the file: its magic
number. -/
def tinyProgram (va : Word) : ExecFile where
  size := 512
  byte x :=
    if x < 4 then wordByte elfMagic x
    else if x = 28 then 52
    else if x = 44 then 1
    else if x = 52 then 1
    else if 60 ≤ x ∧ x < 64 then wordByte va (x - 60)
    else if x = 68 then 4
    else if x = 72 then 6
    else if x = 76 then 2
    else 0
  size_lt := by decide

theorem tinyProgram_hdrs (va : Word) :
    segmentHdrs (tinyProgram va).byte = [segmentHdr (tinyProgram va).byte 52] := by
  have hoff : phoff (tinyProgram va).byte = 52 := by simp [phoff, word, tinyProgram]
  have hnum : phnum (tinyProgram va).byte = 1 := by simp [phnum, half, tinyProgram]
  unfold segmentHdrs
  rw [hoff, hnum]
  rfl

theorem tinyProgram_ph (va : Word) :
    (Elf.ofImage (tinyProgram va).byte).ph = [⟨1, 0, va, 4, 6⟩] := by
  have hva : word (tinyProgram va).byte 60 = va := wordByte_append
  show (segmentHdrs (tinyProgram va).byte).map SegmentHdr.toProghdr = _
  rw [tinyProgram_hdrs, List.map_singleton]
  unfold segmentHdr
  rw [hva]
  simp [word, tinyProgram]

theorem tinyProgram_loadable (hva : va.toNat + 6 ≤ utop) (hoff : pgoff va = 0) :
    Loadable (tinyProgram va) where
  headers := by
    have h : phoff (tinyProgram va).byte + 32 * phnum (tinyProgram va).byte = 84 := by
      simp [phoff, phnum, half, word, tinyProgram]
    unfold HeadersInFront
    omega
  fits := by
    rw [tinyProgram_ph]
    rintro ph hph -
    obtain rfl := List.mem_singleton.mp hph
    have hzero : pgoff 0 = 0 := by decide
    exact ⟨show (4 : Word).toNat ≤ (6 : Word).toNat by decide, hva, hzero.trans hoff.symm,
      show (0 : Word).toNat + (4 : Word).toNat ≤ 512 by decide⟩
  apart := by
    rw [tinyProgram_ph]
    exact List.pairwise_singleton _ _

theorem nursery_parent : Parent nursery 0 0x1001 1 where
  cur := by decide +kernel
  live := by decide +kernel
  cr3 := by decide +kernel
  child := .inr ⟨by decide, by decide, by decide +kernel, by decide +kernel, fun _ =>
    ⟨0, by decide +kernel, .inr (by decide +kernel)⟩⟩
  ne := by decide

/-- The program at `UTEXT`: its last byte in the file is the letter F. -/
theorem loaders_agree_tiny :
    ∃ k1 k2, loadIcode 1 (Elf.ofImage (tinyProgram 0x800000).byte) pair = .ret () k1 ∧
      spawnSegments 0x1001 (tinyProgram 0x800000) (fun _ => 0) nursery = .ret 0 k2 ∧
      k1.userByte 1 0x800003 = some 0x46 ∧ k2.userByte 1 0x800003 = some 0x46 := by
  have hload : loadIcode 1 (Elf.ofImage (tinyProgram 0x800000).byte) pair = .ret () _ :=
    Outcome.eq_ret pair (by decide +kernel)
  have hspawn : spawnSegments 0x1001 (tinyProgram 0x800000) (fun _ => 0) nursery = .ret 0 _ :=
    Outcome.eq_ret nursery (by decide +kernel)
  have hph : (⟨1, 0, 0x800000, 4, 6⟩ : Proghdr) ∈ (Elf.ofImage (tinyProgram 0x800000).byte).ph := by
    rw [tinyProgram_ph]
    exact List.mem_singleton_self _
  have hstack : stackPage ∉ segmentPages (Elf.ofImage (tinyProgram 0x800000).byte).ph := by
    rw [tinyProgram_ph]
    rintro ⟨ph, hmem, _, _, hlt⟩
    obtain rfl := List.mem_singleton.mp hmem
    exact absurd hlt (by decide)
  have hboth := loaders_agree (tinyProgram_loadable (by decide) (by decide)) hstack pair_sound
    (by decide +kernel) hload nursery_sound nursery_parent hspawn le_rfl _ hph rfl 3 (by decide)
  exact ⟨_, _, hload, hspawn, hboth.1, hboth.2⟩

/-- In the page of the stack `load_icode` leaves zeros, and `spawn` the bytes of the file. -/
theorem stack_segment_differs : Loadable (tinyProgram 0xeebfd000) ∧
    ∃ k1 k2, loadIcode 1 (Elf.ofImage (tinyProgram 0xeebfd000).byte) pair = .ret () k1 ∧
      spawnSegments 0x1001 (tinyProgram 0xeebfd000) (fun _ => 0) nursery = .ret 0 k2 ∧
      k1.userByte 1 0xeebfd003 = some 0 ∧ k2.userByte 1 0xeebfd003 = some 0x46 := by
  refine ⟨tinyProgram_loadable (by decide) (by decide), _, _, Outcome.eq_ret pair ?_,
    Outcome.eq_ret nursery ?_, ?_, ?_⟩
  · decide +kernel
  · decide +kernel
  · decide +kernel
  · decide +kernel

end Jos
