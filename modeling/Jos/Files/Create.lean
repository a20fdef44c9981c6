import Jos.Files.Directories

/-!
# Creating a file

`file_create` finds an entry without a name, or adds a block to the directory, writes the name and
flushes the directory. The tree stays sound if the block that is added holds zeros.
-/

namespace Jos

open Logic Store List

variable {F G : Set Nat} {I : Inodes} {m m' : Image} {st st' st1 : Store}
  {f g a b c d n k hi e i j : Nat} {x y : Option Nat} {v : Word} {w : Nat → Byte}
  {name path : List Byte}

/-- The blocks of a list go to the disk in order. -/
def Store.flushAll (st : Store) (L : List Nat) : Store := L.foldl Store.flush st

@[simp] theorem Store.flushAll_mem (st : Store) (L : List Nat) : (st.flushAll L).mem = st.mem := by
  induction L generalizing st with
  | nil => rfl
  | cons b L ih => exact (ih (st.flush b)).trans (st.flush_mem b)

theorem Store.flushAll_append (st : Store) (L L' : List Nat) :
    st.flushAll (L ++ L') = (st.flushAll L).flushAll L' := foldl_append

theorem Store.flushAll_nil (st : Store) : st.flushAll [] = st := rfl

theorem Store.flushAll_singleton (st : Store) (b : Nat) : st.flushAll [b] = st.flush b := rfl

def presentBlocks (m : Image) (f n : Nat) : List Nat :=
  ((List.range (min n maxblocks)).map fun i => held m f (some i)).filter (· != 0)

/-- The blocks that `file_flush` flushes. -/
def flushList (m : Image) (f : Nat) : List Nat :=
  presentBlocks m f (blocksOf (fSize m f)).toInt.toNat ++ [f / blksize] ++
    if held m f none = 0 then [] else [held m f none]

theorem presentBlocks_succ : presentBlocks m f (n + 1) = presentBlocks m f n ++
    if n < maxblocks ∧ held m f (some n) ≠ 0 then [held m f (some n)] else [] := by
  unfold presentBlocks
  by_cases hn : n < maxblocks
  · rw [Nat.min_eq_left hn, Nat.min_eq_left (Nat.le_of_lt hn), range_succ, map_append,
      filter_append]
    by_cases h0 : held m f (some n) = 0
    · simp [h0]
    · simp [h0, hn]
  · rw [Nat.min_eq_right (by omega), Nat.min_eq_right (by omega), if_neg (fun hc => hn hc.1),
      append_nil]

theorem fileFlushBlock_runs (h : LaidOut F st.mem) (hf : f ∈ F) (hi : i < 2 ^ 32) :
    FsRuns (fileFlushBlock f i) st ()
      (st.flushAll (if i < maxblocks ∧ held st.mem f (some i) ≠ 0 then [held st.mem f (some i)]
        else [])) := by
  have hword : (toWord i).toNat = i := by
    rw [BitVec.toNat_ofNat]
    exact Nat.mod_eq_of_lt hi
  by_cases hn : i < maxblocks
  · by_cases hind : ndirect ≤ i ∧ held st.mem f none = 0
    · rw [if_neg (fun hc => hc.2 (held_of_indirect_zero hind.2 hind.1))]
      refine .bind (fileBlockWalk_missing h hf ?_ ?_ hind.2) (.pure _ _) <;> rw [hword]
      · exact hind.1
      · exact hn
    · have hi' : ndirect ≤ i → held st.mem f none ≠ 0 := fun hge hz => hind ⟨hge, hz⟩
      have hwalk := fileBlockWalk_runs (v := toWord i) h hf (by rw [hword]; exact hn)
        (by rw [hword]; exact hi') false
      rw [hword] at hwalk
      have hslot := word_slotAt hi'
      refine .bind hwalk (.bind (loadWord_runs (h.readable_slot hf hn hi').1) ?_)
      by_cases h0 : held st.mem f (some i) = 0
      · refine .ite_neg (fun hne => hne (BitVec.eq_of_toNat_eq (hslot.trans h0))) ?_
        rw [if_neg (fun hc => hc.2 h0)]
        exact .pure _ _
      · have hlt := (h.range f hf (some i) hn h0).2
        have hne : word st.mem (slotAt st.mem f i) ≠ 0 := by
          intro hz
          apply h0
          rw [← hslot, hz]
          rfl
        have hblock : held st.mem f (some i) * blksize / blksize = held st.mem f (some i) :=
          Nat.mul_div_cancel _ (by decide)
        have haddr := diskaddr_runs h.readable_super hne (by rw [hslot]; exact hlt)
        rw [hslot] at haddr
        have hflush : FsRuns (flushBlock _) st () _ :=
          flushBlock_runs (lt_disksize_of_lt h hlt hblock)
        rw [hblock] at hflush
        refine .ite_pos hne (.bind haddr ?_)
        rw [if_pos ⟨hn, h0⟩]
        exact hflush
  · rw [if_neg (fun hc => hn hc.1)]
    exact .bind (fileBlockWalk_invalid (by rw [hword]; omega) false) (.pure _ _)

theorem fileFlush_runs (h : LaidOut F st.mem) (hf : f ∈ F) :
    FsRuns (fileFlush f) st () (st.flushAll (flushList st.mem f)) := by
  have hn := toInt_toNat_lt (blocksOf (fSize st.mem f))
  have hfield : 176 + 4 ≤ sizeofFile := by decide
  obtain ⟨st1, hloop, heq⟩ : ∃ st1, FsRuns (Code.times
      (blocksOf (fSize st.mem f)).toInt.toNat (fileFlushBlock f)) st () st1 ∧ st1 = st.flushAll
        (presentBlocks st.mem f (blocksOf (fSize st.mem f)).toInt.toNat) := Code.Runs.times _
    (fun i x => x = st.flushAll (presentBlocks st.mem f i)) rfl fun i hi x hx => by
      subst hx
      refine ⟨_, fileFlushBlock_runs (by rw [flushAll_mem]; exact h) hf (by omega), ?_⟩
      rw [flushAll_mem, ← flushAll_append, presentBlocks_succ]
  refine .bind (fSize_runs h hf) (.bind hloop ?_)
  refine .bind (flushBlock_runs (lt_disksize_of_lt h (h.readable_home hf).2.1 rfl)) ?_
  have hmem : (st1.flush (f / blksize)).mem = st.mem := by
    rw [flush_mem, heq, flushAll_mem]
  have hload := loadWord_runs (by rw [hmem]; exact h.readable_field hf hfield)
  rw [hmem] at hload
  refine .bind hload ?_
  unfold flushList
  rw [flushAll_append, flushAll_append, flushAll_singleton, ← heq]
  by_cases h0 : held st.mem f none = 0
  · rw [if_pos h0, flushAll_nil]
    exact .ite_neg (fun hne => hne (word_fIndirectAt_eq_zero.mpr h0)) (.pure _ _)
  · have hlt : held st.mem f none < nblocksIn st.mem := (h.range f hf none trivial h0).2
    have hne : word st.mem (f + 176) ≠ 0 := fun hz => h0 (word_fIndirectAt_eq_zero.mp hz)
    have hblock : held st.mem f none * blksize / blksize = held st.mem f none :=
      Nat.mul_div_cancel _ (by decide)
    have haddr := diskaddr_runs (by rw [hmem]; exact h.readable_super) hne (by rw [hmem]; exact hlt)
    have hflush : FsRuns (flushBlock _) (st1.flush (f / blksize)) () _ :=
      flushBlock_runs (lt_disksize_of_lt h hlt hblock)
    rw [hblock] at hflush
    rw [if_neg h0, flushAll_singleton]
    exact .ite_pos hne (.bind haddr hflush)

def NamesKept (F : Set Nat) (m m' : Image) : Prop := ∀ g ∈ F, SameOn m m' g maxnamelen

theorem NamesKept.refl (m : Image) : NamesKept F m m := fun _ _ _ _ _ => rfl

theorem NamesKept.trans {m1 m2 m3 : Image} (h : NamesKept F m1 m2) (h' : NamesKept F m2 m3) :
    NamesKept F m1 m3 := fun g hg => SameOn.trans (h g hg) (h' g hg)

section

variable (h : Shape F (inodes m))

include h

theorem Shape.names_bitmap (hb : b < nblocksIn m) : NamesKept F m (setWord m (bitmapAt b) v) :=
  fun _ hg => (h.struct_of_bitmap hg hb).mono (Nat.le_refl _) (Nat.add_le_add_left (by decide) _)

theorem Shape.names_field (hf : f ∈ F) (hk : maxnamelen ≤ k)
    (hn : k + n ≤ sizeofFile) : NamesKept F m (setBytes m (f + k) n w) := by
  intro g hg
  apply sameOn_setBytes
  by_cases hgf : g = f
  · subst hgf
    omega
  · have := h.apart hf hg (Ne.symm hgf)
    have hlen : maxnamelen ≤ sizeofFile := by decide
    omega

theorem Shape.names_block (hb : ∀ g ∈ F, g / blksize ≠ b)
    (ha : b * blksize ≤ a) (hn : a + n ≤ b * blksize + blksize) :
    NamesKept F m (setBytes m a n w) := by
  intro g hg
  apply sameOn_setBytes
  have hin := (h.inside hg).1
  have hlen : maxnamelen ≤ sizeofFile := by decide
  exact apart_of_block ha hn (hb g hg) (by omega)

theorem Shape.names_slot (hf : f ∈ F) (hn : n < maxblocks) (hi : ndirect ≤ n → held m f none ≠ 0) :
    NamesKept F m (setWord m (slotAt m f n) v) := by
  rcases slotAt_cases m f hn with ⟨k, hlo, hk, hat⟩ | ⟨hge, k, hk, hat⟩
  · rw [hat]
    exact h.names_field hf hlo hk
  · rw [hat]
    apply h.names_block fun g hg => h.home_ne_indirect hg hf (hi hge)
    · exact Nat.le_add_right _ _
    · show _ ≤ held m f none * blksize + blksize
      omega

end

section

variable (h : LaidOut F m)

include h

theorem Layout.names_own (hf : f ∈ F) (hn : n < maxblocks)
    (hi : ndirect ≤ n → held m f none ≠ 0) (hb : freeIn m b = true) :
    NamesKept F m (setWord (markUsed m b) (slotAt m f n) v) := by
  have hlt := h.lt_nblocks hb
  have hA := h.toShape.agree_markUsed hlt
  have hnone : held (markUsed m b) f none = held m f none := hA.held f hf none trivial
  have hslot := ((h.toShape.setFree b false).agree hA).names_slot (v := v) hf hn fun hge => by
    rw [hnone]
    exact hi hge
  rw [slotAt_congr hnone] at hslot
  exact (h.toShape.names_bitmap hlt).trans hslot

theorem Layout.names_drop (hf : f ∈ F) (hn : n < maxblocks)
    (hi : ndirect ≤ n → held m f none ≠ 0) (hb : b < nblocksIn m) :
    NamesKept F m (setWord (markFree m b) (slotAt m f n) v) := by
  have hA := h.toShape.agree_markFree hb
  have hnone : held (markFree m b) f none = held m f none := hA.held f hf none trivial
  have hslot := ((h.toShape.setFree b true).agree hA).names_slot (v := v) hf hn fun hge => by
    rw [hnone]
    exact hi hge
  rw [slotAt_congr hnone] at hslot
  exact (h.toShape.names_bitmap hb).trans hslot

theorem Layout.home_ne_free (hg : g ∈ F) (hb : freeIn m b = true) :
    g / blksize ≠ b := (h.plain_of_free hb).home_ne h.toShape hg

theorem Layout.names_ownIndirect (hf : f ∈ F) (hb : freeIn m b = true) :
    NamesKept F m (setWord (setBytes (markUsed m b) (b * blksize) blksize fun _ => 0)
      (fIndirectAt f) v) := by
  have hlt := h.lt_nblocks hb
  have hA := h.toShape.agree_markUsed hlt
  have hsh := (h.toShape.setFree b false).agree hA
  have hA2 := h.agree_cleared hb
  have hzero := hsh.names_block (w := fun _ => 0) (fun g hg => h.home_ne_free hg hb)
    (Nat.le_refl (b * blksize)) (Nat.le_refl _)
  refine ((h.toShape.names_bitmap hlt).trans hzero).trans ?_
  exact ((h.toShape.setFree b false).agree hA2).names_field hf (k := 176) (by decide) (by decide)

end

theorem Move.names (hf : f ∈ F) (hmove : Move f st st') (h : LaidOut F st.mem) :
    NamesKept F st.mem st'.mem := by
  cases hmove with
  | grow hgrow =>
    cases hgrow with
    | data hn h0 hdir ha hk =>
      exact h.toShape.names_block (fun g hg =>
        (h.toShape.plain_of_data hf hn hdir h0).home_ne h.toShape hg) ha hk
    | own hn hi h0 hb =>
      rw [own_mem]
      exact h.names_own hf hn hi hb
    | ownIndirect h0 hb =>
      rw [ownIndirect_mem]
      exact h.names_ownIndirect hf hb
    | size v => exact h.toShape.names_field hf (k := 128) (by decide) (by decide)
    | flush b =>
      rw [flush_mem]
      exact .refl _
    | record i n => exact .refl _
  | @drop n hn hdir h0 =>
    exact h.names_drop hf hn (indirect_ne_zero h0) (h.range f hf (some n) hn h0).2
  | dropIndirect hdir h0 _ =>
    have hlt : held st.mem f none < nblocksIn st.mem := (h.range f hf none trivial h0).2
    have hA := h.toShape.agree_markFree hlt
    exact (h.toShape.names_bitmap hlt).trans
      (((h.toShape.setFree _ true).agree hA).names_field hf (k := 176) (by decide) (by decide))

theorem Moves.names (hf : f ∈ F) (hmoves : Moves f st st') (h : LaidOut F st.mem) :
    NamesKept F st.mem st'.mem := by
  induction hmoves with
  | refl => exact .refl _
  | tail hpath hmove ih => exact ih.trans (hmove.names hf (Moves.layout hf hpath h))

/-- The files are the same if their types are and the slots of the directories are. -/
theorem files_eq_of_same (htype : ∀ d ∈ files m, fType m' d = fType m d)
    (hheld : ∀ d ∈ files m, fType m d = ftypeDir → ∀ n < maxblocks,
      held m' d (some n) = held m d (some n)) : files m' = files m := by
  ext f
  constructor
  · intro hf
    induction hf with
    | root => exact .root
    | @entry d n j _ hdir hn h0 hj ih =>
      rw [htype d ih] at hdir
      rw [hheld d ih hdir n hn] at h0 ⊢
      exact .entry ih hdir hn h0 hj
  · intro hf
    refine IsFile.congr hf fun d hd hdir => ⟨(htype d hd).trans hdir, fun n hn _ => ?_⟩
    exact hheld d hd hdir n hn

theorem files_eq_of_agree (hA : (inodes m').Agree (files m) (inodes m)) : files m' = files m :=
  files_eq_of_same hA.type fun d hd _ n hn => hA.held d hd (some n) hn

theorem Tree.agree (h : Tree m) (hA : (inodes m').Agree (files m) (inodes m)) : Tree m' := by
  have hfiles := files_eq_of_agree hA
  have hlen : ∀ d ∈ files m, dirLen m' d = dirLen m d := fun d hd =>
    congrArg (fun v : Word => v.toNat / blksize) (hA.size d hd)
  have hsize : ∀ d ∈ files m, fSize m' d = fSize m d := hA.size
  have htype := hA.type
  refine ⟨⟨?_, ?_, fun f hf => ?_⟩, (htype _ .root).trans h.root, fun d hd hdir => ?_,
    fun d hd hdir n hn => ?_⟩
  · rw [hfiles]
    exact h.layout.agree hA
  · rw [hfiles]
    intro f hf n hn h0
    rw [hsize f hf]
    have heq : held m' f (some n) = held m f (some n) := hA.held f hf (some n) hn
    rw [heq] at h0
    exact h.tight f hf n hn h0
  · rw [hfiles] at hf
    rw [hsize f hf]
    exact h.size_nonneg f hf
  · rw [hfiles] at hd
    rw [hsize d hd, hlen d hd]
    exact h.size d hd ((htype d hd).symm.trans hdir)
  · rw [hfiles] at hd
    rw [hlen d hd] at hn
    have hdir' := (htype d hd).symm.trans hdir
    have hmax := (h.size d hd hdir').2
    have heq : held m' d (some n) = held m d (some n) := hA.held d hd (some n) (show n < _ by omega)
    rw [heq]
    exact h.full d hd hdir' n hn

theorem Layout.extend (h : Layout F I) (hF : ∀ f ∈ F, f ∈ G)
    (hnew : ∀ g ∈ G, g ∉ F → (∀ x, ValidSlot x → I.held g x = 0) ∧
      ∃ d ∈ F, I.IsDir d ∧ ∃ n < maxblocks, ∃ j < blkfiles,
        I.held d (some n) ≠ 0 ∧ g = I.held d (some n) * blksize + sizeofFile * j) :
    Layout G I := by
  have hold : ∀ g ∈ G, ∀ x, ValidSlot x → I.held g x ≠ 0 → g ∈ F := by
    intro g hg x hx h0
    by_contra hnot
    exact h0 ((hnew g hg hnot).1 x hx)
  refine ⟨⟨h.fits, h.reserved_le, fun f hf x hx h0 => h.range f (hold f hf x hx h0) x hx h0,
    fun f hf g hg x y hx hy h0 heq => ?_, fun f hf => ?_⟩, h.free_lt, h.reserved,
    fun f hf x hx h0 => h.used f (hold f hf x hx h0) x hx h0⟩
  · have hg' := hold g hg y hy (heq ▸ h0)
    exact h.distinct f (hold f hf x hx h0) g hg' x y hx hy h0 heq
  · by_cases hf' : f ∈ F
    · rcases h.placed f hf' with h0 | ⟨d, hd, hrest⟩
      · exact .inl h0
      · exact .inr ⟨d, hF d hd, hrest⟩
    · obtain ⟨-, d, hd, hrest⟩ := hnew f hf hf'
      exact .inr ⟨d, hF d hd, hrest⟩

theorem zero_field (h : ∀ o < sizeofFile, m (g + o) = 0) (hk : k + 4 ≤ sizeofFile) :
    word m (g + k) = 0 := by
  apply word_of_zero
  intro i hi
  have := h (k + i) (by omega)
  rwa [← Nat.add_assoc] at this

theorem zero_entry (h : ∀ o < sizeofFile, m (g + o) = 0) :
    fType m g ≠ ftypeDir ∧ fSize m g = 0 ∧ ∀ x, held m g x = 0 := by
  have hword := fun k (hk : k + 4 ≤ sizeofFile) => zero_field h hk
  have hind : fIndirect m g = 0 := congrArg BitVec.toNat (hword 176 (by decide))
  refine ⟨?_, hword 128 (by decide), fun x => ?_⟩
  · have htype : fType m g = 0 := hword 132 (by decide)
    rw [htype]
    decide
  · cases x with
    | none => exact hind
    | some n =>
      rw [held_some]
      by_cases hn : n < ndirect
      · rw [if_pos hn]
        unfold fDirectAt
        rw [Nat.add_assoc, hword _ (by unfold ndirect sizeofFile at *; omega)]
        rfl
      · rw [if_neg hn, if_pos hind]

/-- The first entry of a directory without a name. -/
def freeEntry (m : Image) (d : Nat) : Option Nat :=
  firstInDir m d (fun f => m f == 0) (dirLen m d) 0

/-- The directory `d` has an entry `f` without a name, after it has grown if necessary. -/
structure Grown (d f : Nat) (st st' : Store) : Prop where
  moves : Moves d st st'
  tree : Tree st'.mem
  sub : ∀ g ∈ files st.mem, g ∈ files st'.mem
  fresh : ∀ g ∈ files st'.mem, g ∉ files st.mem →
    fType st'.mem g ≠ ftypeDir ∧ fSize st'.mem g = 0 ∧ ∀ x, held st'.mem g x = 0
  entry : ∃ n < dirLen st'.mem d, ∃ j < blkfiles, f = entryAt (held st'.mem d (some n)) j
  unnamed : st'.mem f = 0
  slots : ∀ n < dirLen st.mem d, held st'.mem d (some n) = held st.mem d (some n)
  len : dirLen st'.mem d = dirLen st.mem d ∨
    dirLen st'.mem d = dirLen st.mem d + 1 ∧ freeEntry st.mem d = none
  steps : st' = st ∨ freeEntry st.mem d = none ∧ ∃ b v,
    GetSteps d (dirLen st.mem d) b (st.setWord (fSizeAt d) v) st' ∧
      ∀ o < blksize, st'.mem (b * blksize + o) = 0

theorem freeEntry_cases (m : Image) (d : Nat) :
    (∃ i < dirLen m d, ∃ j < blkfiles, freeEntry m d = some (entryAt (held m d (some i)) j) ∧
      m (entryAt (held m d (some i)) j) = 0) ∨
    (freeEntry m d = none ∧ ∀ i < dirLen m d, ∀ j < blkfiles,
      m (entryAt (held m d (some i)) j) ≠ 0) := by
  rcases firstInDir_cases (m := m) (d := d) (t := fun f => m f == 0) (n := 0) (dirLen m d) with
    ⟨i, _, hi, j, hj, h1, h2⟩ | ⟨h1, h2⟩
  · exact .inl ⟨i, by omega, j, hj, h1, beq_iff_eq.mp h2⟩
  · exact .inr ⟨h1, fun i hi j hj => beq_eq_false_iff_ne.mp (h2 i (by omega) (by omega) j hj)⟩

theorem scan_free_runs (h : DirTree F st.mem) (hd : d ∈ F) {nblock : Word}
    (hlen : nblock.toNat = dirLen st.mem d) :
    FsRuns (scanDir d (fun f => do return (← load8 f) == 0) nblock.toNat 0) st
      (.ok (freeEntry st.mem d)) st := by
  have hmax := (h.size d hd).2
  rw [hlen]
  refine scanDir_runs _ (t := fun f => st.mem f == 0) (v := 0) h.layout hd
    (dirLen st.mem d) (by show 0 + _ ≤ _; omega)
    (fun i _ hi => h.full d hd i (by simpa using hi)) fun i _ hi j hj => ?_
  have hread := h.readable_entry hd (k := 0) (n := i) (by simpa using hi) hj (by decide)
  rw [Nat.add_zero] at hread
  exact .bind (load8_runs hread) (.pure _ _)

theorem dirAllocFile_found (h : Tree st.mem) (hd : d ∈ dirs st.mem)
    (hfree : freeEntry st.mem d = some f) :
    FsRuns (dirAllocFile d) st (.ok f) st ∧ Grown d f st st := by
  obtain ⟨nblock, hrun, hlen⟩ := dirBlocks_runs h.dirTree.layout hd (h.dirTree.size d hd)
  have hscan := scan_free_runs h.dirTree hd hlen
  rw [hfree] at hscan
  refine ⟨.bind hrun (.bind hscan (.pure _ _)), .refl, h, fun _ hg => hg,
    fun g hg hnot => absurd hg hnot, ?_, ?_, fun _ _ => rfl, .inl rfl, .inl rfl⟩ <;>
    rcases freeEntry_cases st.mem d with ⟨i, hi, j, hj, h1, h2⟩ | ⟨h1, _⟩
  · exact ⟨i, hi, j, hj, Option.some.inj (hfree.symm.trans h1)⟩
  · rw [hfree] at h1
    cases h1
  · rw [Option.some.inj (hfree.symm.trans h1)]
    exact h2
  · rw [hfree] at h1
    cases h1

theorem toNat_grow {size : Word} (hsize : size.toNat = k * blksize) (hk : k < maxblocks) :
    (size + toWord blksize).toNat = (k + 1) * blksize := by
  rw [BitVec.toNat_add, toNat_blksize, hsize, Nat.succ_mul]
  apply Nat.mod_eq_of_lt
  unfold maxblocks ndirect nindirect blksize at *
  omega

theorem zero_in_block (h : ∀ o < blksize, m (b * blksize + o) = 0) (hj : j < blkfiles) :
    ∀ o < sizeofFile, m (entryAt b j + o) = 0 := by
  intro o ho
  have := h (sizeofFile * j + o) (by
    unfold blkfiles sizeofFile blksize at *
    omega)
  rwa [← Nat.add_assoc] at this

/-- The effect of adding the block `b` to a directory of `k` blocks. -/
structure BlockAdded (d k b : Nat) (st st' : Store) : Prop where
  moves : Moves d st st'
  size : (fSize st'.mem d).toNat = (k + 1) * blksize
  block : held st'.mem d (some k) = b
  ne_zero : b ≠ 0
  same : ∀ n < maxblocks, n ≠ k → held st'.mem d (some n) = held st.mem d (some n)
  zero : ∀ o < blksize, st'.mem (b * blksize + o) = 0
  steps : ∃ v, GetSteps d k b (st.setWord (fSizeAt d) v) st'

theorem BlockAdded.zero_entry (h : BlockAdded d k b st st') (hj : j < blkfiles) :
    fType st'.mem (entryAt b j) ≠ ftypeDir ∧ fSize st'.mem (entryAt b j) = 0 ∧
      ∀ x, held st'.mem (entryAt b j) x = 0 := by
  exact Jos.zero_entry (zero_in_block h.zero hj)

/-- The files after block `b`, with entries that are no directories, has become block `k` of
the directory `d`. -/
theorem files_grown (hk : k < maxblocks) (hd : d ∈ dirs m) (hempty : held m d (some k) = 0)
    (hkept : Kept (files m) d m m') (hsame : ∀ n < maxblocks, n ≠ k →
      held m' d (some n) = held m d (some n)) (hblock : held m' d (some k) = b) (hb : b ≠ 0)
    (hnew : ∀ j < blkfiles, fType m' (entryAt b j) ≠ ftypeDir) :
    ∀ g, g ∈ files m' ↔ g ∈ files m ∨ ∃ j < blkfiles, g = entryAt b j := by
  have hdir' : fType m' d = ftypeDir := (hkept.type d hd.1).trans hd.2
  have hsub : ∀ g ∈ files m, g ∈ files m' := by
    intro g hg
    refine IsFile.congr hg fun e he hedir => ⟨(hkept.type e he).trans hedir, fun n hn h0 => ?_⟩
    by_cases hed : e = d
    · subst hed
      refine hsame n hn ?_
      rintro rfl
      exact h0 hempty
    · exact hkept.held e he hed (some n) hn
  intro g
  constructor
  · intro hg
    induction hg with
    | root => exact .inl .root
    | @entry e n j he hedir hn h0 hj ih =>
      rcases ih with he' | ⟨j', hj', rfl⟩
      · by_cases hed : e = d
        · subst hed
          by_cases hnk : n = k
          · subst hnk
            rw [hblock]
            exact .inr ⟨j, hj, rfl⟩
          · rw [hsame n hn hnk] at h0 ⊢
            exact .inl (.entry he' hd.2 hn h0 hj)
        · rw [hkept.held e he' hed (some n) hn] at h0 ⊢
          rw [hkept.type e he'] at hedir
          exact .inl (.entry he' hedir hn h0 hj)
      · exact absurd hedir (hnew j' hj')
  · rintro (hg | ⟨j, hj, rfl⟩)
    · exact hsub g hg
    · have := IsFile.entry (hsub d hd.1) hdir' hk (by rw [hblock]; exact hb) hj
      rw [hblock] at this
      exact this

theorem dirLen_of_size (h : (fSize m d).toNat = k * blksize) : dirLen m d = k := by
  unfold dirLen
  rw [h]
  exact Nat.mul_div_cancel k (by decide)

theorem Tree.held_dirLen (h : Tree m) (hd : d ∈ dirs m) (hk : dirLen m d < maxblocks) :
    held m d (some (dirLen m d)) = 0 := by
  by_contra h0
  have hlt := h.tight d hd.1 _ hk h0
  have hsize := h.size d hd.1 hd.2
  rw [toInt_of_small (size_lt_of_dirLen hsize)] at hlt
  omega

theorem BlockAdded.grown (h : BlockAdded d (dirLen st.mem d) b st st') (ht : Tree st.mem)
    (hd : d ∈ dirs st.mem) (hk : dirLen st.mem d < maxblocks)
    (hfull : freeEntry st.mem d = none) : Grown d (entryAt b 0) st st' := by
  have hkept := h.moves.kept hd.1 ht.layout
  have hempty := ht.held_dirLen hd hk
  have hfiles := files_grown hk hd hempty hkept h.same h.block h.ne_zero
    fun j hj => (h.zero_entry hj).1
  have hfresh : ∀ g ∈ Jos.files st'.mem, g ∉ Jos.files st.mem →
      fType st'.mem g ≠ ftypeDir ∧ fSize st'.mem g = 0 ∧ ∀ x, held st'.mem g x = 0 := by
    intro g hg hnot
    rcases (hfiles g).mp hg with hg' | ⟨j, hj, rfl⟩
    · exact absurd hg' hnot
    · exact h.zero_entry hj
  have hdirOld : ∀ e ∈ Jos.files st'.mem, fType st'.mem e = ftypeDir →
      e ∈ Jos.files st.mem ∧ fType st.mem e = ftypeDir := by
    intro e he hedir
    have he' : e ∈ Jos.files st.mem := by
      by_contra hnot
      exact (hfresh e he hnot).1 hedir
    exact ⟨he', (hkept.type e he').symm.trans hedir⟩
  have hlen := dirLen_of_size h.size
  have hsmall := size_lt_of_dirLen (m := st'.mem) (d := d) ⟨by rw [hlen]; exact h.size, by omega⟩
  have hdir' : fType st'.mem d = ftypeDir := (hkept.type d hd.1).trans hd.2
  have hblock : held st'.mem d (some (dirLen st.mem d)) ≠ 0 := by
    rw [h.block]
    exact h.ne_zero
  refine ⟨h.moves, ⟨⟨?_, ?_, fun g hg => ?_⟩, ?_, fun e he hedir => ?_, fun e he hedir n hn => ?_⟩,
    fun g hg => (hfiles g).mpr (.inl hg), hfresh, ?_, ?_,
    fun n hn => h.same n (by omega) (by omega), .inr ⟨hlen, hfull⟩,
    .inr ⟨hfull, b, h.steps.imp fun v hs => ⟨hs, h.zero⟩⟩⟩
  · refine (h.moves.layout hd.1 ht.layout).extend (fun g hg => (hfiles g).mpr (.inl hg)) ?_
    intro g hg hnot
    rcases (hfiles g).mp hg with hg' | ⟨j, hj, rfl⟩
    · exact absurd hg' hnot
    · refine ⟨fun x _ => (h.zero_entry hj).2.2 x, d, hd.1, hdir', _, hk, j, hj, hblock, ?_⟩
      exact congrArg (· * blksize + sizeofFile * j) h.block.symm
  · intro g hg n hn h0
    have hg' : g ∈ Jos.files st.mem := by
      by_contra hnot
      exact h0 ((hfresh g hg hnot).2.2 _)
    refine hkept.tight ht.tight (fun n hn h0 => ?_) g hg' n hn h0
    rw [toInt_of_small hsmall, h.size]
    by_cases hnk : n = dirLen st.mem d
    · rw [hnk, Nat.succ_mul]
      unfold blksize
      omega
    · rw [h.same n hn hnk] at h0
      have hlt := ht.tight d hd.1 n hn h0
      have hsize := ht.size d hd.1 hd.2
      rw [toInt_of_small (size_lt_of_dirLen hsize), hsize.1] at hlt
      rw [Nat.succ_mul]
      omega
  · by_cases hg' : g ∈ Jos.files st.mem
    · refine hkept.size_nonneg ht.toWellFormed ?_ g hg'
      rw [toInt_of_small hsmall]
      exact Int.natCast_nonneg _
    · rw [(hfresh g hg hg').2.1]
      decide
  · exact (hkept.type _ .root).trans ht.root
  · obtain ⟨he', hedir'⟩ := hdirOld e he hedir
    by_cases hed : e = d
    · subst hed
      rw [hlen]
      exact ⟨h.size, hk⟩
    · have hsize := hkept.size e he' hed
      have hlen' : dirLen st'.mem e = dirLen st.mem e := by
        unfold dirLen
        rw [hsize]
      rw [hlen', hsize]
      exact ht.size e he' hedir'
  · obtain ⟨he', hedir'⟩ := hdirOld e he hedir
    by_cases hed : e = d
    · subst hed
      rw [hlen] at hn
      by_cases hnk : n = dirLen st.mem e
      · rw [hnk]
        exact hblock
      · rw [h.same n (by omega) hnk]
        exact ht.full e he' hedir' n (by omega)
    · have hlen' : dirLen st'.mem e = dirLen st.mem e := by
        unfold dirLen
        rw [hkept.size e he' hed]
      rw [hlen'] at hn
      have hmax := (ht.size e he' hedir').2
      rw [hkept.held e he' hed (some n) (show n < _ by omega)]
      exact ht.full e he' hedir' n hn
  · refine ⟨dirLen st.mem d, by omega, 0, by decide, ?_⟩
    rw [h.block]
  · have hfirst := h.zero 0 (by decide)
    unfold entryAt
    exact hfirst

theorem dirAllocFile_grown (h : Tree st.mem) (hd : d ∈ dirs st.mem)
    (hfull : freeEntry st.mem d = none) (hk : dirLen st.mem d < maxblocks)
    (hroom : needs st.mem d (dirLen st.mem d) (dirLen st.mem d + 1) ≤ freeCount st.mem)
    (hclean : CleanFirst st.mem (needs st.mem d (dirLen st.mem d) (dirLen st.mem d + 1))) :
    ∃ f st', FsRuns (dirAllocFile d) st (.ok f) st' ∧ Grown d f st st' := by
  obtain ⟨nblock, hrun, hlen⟩ := dirBlocks_runs h.dirTree.layout hd (h.dirTree.size d hd)
  have hscan := scan_free_runs h.dirTree hd hlen
  rw [hfull] at hscan
  have hsize := h.size d hd.1 hd.2
  have hfield : 128 + 4 ≤ sizeofFile := by decide
  have hl := h.layout
  -- The size is set first, and then the block is got.
  have hgrow := toNat_grow hsize.1 hk
  have hmove : Move d st (st.setWord (fSizeAt d) (fSize st.mem d + toWord blksize)) :=
    .grow (.size _)
  have hA := hl.toShape.agree_size (v := fSize st.mem d + toWord blksize) hd.1
  have hl1 := hmove.layout hd.1 hl
  have hneeds := hl.needs_size (dirLen st.mem d) (v := fSize st.mem d + toWord blksize)
    (k := needs st.mem d (dirLen st.mem d) (dirLen st.mem d + 1)) hd.1 hk
  rw [← setWord_mem] at hneeds hA
  obtain ⟨b, st', hget, hgot⟩ := fileGetBlock_spec hl1 hd.1
    (show nblock.toNat < dirLen st.mem d + 1 by omega) hk
    (by rw [hlen, hneeds.1, hneeds.2.1]; exact hroom)
  rw [hlen] at hgot
  have hempty := h.held_dirLen hd hk
  have hadded : BlockAdded d (dirLen st.mem d) b st st' := by
    refine ⟨.head hmove hgot.moves, ?_, hgot.block, hgot.ne_zero, fun n hn hne => ?_, ?_, _,
      hgot.steps⟩
    · rw [hgot.size]
      refine Eq.trans (congrArg BitVec.toNat ((hA.size d hd.1).trans ?_)) hgrow
      rw [Inodes.setSize_size, if_pos rfl]
    · exact (hgot.same n hn hne).trans (hA.held d hd.1 (some n) hn)
    · refine (hgot.clean ?_).2 ((hA.held d hd.1 (some _) hk).trans hempty)
      rw [hneeds.1]
      exact hneeds.2.2 hclean
  have hstore := storeWord_runs (w := fSize st.mem d + toWord blksize)
    (hl.readable_field hd.1 hfield) (hl.toShape.field_block hd.1 hfield).2
  have hentry : b * blksize = entryAt b 0 := by
    unfold entryAt
    omega
  rw [hentry] at hget
  refine ⟨entryAt b 0, st', .bind hrun (.bind hscan ?_), hadded.grown h hd hk hfull⟩
  exact .bind (fSize_runs hl hd.1) (.bind hstore hget)

/-- Where a path ends that names no file: in a directory, with a name that is not there. -/
theorem resolve_missing (h : DirTree F m) {cs : List (List Byte)} {dir : Option Nat}
    (hf : Visited F m f) (hcs : ∀ c ∈ cs, c ≠ []) (hw : resolve m cs dir f = .missing d name) :
    d ∈ F ∧ name ≠ [] ∧ name.length < maxnamelen ∧ lookupIn m d name = none := by
  induction cs generalizing dir f with
  | nil => cases hw
  | cons c cs ih =>
    unfold resolve at hw
    split at hw
    · cases hw
    · rename_i hlong
      split at hw
      · cases hw
      · rename_i hdir
        have hd := hf.2 (not_not.mp hdir)
        rcases lookupIn_cases m f c with ⟨i, hi, j, hj, h1, _⟩ | ⟨h1, _⟩
        · rw [h1] at hw
          exact ih (h.visited_entry hd hi hj) (fun x hx => hcs x (mem_cons_of_mem c hx)) hw
        · rw [h1] at hw
          dsimp only at hw
          split at hw
          · cases hw
            exact ⟨hd, hcs _ mem_cons_self, by omega, h1⟩
          · cases hw

theorem walkIn_missing (h : DirTree F m) (hw : walkIn m path = .missing d name) :
    d ∈ F ∧ name ≠ [] ∧ name.length < maxnamelen ∧ lookupIn m d name = none := by
  rw [walkIn_eq_resolve] at hw
  exact resolve_missing h h.visited_root (fun _ => ne_nil_of_components) hw

/-- If the directory has to grow for the new file, it can: there is a slot and a block for it,
and the block holds zeros. -/
def CreateOk (m : Image) (path : List Byte) : Prop :=
  ∀ d name, walkIn m path = .missing d name → freeEntry m d = none →
    dirLen m d < maxblocks ∧ needs m d (dirLen m d) (dirLen m d + 1) ≤ freeCount m ∧
      CleanFirst m (needs m d (dirLen m d) (dirLen m d + 1))

/-- The name of the entry `f` has been written. -/
def Store.named (st : Store) (f : Nat) (name : List Byte) : Store :=
  st.set f (name.length + 1) fun i => name.getD i 0

/-- What `file_create` has done: the entry `f` of the directory `d` has got the name. -/
structure FileCreated (path : List Byte) (d f : Nat) (name : List Byte) (st st1 st' : Store) :
    Prop where
  walk : walkIn st.mem path = .missing d name
  dir : d ∈ dirs st.mem
  name_ne : name ≠ []
  name_lt : name.length < maxnamelen
  absent : lookupIn st.mem d name = none
  grown : Grown d f st st1
  last : st' = (st1.named f name).flushAll (flushList (st1.named f name).mem d)

theorem Grown.mem_files (h : Grown d f st st') (ht : Tree st.mem) (hd : d ∈ dirs st.mem) :
    f ∈ files st'.mem := by
  obtain ⟨n, hn, j, hj, rfl⟩ := h.entry
  have htype : fType st'.mem d = ftypeDir := ((h.moves.kept hd.1 ht.layout).type d hd.1).trans hd.2
  have hd' := h.sub d hd.1
  have hmax := (h.tree.size d hd' htype).2
  exact .entry hd' htype (by omega) (h.tree.full d hd' htype n hn) hj

theorem Tree.agree_named (h : Tree st.mem) (hf : f ∈ files st.mem)
    (hname : name.length < maxnamelen) :
    (inodes (st.named f name).mem).Agree (files st.mem) (inodes st.mem) :=
  h.layout.toShape.agree_name hf hname

theorem Tree.names_named (h : Tree st.mem) (hf : f ∈ files st.mem)
    (hname : name.length < maxnamelen) :
    NamesKept (fun g => g ∈ files st.mem ∧ g ≠ f) st.mem (st.named f name).mem := by
  intro g hg
  unfold Store.named
  rw [set_mem]
  apply sameOn_setBytes
  have hapart := h.layout.toShape.apart hf hg.1 (Ne.symm hg.2)
  unfold maxnamelen at *
  unfold sizeofFile at hapart
  omega

theorem named_runs (h : LaidOut F st.mem) (hf : f ∈ F) (hname : name.length < maxnamelen) :
    FsRuns (strcpy f name) st () (st.named f name) := by
  have hread := h.readable_home hf
  have hin := (h.toShape.inside hf).1
  apply storeBytes_runs (readableRange_block hread _ _) <;>
    unfold maxnamelen at hname <;> unfold sizeofFile blksize at * <;> omega

theorem fileCreate_spec (h : Tree st.mem) (hok : CreateOk st.mem path) :
    ∃ r st', FsRuns (fileCreate path) st r st' ∧ ((∃ e, r = .error e) ∧ st' = st ∨
        ∃ d f name st1, r = .ok f ∧ FileCreated path d f name st st1 st') := by
  have hwalk := walkPath_runs h.dirTree path
  cases hw : walkIn st.mem path with
  | found dir f =>
    rw [hw] at hwalk
    exact ⟨_, st, .bind hwalk (.pure _ _), .inl ⟨⟨_, rfl⟩, rfl⟩⟩
  | failed r =>
    rw [hw] at hwalk
    exact ⟨_, st, .bind hwalk (.pure _ _), .inl ⟨⟨_, rfl⟩, rfl⟩⟩
  | missing d name =>
    rw [hw] at hwalk
    obtain ⟨hd, hne, hlt, habsent⟩ := walkIn_missing h.dirTree hw
    obtain ⟨f, st1, halloc, hgrown⟩ : ∃ f st1,
        FsRuns (dirAllocFile d) st (.ok f) st1 ∧ Grown d f st st1 := by
      cases hfree : freeEntry st.mem d with
      | some f => exact ⟨f, st, dirAllocFile_found h hd hfree⟩
      | none =>
        obtain ⟨hk, hroom, hclean⟩ := hok d name hw hfree
        exact dirAllocFile_grown h hd hfree hk hroom hclean
    have hf := hgrown.mem_files h hd
    have hA := hgrown.tree.agree_named hf hlt
    have htree : Tree (st1.named f name).mem := hgrown.tree.agree hA
    have hd' : d ∈ files (st1.named f name).mem := by
      rw [files_eq_of_agree hA]
      exact hgrown.sub d hd.1
    refine ⟨.ok f, _, .bind hwalk (.bind halloc (.bind (named_runs hgrown.tree.layout hf hlt)
      (.bind (fileFlush_runs htree.layout hd') (.pure _ _)))), .inr ⟨d, f, name, st1, rfl, ?_⟩⟩
    exact ⟨hw, hd, hne, hlt, habsent, hgrown, rfl⟩

section

variable (h : FileCreated path d f name st st1 st')

include h

theorem FileCreated.mem : st'.mem = (st1.named f name).mem := by
  rw [h.last, flushAll_mem]

theorem FileCreated.agree (ht : Tree st.mem) :
    (inodes st'.mem).Agree (files st1.mem) (inodes st1.mem) := by
  rw [h.mem]
  exact h.grown.tree.agree_named (h.grown.mem_files ht h.dir) h.name_lt

theorem FileCreated.tree (ht : Tree st.mem) : Tree st'.mem := h.grown.tree.agree (h.agree ht)

theorem FileCreated.files (ht : Tree st.mem) :
    Jos.files st'.mem = Jos.files st1.mem := files_eq_of_agree (h.agree ht)

end

end Jos
