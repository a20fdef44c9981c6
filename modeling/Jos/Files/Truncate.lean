import Jos.Files.Access

/-!
# Truncating a file

`file_truncate_blocks` clears the slots of the blocks past the new size, and the indirect
block with them if the direct slots are enough. The block numbers are signed quotients that
are compared as unsigned ones.
-/

namespace Jos

open Logic BitVec Store Inodes

variable {F : Set Nat} {m : Image} {st st' st1 : Store} {f a b c n k p lo hi i : Nat}
  {v size newsize : Word} {x : Option Nat}

theorem blocksOf_of_small (h : size.toNat + (blksize - 1) < 2 ^ 31) :
    (blocksOf size).toNat = blocksBelow size.toNat := by
  have hadd : (size + toWord (blksize - 1)).toNat = size.toNat + (blksize - 1) := by
    rw [toNat_add, toNat_ofNat]
    unfold blksize at *
    omega
  unfold blocksOf blocksBelow
  rw [sdiv_blksize (by omega), hadd]

theorem sdiv_blksize_of_neg (h : 2 ^ 31 ≤ size.toNat) (h' : size.toNat + maxfilesize < 2 ^ 32) :
    maxblocks ≤ (size.sdiv (toWord blksize)).toNat := by
  have hb : (toWord blksize).msb = false := by decide
  have hm : size.msb = true := by
    rw [msb_eq_true_iff_two_mul_ge]
    omega
  have hneg : (-size).toNat = 2 ^ 32 - size.toNat := by
    rw [toNat_neg]
    omega
  have hdiv : ((-size).udiv (toWord blksize)).toNat = (2 ^ 32 - size.toNat) / blksize := by
    rw [udiv_eq, toNat_udiv, toNat_blksize, hneg]
  rw [sdiv_eq, hm, hb]
  show maxblocks ≤ (-((-size).udiv (toWord blksize))).toNat
  rw [toNat_neg, hdiv]
  unfold maxfilesize maxblocks ndirect nindirect blksize at *
  omega

/-- Every position below a size is in one of the blocks of that size, also where the
computation of their number overflows. -/
theorem lt_blocksOf (hn : n < maxblocks) (h : ((n * blksize : Nat) : Int) < size.toInt) :
    n < (blocksOf size).toNat := by
  have hsize : size.toNat < 2 ^ 31 := by
    by_contra hge
    have hm : size.msb = true := by
      rw [msb_eq_true_iff_two_mul_ge]
      omega
    have := toInt_neg_of_msb_true hm
    omega
  rw [toInt_of_small hsize] at h
  by_cases hsmall : size.toNat + (blksize - 1) < 2 ^ 31
  · rw [blocksOf_of_small hsmall]
    unfold blocksBelow
    unfold blksize at *
    omega
  · have hadd : (size + toWord (blksize - 1)).toNat = size.toNat + (blksize - 1) := by
      rw [toNat_add, toNat_ofNat]
      unfold blksize at *
      omega
    refine Nat.lt_of_lt_of_le hn (sdiv_blksize_of_neg ?_ ?_) <;> rw [hadd]
    · omega
    · unfold maxfilesize ndirect nindirect blksize at *
      omega

theorem lt_of_lt_blocksOf (hn : n < maxblocks) (hsize : size.toNat < 2 ^ 31)
    (h : n < (blocksOf size).toNat) : n * blksize < size.toNat := by
  by_cases hsmall : size.toNat + (blksize - 1) < 2 ^ 31
  · rw [blocksOf_of_small hsmall] at h
    unfold blocksBelow at h
    unfold blksize at *
    omega
  · unfold maxblocks ndirect nindirect blksize at *
    omega

/-- What `file_free_block` has done: block `n` is gone. -/
structure Freed (F : Set Nat) (f n : Nat) (st st' : Store) : Prop where
  moves : Moves f st st'
  slots : ∀ k < maxblocks, held st'.mem f (some k) = if k = n then 0 else held st.mem f (some k)
  bytes : ∀ B, DataBlock F (inodes st.mem) B → SameOn st.mem st'.mem (B * blksize) blksize
  indirect : held st'.mem f none = held st.mem f none
  unwritten : Unwritten st st'

theorem Freed.refl (h : n < maxblocks → held st.mem f (some n) = 0) : Freed F f n st st where
  moves := .refl
  slots k hk := by
    split
    · rename_i hkn
      subst hkn
      exact h hk
    · rfl
  bytes _ _ _ _ _ := rfl
  indirect := rfl
  unwritten := ⟨rfl, rfl⟩

theorem Readable.markFree (h : LaidOut F m) (hc : c < nblocksIn m) (hb : Readable m b)
    (hne : b ≠ c) : Readable (markFree m c) b := by
  have hA := h.toShape.agree_markFree hc
  have hn : nblocksIn (Jos.markFree m c) = nblocksIn m := hA.nblocks
  refine ⟨hb.1, by rw [hn]; exact hb.2.1, (hA.free b).trans ?_⟩
  rw [setFree_free, if_neg hne]
  exact hb.2.2

theorem Freed.drop (h : LaidOut F st.mem) (hf : f ∈ F)
    (hreg : fType st.mem f ≠ ftypeDir) (hn : n < maxblocks) (h0 : held st.mem f (some n) ≠ 0) :
    Freed F f n st ((st.release (held st.mem f (some n))).setWord (slotAt st.mem f n) 0) := by
  have hA := h.agree_drop hf hn h0
  refine ⟨.single (.drop hn hreg h0), fun k hk => ?_, fun B hp => ?_, ?_, rfl, rfl⟩
  · rw [setWord_mem, release_mem]
    refine (hA.held f hf (some k) hk).trans ?_
    rw [setHeld_held, setFree_held]
    by_cases hkn : k = n
    · rw [if_pos hkn, if_pos ⟨rfl, congrArg some hkn⟩]
    · rw [if_neg hkn, if_neg (fun hc => hkn (Option.some.inj hc.2))]
      rfl
  · exact h.sameOn_drop hf hp hn (h.range f hf (some n) hn h0).2
  · rw [setWord_mem, release_mem]
    refine (hA.held f hf none trivial).trans ?_
    rw [setHeld_held, if_neg (fun hc => Option.some_ne_none n hc.2.symm)]
    rfl

theorem Shape.slot_block_ne (h : Shape F (inodes m)) (hf : f ∈ F) (hreg : fType m f ≠ ftypeDir)
    (hn : n < maxblocks) (h0 : held m f (some n) ≠ 0) :
    slotAt m f n / blksize ≠ held m f (some n) := by
  have hp := h.plain_of_data hf hn hreg h0
  rcases slotAt_cases m f hn with ⟨k, -, hk, hat⟩ | ⟨-, k, hk, hat⟩
  · rw [hat, (h.field_block hf hk).1]
    exact hp.home_ne h hf
  · have hdiv : (held m f none * blksize + k) / blksize = held m f none := by
      unfold blksize at *
      omega
    rw [hat, hdiv]
    exact hp.indirect_ne hf

theorem fileFreeBlock_spec (h : LaidOut F st.mem) (hf : f ∈ F)
    (hreg : fType st.mem f ≠ ftypeDir) :
    ∃ r st', FsRuns (fileFreeBlock f v) st r st' ∧ Freed F f v.toNat st st' := by
  by_cases hv : v.toNat < maxblocks
  · by_cases hi : ndirect ≤ v.toNat ∧ held st.mem f none = 0
    · refine ⟨_, st, .bind (fileBlockWalk_missing h hf hi.1 hv hi.2) (.pure _ _), .refl fun _ => ?_⟩
      exact held_of_indirect_zero hi.2 hi.1
    · have hi' : ndirect ≤ v.toNat → held st.mem f none ≠ 0 := fun hge hz => hi ⟨hge, hz⟩
      have hslot := h.readable_slot hf hv hi'
      have hword := word_slotAt hi'
      by_cases h0 : held st.mem f (some v.toNat) = 0
      · refine ⟨0, st, .bind (fileBlockWalk_runs h hf hv hi' false)
          (.bind (loadWord_runs hslot.1) (.ite_neg ?_ (.pure _ _))), .refl fun _ => h0⟩
        intro hne
        exact hne (eq_of_toNat_eq (hword.trans h0))
      · have hlt := (h.range f hf (some v.toNat) hv h0).2
        have hne : word st.mem (slotAt st.mem f v.toNat) ≠ 0 := by
          intro hz
          apply h0
          rw [← hword, hz]
          rfl
        have hread := hslot.1.markFree h hlt (h.toShape.slot_block_ne hf hreg hv h0)
        have hfree := freeBlock_runs h hne (by rw [hword]; exact hlt)
        rw [hword] at hfree
        refine ⟨0, _, .bind (fileBlockWalk_runs h hf hv hi' false)
          (.bind (loadWord_runs hslot.1) (.ite_pos hne ?_)), .drop h hf hreg hv h0⟩
        exact .bind hfree (.bind (storeWord_runs hread hslot.2) (.pure _ _))
  · exact ⟨_, st, .bind (fileBlockWalk_invalid (by omega) false) (.pure _ _),
      .refl fun hlt => absurd hlt hv⟩

/-- The blocks of `f` from `lo` to `hi` are gone. -/
structure Cut (F : Set Nat) (f lo hi : Nat) (st st' : Store) : Prop where
  moves : Moves f st st'
  slots : ∀ k < maxblocks, held st'.mem f (some k) =
    if lo ≤ k ∧ k < hi then 0 else held st.mem f (some k)
  bytes : ∀ p < maxfilesize, ¬(lo ≤ p / blksize ∧ p / blksize < hi) →
    fileByte st'.mem f p = fileByte st.mem f p
  indirect : held st'.mem f none = held st.mem f none ∨ held st'.mem f none = 0
  unwritten : Unwritten st st'

theorem Cut.refl (st : Store) : Cut F f lo lo st st where
  moves := .refl
  slots k _ := (if_neg (by omega)).symm
  bytes _ _ _ := rfl
  indirect := Or.inl rfl
  unwritten := ⟨rfl, rfl⟩

theorem Cut.freed (h : Cut F f lo n st st1) (h' : Freed F f n st1 st') (hf : f ∈ F)
    (hl : LaidOut F st1.mem) (hreg : fType st1.mem f ≠ ftypeDir) (hlo : lo ≤ n) :
    Cut F f lo (n + 1) st st' where
  moves := h.moves.trans h'.moves
  slots k hk := by
    rw [h'.slots k hk, h.slots k hk]
    by_cases hkn : k = n
    · rw [if_pos hkn, if_pos (by omega)]
    · rw [if_neg hkn]
      by_cases hin : lo ≤ k ∧ k < n
      · rw [if_pos hin, if_pos (by omega)]
      · rw [if_neg hin, if_neg (by omega)]
  bytes p hp hout := by
    have hk := div_lt_maxblocks hp
    refine Eq.trans ?_ (h.bytes p hp (by omega))
    refine fileByte_congr ?_ fun h0 => h'.bytes _ (hl.toShape.plain_of_data hf hk hreg h0)
    rw [h'.slots _ hk, if_neg (by omega)]
  indirect := by
    rw [h'.indirect]
    exact h.indirect
  unwritten := ⟨h'.unwritten.1.trans h.unwritten.1, h'.unwritten.2.trans h.unwritten.2⟩

theorem truncateLoop_spec (h : LaidOut F st.mem) (hf : f ∈ F)
    (hreg : fType st.mem f ≠ ftypeDir) (hle : lo + n < 2 ^ 32) (hv : v.toNat = lo) :
    ∃ st', FsRuns (Code.times n fun i => do
        let _ ← fileFreeBlock f (v + toWord i)) st () st' ∧
      Cut F f lo (lo + n) st st' := by
  refine Code.Runs.times _ (fun i x => Cut F f lo (lo + i) st x) (.refl st) fun i hi x hx => ?_
  have hl := hx.moves.layout hf h
  have hreg' := hx.moves.regular hf h hreg
  have hword : (v + toWord i).toNat = lo + i := by
    rw [toNat_add, toNat_ofNat, hv]
    omega
  obtain ⟨r, x', hrun, hfreed⟩ := fileFreeBlock_spec (v := v + toWord i) hl hf hreg'
  rw [hword] at hfreed
  exact ⟨x', .bind hrun (.pure _ _), hx.freed hfreed hf hl hreg' (Nat.le_add_right _ _)⟩

theorem Cut.dropIndirect (h : Cut F f lo hi st st1) (hf : f ∈ F)
    (hl : LaidOut F st1.mem) (hreg : fType st1.mem f ≠ ftypeDir)
    (h0 : held st1.mem f none ≠ 0)
    (hclear : ∀ n, ndirect ≤ n → n < maxblocks → held st1.mem f (some n) = 0) :
    Cut F f lo hi st ((st1.release (held st1.mem f none)).setWord (fIndirectAt f) 0) := by
  have hA := hl.agree_dropIndirect hf h0 hclear
  have hlt := (hl.range f hf none trivial h0).2
  have hheld : ∀ k < maxblocks, held ((st1.release (held st1.mem f none)).setWord
      (fIndirectAt f) 0).mem f (some k) = held st1.mem f (some k) := by
    intro k hk
    rw [setWord_mem, release_mem]
    refine (hA.held f hf (some k) hk).trans ?_
    rw [setHeld_held, if_neg (fun hc => Option.some_ne_none k hc.2)]
    rfl
  refine ⟨h.moves.tail (.dropIndirect hreg h0 hclear),
    fun k hk => (hheld k hk).trans (h.slots k hk), fun p hp hout => ?_, Or.inr ?_, h.unwritten⟩
  · have hk := div_lt_maxblocks hp
    refine Eq.trans (fileByte_congr (hheld _ hk) fun h1 => ?_) (h.bytes p hp hout)
    exact hl.sameOn_dropIndirect hf (hl.toShape.plain_of_data hf hk hreg h1) hlt
  · rw [setWord_mem, release_mem]
    refine (hA.held f hf none trivial).trans ?_
    rw [setHeld_held, if_pos ⟨rfl, rfl⟩]

theorem fileTruncateBlocks_spec (newsize : Word) (h : LaidOut F st.mem) (hf : f ∈ F)
    (hreg : fType st.mem f ≠ ftypeDir)
    (htight : ∀ n < maxblocks, (blocksOf (fSize st.mem f)).toNat ≤ n → held st.mem f (some n) = 0) :
    ∃ st', FsRuns (fileTruncateBlocks f newsize) st () st' ∧
      Cut F f (blocksOf newsize).toNat maxblocks st st' ∧
      ((blocksOf newsize).toNat ≤ ndirect → held st'.mem f none = 0) := by
  have hfield : 176 + 4 ≤ sizeofFile := by decide
  obtain ⟨st1, hloop, hcut⟩ := truncateLoop_spec (v := blocksOf newsize)
    (n := (blocksOf (fSize st.mem f)).toNat - (blocksOf newsize).toNat) h hf hreg (by
      have := (blocksOf (fSize st.mem f)).isLt
      have := (blocksOf newsize).isLt
      omega) rfl
  -- The slots past the old size are empty.
  have hcut1 : Cut F f (blocksOf newsize).toNat maxblocks st st1 := by
    refine ⟨hcut.moves, fun k hk => ?_, fun p hp hout => ?_, hcut.indirect, hcut.unwritten⟩
    · rw [hcut.slots k hk]
      by_cases hlo : (blocksOf newsize).toNat ≤ k
      · rw [if_pos (show (blocksOf newsize).toNat ≤ k ∧ k < maxblocks from ⟨hlo, hk⟩)]
        split
        · rfl
        · exact htight k hk (by omega)
      · rw [if_neg (by omega), if_neg (by omega)]
    · have := div_lt_maxblocks hp
      exact hcut.bytes p hp (by omega)
  have hl := hcut1.moves.layout hf h
  have hreg1 := hcut1.moves.regular hf h hreg
  have hload := loadWord_runs (hl.readable_field hf hfield)
  have hstart := loadWord_runs (h.readable_field hf (show 128 + 4 ≤ sizeofFile by decide))
  by_cases hnew : (blocksOf newsize).toNat ≤ ndirect
  · by_cases h0 : held st1.mem f none = 0
    · refine ⟨st1, .bind hstart (.bind hloop (.ite_pos hnew (.bind hload (.ite_neg ?_
        (.pure _ _))))),
        hcut1, fun _ => h0⟩
      exact fun hne => hne (word_fIndirectAt_eq_zero.mpr h0)
    · have hne : word st1.mem (fIndirectAt f) ≠ 0 := fun hz => h0 (word_fIndirectAt_eq_zero.mp hz)
      have hlt := (hl.range f hf none trivial h0).2
      have hclear : ∀ n, ndirect ≤ n → n < maxblocks → held st1.mem f (some n) = 0 := by
        intro n hge hn
        rw [hcut1.slots n hn, if_pos ⟨by omega, hn⟩]
      have hread := (hl.readable_field hf hfield).markFree hl hlt (by
        rw [(hl.toShape.field_block hf hfield).1]
        exact hl.toShape.home_ne_indirect hf hf h0)
      have hfree := freeBlock_runs hl hne hlt
      have hstore : FsRuns (storeWord (fIndirectAt f) 0)
          (st1.release (held st1.mem f none)) ()
          ((st1.release (held st1.mem f none)).setWord (fIndirectAt f) 0) :=
        storeWord_runs hread (hl.toShape.field_block hf hfield).2
      refine ⟨_, .bind hstart (.bind hloop (.ite_pos hnew (.bind hload (.ite_pos hne
        (.bind hfree hstore))))), hcut1.dropIndirect hf hl hreg1 h0 hclear, fun _ => ?_⟩
      rw [setWord_mem, release_mem]
      refine ((hl.agree_dropIndirect hf h0 hclear).held f hf none trivial).trans ?_
      rw [setHeld_held, if_pos ⟨rfl, rfl⟩]
  · exact ⟨st1, .bind hstart (.bind hloop (.ite_neg hnew (.pure _ _))), hcut1,
      fun hc => absurd hc hnew⟩

end Jos
