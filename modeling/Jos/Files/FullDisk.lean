import Jos.Files.Disk

/-!
# A full disk

`alloc_block` reports that no block is free. `file_block_walk` passes this on, but
`file_get_block` stores the error code in the slot, as a block number, and `diskaddr` panics.
-/

namespace Jos

open Logic

variable {F : Set Nat} {st : Store} {s : Fs} {f b n : Nat} {v : Word} {m : Image}

theorem freeIn_of_freeCount (h : freeCount m = 0) (b : Nat) : freeIn m b = false := by
  by_contra hne
  rw [Bool.not_eq_false] at hne
  have hlt : b < nblocksIn m := by
    unfold freeIn at hne
    simp only [Bool.and_eq_true, decide_eq_true_eq] at hne
    exact hne.1
  have hmem : b ∈ (Finset.range (nblocksIn m)).filter fun c => freeIn m c :=
    Finset.mem_filter.mpr ⟨Finset.mem_range.mpr hlt, hne⟩
  unfold freeCount freeBelow at h
  rw [Finset.card_eq_zero.mp h] at hmem
  exact absurd hmem (Finset.notMem_empty b)

theorem diskaddr_panics (hsuper : Readable st.mem 1) (hv : nblocksIn st.mem ≤ v.toNat) :
    Code.Panics Fs.seen (diskaddr v) st := by
  refine (loadWord_runs (a := sNblocksAt) hsuper).panics ?_
  rw [if_pos (Or.inr (show (word st.mem sNblocksAt).toNat ≤ v.toNat from hv))]
  exact fun s _ => ⟨_, rfl⟩

section

variable (h : LaidOut F st.mem)

include h

theorem allocFrom_full (hfull : freeCount st.mem = 0)
    (rounds b : Nat) : FsRuns (allocFrom rounds b) st (-eNoDisk) st := by
  induction rounds generalizing b with
  | zero => exact .pure _ _
  | succ rounds ih =>
    refine .bind (blockIsFree_runs h b) ?_
    rw [freeIn_of_freeCount hfull]
    exact .ite_neg (by decide) (ih (b + 1))

theorem allocBlock_full (hfull : freeCount st.mem = 0) :
    FsRuns allocBlock st (-eNoDisk) st :=
  .bind (loadWord_runs (a := sNblocksAt) h.readable_super) (allocFrom_full h hfull _ 0)

theorem fileGetBlock_full (hf : f ∈ F) (hge : ndirect ≤ v.toNat)
    (hv : v.toNat < maxblocks) (h0 : held st.mem f none = 0) (hfull : freeCount st.mem = 0) :
    FsRuns (fileGetBlock f v) st (.error (-eNoDisk)) st := by
  have hwalk : FsRuns (fileBlockWalk f v true) st (.error (-eNoDisk)) st := by
    refine .ite_neg (Nat.not_le.mpr hv) (.ite_neg (Nat.not_lt.mpr hge) ?_)
    refine .bind (loadWord_runs (h.readable_field hf (show 176 + 4 ≤ sizeofFile by decide))) ?_
    refine .ite_pos (word_fIndirectAt_eq_zero.mpr h0) (.ite_neg (by decide) ?_)
    exact .bind (allocBlock_full h hfull) (.ite_pos (by decide) (.pure _ _))
  exact .bind hwalk (.pure _ _)

theorem own_panics (hf : f ∈ F) (hn : n < maxblocks)
    (hi : ndirect ≤ n → held st.mem f none ≠ 0) (h0 : held st.mem f (some n) = 0)
    (hfull : freeCount st.mem = 0) : Code.Panics Fs.seen (do
      if (← loadWord (slotAt st.mem f n)) = 0 then
        storeWord (slotAt st.mem f n) (BitVec.ofInt 32 (← allocBlock))
      return .ok (← diskaddr (← loadWord (slotAt st.mem f n))) : FsM (Except Int Nat)) st := by
  obtain ⟨hslot, hin⟩ := h.readable_slot hf hn hi
  have hA := h.toShape.agree_slot (v := BitVec.ofInt 32 (-eNoDisk)) hf hn hi
  have hread : ∀ b, Readable st.mem b →
      Readable (st.setWord (slotAt st.mem f n) (BitVec.ofInt 32 (-eNoDisk))).mem b :=
    fun b hb => ⟨hb.1, hb.2.1.trans_eq hA.nblocks.symm, (hA.free b).trans hb.2.2⟩
  have hempty : word st.mem (slotAt st.mem f n) = 0 :=
    BitVec.eq_of_toNat_eq ((word_slotAt hi).trans h0)
  have hbig : nblocksIn (setWord st.mem (slotAt st.mem f n) (BitVec.ofInt 32 (-eNoDisk))) ≤
      (BitVec.ofInt 32 (-eNoDisk)).toNat := by
    have hfits : nblocksIn st.mem * blksize ≤ disksize := h.fits
    have hcode : (BitVec.ofInt 32 (-eNoDisk)).toNat = 4294967287 := by decide
    rw [show nblocksIn _ = nblocksIn st.mem from hA.nblocks]
    unfold blksize disksize at hfits
    omega
  refine (loadWord_runs hslot).panics ?_
  rw [if_pos hempty]
  refine (allocBlock_full h hfull).panics ((storeWord_runs hslot hin).panics ?_)
  refine (loadWord_runs (hread _ hslot)).panics ?_
  rw [Store.setWord_mem, word_setWord_self]
  intro s hs
  obtain ⟨e, hrun⟩ := diskaddr_panics (hread 1 h.readable_super) hbig s hs
  exact ⟨e, by rw [bind_apply, hrun]⟩

theorem fileGetBlock_panics (hf : f ∈ F) (hv : v.toNat < maxblocks)
    (hi : ndirect ≤ v.toNat → held st.mem f none ≠ 0) (h0 : held st.mem f (some v.toNat) = 0)
    (hfull : freeCount st.mem = 0) : Code.Panics Fs.seen (fileGetBlock f v) st :=
  (fileBlockWalk_runs h hf hv hi true).panics (own_panics h hf hv hi h0 hfull)

theorem fileGetBlock_panics_last (hf : f ∈ F)
    (hge : ndirect ≤ v.toNat) (hv : v.toNat < maxblocks) (h0 : held st.mem f none = 0)
    (hlast : freeCount st.mem = 1) : Code.Panics Fs.seen (fileGetBlock f v) st := by
  obtain ⟨b, hb⟩ := exists_firstFree (m := st.mem) (by omega)
  have ho := h.ownedIndirect hf h0 hb.1
  have hcount := ho.taken.freeCount hb.1 (h.lt_nblocks hb.1)
  have h1 := (Move.grow (.ownIndirect h0 hb.1)).layout hf h
  refine (fileBlockWalk_alloc h hf hge hv h0 hb).panics (own_panics h1 hf hv (fun _ => ?_) ?_ ?_)
  · rw [ho.held none trivial, if_pos rfl]
    exact h.free_ne_zero hb.1
  · rw [ho.held (some _) hv, if_neg (Option.some_ne_none _)]
    exact held_of_indirect_zero h0 hge
  · omega

end

/-- `file_get_block` returns, every slot holds the number of a block or 0, and a lack of blocks
is reported. -/
def Reported (F : Set Nat) (s : Fs) (f : Nat) (v : Word) : Prop :=
  ∃ r s', fileGetBlock f v s = .ret r s' ∧
    (∀ g ∈ F, ∀ x, ValidSlot x → held s'.mem g x < nblocksIn s'.mem) ∧
    (freeCount s.mem < needs s.mem f v.toNat (v.toNat + 1) →
      r = .error (-eNoDisk) ∧ held s'.mem f (some v.toNat) = 0)

theorem Layout.held_lt (h : LaidOut F m) {g : Nat} (hg : g ∈ F) {x : Option Nat}
    (hx : ValidSlot x) : held m g x < nblocksIn m := by
  by_cases h0 : held m g x = 0
  · rw [h0]
    have h2 := two_le_firstData (inodes m)
    exact Nat.lt_of_lt_of_le (by omega) h.reserved_le
  · exact (h.range g hg x hx h0).2

theorem not_reported (h : Code.Panics Fs.seen (fileGetBlock f v) s.seen) : ¬Reported F s f v := by
  rintro ⟨r, s', hrun, -⟩
  obtain ⟨e, hpanic⟩ := h s rfl
  cases hrun.symm.trans hpanic

theorem needs_one (m : Image) (f n : Nat) : needs m f n (n + 1) =
    (if held m f (some n) = 0 then 1 else 0) +
      if ndirect ≤ n ∧ held m f none = 0 then 1 else 0 := by
  unfold needs
  have hnone : holes m f (n + 1) (n + 1) = 0 := by simp [holes]
  rw [holes_succ (Nat.lt_succ_self n), hnone]
  simp only [Nat.lt_succ_iff, Nat.add_zero, Nat.le_refl, true_and]

/-- A full disk is reported exactly if it is the indirect block that is missing. -/
theorem full_disk_reported_iff (h : LaidOut F s.mem) (hf : f ∈ F)
    (hv : v.toNat < maxblocks) : Reported F s f v ↔
      needs s.mem f v.toNat (v.toNat + 1) ≤ freeCount s.mem ∨
        freeCount s.mem = 0 ∧ ndirect ≤ v.toNat ∧ held s.mem f none = 0 := by
  have hcases := needs_one s.mem f v.toNat
  have hl : LaidOut F s.seen.mem := h
  by_cases hroom : needs s.mem f v.toNat (v.toNat + 1) ≤ freeCount s.mem
  · obtain ⟨b, st', hrun, hgot⟩ :=
      fileGetBlock_spec hl hf (Nat.lt_succ_self _) hv hroom
    obtain ⟨s', hret, rfl⟩ := hrun s rfl
    have h' := hgot.moves.layout hf h
    refine iff_of_true ⟨_, s', hret, fun g hg x hx => h'.held_lt hg hx, fun hlt => ?_⟩
      (Or.inl hroom)
    omega
  by_cases hind : ndirect ≤ v.toNat ∧ held s.mem f none = 0
  · have h0 := held_of_indirect_zero hind.2 hind.1
    rw [if_pos h0, if_pos hind] at hcases
    by_cases hfull : freeCount s.mem = 0
    · obtain ⟨s', hret, hs'⟩ := fileGetBlock_full hl hf hind.1 hv hind.2 hfull s rfl
      have hmem : s'.mem = s.mem := congrArg Store.mem hs'
      refine iff_of_true ⟨_, s', hret, ?_, fun _ => ⟨rfl, ?_⟩⟩ (Or.inr ⟨hfull, hind⟩) <;> rw [hmem]
      · exact fun g hg x hx => h.held_lt hg hx
      · exact h0
    · refine iff_of_false (not_reported ?_) (by omega)
      exact fileGetBlock_panics_last hl hf hind.1 hv hind.2
        (show freeCount s.mem = 1 by omega)
  · rw [if_neg hind] at hcases
    refine iff_of_false (not_reported (F := F) ?_) (by omega)
    have h0 : held s.mem f (some v.toNat) = 0 := by
      by_contra hne
      rw [if_neg hne] at hcases
      omega
    rw [if_pos h0] at hcases
    exact fileGetBlock_panics hl hf hv (fun hge hz => hind ⟨hge, hz⟩) h0
      (show freeCount s.mem = 0 by omega)

def fullFs : Fs := .start (markUsed (markUsed (markUsed (markUsed smallImage 4) 5) 6) 7)

theorem fullFs_layout : Layout smallFiles (inodes fullFs.mem) := by
  have h4 := smallImage_owned.layout.take (b := 4) (by decide +kernel)
  exact ((h4.take (by decide +kernel)).take (by decide +kernel)).take (by decide +kernel)

theorem first_mem_smallFiles : 3 * blksize ∈ smallFiles := Or.inr ⟨0, by decide, rfl⟩

/-- Block 10 of an empty file. -/
theorem full_disk_reported_indirect : freeCount fullFs.mem = 0 ∧
    Reported smallFiles fullFs (3 * blksize) 10 := by
  have hfull : freeCount fullFs.mem = 0 := by decide +kernel
  refine ⟨hfull, (full_disk_reported_iff fullFs_layout first_mem_smallFiles (by decide)).mpr ?_⟩
  exact Or.inr ⟨hfull, by decide, by decide +kernel⟩

/-- Block 0 of an empty file. -/
theorem full_disk_not_reported : Layout smallFiles (inodes fullFs.mem) ∧
    freeCount fullFs.mem = 0 ∧ ¬Reported smallFiles fullFs (3 * blksize) 0 := by
  have hfull : freeCount fullFs.mem = 0 := by decide +kernel
  refine ⟨fullFs_layout, hfull, not_reported ?_⟩
  exact fileGetBlock_panics (show Layout _ (inodes fullFs.seen.mem) from fullFs_layout)
    first_mem_smallFiles (by decide)
    (fun hge => absurd hge (by decide)) (by decide +kernel) hfull

end Jos
