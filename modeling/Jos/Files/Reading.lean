import Jos.Files.Operations

/-!
# Reading a file that has all its blocks

Where a file or a directory has a block for every position below the end of the copy,
`file_read` changes nothing but the history of copies, and gives the bytes of its blocks.
-/

namespace Jos

open Logic List

variable {F : Set Nat} {m : Image} {st : Store} {f n k : Nat} {count offset endPos : Word}

def byteAt (m : Image) (f p : Nat) : Byte :=
  m (held m f (some (p / blksize)) * blksize + p % blksize)

/-- The bytes of some positions. -/
def bytesFrom (m : Image) (f pos n : Nat) : List Byte :=
  (List.range n).map fun j => byteAt m f (pos + j)

theorem bytesFrom_add (pos : Nat) :
    bytesFrom m f pos (n + k) = bytesFrom m f pos n ++ bytesFrom m f (pos + n) k := by
  unfold bytesFrom
  rw [range_add, map_append, map_map]
  refine congrArg _ (map_congr_left fun j _ => ?_)
  exact congrArg (byteAt m f) (Nat.add_assoc pos n j).symm

theorem bytesFrom_block {pos : Nat} (h : pos % blksize + n ≤ blksize) : bytesFrom m f pos n =
    (List.range n).map fun j => m (held m f (some (pos / blksize)) * blksize +
      pos % blksize + j) := by
  unfold bytesFrom byteAt
  refine map_congr_left fun j hj => ?_
  rw [mem_range] at hj
  have hdiv : (pos + j) / blksize = pos / blksize := by
    unfold blksize at *
    omega
  have hmod : (pos + j) % blksize = pos % blksize + j := by
    unfold blksize at *
    omega
  rw [hdiv, hmod, Nat.add_assoc]

theorem fileReadLoop_full (hl : LaidOut F m) (hf : f ∈ F)
    (hend : endPos.toNat ≤ maxfilesize)
    (hfull : ∀ n < blocksBelow endPos.toNat, held m f (some n) ≠ 0) (rounds : Nat) :
    ∀ (pos : Word) (buf : List Byte) (st : Store), st.mem = m → pos.toNat ≤ endPos.toNat →
      endPos.toNat - pos.toNat ≤ rounds → ∃ L,
        FsRuns (fileReadLoop f endPos rounds pos buf) st
          (0, buf ++ bytesFrom m f pos.toNat (endPos.toNat - pos.toNat))
          { st with moves := st.moves ++ L } := by
  have hhi := blocksBelow_le hend
  have hdone : ∀ (pos : Word) (buf : List Byte) (st : Store), pos.toNat = endPos.toNat →
      FsRuns (pure (0, buf) : FsM (Int × List Byte)) st
        (0, buf ++ bytesFrom m f pos.toNat (endPos.toNat - pos.toNat))
        { st with moves := st.moves ++ [] } := by
    intro pos buf st heq
    rw [heq, Nat.sub_self, append_nil]
    show FsRuns _ _ (0, buf ++ []) _
    rw [append_nil]
    exact .pure _ _
  induction rounds with
  | zero => exact fun pos buf st _ hle hrounds => ⟨[], hdone pos buf st (by omega)⟩
  | succ rounds ih =>
    intro pos buf st hm hle hrounds
    by_cases hlt : pos.toNat < endPos.toNat
    · obtain ⟨hblk, hlen0, hin, hadd, hmin⟩ := round_facts hlt hend
      have hsmall : pos.toNat < 2 ^ 31 := by
        have := lt_of_le_maxfilesize hend
        omega
      have hdiv := sdiv_blksize hsmall
      have hvalid : ValidSlot (some (pos.toNat / blksize)) := Nat.lt_of_lt_of_le hblk hhi
      have h0 := hfull _ hblk
      subst hm
      have hget : FsRuns (fileGetBlock f (pos.sdiv (toWord blksize))) st
          (.ok (held st.mem f (some (pos.toNat / blksize)) * blksize)) st := by
        rw [← hdiv] at h0 ⊢
        exact fileGetBlock_present hl hf (by rw [hdiv]; exact hvalid) h0
      have hread := hl.readable_held hf hvalid h0
      obtain ⟨L, hrun⟩ := ih (pos + roundLen pos endPos) (buf ++
        (List.range (roundLen pos endPos).toNat).map fun j =>
          st.mem (held st.mem f (some (pos.toNat / blksize)) * blksize + pos.toNat % blksize + j))
        (st.move buf.length (roundLen pos endPos).toNat) rfl (by omega) (by omega)
      have hbytes := bytesFrom_add (m := st.mem) (f := f) (n := (roundLen pos endPos).toNat)
        (k := endPos.toNat - (pos + roundLen pos endPos).toNat) pos.toNat
      rw [bytesFrom_block hin, ← hadd, show (roundLen pos endPos).toNat + (endPos.toNat -
        (pos + roundLen pos endPos).toNat) = endPos.toNat - pos.toNat by omega] at hbytes
      rw [append_assoc, ← hbytes] at hrun
      refine ⟨(buf.length, (roundLen pos endPos).toNat) :: L, ?_⟩
      refine .ite_pos hlt (.bind hget ?_)
      dsimp only
      rw [roundAddr_eq hsmall]
      refine .bind (loadBytes_runs (readableRange_block hread (by omega) (by omega))) ?_
      have hlog : st.moves ++ (buf.length, (roundLen pos endPos).toNat) :: L =
          (st.move buf.length (roundLen pos endPos).toNat).moves ++ L :=
        (append_assoc st.moves [_] L).symm
      rw [hlog]
      exact .bind (recordMove_runs _ _) hrun
    · exact ⟨[], .ite_neg hlt (hdone pos buf st (by omega))⟩

theorem fileRead_full (h : LaidOut F st.mem) (hf : f ∈ F) (hoff : offset.toNat < 2 ^ 31)
    (hmax : (fSize st.mem f).toNat ≤ maxfilesize)
    (hfull : ∀ n < blocksBelow (fSize st.mem f).toNat, held st.mem f (some n) ≠ 0) :
    ∃ L, FsRuns (fileRead f count offset) st
      ((readLen (fSize st.mem f) count offset : Int),
        bytesFrom st.mem f offset.toNat (readLen (fSize st.mem f) count offset))
      { st with moves := st.moves ++ L } := by
  have hload := fSize_runs h hf
  have hsize := lt_of_le_maxfilesize hmax
  by_cases hle : (fSize st.mem f).toInt ≤ offset.toInt
  · have hn0 : readLen (fSize st.mem f) count offset = 0 := by
      unfold readLen
      omega
    rw [hn0]
    refine ⟨[], .bind hload (.ite_pos hle ?_)⟩
    rw [append_nil]
    exact .pure _ _
  · obtain ⟨c, hc⟩ : ∃ c, c = if count.toNat ≤ (fSize st.mem f - offset).toNat then count
      else fSize st.mem f - offset := ⟨_, rfl⟩
    obtain ⟨hcount, hint, hadd⟩ := clip_facts hoff (by omega) hc
    have hle' : offset.toNat + readLen (fSize st.mem f) count offset ≤ (fSize st.mem f).toNat := by
      rw [toInt_of_small hsize, toInt_of_small hoff] at hle
      unfold readLen
      rw [toInt_of_small hsize, toInt_of_small hoff]
      omega
    have hend : (offset + c).toNat ≤ maxfilesize := by omega
    have hpresent : ∀ n < blocksBelow (offset + c).toNat, held st.mem f (some n) ≠ 0 :=
      fun n hn => hfull n (Nat.lt_of_lt_of_le hn (by
        unfold blocksBelow
        rw [hadd]
        exact Nat.div_le_div_right (by omega)))
    obtain ⟨L, hrun⟩ := fileReadLoop_full h hf hend hpresent c.toNat offset [] st rfl (by omega)
      (by omega)
    rw [hadd, Nat.add_sub_cancel_left] at hrun
    refine ⟨L, .bind hload (.ite_neg hle ?_)⟩
    rw [← hc, ← hint]
    exact .bind hrun (.ite_neg (by decide) (.pure _ _))

end Jos
