import Jos.Files.Truncate

/-!
# What the operations on files do

`file_read`, `file_write` and `file_set_size` on a regular file, for every offset and count
for which the file stays within `MAXFILESIZE`, while there are enough free blocks.
-/

namespace Jos

open Logic Store BitVec

variable {F : Set Nat} {m : Image} {st st' st1 : Store} {f a b c n k p lo hi : Nat}
  {v newsize offset count : Word} {data : Nat → Byte}

/-- No file has a block past its size. -/
def Tight (F : Set Nat) (m : Image) : Prop := ∀ f ∈ F, ∀ n < maxblocks,
  held m f (some n) ≠ 0 → ((n * blksize : Nat) : Int) < (fSize m f).toInt

theorem Tight.slots (h : Tight F m) (hf : f ∈ F) (hn : n < maxblocks)
    (hle : (blocksOf (fSize m f)).toNat ≤ n) : held m f (some n) = 0 := by
  by_contra h0
  have := lt_blocksOf hn (h f hf n hn h0)
  omega

/-- The store after the size has been set and the block of the file flushed. -/
def Store.resize (st : Store) (f : Nat) (newsize : Word) : Store :=
  (st.setWord (fSizeAt f) newsize).flush (f / blksize)

theorem Store.resize_mem (st : Store) (f : Nat) (newsize : Word) :
    (st.resize f newsize).mem = Logic.setWord st.mem (fSizeAt f) newsize := flush_mem ..

theorem grows_resize : Grows f st (st.resize f newsize) :=
  .tail (.single (.size newsize)) (.flush _)

section

variable (h : LaidOut F st.mem)

include h

section

variable (hf : f ∈ F)

include hf

theorem resize_runs : FsRuns (do
      storeWord (fSizeAt f) newsize
      flushBlock f
      return 0 : FsM Int) st 0 (st.resize f newsize) := by
  have hfield : 128 + 4 ≤ sizeofFile := by decide
  refine .bind (storeWord_runs (h.readable_field hf hfield) (h.toShape.field_block hf hfield).2) ?_
  exact .bind (flushBlock_runs (lt_disksize_of_lt h (h.readable_home hf).2.1 rfl)) (.pure _ _)

theorem Layout.agree_resize :
    (inodes (st.resize f newsize).mem).Agree F ((inodes st.mem).setSize f newsize) := by
  rw [resize_mem]
  exact h.toShape.agree_size hf

theorem Layout.fSize_resize : fSize (st.resize f newsize).mem f = newsize := by
  refine ((h.agree_resize hf).size f hf).trans ?_
  rw [Inodes.setSize_size, if_pos rfl]

theorem Layout.sameOn_resize (hp : DataBlock F (inodes st.mem) b) :
    SameOn st.mem (st.resize f newsize).mem (b * blksize) blksize := by
  rw [resize_mem]
  exact h.toShape.sameOn_struct hf hp (show 128 + 4 ≤ sizeofFile by decide)

theorem Layout.fileByte_resize (hreg : fType st.mem f ≠ ftypeDir) (hp : p < maxfilesize) :
    fileByte (st.resize f newsize).mem f p = fileByte st.mem f p := by
  have hk := div_lt_maxblocks hp
  exact fileByte_congr ((h.agree_resize hf).held f hf (some _) hk) fun h0 =>
    h.sameOn_resize hf (h.toShape.plain_of_data hf hk hreg h0)

end

end

/-- What `file_set_size` has done. -/
structure Resized (f : Nat) (newsize : Word) (st st' : Store) : Prop where
  moves : Moves f st st'
  size : fSize st'.mem f = newsize
  slots : ∀ k < maxblocks, held st'.mem f (some k) =
    if newsize.toInt < (fSize st.mem f).toInt ∧ (blocksOf newsize).toNat ≤ k then 0
    else held st.mem f (some k)
  bytes : ∀ p < maxfilesize, fileByte st'.mem f p =
    if newsize.toInt < (fSize st.mem f).toInt ∧ (blocksOf newsize).toNat ≤ p / blksize then none
    else fileByte st.mem f p
  indirect : held st'.mem f none = held st.mem f none ∨ held st'.mem f none = 0
  cut : newsize.toInt < (fSize st.mem f).toInt → (blocksOf newsize).toNat ≤ ndirect →
    held st'.mem f none = 0
  last : ∃ st1, Moves f st st1 ∧ Unwritten st st1 ∧ st' = st1.resize f newsize

theorem fSize_runs (h : LaidOut F st.mem) (hf : f ∈ F) :
    FsRuns (loadWord (fSizeAt f)) st (fSize st.mem f) st :=
  loadWord_runs (h.readable_field hf (show 128 + 4 ≤ sizeofFile by decide))

theorem fileSetSize_grow (h : LaidOut F st.mem) (hf : f ∈ F)
    (hle : ¬newsize.toInt < (fSize st.mem f).toInt) :
    FsRuns (fileSetSize f newsize) st 0 (st.resize f newsize) :=
  .bind (fSize_runs h hf) (.ite_neg hle (resize_runs h hf))

theorem fileSetSize_spec (newsize : Word) (h : LaidOut F st.mem) (ht : Tight F st.mem)
    (hf : f ∈ F)
    (hreg : fType st.mem f ≠ ftypeDir) :
    ∃ st', FsRuns (fileSetSize f newsize) st 0 st' ∧ Resized f newsize st st' := by
  by_cases hlt : newsize.toInt < (fSize st.mem f).toInt
  · obtain ⟨st1, hcut, hc, hnone⟩ := fileTruncateBlocks_spec newsize h hf hreg
      fun n hn hle => ht.slots hf hn hle
    have hl := hc.moves.layout hf h
    have hreg1 := hc.moves.regular hf h hreg
    have hind : held (st1.resize f newsize).mem f none = held st1.mem f none :=
      (hl.agree_resize hf).held f hf none trivial
    refine ⟨st1.resize f newsize, .bind (fSize_runs h hf) (.ite_pos hlt (.bind hcut
      (resize_runs hl hf))), hc.moves.trans grows_resize.moves, hl.fSize_resize hf, fun k hk => ?_,
      fun p hp => ?_, ?_, fun _ hle => hind.trans (hnone hle), st1, hc.moves, hc.unwritten, rfl⟩
    · refine ((hl.agree_resize hf).held f hf (some k) hk).trans ((hc.slots k hk).trans ?_)
      by_cases hle : (blocksOf newsize).toNat ≤ k
      · rw [if_pos ⟨hle, hk⟩, if_pos ⟨hlt, hle⟩]
      · rw [if_neg (fun hc => hle hc.1), if_neg (fun hc => hle hc.2)]
    · have hk := div_lt_maxblocks hp
      rw [hl.fileByte_resize hf hreg1 hp]
      by_cases hle : (blocksOf newsize).toNat ≤ p / blksize
      · rw [if_pos ⟨hlt, hle⟩]
        apply fileByte_of_hole
        rw [hc.slots _ hk, if_pos ⟨hle, hk⟩]
      · rw [if_neg (fun hc => hle hc.2), hc.bytes p hp (fun hc => hle hc.1)]
    · rw [hind]
      exact hc.indirect
  · refine ⟨st.resize f newsize, fileSetSize_grow h hf hlt, grows_resize.moves,
      h.fSize_resize hf, fun k hk => ?_, fun p hp => ?_, Or.inl ?_, fun hc => absurd hc hlt, st,
      .refl, ⟨rfl, rfl⟩, rfl⟩
    · rw [if_neg (fun hc => hlt hc.1)]
      exact (h.agree_resize hf).held f hf (some k) hk
    · rw [if_neg (fun hc => hlt hc.1)]
      exact h.fileByte_resize hf hreg hp
    · exact (h.agree_resize hf).held f hf none trivial

/-- The number of bytes that `file_read` can give. -/
def readLen (size count offset : Word) : Nat :=
  min count.toNat (size.toInt - offset.toInt).toNat

theorem small_of_toInt_nonneg (h : 0 ≤ v.toInt) : v.toNat < 2 ^ 31 := by
  by_contra hge
  have hm : v.msb = true := by
    rw [msb_eq_true_iff_two_mul_ge]
    omega
  have := toInt_neg_of_msb_true hm
  omega

/-- The count that `file_read` uses when the offset is inside the file. -/
theorem clip_facts {size c : Word} (hoff : offset.toNat < 2 ^ 31) (hlt : offset.toInt < size.toInt)
    (hc : c = if count.toNat ≤ (size - offset).toNat then count else size - offset) :
    c.toNat = readLen size count offset ∧ c.toInt = (readLen size count offset : Int) ∧
      (offset + c).toNat = offset.toNat + readLen size count offset := by
  have hoffInt := toInt_of_small hoff
  have hsize : size.toNat < 2 ^ 31 := small_of_toInt_nonneg (by omega)
  have hlen : readLen size count offset = min count.toNat (size.toNat - offset.toNat) := by
    unfold readLen
    rw [toInt_of_small hsize, hoffInt]
    omega
  rw [toInt_of_small hsize, hoffInt] at hlt
  have hsub : (size - offset).toNat = size.toNat - offset.toNat :=
    toNat_sub_of_le (le_def.mpr (by omega))
  have hcount : c.toNat = readLen size count offset := by
    rw [hc, hlen]
    split <;> omega
  refine ⟨hcount, ?_, ?_⟩
  · rw [toInt_of_small (by omega), hcount]
  · rw [toNat_add, hcount]
    apply Nat.mod_eq_of_lt
    omega

theorem fileRead_spec (h : LaidOut F st.mem) (hf : f ∈ F)
    (hreg : fType st.mem f ≠ ftypeDir) (hoff : offset.toNat < 2 ^ 31)
    (hn : n = readLen (fSize st.mem f) count offset)
    (hmax : 0 < n → offset.toNat + n ≤ maxfilesize)
    (hroom : needs st.mem f (nextBlock offset.toNat (offset.toNat + n))
      (blocksBelow (offset.toNat + n)) ≤ freeCount st.mem) :
    ∃ out st', FsRuns (fileRead f count offset) st ((n : Int), out) st' ∧
      WasRead f offset.toNat (offset.toNat + n) 0 out st st' := by
  have hload := fSize_runs h hf
  by_cases hle : (fSize st.mem f).toInt ≤ offset.toInt
  · have hn0 : n = 0 := by
      unfold readLen at hn
      omega
    subst hn0
    rw [Nat.add_zero, nextBlock_self] at hroom
    exact ⟨[], st, .bind hload (.ite_pos hle (.pure _ _)), .done hroom⟩
  · obtain ⟨c, hc⟩ : ∃ c, c = if count.toNat ≤ (fSize st.mem f - offset).toNat then count
      else fSize st.mem f - offset := ⟨_, rfl⟩
    obtain ⟨hcount, hint, hadd⟩ := clip_facts hoff (by omega) hc
    rw [← hn] at hcount hint hadd
    have hresult : ∀ out st', FsRuns (fileReadLoop f (offset + c) c.toNat offset []) st
        (0, out) st' → FsRuns (fileRead f count offset) st ((n : Int), out) st' := by
      intro out st' hrun
      refine .bind hload (.ite_neg hle ?_)
      rw [← hc, ← hint]
      exact .bind hrun (.ite_neg (by decide) (.pure _ _))
    by_cases hn0 : n = 0
    · subst hn0
      rw [Nat.add_zero, nextBlock_self] at hroom
      refine ⟨[], st, hresult [] st ?_, .done hroom⟩
      rw [hcount]
      exact .pure _ _
    · obtain ⟨out, st', hrun, hread⟩ := fileReadLoop_spec hf
        (show (offset + c).toNat ≤ maxfilesize by rw [hadd]; exact hmax (by omega)) c.toNat offset
        [] st h hreg (by omega) (by omega)
        (by rw [hadd]; exact hroom)
      rw [hadd] at hread
      exact ⟨out, st', hresult out st' hrun, hread⟩

theorem Layout.needs_size (lo : Nat) (h : LaidOut F m) (hf : f ∈ F) (hhi : hi ≤ maxblocks) :
    needs (setWord m (fSizeAt f) v) f lo hi = needs m f lo hi ∧
      freeCount (setWord m (fSizeAt f) v) = freeCount m ∧
      (CleanFirst m k → CleanFirst (setWord m (fSizeAt f) v) k) := by
  have hA := h.toShape.agree_size (v := v) hf
  have hcount := freeCount_congr (m := m) hA.nblocks hA.free
  refine ⟨needs_congr hhi fun x hx => hA.held f hf x hx, hcount.1, fun hc => ?_⟩
  exact hc.congr hcount.2 hA.free fun b hb =>
    h.toShape.sameOn_struct hf (h.plain_of_free hb) (show 128 + 4 ≤ sizeofFile by decide)

theorem Filled.resize {W : Nat → Option Byte} (h : LaidOut F st.mem) (hf : f ∈ F)
    (hreg : fType st.mem f ≠ ftypeDir) (hhi : hi ≤ maxblocks)
    (hfill : Filled f lo k hi W (st.resize f newsize) st') : Filled f lo k hi W st st' where
  grows := .trans grows_resize hfill.grows
  wrote := hfill.wrote
  kept p hp hw c hc := hfill.kept p hp hw c ((h.fileByte_resize hf hreg hp).trans hc)
  outside p hp hout := (hfill.outside p hp hout).trans (h.fileByte_resize hf hreg hp)
  room := hfill.room
  clean hc := by
    have hn := h.needs_size lo (v := newsize) (k := needs st.mem f lo hi) hf hhi
    rw [← resize_mem] at hn
    obtain ⟨h1, h2⟩ := hfill.clean (by rw [hn.1]; exact hn.2.2 hc)
    exact ⟨h1, fun p hp hlo hk hw hz => h2 p hp hlo hk hw ((h.fileByte_resize hf hreg hp).trans hz)⟩

/-- The size of a file after a write, an unsigned maximum. -/
def writeSize (size endPos : Word) : Word := if size.toNat < endPos.toNat then endPos else size

theorem write_range (hlt : offset.toNat < (offset + count).toNat) :
    (offset + count).toNat = offset.toNat + count.toNat := by
  have h1 := offset.isLt
  have h2 := count.isLt
  rw [toNat_add] at hlt ⊢
  omega

structure Written (f : Nat) (data : Nat → Byte) (offset endPos : Word) (st st' : Store) :
    Prop where
  size : fSize st'.mem f = writeSize (fSize st.mem f) endPos
  filled : Filled f (nextBlock offset.toNat endPos.toNat) (blocksBelow endPos.toNat)
    (blocksBelow endPos.toNat)
    (window offset.toNat endPos.toNat fun p => data (p - offset.toNat)) st st'

theorem fileWrite_end {α : FsM Int} (h : FsRuns α st 0 st') : FsRuns (do
      let r ← α
      if r < 0 then
        return r
      else
        return count.toInt : FsM Int) st count.toInt st' :=
  .bind h (.ite_neg (by decide) (.pure _ _))

section

variable {src : Source} (h : LaidOut F st.mem) (hf : f ∈ F) (hreg : fType st.mem f ≠ ftypeDir)
  (hmax : (offset + count).toNat ≤ maxfilesize) (hsrc : src.Gives data count.toNat)
  (hroom : needs st.mem f (nextBlock offset.toNat (offset + count).toNat)
    (blocksBelow (offset + count).toNat) ≤ freeCount st.mem)

include h hf hreg hmax hsrc hroom

/-- The loop of `file_write` from the offset on, also where the range is empty because the
offset lies past its end. -/
theorem fileWriteLoop_run :
    ∃ st', FsRuns (fileWriteLoop f src (offset + count) count.toNat offset 0) st 0 st' ∧
      Wrote f offset.toNat (offset + count).toNat data 0 st st' := by
  by_cases hlt : offset.toNat < (offset + count).toNat
  · have hadd := write_range hlt
    exact fileWriteLoop_spec hf hmax hsrc count.toNat offset 0 st h hreg (by omega) (by omega)
      (by omega) hroom
  · refine ⟨st, fileWriteLoop_of_not_lt _ hlt, ?_⟩
    have hnext : nextBlock offset.toNat (offset + count).toNat =
        blocksBelow (offset + count).toNat := if_neg hlt
    have hempty : window offset.toNat (offset + count).toNat
        (fun p => data (0 + (p - offset.toNat))) = fun _ => none := by
      funext p
      exact if_neg (by omega)
    refine ⟨rfl, ?_⟩
    rw [hnext] at hroom ⊢
    rw [hempty]
    exact .refl hroom

theorem fileWrite_spec :
    ∃ st', FsRuns (fileWrite f src count offset) st count.toInt st' ∧
      Written f data offset (offset + count) st st' := by
  have hload := fSize_runs h hf
  have hhi := blocksBelow_le hmax
  by_cases hgrow : (fSize st.mem f).toNat < (offset + count).toNat
  · have hsmall := lt_of_le_maxfilesize hmax
    have hnot : ¬(offset + count).toInt < (fSize st.mem f).toInt := by
      rw [toInt_of_small hsmall, toInt_of_small (by omega)]
      omega
    have hneeds := h.needs_size (nextBlock offset.toNat (offset + count).toNat)
      (v := offset + count) (k := 0) hf hhi
    rw [← resize_mem] at hneeds
    obtain ⟨st', hrun, hsize, hfill⟩ := fileWriteLoop_run
      (grows_resize.moves.layout hf h) hf (grows_resize.moves.regular hf h hreg) hmax hsrc
      (by rw [hneeds.1, hneeds.2.1]; exact hroom)
    simp only [Nat.zero_add] at hfill
    refine ⟨st', .bind hload (.ite_pos hgrow ?_), ?_, hfill.resize h hf hreg hhi⟩
    · exact .bind (fileSetSize_grow h hf hnot) (.ite_neg (by decide) (fileWrite_end hrun))
    · rw [hsize, h.fSize_resize hf]
      exact (if_pos hgrow).symm
  · obtain ⟨st', hrun, hsize, hfill⟩ := fileWriteLoop_run h hf hreg hmax hsrc hroom
    simp only [Nat.zero_add] at hfill
    refine ⟨st', .bind hload (.ite_neg hgrow (fileWrite_end hrun)), ?_, hfill⟩
    exact hsize.trans (if_neg hgrow).symm

end

end Jos
