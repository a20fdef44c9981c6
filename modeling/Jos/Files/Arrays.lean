import Jos.Files.Ownership

/-!
# Files as byte arrays

A file is a size, and at each position the byte that was written there last, as long as the
position has stayed below the size: `FileArray`. The operations of `fs/fs.c` refine those on it.
-/

namespace Jos

open Logic Function

variable {F : Set Nat} {m m' : Image} {s s' s1 : Fs} {st st' : Store}
  {f g a c p : Nat} {count offset : Word} {op : FileOp}
  {r : Int × List Byte}

structure FileArray where
  size : Nat
  /-- The byte written last at a position that has stayed below the size since. -/
  known : Nat → Option Byte

/-- The effect of an operation on the files. -/
def FileOp.apply (op : FileOp) (A : Nat → FileArray) : Nat → FileArray :=
  match op with
  | .read _ _ _ => A
  | .write f data count offset => update A f {
      size := max (A f).size (offset.toNat + count.toNat)
      known := fun p =>
        if offset.toNat ≤ p ∧ p < offset.toNat + count.toNat then some (data (p - offset.toNat))
        else (A f).known p }
  | .setSize f newsize => update A f {
      size := newsize.toNat
      known := fun p => if p < newsize.toNat then (A f).known p else none }

/-- The result of an operation is the one of the abstract files. -/
def FileOp.Conforms (A : Nat → FileArray) : FileOp → Int × List Byte → Prop
  | .read f count offset, (r, out) =>
      r = (min count.toNat ((A f).size - offset.toNat) : Nat) ∧ (out.length : Int) = r ∧
      ∀ j < out.length, ∀ c, (A f).known (offset.toNat + j) = some c → out[j]? = some c
  | .write _ _ count _, (r, _) => r = (count.toNat : Int)
  | .setSize _ _, (r, _) => r = 0

def startArrays (m : Image) : Nat → FileArray := fun f => ⟨(fSize m f).toNat, fun _ => none⟩

/-- The slots are sound, no file has a block past its size, and no size is negative. -/
structure WellFormed (F : Set Nat) (m : Image) : Prop where
  layout : LaidOut F m
  tight : Tight F m
  size_nonneg : ∀ f ∈ F, 0 ≤ (fSize m f).toInt

/-- The operation is on a regular file, its range lies between 0 and `MAXFILESIZE`, the new
size is not negative, and there are enough free blocks. -/
def FileOp.InRange (F : Set Nat) (m : Image) (op : FileOp) : Prop :=
  op.file ∈ F ∧ fType m op.file ≠ ftypeDir ∧
  match op with
  | .read f count offset => offset.toNat + count.toNat ≤ maxfilesize ∧
      Room m f offset.toNat (offset.toNat + readLen (fSize m f) count offset)
  | .write f _ count offset => offset.toNat + count.toNat ≤ maxfilesize ∧
      Room m f offset.toNat (offset.toNat + count.toNat)
  | .setSize _ newsize => 0 ≤ newsize.toInt

/-- A sequence of operations that starts in `s` and ends in the last state. -/
inductive OpRun (F : Set Nat) (s : Fs) : List FileOp → Fs → Prop where
  | nil : OpRun F s [] s
  | snoc {ops : List FileOp} {s1 s2 : Fs} {r : Int × List Byte} (h : OpRun F s ops s1)
      (op : FileOp) (hop : op.InRange F s1.mem) (hrun : op.run s1 = .ret r s2) :
      OpRun F s (ops ++ [op]) s2

def arraysAfter (A : Nat → FileArray) (ops : List FileOp) : Nat → FileArray :=
  ops.foldl (fun A op => op.apply A) A

/-- The disk has the sizes and the known bytes of the abstract files. -/
structure Represents (F : Set Nat) (A : Nat → FileArray) (m : Image) : Prop where
  size : ∀ f ∈ F, (fSize m f).toNat = (A f).size
  below : ∀ f ∈ F, ∀ p c, (A f).known p = some c → p < (A f).size ∧ p < maxfilesize
  byte : ∀ f ∈ F, fType m f ≠ ftypeDir → ∀ p c, (A f).known p = some c → fileByte m f p = some c

theorem represents_start : Represents F (startArrays m) m :=
  ⟨fun _ _ => rfl, fun _ _ _ _ h => absurd h (by simp [startArrays]),
    fun _ _ _ _ _ h => absurd h (by simp [startArrays])⟩

variable {A : Nat → FileArray}

theorem Represents.update {B : FileArray} (h : Represents F A m) (hk : Kept F f m m')
    (hsize : (fSize m' f).toNat = B.size)
    (hbelow : ∀ p c, B.known p = some c → p < B.size ∧ p < maxfilesize)
    (hbyte : ∀ p c, B.known p = some c → fileByte m' f p = some c) :
    Represents F (update A f B) m' := by
  refine ⟨fun g hg => ?_, fun g hg p c hc => ?_, fun g hg hreg p c hc => ?_⟩ <;>
    by_cases hgf : g = f
  · subst hgf
    rw [update_self]
    exact hsize
  · rw [update_of_ne hgf, hk.size g hg hgf]
    exact h.size g hg
  · subst hgf
    rw [update_self] at hc ⊢
    exact hbelow p c hc
  · rw [update_of_ne hgf] at hc ⊢
    exact h.below g hg p c hc
  · subst hgf
    rw [update_self] at hc
    exact hbyte p c hc
  · rw [update_of_ne hgf] at hc
    rw [hk.type g hg] at hreg
    rw [hk.fileByte hg hgf hreg (h.below g hg p c hc).2]
    exact h.byte g hg hreg p c hc

/-- What one operation does, and that it does nothing to the other files. -/
structure Refines (F : Set Nat) (A : Nat → FileArray) (op : FileOp) (r : Int × List Byte)
    (m m' : Image) : Prop where
  conforms : op.Conforms A r
  represents : Represents F (op.apply A) m'
  kept : Kept F op.file m m'
  wellFormed : WellFormed F m'

theorem WellFormed.size_small (h : WellFormed F m) (hf : f ∈ F) : (fSize m f).toNat < 2 ^ 31 :=
  small_of_toInt_nonneg (h.size_nonneg f hf)

theorem Kept.size_nonneg (h : Kept F f m m') (hw : WellFormed F m)
    (hself : 0 ≤ (fSize m' f).toInt) : ∀ g ∈ F, 0 ≤ (fSize m' g).toInt := by
  intro g hg
  by_cases hgf : g = f
  · subst hgf
    exact hself
  · rw [h.size g hg hgf]
    exact hw.size_nonneg g hg

theorem readLen_eq {size : Word} (count offset : Word) (hs : size.toNat < 2 ^ 31)
    (ho : offset.toNat < 2 ^ 31) :
    readLen size count offset = min count.toNat (size.toNat - offset.toNat) := by
  unfold readLen
  rw [toInt_of_small hs, toInt_of_small ho]
  omega

inductive FileEffect (st st' : Store) : FileOp → Int × List Byte → Prop where
  | read {f : Nat} {count offset : Word} {out : List Byte} (h : WasRead f offset.toNat
      (offset.toNat + readLen (fSize st.mem f) count offset) 0 out st st') :
      FileEffect st st' (.read f count offset)
        ((readLen (fSize st.mem f) count offset : Int), out)
  | write {f : Nat} {data : Nat → Byte} {count offset : Word}
      (h : Written f data offset (offset + count) st st') :
      FileEffect st st' (.write f data count offset) (count.toInt, [])
  | setSize {f : Nat} {newsize : Word} (h : Resized f newsize st st') :
      FileEffect st st' (.setSize f newsize) (0, [])

theorem write_end (h : offset.toNat + count.toNat ≤ maxfilesize) :
    (offset + count).toNat = offset.toNat + count.toNat := by
  have := lt_of_le_maxfilesize h
  rw [BitVec.toNat_add]
  exact Nat.mod_eq_of_lt (by omega)

section

variable (h : WellFormed F st.mem)

include h

theorem FileOp.effect (hop : op.InRange F st.mem) :
    ∃ r st', FsRuns op.run st r st' ∧ FileEffect st st' op r := by
  obtain ⟨hf, hreg, hop⟩ := hop
  cases op with
  | read f count offset =>
    obtain ⟨hmax, hroom⟩ := hop
    have hlimit := lt_of_le_maxfilesize hmax
    have hlen := readLen_eq count offset (h.size_small hf) (by omega)
    obtain ⟨out, st', hrun, hread⟩ := fileRead_spec h.layout hf hreg (by omega) rfl
      (fun h0 => by rw [hlen]; omega) hroom
    exact ⟨_, st', hrun, .read hread⟩
  | write f data count offset =>
    obtain ⟨hmax, hroom⟩ := hop
    have hlimit := lt_of_le_maxfilesize hmax
    have hend := write_end hmax
    rw [← hend] at hroom
    obtain ⟨st', hrun, hw⟩ := fileWrite_spec h.layout hf hreg (by omega)
      (Source.gives_bytes data count.toNat) hroom
    exact ⟨_, st', .bind hrun (.pure _ _), .write hw⟩
  | setSize f newsize =>
    obtain ⟨st', hrun, hs⟩ := fileSetSize_spec newsize h.layout h.tight hf hreg
    exact ⟨_, st', .bind hrun (.pure _ _), .setSize hs⟩

section

variable (hA : Represents F A st.mem)

include hA

theorem read_refines {out : List Byte} (hop : (FileOp.read f count offset).InRange F st.mem)
    (hread : WasRead f offset.toNat (offset.toNat + readLen (fSize st.mem f) count offset) 0 out
      st st') :
    Refines F A (.read f count offset) ((readLen (fSize st.mem f) count offset : Int), out)
      st.mem st'.mem := by
  obtain ⟨hf, hreg, hmax, -⟩ := hop
  change f ∈ F at hf
  change fType st.mem f ≠ ftypeDir at hreg
  have hlimit := lt_of_le_maxfilesize hmax
  have hsize := h.size_small hf
  have hlen := readLen_eq count offset hsize (by omega)
  have hkept := hread.filled.moves.kept hf h.layout
  have hout : out.length = readLen (fSize st.mem f) count offset := by
    rw [hread.length]
    omega
  refine ⟨⟨?_, ?_, ?_⟩, ?_, hkept, ?_⟩
  · rw [hlen, hA.size f hf]
  · rw [hout]
  · intro j hj c hc
    rw [← hread.bytes j (by omega)]
    exact hread.filled.kept _ (hA.below f hf _ c hc).2 rfl c (hA.byte f hf hreg _ c hc)
  · have hupdate := hA.update (B := A f) hkept (by rw [hread.size]; exact hA.size f hf)
      (hA.below f hf) fun p c hc =>
        hread.filled.kept p (hA.below f hf p c hc).2 rfl c (hA.byte f hf hreg p c hc)
    rw [update_eq_self] at hupdate
    exact hupdate
  · refine ⟨hread.filled.moves.layout hf h.layout, ?_, hkept.size_nonneg h ?_⟩
    · refine hread.filled.tight h.layout hf h.tight (fun hlt => ?_) (by rw [hread.size])
      rw [hread.size, toInt_of_small hsize, hlen]
      have hpos : 0 < readLen (fSize st.mem f) count offset := by
        by_contra h0
        rw [Nat.eq_zero_of_not_pos h0, Nat.add_zero, nextBlock_self] at hlt
        exact Nat.lt_irrefl _ hlt
      omega
    · rw [hread.size]
      exact h.size_nonneg f hf

theorem write_refines {data : Nat → Byte}
    (hop : (FileOp.write f data count offset).InRange F st.mem)
    (hw : Written f data offset (offset + count) st st') :
    Refines F A (.write f data count offset) (count.toInt, []) st.mem st'.mem := by
  obtain ⟨hf, hreg, hmax, -⟩ := hop
  change f ∈ F at hf
  change fType st.mem f ≠ ftypeDir at hreg
  have hlimit := lt_of_le_maxfilesize hmax
  have hsize := h.size_small hf
  have hend := write_end hmax
  have hcount : count.toInt = (count.toNat : Int) := toInt_of_small (by omega)
  have hkept := hw.filled.moves.kept hf h.layout
  have hsize' : (fSize st'.mem f).toNat =
      max (fSize st.mem f).toNat (offset.toNat + count.toNat) := by
    rw [hw.size, ← hend]
    unfold writeSize
    split <;> omega
  have hint : (fSize st'.mem f).toInt = ((fSize st'.mem f).toNat : Int) := toInt_of_small (by omega)
  have hbyte : ∀ p c, (if offset.toNat ≤ p ∧ p < offset.toNat + count.toNat then
      some (data (p - offset.toNat)) else (A f).known p) = some c → p < maxfilesize →
      fileByte st'.mem f p = some c := by
    intro p c hc hp
    have hwin : window offset.toNat (offset + count).toNat (fun p => data (p - offset.toNat)) p =
        if offset.toNat ≤ p ∧ p < offset.toNat + count.toNat then some (data (p - offset.toNat))
        else none := by
      rw [hend]
      rfl
    split at hc
    · rename_i hin
      exact hw.filled.wrote p hp c (by rw [hwin, if_pos hin]; exact hc)
    · rename_i hout
      exact hw.filled.kept p hp (by rw [hwin, if_neg hout]) c (hA.byte f hf hreg p c hc)
  have hbelow : ∀ p c, (if offset.toNat ≤ p ∧ p < offset.toNat + count.toNat then
      some (data (p - offset.toNat)) else (A f).known p) = some c →
      p < max (A f).size (offset.toNat + count.toNat) ∧ p < maxfilesize := by
    intro p c hc
    split at hc
    · omega
    · have := hA.below f hf p c hc
      omega
  refine ⟨hcount, hA.update hkept ?_ hbelow fun p c hc =>
    hbyte p c hc (hbelow p c hc).2, hkept, hw.filled.moves.layout hf h.layout, ?_,
    hkept.size_nonneg h (by omega)⟩
  · rw [hsize', hA.size f hf]
  · refine hw.filled.tight h.layout hf h.tight (fun _ => by omega) ?_
    rw [hint, toInt_of_small hsize]
    omega

theorem setSize_refines {newsize : Word}
    (hop : (FileOp.setSize f newsize).InRange F st.mem) (hs : Resized f newsize st st') :
    Refines F A (.setSize f newsize) (0, []) st.mem st'.mem := by
  obtain ⟨hf, hreg, hnew⟩ := hop
  change f ∈ F at hf
  change fType st.mem f ≠ ftypeDir at hreg
  change 0 ≤ newsize.toInt at hnew
  have hsmall := small_of_toInt_nonneg hnew
  have hkept := hs.moves.kept hf h.layout
  refine ⟨rfl, hA.update hkept ?_ (fun p c hc => ?_) (fun p c hc => ?_), hkept,
    hs.moves.layout hf h.layout, hs.tight h.layout hf h.tight hsmall, hkept.size_nonneg h ?_⟩
  · rw [hs.size]
  · dsimp only at hc ⊢
    split at hc
    · exact ⟨by assumption, (hA.below f hf p c hc).2⟩
    · cases hc
  · dsimp only at hc
    split at hc
    · -- The block of a position below the new size is kept.
      rename_i hlt
      have hp := (hA.below f hf p c hc).2
      have hblock : p / blksize < (blocksOf newsize).toNat := by
        apply lt_blocksOf (div_lt_maxblocks hp)
        rw [toInt_of_small hsmall]
        have : p / blksize * blksize ≤ p := Nat.div_mul_le_self ..
        omega
      rw [hs.bytes p hp, if_neg (by omega)]
      exact hA.byte f hf hreg p c hc
    · cases hc
  · rw [hs.size]
    exact hnew

end

end

theorem FileEffect.moves (h : FileEffect st st' op r) : Moves op.file st st' := by
  cases h with
  | read hread => exact hread.filled.moves
  | write hw => exact hw.filled.moves
  | setSize hs => exact hs.moves

theorem FileEffect.refines (h : FileEffect st st' op r)
    (hw : WellFormed F st.mem) (hA : Represents F A st.mem) (hop : op.InRange F st.mem) :
    Refines F A op r st.mem st'.mem := by
  cases h with
  | read hread => exact read_refines hw hA hop hread
  | write hwritten => exact write_refines hw hA hop hwritten
  | setSize hs => exact setSize_refines hw hA hop hs

theorem FileOp.refines (h : WellFormed F s.mem) (hA : Represents F A s.mem)
    (hop : op.InRange F s.mem) :
    ∃ r s', op.run s = .ret r s' ∧ Refines F A op r s.mem s'.mem := by
  have hseen : WellFormed F s.seen.mem := h
  obtain ⟨r, st', hrun, heffect⟩ := FileOp.effect hseen hop
  obtain ⟨s', hret, rfl⟩ := hrun s rfl
  exact ⟨r, s', hret, heffect.refines hseen hA hop⟩

theorem OpRun.represents {ops : List FileOp} (h : WellFormed F s.mem) (hrun : OpRun F s ops s1) :
    WellFormed F s1.mem ∧ Represents F (arraysAfter (startArrays s.mem) ops) s1.mem := by
  induction hrun with
  | nil => exact ⟨h, represents_start⟩
  | snoc hrun op hop hret ih =>
    obtain ⟨r, s', hret', href⟩ := FileOp.refines ih.1 ih.2 hop
    rw [hret] at hret'
    cases hret'
    refine ⟨href.wellFormed, ?_⟩
    unfold arraysAfter
    rw [List.foldl_append]
    exact href.represents

/-- After any operations the next one returns, with the result and the sizes of the abstract files,
and leaves the sizes and the bytes of all other regular files as they were. -/
theorem files_are_arrays {ops : List FileOp} {op : FileOp} (h : WellFormed F s.mem)
    (hrun : OpRun F s ops s1) (hop : op.InRange F s1.mem) :
    ∃ r s2, op.run s1 = .ret r s2 ∧ op.Conforms (arraysAfter (startArrays s.mem) ops) r ∧
      (∀ f ∈ F, (fSize s2.mem f).toInt =
        ((arraysAfter (startArrays s.mem) (ops ++ [op]) f).size : Int)) ∧
      ∀ g ∈ F, g ≠ op.file → fType s1.mem g ≠ ftypeDir → fSize s2.mem g = fSize s1.mem g ∧
        ∀ p < maxfilesize, fileByte s2.mem g p = fileByte s1.mem g p := by
  obtain ⟨hw, hrep⟩ := hrun.represents h
  obtain ⟨r, s2, hret, href⟩ := FileOp.refines hw hrep hop
  refine ⟨r, s2, hret, href.conforms, fun f hf => ?_, fun g hg hne hreg => ?_⟩
  · unfold arraysAfter
    rw [List.foldl_append, toInt_of_small (href.wellFormed.size_small hf)]
    exact congrArg Int.ofNat (href.represents.size f hf)
  · exact ⟨href.kept.size g hg hne, fun p hp => href.kept.fileByte hg hne hreg hp⟩

theorem smallImage_wellFormed : WellFormed smallFiles smallFs.mem := by
  refine ⟨smallImage_owned.layout, smallImage_owned.tight, ?_⟩
  rintro f (rfl | ⟨j, hj, rfl⟩)
  · decide
  · have hzero : (fSize smallImage (3 * blksize + sizeofFile * j)).toNat = 0 := by
      apply smallImage_word <;> unfold fSizeAt blksize sizeofFile <;> omega
    rw [smallFs_mem, toInt_of_small (by omega)]
    exact Int.natCast_nonneg _

/-- A byte is written to the first file of the image, and then the file is cut to length 0. -/
theorem files_are_arrays_small : WellFormed smallFiles smallFs.mem ∧
    ∃ s1 s2, OpRun smallFiles smallFs [.write (3 * blksize) (fun _ => 7) 1 0] s1 ∧
      ∃ r, (FileOp.setSize (3 * blksize) 0).run s1 = .ret r s2 ∧
        (FileOp.setSize (3 * blksize) 0).Conforms
          (arraysAfter (startArrays smallFs.mem) [.write (3 * blksize) (fun _ => 7) 1 0]) r := by
  have h := smallImage_wellFormed
  have hf : 3 * blksize ∈ smallFiles := Or.inr ⟨0, by decide, rfl⟩
  have hop : (FileOp.write (3 * blksize) (fun _ => 7) 1 0).InRange smallFiles smallFs.mem := by
    refine ⟨hf, by decide, by decide, ?_⟩
    unfold Room
    decide +kernel
  obtain ⟨r, s1, hret, href⟩ := FileOp.refines h represents_start hop
  have hrun : OpRun smallFiles smallFs [.write (3 * blksize) (fun _ => 7) 1 0] s1 :=
    .snoc .nil _ hop hret
  have htype : fType s1.mem (3 * blksize) ≠ ftypeDir := by
    rw [href.kept.type _ hf]
    decide
  have hop' : (FileOp.setSize (3 * blksize) 0).InRange smallFiles s1.mem :=
    ⟨hf, htype, Int.le_refl 0⟩
  obtain ⟨r', s2, hret', hconf, _⟩ := files_are_arrays h hrun hop'
  exact ⟨h, s1, s2, hrun, r', hret', hconf⟩

/-- After the size has been set to -1, a write of one byte at position 0 returns 1 and leaves
the size -1, because `file_write` compares sizes as unsigned numbers. -/
theorem negative_size_stays : WellFormed smallFiles smallFs.mem ∧
    ∃ s1 s2, fileSetSize (3 * blksize) (-1) smallFs = .ret 0 s1 ∧
      fileWrite (3 * blksize) (.bytes fun _ => 7) 1 0 s1 = .ret 1 s2 ∧
      (fSize s1.mem (3 * blksize)).toInt = -1 ∧ (fSize s2.mem (3 * blksize)).toInt ≠
        max (fSize s1.mem (3 * blksize)).toInt 1 := by
  exact ⟨smallImage_wellFormed, _, _, Outcome.eq_ret smallFs (by decide +kernel),
    Outcome.eq_ret smallFs (by decide +kernel), by decide +kernel, by decide +kernel⟩

end Jos
