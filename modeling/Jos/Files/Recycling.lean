import Mathlib.Data.List.Forall2
import Jos.Files.Trees

/-!
# Bytes of recycled blocks

A free block is handed out with the bytes that it has, so a hole of one file can show what was
written to another. If the blocks that a file takes hold zeros, its content depends on the
operations on that file alone.
-/

namespace Jos

open Logic

variable {m : Image} {s s' s1 s2 : Fs} {st st' : Store} {f g d n p lo hi e : Nat}
  {z : Word} {B : Nat → Option Byte} {W : Nat → Option Byte} {r : Int × List Byte}

/-- The bytes of a file after bytes have been written to it and the holes of a range of blocks
have been filled with zeros. -/
def fillZeros (lo hi : Nat) (W B : Nat → Option Byte) : Nat → Option Byte := fun p =>
  match W p with
  | some c => some c
  | none => if lo ≤ p / blksize ∧ p / blksize < hi then some ((B p).getD 0) else B p

theorem Filled.eq_fillZeros (h : Filled f lo hi hi W st st')
    (hc : CleanFirst st.mem (needs st.mem f lo hi)) (hB : ∀ p < maxfilesize,
      fileByte st.mem f p = B p) (hp : p < maxfilesize) :
    fileByte st'.mem f p = fillZeros lo hi W B p := by
  unfold fillZeros
  cases hW : W p with
  | some c => exact h.wrote p hp c hW
  | none =>
    dsimp only
    by_cases hin : lo ≤ p / blksize ∧ p / blksize < hi
    · rw [if_pos hin, ← hB p hp]
      cases hb : fileByte st.mem f p with
      | some c => exact h.kept p hp hW c hb
      | none => exact (h.clean hc).2 p hp hin.1 hin.2 hW hb
    · rw [if_neg hin, ← hB p hp]
      exact h.outside p hp (by omega)

/-- The size and the bytes of a file after an operation on it. -/
def FileOp.evolve (op : FileOp) (z : Word) (B : Nat → Option Byte) :
    Word × (Nat → Option Byte) :=
  match op with
  | .read _ count offset =>
    let e := offset.toNat + readLen z count offset
    (z, fillZeros (nextBlock offset.toNat e) (blocksBelow e) (fun _ => none) B)
  | .write _ data count offset =>
    let e := (offset + count).toNat
    (writeSize z (offset + count), fillZeros (nextBlock offset.toNat e) (blocksBelow e)
      (window offset.toNat e fun p => data (p - offset.toNat)) B)
  | .setSize _ newsize => (newsize, fun p =>
      if newsize.toInt < z.toInt ∧ (blocksOf newsize).toNat ≤ p / blksize then none else B p)

/-- The result of a read of a file with the size `z` and the bytes `B`. -/
def ReadResult (z : Word) (B : Nat → Option Byte) (count offset : Word)
    (r : Int × List Byte) : Prop :=
  r.1 = (readLen z count offset : Int) ∧ r.2.length = readLen z count offset ∧
    ∀ j < readLen z count offset,
      ((FileOp.read 0 count offset).evolve z B).2 (offset.toNat + j) = r.2[j]?

theorem ReadResult.unique {count offset : Word} {r r' : Int × List Byte}
    (h : ReadResult z B count offset r) (h' : ReadResult z B count offset r') : r = r' := by
  refine Prod.ext (h.1.trans h'.1.symm) (List.ext_getElem? fun j => ?_)
  by_cases hj : j < readLen z count offset
  · rw [← h.2.2 j hj, h'.2.2 j hj]
  · rw [List.getElem?_eq_none (by rw [h.2.1]; omega), List.getElem?_eq_none (by rw [h'.2.1]; omega)]

/-- The blocks that an operation on `g` takes from the bitmap hold zeros. -/
def FileOp.Clean (g : Nat) (m : Image) : FileOp → Prop
  | .read f count offset => f = g →
      let e := offset.toNat + readLen (fSize m f) count offset
      CleanFirst m (needs m f (nextBlock offset.toNat e) (blocksBelow e))
  | .write f _ count offset => f = g →
      let e := (offset + count).toNat
      CleanFirst m (needs m f (nextBlock offset.toNat e) (blocksBelow e))
  | .setSize _ _ => True

/-- The content of the regular file `g`, if it is there; a file that is not there yet is taken
to be empty. -/
structure Content (m : Image) (g : Nat) (z : Word) (B : Nat → Option Byte) : Prop where
  old : g ∈ files m → fType m g ≠ ftypeDir → fSize m g = z ∧
    ∀ p < maxfilesize, fileByte m g p = B p
  new : g ∉ files m → z = 0 ∧ ∀ p < maxfilesize, B p = none

theorem FileEffect.evolve {F : Set Nat} {op : FileOp}
    (heffect : FileEffect st st' op r) (h : WellFormed F st.mem) (hop : op.InRange F st.mem)
    (hclean : op.Clean op.file st.mem) (hz : fSize st.mem op.file = z)
    (hB : ∀ p < maxfilesize, fileByte st.mem op.file p = B p) :
    fSize st'.mem op.file = (op.evolve z B).1 ∧
      (∀ p < maxfilesize, fileByte st'.mem op.file p = (op.evolve z B).2 p) ∧
      ∀ count offset, op = .read op.file count offset → ReadResult z B count offset r := by
  obtain ⟨hf, hreg, hop⟩ := hop
  cases heffect with
  | @read f count offset out hread =>
    change fSize st.mem f = z at hz
    obtain ⟨hmax, -⟩ := hop
    have hlimit := lt_of_le_maxfilesize hmax
    have hlen := readLen_eq count offset (h.size_small hf) (by omega)
    have hfill := fun p hp => hread.filled.eq_fillZeros (hclean rfl) hB (p := p) hp
    refine ⟨hread.size.trans hz, fun p hp => ?_, ?_⟩
    · rw [hz] at hfill
      exact hfill p hp
    · intro count' offset' heq
      cases heq
      change readLen (fSize st.mem f) count offset = _ at hlen
      rw [hz] at hfill hlen hread ⊢
      refine ⟨rfl, ?_, fun j hj => ?_⟩
      · exact hread.length.trans (by omega)
      · rw [← hread.bytes j (by omega)]
        exact (hfill _ (by omega)).symm
  | @write f data count offset hw =>
    change fSize st.mem f = z at hz
    refine ⟨?_, fun p hp => ?_, fun _ _ heq => by cases heq⟩
    · show fSize st'.mem f = writeSize z (offset + count)
      rw [hw.size, hz]
    · exact hw.filled.eq_fillZeros (hclean rfl) hB hp
  | @setSize f newsize hs =>
    change fSize st.mem f = z at hz
    refine ⟨hs.size, fun p hp => ?_, fun _ _ heq => by cases heq⟩
    show fileByte st'.mem f p = if newsize.toInt < z.toInt ∧ _ then none else B p
    rw [hs.bytes p hp, hz, show fileByte st.mem f p = B p from hB p hp]

/-- The content of `g` after an operation on the tree. -/
def TreeOp.evolve (g : Nat) (op : TreeOp) (z : Word) (B : Nat → Option Byte) :
    Word × (Nat → Option Byte) :=
  match op with
  | .file op => if op.file = g then op.evolve z B else (z, B)
  | _ => (z, B)

/-- The operation is in order, and the blocks that it takes for `g` or for a directory hold
zeros. -/
def TreeOp.Zeroed (g : Nat) (m : Image) (op : TreeOp) : Prop :=
  op.Ok m ∧ match op with
    | .file op => op.Clean g m
    | _ => True

theorem FileCreated.content {path name : List Byte} {st1 : Store}
    (h : FileCreated path d f name st st1 st') (ht : Tree st.mem) (hc : Content st.mem g z B) :
    Content st'.mem g z B := by
  have hkept := h.grown.moves.kept h.dir.1 ht.layout
  have hA := h.agree ht
  have hfiles := h.files ht
  have hf := h.grown.mem_files ht h.dir
  -- Neither the growth of the directory nor the name is in a data block.
  have hbyte : ∀ p < maxfilesize, g ∈ Jos.files st1.mem → fType st1.mem g ≠ ftypeDir →
      fileByte st'.mem g p = fileByte st1.mem g p := by
    intro p hp hg hreg
    have hn := div_lt_maxblocks hp
    refine fileByte_congr (hA.held g hg (some _) hn) fun h0 => ?_
    have hlt : 0 + (name.length + 1) ≤ sizeofFile := by
      have := h.name_lt
      unfold maxnamelen at this
      unfold sizeofFile
      omega
    rw [h.mem]
    exact h.grown.tree.layout.toShape.sameOn_struct (w := fun i => name.getD i 0) hf
      (h.grown.tree.layout.toShape.plain_of_data hg hn hreg h0) hlt
  refine ⟨fun hg hreg => ?_, fun hg => ?_⟩
  · rw [hfiles] at hg
    have htype : fType st'.mem g = fType st1.mem g := hA.type g hg
    have hsize : fSize st'.mem g = fSize st1.mem g := hA.size g hg
    rw [htype] at hreg
    rw [hsize]
    by_cases hold : g ∈ Jos.files st.mem
    · have hreg0 : fType st.mem g ≠ ftypeDir := by
        rw [← hkept.type g hold]
        exact hreg
      obtain ⟨hz, hB⟩ := hc.old hold hreg0
      have hne : g ≠ d := by
        rintro rfl
        exact hreg0 h.dir.2
      refine ⟨(hkept.size g hold hne).trans hz, fun p hp => ?_⟩
      rw [hbyte p hp hg hreg, hkept.fileByte hold hne hreg0 hp]
      exact hB p hp
    · obtain ⟨-, hsize0, hheld⟩ := h.grown.fresh g hg hold
      obtain ⟨hz, hB⟩ := hc.new hold
      refine ⟨hsize0.trans hz.symm, fun p hp => ?_⟩
      rw [hbyte p hp hg hreg, fileByte_of_hole (hheld _), hB p hp]
  · apply hc.new
    intro hold
    rw [hfiles] at hg
    exact hg (h.grown.sub g hold)

theorem TreeOp.content {op : TreeOp} (h : Tree s.mem)
    (hop : op.Zeroed g s.mem) (hc : Content s.mem g z B) (hrun : op.run s = .ret r s') :
    Content s'.mem g (op.evolve g z B).1 (op.evolve g z B).2 ∧
      ∀ count offset, op = .file (.read g count offset) → ReadResult z B count offset r := by
  obtain ⟨hok, hclean⟩ := hop
  cases TreeOp.effect_of_ret h hok hrun with
  | @file op _ hop heffect =>
    have href : Refines (files s.mem) (startArrays s.mem) op r s.mem s'.mem :=
      heffect.refines h.toWellFormed represents_start hop
    obtain ⟨hfiles, htree⟩ := h.kept hop.1 hop.2.1 href.kept href.wellFormed
    by_cases hg : op.file = g
    · subst hg
      obtain ⟨hz, hB⟩ := hc.old hop.1 hop.2.1
      obtain ⟨hz', hB', hread⟩ := heffect.evolve h.toWellFormed hop hclean hz hB
      have hev : (TreeOp.file op).evolve op.file z B = op.evolve z B := if_pos rfl
      rw [hev]
      refine ⟨⟨fun _ _ => ⟨hz', hB'⟩, fun hnot => ?_⟩, fun count offset heq => ?_⟩
      · rw [hfiles] at hnot
        exact absurd hop.1 hnot
      · exact hread count offset (TreeOp.file.inj heq)
    · have hev : (TreeOp.file op).evolve g z B = (z, B) := if_neg hg
      rw [hev]
      refine ⟨⟨fun hg' hreg => ?_, fun hnot => ?_⟩, fun count offset heq => ?_⟩
      · rw [hfiles] at hg'
        rw [href.kept.type g hg'] at hreg
        obtain ⟨hz, hB⟩ := hc.old hg' hreg
        have hne : g ≠ op.file := fun hc => hg hc.symm
        refine ⟨(href.kept.size g hg' hne).trans hz, fun p hp => ?_⟩
        rw [href.kept.fileByte hg' hne hreg hp]
        exact hB p hp
      · rw [hfiles] at hnot
        exact hc.new hnot
      · rw [TreeOp.file.inj heq] at hg
        exact absurd rfl hg
  | refused heq =>
    have hmem : s'.mem = s.mem := congrArg Store.mem heq
    rw [hmem]
    exact ⟨hc, fun _ _ heq => by cases heq⟩
  | created hnew => exact ⟨hnew.content h hc, fun _ _ heq => by cases heq⟩
  | flushed _ heq =>
    have hmem : s'.mem = s.mem := (congrArg Store.mem heq).trans (Store.flushAll_mem ..)
    rw [hmem]
    exact ⟨hc, fun _ _ heq => by cases heq⟩

/-- A run of operations, with their results, in which every block that is taken for `g` or for
a directory holds zeros. -/
inductive ZeroedRun (g : Nat) : Fs → List (TreeOp × (Int × List Byte)) → Fs → Prop where
  | nil (s : Fs) : ZeroedRun g s [] s
  | cons {op : TreeOp} {r : Int × List Byte} {s s1 s' : Fs}
      {es : List (TreeOp × (Int × List Byte))} (hop : op.Zeroed g s.mem)
      (hrun : op.run s = .ret r s1) (h : ZeroedRun g s1 es s') : ZeroedRun g s ((op, r) :: es) s'

/-- The same operation, but for the bytes that are written to a file other than `g`. -/
inductive Alike (g : Nat) : TreeOp → TreeOp → Prop where
  | same (op : TreeOp) : Alike g op op
  | write {f : Nat} (hne : f ≠ g) (data data' : Nat → Byte) (count offset : Word) :
      Alike g (.file (.write f data count offset)) (.file (.write f data' count offset))

theorem Alike.evolve {op op' : TreeOp} (h : Alike g op op') : op'.evolve g = op.evolve g := by
  cases h with
  | same => rfl
  | write hne data data' count offset =>
    funext z B
    exact (if_neg hne).trans (if_neg hne).symm

/-- If the operation is a read of `g`, the two results are the same. -/
def SameRead (g : Nat) (e e' : TreeOp × (Int × List Byte)) : Prop :=
  ∀ count offset, e.1 = .file (.read g count offset) → e.2 = e'.2

theorem reads_agree {es es' : List (TreeOp × (Int × List Byte))}
    (halike : List.Forall₂ (fun e e' => Alike g e.1 e'.1) es es') :
    ∀ {s1 s1' s2 s2' : Fs} {z : Word} {B : Nat → Option Byte}, Tree s1.mem → Tree s2.mem →
      Content s1.mem g z B → Content s2.mem g z B → ZeroedRun g s1 es s1' →
      ZeroedRun g s2 es' s2' → List.Forall₂ (SameRead g) es es' := by
  induction halike with
  | nil =>
    intros
    exact .nil
  | cons he _ ih =>
    intro s1 s1' s2 s2' z B h1 h2 hc1 hc2 hr1 hr2
    cases hr1 with
    | @cons op r _ t1 _ _ hop hrun hrest =>
      cases hr2 with
      | @cons op' r' _ t2 _ _ hop' hrun' hrest' =>
        obtain ⟨hd1, hread1⟩ := TreeOp.content h1 hop hc1 hrun
        obtain ⟨hd2, hread2⟩ := TreeOp.content h2 hop' hc2 hrun'
        obtain ⟨a1, u1, hret1, ht1⟩ := TreeOp.run_tree h1 hop.1
        obtain ⟨a2, u2, hret2, ht2⟩ := TreeOp.run_tree h2 hop'.1
        rw [hrun] at hret1
        rw [hrun'] at hret2
        cases hret1
        cases hret2
        have heq : op'.evolve g = op.evolve g := Alike.evolve he
        rw [heq] at hd2
        refine .cons (fun count offset hop1 => ?_) (ih ht1 ht2 hd1 hd2 hrest hrest')
        have hop1' : op = .file (.read g count offset) := hop1
        subst hop1'
        cases he with
        | same => exact (hread1 count offset rfl).unique (hread2 count offset rfl)

theorem content_start (m : Image) (g : Nat) : ∃ z B, Content m g z B := by
  by_cases hg : g ∈ files m
  · exact ⟨fSize m g, fileByte m g, fun _ _ => ⟨rfl, fun _ _ => rfl⟩, fun hnot => absurd hg hnot⟩
  · exact ⟨0, fun _ => none, fun hg' => absurd hg' hg, fun _ => ⟨rfl, fun _ _ => rfl⟩⟩

/-- Two runs from one state that differ in the bytes written to files other than `g`, and in which
the blocks taken for `g` and for directories hold zeros: every read of `g` has the same result in
both. -/
theorem reads_independent {es es' : List (TreeOp × (Int × List Byte))} (h : Tree s.mem)
    (hrun : ZeroedRun g s es s1) (hrun' : ZeroedRun g s es' s2)
    (halike : List.Forall₂ (fun e e' => Alike g e.1 e'.1) es es') :
    List.Forall₂ (SameRead g) es es' := by
  obtain ⟨z, B, hc⟩ := content_start s.mem g
  exact reads_agree halike h h hc hc hrun hrun'

theorem smallImage_clean (n : Nat) : CleanFirst smallFs.mem n := by
  intro b hb _ o ho
  have h4 := smallImage_free.mp hb
  show smallImage (b * 4096 + o) = 0
  show (if b * 4096 + o = 4100 then 8 else if b * 4096 + o = 8192 then 0xF0
    else if b * 4096 + o = 4233 then 0x10 else if b * 4096 + o = 4236 then 1
    else if b * 4096 + o = 4240 then 3 else (0 : Byte)) = 0
  rw [if_neg (by omega), if_neg (by omega), if_neg (by omega), if_neg (by omega), if_neg (by omega)]

/-- A byte is written to the second file of the image and one to the first, and the second
file is read. -/
def writeBoth (c : Byte) : List TreeOp :=
  [.file (.write (3 * blksize + sizeofFile * 1) (fun _ => 5) 1 0),
    .file (.write (3 * blksize + sizeofFile * 0) (fun _ => c) 1 0),
    .file (.read (3 * blksize + sizeofFile * 1) 1 0)]

theorem writeBoth_run {c : Byte} (hc : c = 7 ∨ c = 8) : ∃ r1 r2 r3 s',
    ZeroedRun (3 * blksize + sizeofFile * 1) smallFs ((writeBoth c).zip [r1, r2, r3]) s' := by
  have hstep : ∀ (s : Fs) (op : TreeOp), (op.run s).returns (fun _ => true) →
      ∃ r, op.run s = .ret r ((op.run s).after s) :=
    fun s op h => (Outcome.ret_of_returns h s).imp fun _ hr => hr.1
  obtain ⟨r1, h1⟩ := hstep smallFs
    (.file (.write (3 * blksize + sizeofFile * 1) (fun _ => 5) 1 0)) (by decide +kernel)
  generalize hs1 : Outcome.after _ smallFs = s1 at h1
  obtain ⟨r2, h2⟩ := hstep s1 (.file (.write (3 * blksize + sizeofFile * 0) (fun _ => c) 1 0))
    (by subst hs1; rcases hc with rfl | rfl <;> decide +kernel)
  generalize hs2 : Outcome.after _ s1 = s2 at h2
  obtain ⟨r3, h3⟩ := hstep s2 (.file (.read (3 * blksize + sizeofFile * 1) 1 0))
    (by subst hs2 hs1; rcases hc with rfl | rfl <;> decide +kernel)
  refine ⟨r1, r2, r3, _, .cons ⟨?_, ?_⟩ h1 (.cons ⟨?_, ?_⟩ h2 (.cons ⟨?_, ?_⟩ h3 (.nil _)))⟩
  · refine ⟨mem_files_of_root (by decide) (by decide) (by decide), by decide, by decide, ?_⟩
    unfold Room
    decide +kernel
  · exact fun _ => smallImage_clean _
  · refine ⟨mem_files_of_root ?_ ?_ (by decide), ?_, by decide, ?_⟩ <;> subst hs1
    · decide +kernel
    · decide +kernel
    · change fType _ (3 * blksize + sizeofFile * 0) ≠ ftypeDir
      decide +kernel
    · unfold Room
      decide +kernel
  · exact fun h => absurd h (by decide)
  · refine ⟨mem_files_of_root ?_ ?_ (by decide), ?_, by decide, ?_⟩ <;>
      subst hs2 hs1 <;> rcases hc with rfl | rfl
    all_goals first | decide +kernel | (unfold Room; decide +kernel)
  · -- The block that is read is there, so that none is taken.
    have hnone : needs s2.mem (3 * blksize + sizeofFile * 1)
        (nextBlock 0 (0 + readLen (fSize s2.mem (3 * blksize + sizeofFile * 1)) 1 0))
        (blocksBelow (0 + readLen (fSize s2.mem (3 * blksize + sizeofFile * 1)) 1 0)) = 0 := by
      subst hs2 hs1
      rcases hc with rfl | rfl <;> decide +kernel
    intro _ e b _ hbelow
    exact absurd (hbelow.trans_eq hnone) (Nat.not_lt_zero _)

/-- The byte that is written to the first file makes no difference to the second. -/
theorem reads_independent_small : Tree smallFs.mem ∧ ∃ rs rs' s1 s2,
    ZeroedRun (3 * blksize + sizeofFile * 1) smallFs ((writeBoth 7).zip rs) s1 ∧
      ZeroedRun (3 * blksize + sizeofFile * 1) smallFs ((writeBoth 8).zip rs') s2 ∧
      List.Forall₂ (SameRead (3 * blksize + sizeofFile * 1)) ((writeBoth 7).zip rs)
        ((writeBoth 8).zip rs') := by
  obtain ⟨r1, r2, r3, s1, hrun⟩ := writeBoth_run (Or.inl rfl)
  obtain ⟨r1', r2', r3', s2, hrun'⟩ := writeBoth_run (Or.inr rfl)
  have halike : List.Forall₂ (fun e e' : TreeOp × (Int × List Byte) =>
      Alike (3 * blksize + sizeofFile * 1) e.1 e'.1) ((writeBoth 7).zip [r1, r2, r3])
      ((writeBoth 8).zip [r1', r2', r3']) :=
    .cons (.same _) (.cons (.write (by decide) _ _ _ _) (.cons (.same _) .nil))
  exact ⟨smallImage_tree, _, _, s1, s2, hrun, hrun',
    reads_independent smallImage_tree hrun hrun' halike⟩

/-- A byte is written to the first file, which is truncated; then the second file is extended
by one byte and read. -/
def readRecycled (c : Byte) : FsM (Int × List Byte) := do
  let _ ← (FileOp.write (3 * blksize) (fun _ => c) 1 0).run
  let _ ← (FileOp.setSize (3 * blksize) 0).run
  let _ ← (FileOp.setSize (3 * blksize + sizeofFile) 1).run
  (FileOp.read (3 * blksize + sizeofFile) 1 0).run

/-- The second file, to which nothing has ever been written, shows the byte that was written to
the first. -/
theorem truncated_byte_resurfaces : Tree smallFs.mem ∧
    (∃ s', readRecycled 7 smallFs = .ret (1, [7]) s') ∧
      ∃ s', readRecycled 8 smallFs = .ret (1, [8]) s' := by
  exact ⟨smallImage_tree, ⟨_, Outcome.eq_ret smallFs (by decide +kernel)⟩, _,
    Outcome.eq_ret smallFs (by decide +kernel)⟩

end Jos
