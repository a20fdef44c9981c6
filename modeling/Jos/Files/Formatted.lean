import Jos.Files.Formatting
import Jos.Files.Directories

/-!
# The finished image

What is in an image that `fsformat` has written: the super block, the bitmap, the root
directory, and each file with its entry and its blocks.
-/

namespace Jos

open Logic

variable {s s' s1 : Fmt} {m heap : Image} {arg : Arg} {args : List Arg}
  {a b i j k x T : Nat} {nb : Word}

/-- The first `T` blocks have been marked as used. -/
def markAll (m : Image) (T : Nat) : Image := (List.range T).foldl markUsed m

theorem markAll_succ : markAll m (T + 1) = markUsed (markAll m T) T := by
  unfold markAll
  rw [List.range_succ, List.foldl_append]
  rfl

theorem markAll_outside (hx : x < bitmapAddr ∨ bitmapAddr + 4 * ((T + 31) / 32) ≤ x) :
    markAll m T x = m x := by
  induction T with
  | zero => rfl
  | succ T ih =>
    rw [markAll_succ]
    refine (setWord_of_not_mem ?_).trans (ih ?_)
    · unfold bitmapAt
      omega
    · omega

theorem markAll_nblocks : nblocksIn (markAll m T) = nblocksIn m := by
  apply nblocksIn_congr
  intro x _ hx
  apply markAll_outside
  unfold sNblocksAt superAddr blksize at hx
  unfold bitmapAddr blksize
  omega

theorem freeIn_markAll (hT : T ≤ nblocksIn m) :
    freeIn (markAll m T) b = (decide (T ≤ b) && freeIn m b) := by
  induction T with
  | zero => simp [markAll]
  | succ T ih =>
    have hlt : T < nblocksIn (markAll m T) := by
      rw [markAll_nblocks]
      omega
    rw [markAll_succ, freeIn_markUsed hlt, ih (by omega)]
    by_cases hb : b = T
    · subst hb
      simp
    · rw [if_neg hb]
      congr 1
      exact decide_eq_decide.mpr (by omega)

theorem finishdisk_run (hbitmap : s.bitmap = bitmapAddr) (hpos : s.diskpos = T * blksize) :
    finishdisk s = .ret () { s with diskmap := markAll s.diskmap T } := by
  have hblock : blockof s.diskpos = T := by
    rw [hpos]
    exact Nat.mul_div_cancel _ (by decide)
  have hloop : ∃ s', Code.times T (fun i => do
      let a := s.bitmap + 4 * (i / 32)
      let w := word (← Code.get).diskmap a
      storeDisk a 4 (wordByte (w &&& ~~~bitmapBit i))) s = .ret () s' ∧
      s' = { s with diskmap := markAll s.diskmap T } :=
    times_run (fun j s' => s' = { s with diskmap := markAll s.diskmap j }) rfl fun j _ s' hs' => by
        subst hs'
        refine ⟨_, rfl, ?_⟩
        rw [markAll_succ, hbitmap]
        rfl
  obtain ⟨s', hrun, rfl⟩ := hloop
  refine bind_run rfl ?_
  rw [hblock]
  exact hrun

theorem word_ones (h : ∀ i < 4, m (a + i) = 0xFF) : word m a = 0xFFFFFFFF := by
  unfold word
  have h0 : m a = 0xFF := h 0 (by omega)
  rw [h 3 (by omega), h 2 (by omega), h 1 (by omega), h0]
  decide

theorem blankDisk_bitmap (hx : bitmapAddr ≤ x) (hx' : x < bitmapAddr + blksize) :
    blankDisk nb x = 0xFF := by
  unfold blankDisk
  exact setBytes_of_mem hx hx'

theorem blankDisk_word (ha : a + 4 ≤ bitmapAddr) : word (blankDisk nb) a =
    word (setBytes (setWord (setWord (setWord (fun _ => 0) sMagicAt fsMagic) sNblocksAt nb)
      (fTypeAt sRoot) ftypeDir) sRoot 2 fun i => [47, 0].getD i 0) a := by
  unfold blankDisk
  exact word_setBytes_of_disjoint (.inr ha)

theorem blankDisk_magic : word (blankDisk nb) sMagicAt = fsMagic := by
  rw [blankDisk_word (by decide), word_setBytes_of_disjoint (by decide),
    word_setWord_of_disjoint (by decide), word_setWord_of_disjoint (by decide)]
  exact word_setWord_self

theorem blankDisk_nblocks : word (blankDisk nb) sNblocksAt = nb := by
  rw [blankDisk_word (by decide), word_setBytes_of_disjoint (by decide),
    word_setWord_of_disjoint (by decide)]
  exact word_setWord_self

theorem blankDisk_type : word (blankDisk nb) (fTypeAt sRoot) = ftypeDir := by
  rw [blankDisk_word (by decide), word_setBytes_of_disjoint (by decide)]
  exact word_setWord_self

theorem blankDisk_zero (hx : sRoot + 136 ≤ x ∧ x < bitmapAddr ∨ 3 * blksize ≤ x) :
    blankDisk nb x = 0 := by
  unfold blankDisk
  unfold sRoot superAddr bitmapAddr blksize at *
  rw [setBytes_of_not_mem (by omega), setBytes_of_not_mem (by omega),
    setWord_of_not_mem (by unfold fTypeAt; omega),
    setWord_of_not_mem (by unfold sNblocksAt superAddr blksize; omega),
    setWord_of_not_mem (by unfold sMagicAt superAddr blksize; omega)]

theorem blankDisk_free (hmax : nb.toNat ≤ 1024) :
    freeIn (blankDisk nb) b = decide (b < nb.toNat) := by
  have hn : nblocksIn (blankDisk nb) = nb.toNat := congrArg BitVec.toNat blankDisk_nblocks
  rw [freeIn_eq, hn]
  by_cases hb : b < nb.toNat
  · have hword : word (blankDisk nb) (bitmapAt b) = 0xFFFFFFFF := by
      apply word_ones
      intro i hi
      apply blankDisk_bitmap
      · unfold bitmapAt
        omega
      · unfold bitmapAt blksize
        omega
    have hlt : b % 32 < 32 := Nat.mod_lt _ (by decide)
    have hones : (0xFFFFFFFF : Word) = BitVec.allOnes 32 := by decide
    rw [hword, hones, BitVec.getLsbD_allOnes]
    simp [hb, hlt]
  · simp [hb]

/-- The first block of the root directory. -/
def dirStart (args : List Arg) : Nat := 3 + blocksOfAll args

def usedBlocks (args : List Arg) : Nat :=
  dirStart args + blocksBelow (args.length * sizeofFile)

/-- The place of the entry `k`. -/
def entryOfArg (args : List Arg) (k : Nat) : Nat := dirStart args * blksize + sizeofFile * k

/-- The image that `fsformat` has written for the arguments; `heap` is the memory that `malloc`
has returned. -/
structure Formatted (args : List Arg) (heap : Image) (nb : Word) (s : Fmt) : Prop where
  magic : word s.diskmap sMagicAt = fsMagic
  nblocks : nblocksIn s.diskmap = nb.toNat
  min : 3 < nb.toNat
  max : nb.toNat ≤ 1024
  accepted : AllAccepted args 3 nb.toNat 0
  fits : usedBlocks args < nb.toNat
  allocs : ∀ b, s.Allocated b ↔ b < usedBlocks args
  free : ∀ b, freeIn s.diskmap b = (decide (usedBlocks args ≤ b) && decide (b < nb.toNat))
  ones : ∀ i, 32 ≤ i → i < nindirect → word s.diskmap (bitmapAddr + 4 * i) = 0xFFFFFFFF
  rootType : fType s.diskmap sRoot = ftypeDir
  rootSize : fSize s.diskmap sRoot = toWord (rootBlocks args.length * blksize)
  rootDirect : ∀ i < ndirect, word s.diskmap (fDirectAt sRoot i) =
    if i < rootBlocks args.length then toWord (dirStart args + i) else 0
  rootIndirect : word s.diskmap (fIndirectAt sRoot) = 0
  entry : ∀ k arg, args[k]? = some arg → EntryFor arg (startOf args 3 k)
    (arg.rest heap (sizeofFile * k)) s.diskmap (entryOfArg args k)
  data : ∀ k arg, args[k]? = some arg → DataFor arg (startOf args 3 k) s.diskmap
  zero : ∀ x, entryOfArg args args.length ≤ x → s.diskmap x = 0

theorem three_le_dirStart : 3 ≤ dirStart args := Nat.le_add_right _ _

section Steps

variable {s2 s3 : Fmt}

theorem DirWritten.blank (hfiles : FilesWritten args 3 (Fmt.start heap nb).opened s2)
    (hdir : DirWritten (dirStart args) s2 s3)
    (hx : x < sRoot + 128 ∨ sRoot + 132 ≤ x ∧ x < sRoot + 136 ∨
      sRoot + 136 + 4 * rootBlocks args.length ≤ x)
    (hx' : x < 3 * blksize ∨ entryOfArg args args.length ≤ x) :
    s3.diskmap x = blankDisk nb x := by
  have hsuper : s2.super = superAddr := hfiles.super
  have hn2 : s2.n = args.length := hfiles.n.trans (Nat.zero_add _)
  have hstart : 3 ≤ dirStart args := three_le_dirStart
  have hout := hdir.outside x
  rw [hsuper, hn2] at hout
  have hlow : x < 3 * blksize → x < dirStart args * blksize :=
    fun h => Nat.lt_of_lt_of_le h (Nat.mul_le_mul_right _ hstart)
  unfold entryOfArg at hx'
  rw [Nat.mul_comm sizeofFile] at hx'
  rw [hout hx (hx'.imp_left hlow), hfiles.disk x]
  · rfl
  · exact hx'.imp_right (Nat.le_trans (Nat.le_add_right _ _))

theorem markAll_apart (hT : T < 1024) (hx : x < bitmapAddr ∨ 3 * blksize ≤ x) :
    markAll m T x = m x := by
  apply markAll_outside
  unfold bitmapAddr blksize at *
  omega

theorem Formatted.of_steps (h3 : 3 < nb.toNat) (hmax : nb.toNat ≤ 1024)
    (hacc : AllAccepted args 3 nb.toNat 0) (hfits : usedBlocks args < nb.toNat)
    (hfiles : FilesWritten args 3 (Fmt.start heap nb).opened s2)
    (hdir : DirWritten (dirStart args) s2 s3) :
    Formatted args heap nb { s3 with diskmap := markAll s3.diskmap (usedBlocks args) } := by
  have hn : args.length ≤ maxDirEnts := by
    have := hacc.room
    omega
  have hsuper : s2.super = superAddr := hfiles.super
  have hn2 : s2.n = args.length := hfiles.n.trans (Nat.zero_add _)
  have hstart : 3 ≤ dirStart args := three_le_dirStart
  obtain ⟨hroot0, hroot⟩ := rootBlocks_lt hn
  have hT : usedBlocks args < 1024 := by omega
  -- Words of the super block and the root that only `opendisk` writes.
  have hword : ∀ a, a + 4 ≤ bitmapAddr → (a + 4 ≤ sRoot + 128 ∨ a = sRoot + 132 ∨
      sRoot + 136 + 4 * rootBlocks args.length ≤ a) →
      word (markAll s3.diskmap (usedBlocks args)) a = word (blankDisk nb) a := by
    intro a ha hout
    refine word_congr fun i hi => ?_
    rw [markAll_apart hT (by omega)]
    refine hdir.blank hfiles (by omega) (.inl ?_)
    unfold bitmapAddr blksize at *
    omega
  have hself : ∀ a, a + 4 ≤ bitmapAddr →
      word (markAll s3.diskmap (usedBlocks args)) a = word s3.diskmap a := by
    intro a ha
    exact word_congr fun i hi => markAll_apart hT (by omega)
  have hfree : ∀ b, freeIn s3.diskmap b = freeIn (blankDisk nb) b := by
    intro b
    have hsame : ∀ x, sRoot + 176 ≤ x ∨ x < sRoot + 128 → x < 3 * blksize →
        s3.diskmap x = blankDisk nb x := by
      intro x hx hlt
      refine hdir.blank hfiles ?_ (.inl hlt)
      unfold ndirect at hroot
      omega
    have hlen : bitmapLen (blankDisk nb) ≤ blksize := by
      have hfirst : (inodes (blankDisk nb)).nblocks = nb.toNat :=
        congrArg BitVec.toNat blankDisk_nblocks
      unfold bitmapLen Inodes.firstData
      rw [hfirst]
      unfold blkbitsize blksize
      omega
    refine freeIn_congr (fun x hx hx' => hsame x (.inr ?_) ?_)
      (fun x hx hx' => hsame x (.inl ?_) ?_) b
    all_goals
      unfold sNblocksAt bitmapAddr sRoot superAddr blksize at *
      omega
  refine ⟨?_, ?_, h3, hmax, hacc, hfits, fun b => ?_, fun b => ?_, fun i hi hi' => ?_, ?_, ?_,
    fun i hi => ?_, ?_, fun k arg hk => ?_, fun k arg hk => ?_, fun x hx => ?_⟩
  · exact (hword sMagicAt (by decide) (.inl (by decide))).trans blankDisk_magic
  · exact congrArg BitVec.toNat
      ((hword sNblocksAt (by decide) (.inl (by decide))).trans blankDisk_nblocks)
  · refine (hdir.allocs b).trans ?_
    rw [hfiles.allocs, Fmt.opened_allocated rfl, hn2]
    unfold usedBlocks dirStart
    omega
  · refine (freeIn_markAll ?_).trans ?_
    · rw [show nblocksIn s3.diskmap = nb.toNat from congrArg BitVec.toNat
        ((hself sNblocksAt (by decide)).symm.trans
          ((hword sNblocksAt (by decide) (.inl (by decide))).trans blankDisk_nblocks))]
      omega
    · rw [hfree, blankDisk_free hmax]
  · apply word_ones
    intro j hj
    have hx : markAll s3.diskmap (usedBlocks args) (bitmapAddr + 4 * i + j) =
        s3.diskmap (bitmapAddr + 4 * i + j) := markAll_outside (by omega)
    refine hx.trans ((hdir.blank hfiles ?_ ?_).trans (blankDisk_bitmap ?_ ?_))
    · refine .inr (.inr ?_)
      unfold ndirect at hroot
      unfold sRoot superAddr bitmapAddr blksize
      omega
    · unfold nindirect at hi'
      unfold bitmapAddr blksize at *
      omega
    · omega
    · unfold nindirect at hi'
      unfold blksize at *
      omega
  · exact (hword (fTypeAt sRoot) (by decide) (.inr (.inl rfl))).trans blankDisk_type
  · refine (hself (fSizeAt sRoot) (by decide)).trans ?_
    have hsize := hdir.size
    rw [hsuper, hn2] at hsize
    exact hsize
  · have haddr : fDirectAt sRoot i + 4 ≤ bitmapAddr := by
      unfold ndirect at hi
      unfold fDirectAt sRoot superAddr bitmapAddr blksize
      omega
    by_cases hlt : i < rootBlocks args.length
    · rw [if_pos hlt]
      refine (hself _ haddr).trans ?_
      have hdirect := hdir.direct i
      rw [hsuper, hn2] at hdirect
      exact hdirect hlt
    · rw [if_neg hlt]
      refine (hword _ haddr (.inr (.inr ?_))).trans (word_of_zero fun j hj => ?_)
      · unfold fDirectAt
        omega
      · apply blankDisk_zero
        unfold fDirectAt at *
        omega
  · refine (hword (fIndirectAt sRoot) (by decide) (.inr (.inr ?_))).trans
      (word_of_zero fun j hj => ?_)
    · unfold ndirect at hroot
      unfold fIndirectAt
      omega
    · apply blankDisk_zero
      unfold fIndirectAt sRoot superAddr bitmapAddr blksize
      omega
  · have hentry := hfiles.entry k arg hk
    have hzero : (Fmt.start heap nb).opened.n = 0 := rfl
    rw [hzero, Nat.zero_add] at hentry
    refine hentry.moved fun i hi => ?_
    have hk' : k < args.length := (List.getElem?_eq_some_iff.mp hk).1
    have hin : sizeofFile * k + i < args.length * sizeofFile := by
      unfold sizeofFile at *
      omega
    have hentries := hdir.entries (sizeofFile * k + i)
    rw [hn2] at hentries
    refine (markAll_apart hT (.inr ?_)).trans ?_
    · unfold entryOfArg blksize
      omega
    · unfold entryOfArg
      rw [Nat.add_assoc]
      exact hentries hin
  · have hle : startOf args 3 k + arg.blocks ≤ 3 + blocksOfAll args := startOf_le hk
    have hge : 3 ≤ startOf args 3 k := le_startOf
    refine (hfiles.data k arg hk).congr fun x hx hx' => ?_
    have hlow : 3 * blksize ≤ x := Nat.le_trans (Nat.mul_le_mul_right _ hge) hx
    have hhigh : x < dirStart args * blksize := by
      rw [← Nat.add_mul] at hx'
      exact Nat.lt_of_lt_of_le hx' (Nat.mul_le_mul_right _ hle)
    refine (markAll_apart hT (.inr hlow)).trans (hdir.outside x (.inr (.inr ?_))
      (.inl hhigh))
    rw [hsuper, hn2]
    unfold ndirect at hroot
    unfold blksize at hlow
    unfold superAddr blksize
    omega
  · have hlow : 3 * blksize ≤ x := Nat.le_trans (Nat.mul_le_mul_right _ hstart)
      (Nat.le_trans (Nat.le_add_right _ _) hx)
    refine (markAll_apart hT (.inr hlow)).trans ((hdir.blank hfiles (.inr (.inr ?_))
      (.inr hx)).trans (blankDisk_zero (.inr hlow)))
    unfold ndirect at hroot
    unfold blksize at hlow
    unfold sRoot superAddr blksize
    omega

end Steps

theorem opened_zero (hx : 3 * blksize ≤ x) : (Fmt.start heap nb).opened.diskmap x = 0 :=
  blankDisk_zero (.inr hx)

theorem finishdir_files {s2 : Fmt} (hacc : AllAccepted args 3 nb.toNat 0)
    (hfiles : FilesWritten args 3 (Fmt.start heap nb).opened s2) :
    if usedBlocks args < nb.toNat then
      ∃ s3, finishdir s2 = .ret () s3 ∧ DirWritten (dirStart args) s2 s3
    else finishdir s2 = .panic "out of disk blocks" := by
  have hn2 : s2.n = args.length := hfiles.n.trans (Nat.zero_add _)
  have hroom := hacc.room
  have hrun := finishdir_run (s := s2) hfiles.diskpos (by omega) (by
    rw [show s2.super = superAddr from hfiles.super]
    have hstart : 3 ≤ 3 + blocksOfAll args := Nat.le_add_right _ _
    unfold superAddr sizeofFile blksize
    omega)
  rw [hn2, show s2.nblocks = nb from hfiles.nblocks] at hrun
  exact hrun

theorem fsformat_run (heap : Image) (h3 : 3 < nb.toNat) (hmax : nb.toNat ≤ 1024)
    (hacc : AllAccepted args 3 nb.toNat 0) (hfits : usedBlocks args < nb.toNat) :
    ∃ s, fsformat args (Fmt.start heap nb) = .ret () s ∧ Formatted args heap nb s := by
  have hopen := opendisk_run (s := Fmt.start heap nb) (Nat.le_of_lt (Nat.lt_of_succ_lt h3)) hmax
  rw [if_pos (show 3 < (Fmt.start heap nb).nblocks.toNat from h3)] at hopen
  obtain ⟨s2, hwrite, hfiles⟩ := writefiles_run args 3 (Fmt.start heap nb).opened rfl
    (fun x hx => opened_zero hx) hacc
  have hdir := finishdir_files hacc hfiles
  rw [if_pos hfits] at hdir
  obtain ⟨s3, hrun, hdir⟩ := hdir
  have hbitmap := hdir.bitmap.trans hfiles.bitmap
  have hdone := finishdisk_run (s := s3) (T := usedBlocks args) hbitmap (by
    rw [hdir.diskpos, show s2.n = args.length from hfiles.n.trans (Nat.zero_add _)]
    rfl)
  refine ⟨_, ?_, .of_steps h3 hmax hacc hfits hfiles hdir⟩
  refine bind_run rfl ?_
  rw [if_neg (show ¬((Fmt.start heap nb).nblocks.toNat < 2 ∨ 1024 <
    (Fmt.start heap nb).nblocks.toNat) from fun hc => by
      have hn : (Fmt.start heap nb).nblocks.toNat = nb.toNat := rfl
      omega)]
  exact bind_run hopen (bind_run rfl (bind_run hwrite (bind_run hrun hdone)))

theorem Formatted.of_ret (h : fsformat args (Fmt.start heap nb) = .ret () s) :
    Formatted args heap nb s := by
  obtain ⟨u, s0, hget, hrest⟩ := ret_of_bind h
  cases hget
  by_cases husage : nb.toNat < 2 ∨ 1024 < nb.toNat
  · rw [if_pos (show (Fmt.start heap nb).nblocks.toNat < 2 ∨ 1024 <
      (Fmt.start heap nb).nblocks.toNat from husage)] at hrest
    cases hrest
  rw [if_neg (show ¬((Fmt.start heap nb).nblocks.toNat < 2 ∨ 1024 <
    (Fmt.start heap nb).nblocks.toNat) from husage)] at hrest
  obtain ⟨_, s1, hopen, hrest⟩ := ret_of_bind hrest
  have h2 : 2 ≤ nb.toNat ∧ nb.toNat ≤ 1024 := by omega
  rw [opendisk_run h2.1 h2.2] at hopen
  by_cases h3 : 3 < nb.toNat
  · rw [if_pos (show 3 < (Fmt.start heap nb).nblocks.toNat from h3)] at hopen
    cases hopen
    obtain ⟨_, s1', hstart, hrest⟩ := ret_of_bind hrest
    cases hstart
    obtain ⟨_, s2, hwrite, hrest⟩ := ret_of_bind hrest
    have hacc : AllAccepted args 3 nb.toNat 0 := AllAccepted.of_ret args 3
      (Fmt.start heap nb).opened rfl (fun x hx => opened_zero hx) h3 (Nat.zero_le _) hwrite
    obtain ⟨s2', hwrite', hfiles⟩ := writefiles_run args 3 (Fmt.start heap nb).opened rfl
      (fun x hx => opened_zero hx) hacc
    have hwrite2 : writefiles args (Fmt.start heap nb).opened = .ret () s2 := hwrite
    rw [hwrite2] at hwrite'
    cases hwrite'
    obtain ⟨_, s3, hdir, -⟩ := ret_of_bind hrest
    have hfin := finishdir_files hacc hfiles
    by_cases hfits : usedBlocks args < nb.toNat
    · obtain ⟨s', hrun, hformatted⟩ := fsformat_run heap h3 h2.2 hacc hfits
      rw [h] at hrun
      cases hrun
      exact hformatted
    · rw [if_neg hfits, hdir] at hfin
      cases hfin
  · rw [if_neg (show ¬3 < (Fmt.start heap nb).nblocks.toNat from h3)] at hopen
    cases hopen

end Jos
