import Jos.Files.Operations

/-!
# Ownership of the blocks

Every block that is neither reserved nor free belongs to one slot of one file, and no file has a
block past its size.
-/

namespace Jos

open Logic Inodes

variable {F : Set Nat} {I J : Inodes} {m m' : Image} {s s' : Fs} {st st' : Store}
  {f g a b c n k lo hi e i : Nat} {x y : Option Nat} {v : Word} {W : Nat → Option Byte}

/-- Every block in use that is not reserved is in a slot. -/
def Complete (F : Set Nat) (I : Inodes) : Prop := ∀ b, I.firstData ≤ b → b < I.nblocks →
  I.free b = false → ∃ f ∈ F, ∃ x, ValidSlot x ∧ I.held f x = b

/-- The same for the blocks of a set. -/
def CompleteOn (B : Set Nat) (F : Set Nat) (I : Inodes) : Prop := ∀ b ∈ B, I.firstData ≤ b →
  b < I.nblocks → I.free b = false → ∃ f ∈ F, ∃ x, ValidSlot x ∧ I.held f x = b

variable {B : Set Nat}

theorem CompleteOn.agree (h : CompleteOn B F J) (hA : I.Agree F J) : CompleteOn B F I := by
  intro b hB hge hlt hused
  obtain ⟨f, hf, x, hx, heq⟩ :=
    h b hB (hA.firstData ▸ hge) (hA.nblocks ▸ hlt) ((hA.free b).symm.trans hused)
  exact ⟨f, hf, x, hx, (hA.held f hf x hx).trans heq⟩

theorem CompleteOn.own (h : CompleteOn B F I) (hf : f ∈ F) (hx : ValidSlot x)
    (h0 : I.held f x = 0) : CompleteOn B F ((I.setFree b false).setHeld f x b) := by
  intro c hB hge hlt hused
  rw [setHeld_free, setFree_free] at hused
  by_cases hcb : c = b
  · exact ⟨f, hf, x, hx, by rw [setHeld_held, if_pos ⟨rfl, rfl⟩, hcb]⟩
  · rw [if_neg hcb] at hused
    obtain ⟨g, hg, y, hy, heq⟩ := h c hB hge hlt hused
    refine ⟨g, hg, y, hy, ?_⟩
    rw [setHeld_held, if_neg]
    · exact heq
    · rintro ⟨rfl, rfl⟩
      have h2 : 2 ≤ c := Nat.le_trans (two_le_firstData I) hge
      omega

theorem CompleteOn.release (h : CompleteOn B F I) :
    CompleteOn B F ((I.setFree (I.held f x) true).setHeld f x 0) := by
  intro c hB hge hlt hused
  rw [setHeld_free, setFree_free] at hused
  by_cases hcb : c = I.held f x
  · rw [if_pos hcb] at hused
    cases hused
  · rw [if_neg hcb] at hused
    obtain ⟨g, hg, y, hy, heq⟩ := h c hB hge hlt hused
    refine ⟨g, hg, y, hy, ?_⟩
    rw [setHeld_held, if_neg]
    · exact heq
    · rintro ⟨rfl, rfl⟩
      exact hcb heq.symm

theorem Move.completeOn (hf : f ∈ F) (hmove : Move f st st') (hl : LaidOut F st.mem)
    (h : CompleteOn B F (inodes st.mem)) : CompleteOn B F (inodes st'.mem) := by
  cases hmove with
  | grow hgrow =>
    cases hgrow with
    | data hn h0 hdir ha hk =>
      exact h.agree (hl.toShape.agree_write (hl.toShape.plain_of_data hf hn hdir h0) ha hk)
    | own hn hi h0 hb =>
      rw [Store.own_mem]
      exact (h.own hf (x := some _) hn h0).agree (hl.agree_own hf hn hi hb)
    | ownIndirect h0 hb =>
      rw [Store.ownIndirect_mem]
      exact (h.own hf (x := none) trivial h0).agree (hl.agree_ownIndirect hf h0 hb)
    | size v =>
      exact CompleteOn.agree (J := (inodes st.mem).setSize f v) h (hl.toShape.agree_size hf)
    | flush b =>
      rw [Store.flush_mem]
      exact h
    | record i n => exact h
  | @drop n hn hdir h0 =>
    exact (h.release (f := f) (x := some n)).agree (hl.agree_drop hf hn h0)
  | dropIndirect hdir h0 hclear =>
    exact (h.release (f := f) (x := none)).agree (hl.agree_dropIndirect hf h0 hclear)

theorem Moves.completeOn (hf : f ∈ F) (hmoves : Moves f st st') (hl : LaidOut F st.mem)
    (h : CompleteOn B F (inodes st.mem)) : CompleteOn B F (inodes st'.mem) := by
  induction hmoves with
  | refl => exact h
  | tail hpath hmove ih => exact hmove.completeOn hf (Moves.layout hf hpath hl) ih

theorem Moves.complete (hf : f ∈ F) (hmoves : Moves f st st') (hl : LaidOut F st.mem)
    (h : Complete F (inodes st.mem)) : Complete F (inodes st'.mem) := by
  have hall := hmoves.completeOn (B := Set.univ) hf hl fun b _ => h b
  exact fun b => hall b trivial

theorem Resized.freed (h : Resized f v st st') (hl : LaidOut F st.mem) (hf : f ∈ F)
    (hk : k < maxblocks) (hcut : v.toInt < (fSize st.mem f).toInt)
    (hge : (blocksOf v).toNat ≤ k) (h0 : held st.mem f (some k) ≠ 0) :
    freeIn st'.mem (held st.mem f (some k)) = true := by
  have hrange := hl.range f hf (some k) hk h0
  have hkept := h.moves.kept hf hl
  have hfirst : (inodes st'.mem).firstData = (inodes st.mem).firstData := by
    unfold Inodes.firstData
    rw [show (inodes st'.mem).nblocks = _ from hkept.nblocks]
    rfl
  by_contra hused
  rw [Bool.not_eq_true] at hused
  have hall : CompleteOn {held st.mem f (some k)} F (inodes st.mem) := by
    rintro b rfl - - -
    exact ⟨f, hf, some k, hk, rfl⟩
  obtain ⟨g, hg, y, hy, heq⟩ := h.moves.completeOn hf hl hall _ rfl (hfirst ▸ hrange.1)
    (hrange.2.trans_eq hkept.nblocks.symm) hused
  change held st'.mem g y = held st.mem f (some k) at heq
  by_cases hgf : g = f
  · subst hgf
    -- No slot holds it any more: the slots are those from before or empty.
    have hsame : held st.mem g y = held st.mem g (some k) → y = some k := fun hsame =>
      (hl.distinct g hg g hg y (some k) hy hk (fun hz => h0 (hsame.symm.trans hz)) hsame).2
    cases y with
    | none =>
      rcases h.indirect with hold | hzero
      · exact Option.some_ne_none k (hsame (hold.symm.trans heq)).symm
      · exact h0 (heq.symm.trans hzero)
    | some j =>
      rw [h.slots j hy] at heq
      split at heq
      · exact h0 heq.symm
      · rename_i hnot
        cases hsame heq
        exact hnot ⟨hcut, hge⟩
  · rw [hkept.held g hg hgf y hy] at heq
    exact hgf (hl.distinct g hg f hf y (some k) hy hk (fun hz => h0 (heq.symm.trans hz)) heq).1

theorem Kept.tight (h : Kept F f m m') (ht : Tight F m)
    (hself : ∀ n < maxblocks, Jos.held m' f (some n) ≠ 0 →
      ((n * blksize : Nat) : Int) < (fSize m' f).toInt) : Tight F m' := by
  intro g hg n hn h0
  by_cases hgf : g = f
  · subst hgf
    exact hself n hn h0
  · rw [h.held g hg hgf (some n) hn] at h0
    rw [h.size g hg hgf]
    exact ht g hg n hn h0

theorem block_start (hn : n < maxblocks) :
    n * blksize < maxfilesize ∧ n * blksize / blksize = n := by
  unfold maxblocks maxfilesize blksize at *
  omega

theorem Filled.held_ne_zero (h : Filled f lo k hi W st st')
    (hn : n < maxblocks) (h0 : held st'.mem f (some n) ≠ 0) :
    lo ≤ n ∧ n < k ∨ held st.mem f (some n) ≠ 0 := by
  by_cases hin : lo ≤ n ∧ n < k
  · exact .inl hin
  · obtain ⟨hp, hdiv⟩ := block_start hn
    refine .inr fun hz => ?_
    have hout := h.outside (n * blksize) hp (by rw [hdiv]; omega)
    have hold := fileByte_of_hole (by rw [hdiv]; exact hz)
    rw [hold, fileByte_of_held (by rw [hdiv]) h0] at hout
    cases hout

theorem lt_of_lt_blocksBelow (h : n < blocksBelow e) : n * blksize < e := by
  unfold blocksBelow at h
  unfold blksize at *
  omega

theorem Filled.tight (h : Filled f lo (blocksBelow e) hi W st st')
    (hl : LaidOut F st.mem) (hf : f ∈ F) (ht : Tight F st.mem)
    (hle : lo < blocksBelow e → (e : Int) ≤ (fSize st'.mem f).toInt)
    (hgrow : (fSize st.mem f).toInt ≤ (fSize st'.mem f).toInt) : Tight F st'.mem := by
  refine (h.moves.kept hf hl).tight ht fun n hn h0 => ?_
  rcases h.held_ne_zero hn h0 with ⟨hlo, hlt⟩ | hold
  · have := lt_of_lt_blocksBelow hlt
    have := hle (by omega)
    omega
  · have := ht f hf n hn hold
    omega

theorem Resized.tight (h : Resized f v st st') (hl : LaidOut F st.mem) (hf : f ∈ F)
    (ht : Tight F st.mem) (hv : v.toNat < 2 ^ 31) : Tight F st'.mem := by
  refine (h.moves.kept hf hl).tight ht fun n hn h0 => ?_
  rw [h.slots n hn] at h0
  rw [h.size, toInt_of_small hv]
  by_cases hcut : v.toInt < (fSize st.mem f).toInt
  · have hlt : n < (blocksOf v).toNat := by
      by_contra hge
      exact h0 (if_pos ⟨hcut, by omega⟩)
    have := lt_of_lt_blocksOf hn hv hlt
    omega
  · rw [if_neg (fun hc => hcut hc.1)] at h0
    have := ht f hf n hn h0
    rw [toInt_of_small hv] at hcut
    omega

inductive FileOp where
  | read (f : Nat) (count offset : Word)
  | write (f : Nat) (data : Nat → Byte) (count offset : Word)
  | setSize (f : Nat) (newsize : Word)

def FileOp.run : FileOp → FsM (Int × List Byte)
  | .read f count offset => fileRead f count offset
  | .write f data count offset => do return (← fileWrite f (.bytes data) count offset, [])
  | .setSize f newsize => do return (← fileSetSize f newsize, [])

def FileOp.file : FileOp → Nat
  | .read f _ _ => f
  | .write f _ _ _ => f
  | .setSize f _ => f

/-- There are free blocks for the holes between the two positions. -/
def Room (m : Image) (f pos e : Nat) : Prop :=
  needs m f (nextBlock pos e) (blocksBelow e) ≤ freeCount m

/-- The operation is on a regular file, the size of the file ends up between 0 and
`MAXFILESIZE`, and there are enough free blocks. -/
def FileOp.Fits (F : Set Nat) (m : Image) (op : FileOp) : Prop :=
  op.file ∈ F ∧ fType m op.file ≠ ftypeDir ∧
  match op with
  | .read f count offset => 0 ≤ offset.toInt ∧ (fSize m f).toNat ≤ maxfilesize ∧
      Room m f offset.toNat (offset.toNat + readLen (fSize m f) count offset)
  | .write f _ count offset =>
      (writeSize (fSize m f) (offset + count)).toNat ≤ maxfilesize ∧
      Room m f offset.toNat (offset + count).toNat
  | .setSize _ newsize => newsize.toNat ≤ maxfilesize

/-- The blocks of the disk are owned as the invariant says. -/
structure BlocksOwned (F : Set Nat) (m : Image) : Prop where
  layout : LaidOut F m
  tight : Tight F m
  complete : Complete F (inodes m)

theorem readLen_le {size count offset : Word} (h : 0 < readLen size count offset)
    (hoff : 0 ≤ offset.toInt) :
    ((offset.toNat + readLen size count offset : Nat) : Int) ≤ size.toInt := by
  have hsmall := toInt_of_small (small_of_toInt_nonneg hoff)
  unfold readLen at *
  omega

theorem writeSize_ge (size endPos : Word) :
    endPos.toNat ≤ (writeSize size endPos).toNat ∧ size.toNat ≤ (writeSize size endPos).toNat := by
  unfold writeSize
  split <;> omega

theorem FileOp.run_owned {op : FileOp} (h : BlocksOwned F st.mem) (hfits : op.Fits F st.mem) :
    ∃ r st', FsRuns op.run st r st' ∧ BlocksOwned F st'.mem := by
  obtain ⟨hf, hreg, hop⟩ := hfits
  have hmoves : ∀ st', Moves op.file st st' → Tight F st'.mem → BlocksOwned F st'.mem :=
    fun st' hm ht => ⟨hm.layout hf h.layout, ht, hm.complete hf h.layout h.complete⟩
  cases op with
  | read f count offset =>
    change f ∈ F at hf
    change fType st.mem f ≠ ftypeDir at hreg
    obtain ⟨hoff, hsize, hroom⟩ := hop
    have hmax := lt_of_le_maxfilesize hsize
    obtain ⟨out, st', hrun, hread⟩ := fileRead_spec h.layout hf hreg (small_of_toInt_nonneg hoff)
      rfl (fun h0 => by
        have := readLen_le h0 hoff
        rw [toInt_of_small hmax] at this
        omega) hroom
    refine ⟨_, st', hrun, hmoves st' hread.filled.moves ?_⟩
    refine hread.filled.tight h.layout hf h.tight (fun hlt => ?_) (by rw [hread.size])
    rw [hread.size]
    apply readLen_le _ hoff
    -- An empty range has no blocks.
    by_contra h0
    have hzero : readLen (fSize st.mem f) count offset = 0 := by omega
    rw [hzero, Nat.add_zero, nextBlock_self] at hlt
    omega
  | write f data count offset =>
    change f ∈ F at hf
    change fType st.mem f ≠ ftypeDir at hreg
    obtain ⟨hsize, hroom⟩ := hop
    obtain ⟨hge, hge'⟩ := writeSize_ge (fSize st.mem f) (offset + count)
    have hmax := lt_of_le_maxfilesize hsize
    obtain ⟨st', hrun, hw⟩ := fileWrite_spec h.layout hf hreg (by omega)
      (Source.gives_bytes data count.toNat) hroom
    refine ⟨_, st', .bind hrun (.pure _ _), hmoves st' hw.filled.moves ?_⟩
    refine hw.filled.tight h.layout hf h.tight (fun _ => ?_) ?_
    · rw [hw.size, toInt_of_small hmax]
      omega
    · rw [hw.size, toInt_of_small hmax, toInt_of_small (by omega)]
      omega
  | setSize f newsize =>
    have hmax := lt_of_le_maxfilesize hop
    obtain ⟨st', hrun, hsized⟩ := fileSetSize_spec newsize h.layout h.tight hf hreg
    exact ⟨_, st', .bind hrun (.pure _ _), hmoves st' hsized.moves
      (hsized.tight h.layout hf h.tight hmax)⟩

def FileStep (F : Set Nat) (s s' : Fs) : Prop :=
  ∃ op : FileOp, op.Fits F s.mem ∧ ∃ r, op.run s = .ret r s'

theorem FileOp.run_ret {op : FileOp} (h : BlocksOwned F s.mem) (hfits : op.Fits F s.mem) :
    ∃ r s', op.run s = .ret r s' ∧ BlocksOwned F s'.mem := by
  have hseen : BlocksOwned F s.seen.mem := h
  obtain ⟨r, st', hrun, howned⟩ := FileOp.run_owned hseen hfits
  obtain ⟨s', hret, hs'⟩ := hrun s rfl
  refine ⟨r, s', hret, ?_⟩
  rw [← hs'] at howned
  exact howned

theorem FileStep.owned (h : BlocksOwned F s.mem) (hstep : FileStep F s s') :
    BlocksOwned F s'.mem := by
  obtain ⟨op, hfits, r, hrun⟩ := hstep
  obtain ⟨r', s'', hret, howned⟩ := FileOp.run_ret h hfits
  rw [hrun] at hret
  cases hret
  exact howned

/-- Eight blocks: after the boot sector, the super block and the bitmap one block of the root
directory, with empty files in it, and four free blocks. -/
def smallImage : Image := fun a =>
  if a = sNblocksAt then 8
  else if a = bitmapAddr then 0xF0
  else if a = fSizeAt sRoot + 1 then 0x10
  else if a = fTypeAt sRoot then 1
  else if a = fDirectAt sRoot 0 then 3
  else 0

/-- The files of the image: the root, and those in its block. -/
def smallFiles : Set Nat := fun f => f = sRoot ∨ ∃ j < blkfiles, f = 3 * blksize + sizeofFile * j

theorem smallImage_word (h : 4244 ≤ a) (h' : a % 4 = 0) (hne : a ≠ 8192) :
    (word smallImage a).toNat = 0 := by
  have hword : word smallImage a = 0 := by
    apply word_of_zero
    intro i hi
    show (if a + i = 4100 then 8 else if a + i = 8192 then 0xF0 else if a + i = 4233 then 0x10
      else if a + i = 4236 then 1 else if a + i = 4240 then 3 else (0 : Byte)) = 0
    rw [if_neg (by omega), if_neg (by omega), if_neg (by omega), if_neg (by omega),
      if_neg (by omega)]
  rw [hword]
  rfl

theorem smallFiles_facts (hf : f ∈ smallFiles) :
    f = 4104 ∨ (12288 ≤ f ∧ f % 4 = 0 ∧ f + 256 ≤ 16384) := by
  rcases hf with h | ⟨j, hj, rfl⟩
  · exact .inl h
  · unfold blkfiles sizeofFile blksize at *
    omega

theorem smallImage_held (hf : f ∈ smallFiles) :
    held smallImage f x = if f = sRoot ∧ x = some 0 then 3 else 0 := by
  have hroot : sRoot = 4104 := rfl
  have hzero : ∀ o, 140 ≤ o → o % 4 = 0 → o + 4 ≤ 256 → (word smallImage (f + o)).toNat = 0 := by
    intro o ho ho' ho''
    have := smallFiles_facts hf
    apply smallImage_word <;> omega
  have hind : fIndirect smallImage f = 0 := hzero 176 (by decide) (by decide) (by decide)
  cases x with
  | none =>
    rw [held_none, hind, if_neg (fun hc => Option.some_ne_none 0 hc.2.symm)]
  | some n =>
    have hat : fDirectAt f n = f + (136 + 4 * n) := Nat.add_assoc ..
    have hten : ndirect = 10 := rfl
    rw [held_some, hat]
    by_cases hn0 : n = 0
    · subst hn0
      rw [if_pos (by decide)]
      rcases smallFiles_facts hf with rfl | hf'
      · rw [if_pos ⟨rfl, rfl⟩]
        decide
      · rw [if_neg (by omega)]
        apply smallImage_word <;> omega
    · have hne : ¬(f = sRoot ∧ some n = some 0) := fun hc => hn0 (Option.some.inj hc.2)
      by_cases hn : n < ndirect
      · rw [if_pos hn, if_neg hne]
        apply hzero <;> omega
      · rw [if_neg hn, if_pos hind, if_neg hne]

theorem smallImage_free : freeIn smallImage b = true ↔ 4 ≤ b ∧ b < 8 := by
  have hn : nblocksIn smallImage = 8 := by decide
  have hlow : ∀ b < 8, freeIn smallImage b = decide (4 ≤ b) := by decide
  by_cases hb : b < 8
  · rw [hlow b hb, decide_eq_true_eq]
    omega
  · unfold freeIn
    rw [hn, decide_eq_false hb, Bool.false_and]
    exact ⟨fun h => absurd h (by decide), fun h => absurd h.2 hb⟩

theorem smallImage_owned : BlocksOwned smallFiles smallImage := by
  have hn : nblocksIn smallImage = 8 := by decide
  have hfirst : (inodes smallImage).firstData = 3 := by decide
  have hheld : ∀ f ∈ smallFiles, ∀ x, ValidSlot x → held smallImage f x ≠ 0 →
      f = sRoot ∧ x = some 0 ∧ held smallImage f x = 3 := by
    intro f hf x hx h0
    rw [smallImage_held hf] at h0 ⊢
    split at h0
    · rename_i hc
      exact ⟨hc.1, hc.2, if_pos hc⟩
    · exact absurd rfl h0
  have hused : ∀ b, ¬(4 ≤ b ∧ b < 8) → freeIn smallImage b = false := by
    intro b hb
    rw [← Bool.not_eq_true, smallImage_free]
    exact hb
  have hroot : sRoot ∈ smallFiles := .inl rfl
  have hdir : fType smallImage sRoot = ftypeDir := by decide
  have hslot : held smallImage sRoot (some 0) = 3 := by
    rw [smallImage_held hroot, if_pos ⟨rfl, rfl⟩]
  refine ⟨⟨⟨by decide, by decide, ?_, ?_, ?_⟩, ?_, ?_, ?_⟩, ?_, ?_⟩
  · intro f hf x hx h0
    have h3 : (inodes smallImage).held f x = 3 := (hheld f hf x hx h0).2.2
    rw [h3, hfirst]
    decide
  · intro f hf g hg x y hx hy h0 heq
    obtain ⟨rfl, rfl, h3⟩ := hheld f hf x hx h0
    have h1 : held smallImage g y ≠ 0 := by
      intro hz
      exact h0 (heq.trans hz)
    obtain ⟨rfl, rfl, -⟩ := hheld g hg y hy h1
    exact ⟨rfl, rfl⟩
  · rintro f (rfl | ⟨j, hj, rfl⟩)
    · exact .inl rfl
    · refine .inr ⟨sRoot, hroot, hdir, 0, by decide, j, hj, ?_, ?_⟩
      · exact ne_of_eq_of_ne hslot (by decide)
      · exact congrArg (· * blksize + sizeofFile * j) hslot.symm
  · intro b hb
    exact (smallImage_free.mp hb).2
  · intro b hb
    exact hused b (by omega)
  · intro f hf x hx h0
    have h3 : (inodes smallImage).held f x = 3 := (hheld f hf x hx h0).2.2
    rw [h3]
    exact hused 3 (by omega)
  · intro f hf n hn h0
    obtain ⟨rfl, hn0, -⟩ := hheld f hf (some n) hn h0
    rw [Option.some.inj hn0]
    decide
  · intro b hge hlt hb
    have hlt' : b < 8 := hlt
    rw [hfirst] at hge
    have hb3 : b = 3 := by
      by_contra hne
      have := smallImage_free.mpr (show 4 ≤ b ∧ b < 8 by omega)
      rw [show (inodes smallImage).free b = freeIn smallImage b from rfl, this] at hb
      cases hb
    exact ⟨sRoot, hroot, some 0, (by decide : 0 < maxblocks), hslot.trans hb3.symm⟩

def smallFs : Fs where
  disk := smallImage
  cache _ := 0
  mapped _ := false
  dirty _ := false
  past := []
  moves := []

theorem smallFs_mem : smallFs.mem = smallImage := rfl

/-- In every state that operations lead to, every block in use belongs to one slot of one file,
below its size, or is reserved, and every operation that fits returns. -/
theorem fileRun_owned (h : BlocksOwned F s.mem) (hrun : Relation.ReflTransGen (FileStep F) s s') :
    BlocksOwned F s'.mem ∧ ∀ op : FileOp, op.Fits F s'.mem → ∃ r s'', op.run s' = .ret r s'' := by
  have howned : BlocksOwned F s'.mem := by
    induction hrun with
    | refl => exact h
    | tail _ hstep ih => exact hstep.owned ih
  refine ⟨howned, fun op hfits => ?_⟩
  obtain ⟨r, s'', hret, _⟩ := FileOp.run_ret howned hfits
  exact ⟨r, s'', hret⟩

/-- A byte is written to the first file of the image. -/
theorem fileRun_owned_write : BlocksOwned smallFiles smallFs.mem ∧
    ∃ r s', (FileOp.write (3 * blksize) (fun _ => 7) 1 0).run smallFs = .ret r s' ∧
      BlocksOwned smallFiles s'.mem := by
  have h : BlocksOwned smallFiles smallFs.mem := smallImage_owned
  have hfits : (FileOp.write (3 * blksize) (fun _ => 7) 1 0).Fits smallFiles smallFs.mem := by
    refine ⟨.inr ⟨0, by decide, rfl⟩, by decide, by decide, ?_⟩
    unfold Room
    decide +kernel
  obtain ⟨r, s', hret, _⟩ := FileOp.run_ret h hfits
  exact ⟨h, r, s', hret, (fileRun_owned h (.single ⟨_, hfits, r, hret⟩)).1⟩

end Jos
