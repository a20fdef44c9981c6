import Jos.Files.Moves

/-!
# Runs of the functions on blocks

Each function of `fs/fs.c` that finds, allocates or frees blocks of a file, run in a state
with a sound layout, with enough free blocks where it needs one.
-/

namespace Jos

open Logic Store Inodes BitVec

variable {F : Set Nat} {m : Image} {st : Store} {f g a b c n k : Nat} {x y : Option Nat}
  {w : Nat → Byte} {v : Word}

theorem Shape.field_block {I : Inodes} (h : Shape F I) (hf : f ∈ F) (hk : k + 4 ≤ sizeofFile) :
    (f + k) / blksize = f / blksize ∧ (f + k) % blksize + 4 ≤ blksize := by
  have hin := (h.inside hf).1
  unfold blksize sizeofFile at *
  omega

theorem bitmapAt_block (hb : b < nblocksIn m) : bitmapAt b / blksize < (inodes m).firstData ∧
    bitmapAt b % blksize + 4 ≤ blksize := by
  have hle := bitmapAt_le hb
  have h2 := two_le_firstData (inodes m)
  unfold bitmapAt bitmapLen bitmapAddr blksize at *
  omega

section

variable (h : LaidOut F m)

include h

theorem Layout.readable (hb : b < nblocksIn m) (hfree : freeIn m b = false) : Readable m b := by
  refine ⟨?_, hb, hfree⟩
  have hfits : nblocksIn m * blksize ≤ disksize := h.fits
  unfold blksize at *
  omega

theorem Layout.readable_reserved (hb : b < (inodes m).firstData) : Readable m b :=
  h.readable (Nat.lt_of_lt_of_le hb h.reserved_le) (h.reserved b hb)

theorem Layout.readable_super : Readable m 1 :=
  h.readable_reserved (Nat.lt_of_lt_of_le (by decide) (two_le_firstData _))

theorem Layout.readable_held (hf : f ∈ F) (hx : ValidSlot x)
    (h0 : held m f x ≠ 0) : Readable m (held m f x) :=
  h.readable (h.range f hf x hx h0).2 (h.used f hf x hx h0)

theorem Layout.readable_home (hf : f ∈ F) : Readable m (f / blksize) := by
  rcases h.home hf with ⟨_, h1⟩ | ⟨d, hd, _, n, hn, h0, heq⟩
  · rw [h1]
    exact h.readable_super
  · rw [heq]
    exact h.readable_held hd (x := some n) hn h0

theorem Layout.readable_field (hf : f ∈ F) (hk : k + 4 ≤ sizeofFile) :
    Readable m ((f + k) / blksize) := by
  rw [(h.toShape.field_block hf hk).1]
  exact h.readable_home hf

theorem Layout.readable_bitmap (hb : b < nblocksIn m) :
    Readable m (bitmapAt b / blksize) := h.readable_reserved (bitmapAt_block hb).1

end

theorem blockIsFree_runs (h : LaidOut F st.mem) (b : Nat) :
    FsRuns (blockIsFree b) st (freeIn st.mem b) st := by
  refine .bind (loadWord_runs (a := sNblocksAt) h.readable_super) ?_
  have hn : (word st.mem sNblocksAt).toNat = nblocksIn st.mem := rfl
  rw [hn]
  by_cases hb : nblocksIn st.mem ≤ b
  · have hfree : freeIn st.mem b = false := by
      unfold freeIn
      simp [Nat.not_lt.mpr hb]
    rw [hfree]
    exact .ite_pos hb (.pure _ _)
  · have hlt : b < nblocksIn st.mem := Nat.lt_of_not_le hb
    refine .ite_neg hb (.bind (loadWord_runs (h.readable_bitmap hlt)) ?_)
    have hfree : freeIn st.mem b = (word st.mem (bitmapAt b) &&& bitmapBit b != 0) := by
      unfold freeIn
      simp [hlt]
    rw [hfree]
    exact .pure _ _

/-- `b` is the free block that `alloc_block` finds. -/
def FirstFree (m : Image) (b : Nat) : Prop := freeIn m b = true ∧ ∀ c < b, freeIn m c = false

section

variable (h : LaidOut F m)

include h

theorem lt_disksize_of_lt (hb : b < nblocksIn m) (ha : a / blksize = b) : a < disksize := by
  have hfits : nblocksIn m * blksize ≤ disksize := h.fits
  unfold blksize at *
  omega

theorem Layout.take (hb : freeIn m b = true) : Layout F (inodes (markUsed m b)) := by
  refine Layout.agree ⟨h.toShape.setFree b false, fun c hc => ?_, fun c hc => ?_,
    fun g hg y hy h0 => ?_⟩ (h.toShape.agree_markUsed (h.lt_nblocks hb))
  · rw [setFree_free] at hc
    split at hc
    · cases hc
    · exact h.free_lt c hc
  · rw [setFree_free]
    split
    · rfl
    · exact h.reserved c hc
  · rw [setFree_held] at h0 ⊢
    rw [setFree_free, if_neg (h.not_held_of_free hb hg hy)]
    exact h.used g hg y hy h0

theorem Layout.readable_slot (hf : f ∈ F) (hn : n < maxblocks)
    (hi : ndirect ≤ n → held m f none ≠ 0) :
    Readable m (slotAt m f n / blksize) ∧ slotAt m f n % blksize + 4 ≤ blksize := by
  rcases slotAt_cases m f hn with ⟨k, -, hk, hat⟩ | ⟨hge, k, hk, hat⟩
  · rw [hat]
    exact ⟨h.readable_field hf hk, (h.toShape.field_block hf hk).2⟩
  · have hblock : (held m f none * blksize + k) / blksize = held m f none ∧
        (held m f none * blksize + k) % blksize + 4 ≤ blksize := by
      unfold blksize at *
      omega
    rw [hat, hblock.1]
    exact ⟨h.readable_held hf (x := none) trivial (hi hge), hblock.2⟩

end

theorem word_slotAt (hi : ndirect ≤ n → held m f none ≠ 0) :
    (word m (slotAt m f n)).toNat = held m f (some n) := by
  unfold slotAt
  rw [held_some]
  by_cases hlt : n < ndirect
  · rw [if_pos hlt, if_pos hlt]
  · have h0 : fIndirect m f ≠ 0 := hi (by omega)
    rw [if_neg hlt, if_neg hlt, if_neg h0, held_none]

theorem fileBlockWalk_direct (hv : v.toNat < ndirect) (alloc : Bool) :
    FsRuns (fileBlockWalk f v alloc) st (.ok (slotAt st.mem f v.toNat)) st := by
  have hslot : slotAt st.mem f v.toNat = fDirectAt f v.toNat := if_pos hv
  rw [hslot]
  refine .ite_neg ?_ (.ite_pos hv (.pure _ _))
  unfold nindirect
  omega

theorem word_fIndirectAt_eq_zero : word m (fIndirectAt f) = 0 ↔ held m f none = 0 := by
  rw [held_none]
  unfold fIndirect
  constructor
  · intro h
    rw [h]
    rfl
  · intro h
    exact eq_of_toNat_eq h

theorem readableRange_block (h : Readable m b) (ha : b * blksize ≤ a)
    (hn : a + n ≤ b * blksize + blksize) : ReadableRange m a n := by
  intro x hx hx'
  have hxb : x = b := by
    unfold blksize at *
    omega
  rw [hxb]
  exact h

theorem fileBlockWalk_invalid (hv : maxblocks ≤ v.toNat) (alloc : Bool) :
    FsRuns (fileBlockWalk f v alloc) st (.error (-eInval)) st :=
  .ite_pos hv (.pure _ _)

theorem indirect_ne_zero (h0 : held m f (some n) ≠ 0) (hge : ndirect ≤ n) : held m f none ≠ 0 :=
  fun hz => h0 (held_of_indirect_zero hz hge)

section

variable (h : LaidOut F st.mem)

include h

theorem take_runs (hb : b < nblocksIn st.mem) : FsRuns (do
      let w ← loadWord (bitmapAt b)
      storeWord (bitmapAt b) (w &&& ~~~bitmapBit b)
      flushBlock (bitmapAt b)
      return (toWord b).toInt : FsM Int) st (toWord b).toInt (st.take b) := by
  have hread := h.readable_bitmap hb
  refine .bind (loadWord_runs hread) (.bind (storeWord_runs hread (bitmapAt_block hb).2) ?_)
  exact .bind (flushBlock_runs (lt_disksize_of_lt h hread.2.1 rfl)) (.pure _ _)

theorem allocFrom_runs (hb : FirstFree st.mem b) (rounds : Nat)
    (hle : c ≤ b) (hrounds : nblocksIn st.mem ≤ rounds + c) :
    FsRuns (allocFrom rounds c) st (toWord b).toInt (st.take b) := by
  have hlt : b < nblocksIn st.mem := h.lt_nblocks hb.1
  induction rounds generalizing c with
  | zero => omega
  | succ rounds ih =>
    unfold allocFrom
    refine .bind (blockIsFree_runs h c) ?_
    by_cases hcb : c = b
    · subst hcb
      rw [hb.1]
      exact .ite_pos rfl (take_runs h hlt)
    · rw [hb.2 c (by omega)]
      exact .ite_neg (by decide) (ih (by omega) (by omega))

theorem allocBlock_runs (hb : FirstFree st.mem b) :
    FsRuns allocBlock st (b : Int) (st.take b) := by
  have hlt : b < nblocksIn st.mem := h.lt_nblocks hb.1
  have hint : (toWord b).toInt = (b : Int) := by
    have hfits : nblocksIn st.mem * blksize ≤ disksize := h.fits
    have hnat := h.toShape.toNat_ofNat hlt
    unfold disksize blksize at hfits
    rw [toInt_eq_toNat_cond, hnat, if_pos (by omega)]
  rw [← hint]
  refine .bind (loadWord_runs (a := sNblocksAt) h.readable_super) ?_
  exact allocFrom_runs h hb _ (Nat.zero_le b) (Nat.le_refl _)

theorem freeBlock_runs (h0 : v ≠ 0) (hv : v.toNat < nblocksIn st.mem) :
    FsRuns (freeBlock v) st () (st.release v.toNat) := by
  have hread := h.readable_bitmap hv
  refine .ite_neg h0 (.bind (loadWord_runs hread) ?_)
  exact storeWord_runs hread (bitmapAt_block hv).2

section

variable (hf : f ∈ F)

include hf

theorem walk_indirect_runs (hge : ndirect ≤ n) (h0 : held st.mem f none ≠ 0) : FsRuns (do
      let ind ← diskaddr (← loadWord (fIndirectAt f))
      return .ok (ind + 4 * (n - ndirect)) : FsM (Except Int Nat)) st
      (.ok (slotAt st.mem f n)) st := by
  have hslot : slotAt st.mem f n = held st.mem f none * blksize + 4 * (n - ndirect) :=
    if_neg (by omega)
  have hne : word st.mem (fIndirectAt f) ≠ 0 := by
    intro hz
    apply h0
    rw [held_none]
    unfold fIndirect
    rw [hz]
    rfl
  rw [hslot]
  refine .bind (loadWord_runs (h.readable_field hf (show 176 + 4 ≤ sizeofFile by decide))) ?_
  exact .bind (diskaddr_runs h.readable_super hne (h.range f hf none trivial h0).2) (.pure _ _)

section

variable (hge : ndirect ≤ v.toNat)

include hge

theorem fileBlockWalk_indirect (hv : v.toNat < maxblocks) (h0 : held st.mem f none ≠ 0)
    (alloc : Bool) :
    FsRuns (fileBlockWalk f v alloc) st (.ok (slotAt st.mem f v.toNat)) st := by
  refine .ite_neg (Nat.not_le.mpr hv) (.ite_neg (Nat.not_lt.mpr hge) ?_)
  refine .bind (loadWord_runs (h.readable_field hf (show 176 + 4 ≤ sizeofFile by decide))) ?_
  refine .ite_neg (fun hz => h0 (word_fIndirectAt_eq_zero.mp hz)) ?_
  exact walk_indirect_runs h hf hge h0

theorem fileBlockWalk_missing (hv : v.toNat < maxblocks) (h0 : held st.mem f none = 0) :
    FsRuns (fileBlockWalk f v false) st (.error (-eNotFound)) st := by
  refine .ite_neg (Nat.not_le.mpr hv) (.ite_neg (Nat.not_lt.mpr hge) ?_)
  refine .bind (loadWord_runs (h.readable_field hf (show 176 + 4 ≤ sizeofFile by decide))) ?_
  exact .ite_pos (word_fIndirectAt_eq_zero.mpr h0) (.ite_pos rfl (.pure _ _))

theorem fileBlockWalk_alloc (hv : v.toNat < maxblocks) (h0 : held st.mem f none = 0)
    (hb : FirstFree st.mem b) : FsRuns (fileBlockWalk f v true) st
      (.ok (slotAt (st.ownIndirect f b).mem f v.toNat)) (st.ownIndirect f b) := by
  have hfield : 176 + 4 ≤ sizeofFile := by decide
  have hlt := h.lt_nblocks hb.1
  have hb0 : b ≠ 0 := h.free_ne_zero hb.1
  have hnat := h.toShape.toNat_ofNat hlt
  have hword := ofInt_natCast 32 b
  have hne : toWord b ≠ 0 := by
    intro hz
    rw [hz] at hnat
    exact hb0 hnat.symm
  -- The states after `alloc_block` and after `memset`.
  have h1 : Layout F (inodes (st.take b).mem) := by
    rw [take_mem]
    exact h.take hb.1
  have hA := h.toShape.agree_markUsed hlt
  have hplain : DataBlock F (inodes (st.take b).mem) b := by
    rw [take_mem]
    exact DataBlock.agree (J := (inodes st.mem).setFree b false) (h.plain_of_free hb.1) hA
  have hn1 : nblocksIn (st.take b).mem = nblocksIn st.mem := by
    rw [take_mem]
    exact hA.nblocks
  have hread : Readable (st.take b).mem b := by
    refine h1.readable (hn1 ▸ hlt) ?_
    rw [take_mem]
    refine (hA.free b).trans ?_
    rw [setFree_free, if_pos rfl]
  have h2 : Layout F (inodes ((st.take b).set (b * blksize) blksize fun _ => 0).mem) :=
    h1.agree (h1.toShape.agree_write hplain (Nat.le_refl _) (Nat.le_refl _))
  have h3 := (Move.grow (.ownIndirect h0 hb.1)).layout hf h
  have hheld : held (st.ownIndirect f b).mem f none = b := by
    rw [ownIndirect_mem]
    refine ((h.agree_ownIndirect hf h0 hb.1).held f hf none trivial).trans ?_
    rw [setHeld_held, if_pos ⟨rfl, rfl⟩]
  have hheld0 : held (st.ownIndirect f b).mem f none ≠ 0 := by
    rw [hheld]
    exact hb0
  have hblock : b * blksize / blksize = b := Nat.mul_div_cancel b (by decide)
  refine .ite_neg (Nat.not_le.mpr hv) (.ite_neg (Nat.not_lt.mpr hge) ?_)
  refine .bind (loadWord_runs (h.readable_field hf hfield)) ?_
  refine .ite_pos (word_fIndirectAt_eq_zero.mpr h0) (.ite_neg (by decide) ?_)
  refine .bind (allocBlock_runs h hb) (.ite_neg (by omega) ?_)
  rw [hword]
  refine .bind (diskaddr_runs h1.readable_super hne (by rw [hnat, hn1]; exact hlt)) ?_
  rw [hnat]
  refine .bind (storeBytes_runs (readableRange_block hread (Nat.le_refl _) (Nat.le_refl _))) ?_
  refine .bind (storeWord_runs (h2.readable_field hf hfield)
    (h2.toShape.field_block hf hfield).2) ?_
  refine .bind (flushBlock_runs (lt_disksize_of_lt h hlt hblock)) ?_
  rw [hblock]
  exact walk_indirect_runs h3 hf hge hheld0

end

theorem slot_diskaddr_runs (hn : n < maxblocks)
    (h0 : held st.mem f (some n) ≠ 0) (hi : ndirect ≤ n → held st.mem f none ≠ 0) :
    FsRuns (do
      return .ok (← diskaddr (← loadWord (slotAt st.mem f n))) : FsM (Except Int Nat)) st
      (.ok (held st.mem f (some n) * blksize)) st := by
  have hword := word_slotAt hi
  have hlt : held st.mem f (some n) < nblocksIn st.mem := (h.range f hf (some n) hn h0).2
  refine .bind (loadWord_runs (h.readable_slot hf hn hi).1) ?_
  rw [← hword] at h0 hlt ⊢
  refine .bind (diskaddr_runs h.readable_super (fun hz => h0 ?_) hlt) (.pure _ _)
  rw [hz]
  rfl

theorem own_runs (hn : n < maxblocks)
    (hi : ndirect ≤ n → held st.mem f none ≠ 0) (h0 : held st.mem f (some n) = 0)
    (hb : FirstFree st.mem b) : FsRuns (do
      if (← loadWord (slotAt st.mem f n)) = 0 then
        storeWord (slotAt st.mem f n) (BitVec.ofInt 32 (← allocBlock))
      return .ok (← diskaddr (← loadWord (slotAt st.mem f n))) : FsM (Except Int Nat)) st
      (.ok (b * blksize)) (st.own f n b) := by
  have hb0 : b ≠ 0 := h.free_ne_zero hb.1
  have hword := word_slotAt hi
  have hA := h.toShape.agree_markUsed (h.lt_nblocks hb.1)
  have h1 : Layout F (inodes (st.take b).mem) := by
    rw [take_mem]
    exact h.take hb.1
  have hnone : held (st.take b).mem f none = held st.mem f none := by
    rw [take_mem]
    exact hA.held f hf none trivial
  have hslot := h1.readable_slot hf hn fun hge => by
    rw [hnone]
    exact hi hge
  rw [slotAt_congr hnone] at hslot
  have h2 : Layout F (inodes (st.own f n b).mem) := (Move.grow (.own hn hi h0 hb.1)).layout hf h
  have hown := h.agree_own hf hn hi hb.1
  rw [← own_mem] at hown
  have hnone' : held (st.own f n b).mem f none = held st.mem f none := by
    refine (hown.held f hf none trivial).trans ?_
    rw [setHeld_held, if_neg (fun hc => Option.some_ne_none n hc.2.symm)]
    rfl
  have hheld : held (st.own f n b).mem f (some n) = b := by
    refine (hown.held f hf (some n) hn).trans ?_
    rw [setHeld_held, if_pos ⟨rfl, rfl⟩]
  have hlast := slot_diskaddr_runs h2 hf hn (by rw [hheld]; exact hb0) fun hge => by
    rw [hnone']
    exact hi hge
  rw [slotAt_congr hnone', hheld] at hlast
  refine .bind (loadWord_runs (h.readable_slot hf hn hi).1) (.ite_pos ?_ ?_)
  · exact eq_of_toNat_eq (hword.trans h0)
  · refine .bind (allocBlock_runs h hb) ?_
    rw [ofInt_natCast]
    exact .bind (storeWord_runs hslot.1 hslot.2) hlast

section

variable (hv : v.toNat < maxblocks)

include hv

section

variable (hi : ndirect ≤ v.toNat → held st.mem f none ≠ 0)

include hi

theorem fileBlockWalk_runs (alloc : Bool) :
    FsRuns (fileBlockWalk f v alloc) st (.ok (slotAt st.mem f v.toNat)) st := by
  by_cases hlt : v.toNat < ndirect
  · exact fileBlockWalk_direct hlt alloc
  · exact fileBlockWalk_indirect h hf (by omega) hv (hi (by omega)) alloc

theorem fileGetBlock_own (h0 : held st.mem f (some v.toNat) = 0)
    (hb : FirstFree st.mem b) : FsRuns (fileGetBlock f v) st (.ok (b * blksize))
      (st.own f v.toNat b) :=
  .bind (fileBlockWalk_runs h hf hv hi true) (own_runs h hf hv hi h0 hb)

end

theorem fileGetBlock_present
    (h0 : held st.mem f (some v.toNat) ≠ 0) : FsRuns (fileGetBlock f v) st
      (.ok (held st.mem f (some v.toNat) * blksize)) st := by
  have hi := indirect_ne_zero h0
  have hword := word_slotAt hi
  refine .bind (fileBlockWalk_runs h hf hv hi true) ?_
  refine .bind (loadWord_runs (h.readable_slot hf hv hi).1) (.ite_neg (fun hz => h0 ?_) ?_)
  · rw [← hword, hz]
    rfl
  · exact slot_diskaddr_runs h hf hv h0 hi

end

theorem fileGetBlock_ownIndirect
    (hge : ndirect ≤ v.toNat) (hv : v.toNat < maxblocks) (h0 : held st.mem f none = 0)
    (hb : FirstFree st.mem b) (hc : FirstFree (st.ownIndirect f b).mem c) :
    FsRuns (fileGetBlock f v) st (.ok (c * blksize))
      ((st.ownIndirect f b).own f v.toNat c) := by
  have hA := h.agree_ownIndirect hf h0 hb.1
  rw [← ownIndirect_mem] at hA
  have h1 := (Move.grow (.ownIndirect h0 hb.1)).layout hf h
  have hnone : held (st.ownIndirect f b).mem f none = b := by
    refine (hA.held f hf none trivial).trans ?_
    rw [setHeld_held, if_pos ⟨rfl, rfl⟩]
  have hsome : held (st.ownIndirect f b).mem f (some v.toNat) = 0 := by
    refine (hA.held f hf (some v.toNat) hv).trans ?_
    rw [setHeld_held, if_neg (fun hc => Option.some_ne_none _ hc.2)]
    exact held_of_indirect_zero h0 hge
  refine .bind (fileBlockWalk_alloc h hf hge hv h0 hb) (own_runs h1 hf hv (fun _ => ?_) hsome hc)
  rw [hnone]
  exact h.free_ne_zero hb.1

end

end

end Jos
