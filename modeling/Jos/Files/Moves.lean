import Jos.Files.Writes

/-!
# The moves of the file system

Every operation on a file is a sequence of moves: a block is taken and put into an empty slot, a
slot is cleared and its block given back, the size is set, data is written, a block is flushed.
-/

namespace Jos

open Logic Store Inodes

variable {F : Set Nat} {m m' : Image} {st st' : Store} {f g a b n k : Nat} {x y : Option Nat}
  {w : Nat → Byte} {v : Word} {m1 m2 m3 : Image}

/-- The address of the slot of block `n`. -/
def slotAt (m : Image) (f n : Nat) : Nat :=
  if n < ndirect then fDirectAt f n else held m f none * blksize + 4 * (n - ndirect)

/-- Take block `b` from the bitmap, as `alloc_block` does. -/
def Store.take (st : Store) (b : Nat) : Store :=
  (st.setWord (bitmapAt b) (word st.mem (bitmapAt b) &&& ~~~bitmapBit b)).flush
    (bitmapAt b / blksize)

/-- Give block `b` back, as `free_block` does. -/
def Store.release (st : Store) (b : Nat) : Store :=
  st.setWord (bitmapAt b) (word st.mem (bitmapAt b) ||| bitmapBit b)

/-- The store after a free block has become block `n` of `f`. -/
def Store.own (st : Store) (f n b : Nat) : Store :=
  (st.take b).setWord (slotAt st.mem f n) (toWord b)

/-- The store after a free block has become the indirect block of `f`. -/
def Store.ownIndirect (st : Store) (f b : Nat) : Store :=
  (((st.take b).set (b * blksize) blksize fun _ => 0).setWord (fIndirectAt f)
    (toWord b)).flush b

/-- One move of an operation on the file `f` that gives no block back. -/
inductive Grow (f : Nat) : Store → Store → Prop where
  | data {st : Store} {n a k : Nat} {w : Nat → Byte} (hn : n < maxblocks)
      (h0 : held st.mem f (some n) ≠ 0) (hdir : fType st.mem f ≠ ftypeDir)
      (ha : held st.mem f (some n) * blksize ≤ a)
      (hk : a + k ≤ held st.mem f (some n) * blksize + blksize) : Grow f st (st.set a k w)
  | own {st : Store} {n b : Nat} (hn : n < maxblocks)
      (hi : ndirect ≤ n → held st.mem f none ≠ 0) (h0 : held st.mem f (some n) = 0)
      (hb : freeIn st.mem b = true) : Grow f st (st.own f n b)
  | ownIndirect {st : Store} {b : Nat} (h0 : held st.mem f none = 0)
      (hb : freeIn st.mem b = true) : Grow f st (st.ownIndirect f b)
  | size {st : Store} (v : Word) : Grow f st (st.setWord (fSizeAt f) v)
  | flush {st : Store} (b : Nat) : Grow f st (st.flush b)
  | record {st : Store} (i n : Nat) : Grow f st (st.move i n)

/-- One move of an operation on the file `f`. -/
inductive Move (f : Nat) : Store → Store → Prop where
  | grow {st st' : Store} (h : Grow f st st') : Move f st st'
  | drop {st : Store} {n : Nat} (hn : n < maxblocks) (hdir : fType st.mem f ≠ ftypeDir)
      (h0 : held st.mem f (some n) ≠ 0) :
      Move f st ((st.release (held st.mem f (some n))).setWord (slotAt st.mem f n) 0)
  | dropIndirect {st : Store} (hdir : fType st.mem f ≠ ftypeDir) (h0 : held st.mem f none ≠ 0)
      (hclear : ∀ n, ndirect ≤ n → n < maxblocks → held st.mem f (some n) = 0) :
      Move f st ((st.release (held st.mem f none)).setWord (fIndirectAt f) 0)

def Moves (f : Nat) : Store → Store → Prop := Relation.ReflTransGen (Move f)

def Grows (f : Nat) : Store → Store → Prop := Relation.ReflTransGen (Grow f)

theorem Grows.moves (h : Grows f st st') : Moves f st st' :=
  Relation.ReflTransGen.mono (fun _ _ => Move.grow) _ _ h

@[simp] theorem Store.take_mem (st : Store) (b : Nat) : (st.take b).mem = markUsed st.mem b := by
  unfold Store.take
  rw [flush_mem]
  rfl

@[simp] theorem Store.release_mem (st : Store) (b : Nat) :
    (st.release b).mem = markFree st.mem b := rfl

@[simp] theorem Store.own_mem (st : Store) (f n b : Nat) : (st.own f n b).mem =
    Logic.setWord (markUsed st.mem b) (slotAt st.mem f n) (toWord b) := by
  unfold Store.own
  rw [setWord_mem, take_mem]

@[simp] theorem Store.ownIndirect_mem (st : Store) (f b : Nat) : (st.ownIndirect f b).mem =
    Logic.setWord (setBytes (markUsed st.mem b) (b * blksize) blksize fun _ => 0) (fIndirectAt f)
      (toWord b) := by
  unfold Store.ownIndirect
  rw [flush_mem, setWord_mem, set_mem, take_mem]

theorem held_of_indirect_zero (h0 : held m f none = 0) (hge : ndirect ≤ n) :
    held m f (some n) = 0 := by
  rw [held_none] at h0
  rw [held_some, if_neg (by omega), if_pos h0]

theorem Shape.agree_slot (h : Shape F (inodes m)) (hf : f ∈ F) (hn : n < maxblocks)
    (hi : ndirect ≤ n → held m f none ≠ 0) :
    (inodes (setWord m (slotAt m f n) v)).Agree F ((inodes m).setHeld f (some n) v.toNat) := by
  unfold slotAt
  by_cases hlt : n < ndirect
  · rw [if_pos hlt]
    exact h.agree_direct hf hlt
  · rw [if_neg hlt]
    exact h.agree_entry hf (by omega) hn (hi (by omega))

theorem slotAt_congr (h : held m' f none = held m f none) : slotAt m' f n = slotAt m f n := by
  unfold slotAt
  rw [h]

theorem Shape.toNat_ofNat (h : Shape F (inodes m)) (hb : b < nblocksIn m) :
    (toWord b).toNat = b := by
  have hfits : nblocksIn m * blksize ≤ disksize := h.fits
  rw [BitVec.toNat_ofNat]
  apply Nat.mod_eq_of_lt
  unfold blksize disksize at hfits
  omega

section

variable (h : LaidOut F m)

include h

theorem Layout.lt_nblocks (hb : freeIn m b = true) : b < nblocksIn m := h.free_lt b hb

theorem Layout.agree_own (hf : f ∈ F) (hn : n < maxblocks)
    (hi : ndirect ≤ n → held m f none ≠ 0) (hb : freeIn m b = true) :
    (inodes (setWord (markUsed m b) (slotAt m f n) (toWord b))).Agree F
      (((inodes m).setFree b false).setHeld f (some n) b) := by
  have hlt := h.lt_nblocks hb
  have hA := h.toShape.agree_markUsed hlt
  have hnone : held (markUsed m b) f none = held m f none := hA.held f hf none trivial
  have hslot := ((h.toShape.setFree b false).agree hA).agree_slot (v := toWord b) hf hn
    fun hge => by
      rw [hnone]
      exact hi hge
  rw [slotAt_congr hnone, h.toShape.toNat_ofNat hlt] at hslot
  exact hslot.trans (hA.setHeld f (some n) b)

theorem Layout.agree_ownIndirect (hf : f ∈ F) (h0 : held m f none = 0) (hb : freeIn m b = true) :
    (inodes (setWord (setBytes (markUsed m b) (b * blksize) blksize fun _ => 0) (fIndirectAt f)
      (toWord b))).Agree F (((inodes m).setFree b false).setHeld f none b) := by
  have hlt := h.lt_nblocks hb
  have hA := h.toShape.agree_markUsed hlt
  have hsh := (h.toShape.setFree b false).agree hA
  have hplain : DataBlock F (inodes (markUsed m b)) b := by
    refine ⟨hA.firstData ▸ h.free_ge hb, fun g hg y hy heq => ?_⟩
    rw [hA.held g hg y hy] at heq
    exact absurd heq (h.not_held_of_free hb hg hy)
  have hA2 := (hsh.agree_write (w := fun _ => 0) hplain (Nat.le_refl _) (Nat.le_refl _)).trans hA
  have hsh2 := (h.toShape.setFree b false).agree hA2
  have hnat := h.toShape.toNat_ofNat hlt
  have hset := hsh2.agree_indirect (v := toWord b) hf ?_ ?_
  · rw [hnat] at hset
    exact hset.trans (hA2.setHeld f none b)
  · intro n hge hn
    refine (hA2.held f hf (some n) hn).trans ?_
    exact held_of_indirect_zero h0 hge
  · intro _
    rw [hnat]
    refine ⟨hplain.home_ne hsh hf, fun o ho => ?_⟩
    exact setBytes_of_mem (Nat.le_add_right _ _) (by omega)

theorem Layout.agree_drop (hf : f ∈ F) (hn : n < maxblocks) (h0 : held m f (some n) ≠ 0) :
    (inodes (setWord (markFree m (held m f (some n))) (slotAt m f n) 0)).Agree F
      (((inodes m).setFree (held m f (some n)) true).setHeld f (some n) 0) := by
  have hlt : held m f (some n) < nblocksIn m := (h.range f hf (some n) hn h0).2
  have hA := h.toShape.agree_markFree hlt
  have hnone : held (markFree m (held m f (some n))) f none = held m f none :=
    hA.held f hf none trivial
  have hslot := ((h.toShape.setFree _ true).agree hA).agree_slot (v := 0) hf hn fun hge => by
    rw [hnone]
    exact fun hz => h0 (held_of_indirect_zero hz hge)
  rw [slotAt_congr hnone] at hslot
  exact hslot.trans (hA.setHeld f (some n) 0)

theorem Layout.agree_dropIndirect (hf : f ∈ F) (h0 : held m f none ≠ 0)
    (hclear : ∀ n, ndirect ≤ n → n < maxblocks → held m f (some n) = 0) :
    (inodes (setWord (markFree m (held m f none)) (fIndirectAt f) 0)).Agree F
      (((inodes m).setFree (held m f none) true).setHeld f none 0) := by
  have hlt : held m f none < nblocksIn m := (h.range f hf none trivial h0).2
  have hA := h.toShape.agree_markFree hlt
  have hset := ((h.toShape.setFree _ true).agree hA).agree_indirect (v := 0) hf
    (fun n hge hn => (hA.held f hf (some n) hn).trans (hclear n hge hn)) fun hne => absurd rfl hne
  exact hset.trans (hA.setHeld f none 0)

end

theorem Move.layout (hf : f ∈ F) (hmove : Move f st st') (h : LaidOut F st.mem) :
    LaidOut F st'.mem := by
  cases hmove with
  | grow hgrow =>
    cases hgrow with
    | data hn h0 hdir ha hk =>
      exact h.agree (h.toShape.agree_write (h.toShape.plain_of_data hf hn hdir h0) ha hk)
    | own hn hi h0 hb =>
      rw [own_mem]
      exact (h.own (x := some _) hb h0).agree (h.agree_own hf hn hi hb)
    | ownIndirect h0 hb =>
      rw [ownIndirect_mem]
      exact (h.own (x := none) hb h0).agree (h.agree_ownIndirect hf h0 hb)
    | size v => exact (h.setSize f v).agree (h.toShape.agree_size hf)
    | flush b =>
      rw [flush_mem]
      exact h
    | record i n => exact h
  | drop hn hdir h0 =>
    exact (h.release hf (x := some _) hn hdir h0).agree (h.agree_drop hf hn h0)
  | dropIndirect hdir h0 hclear =>
    exact (h.release hf (x := none) trivial hdir h0).agree (h.agree_dropIndirect hf h0 hclear)

theorem Moves.layout (hf : f ∈ F) (hmoves : Moves f st st') (h : LaidOut F st.mem) :
    LaidOut F st'.mem := by
  induction hmoves with
  | refl => exact h
  | tail _ hmove ih => exact hmove.layout hf ih

variable {B : Nat} {u : Word}

theorem sameOn_bitmap (hB : (inodes m).firstData ≤ B) (hb : b < nblocksIn m) :
    SameOn m (setWord m (bitmapAt b) u) (B * blksize) blksize := by
  apply sameOn_setBytes
  have hle := bitmapAt_le hb
  have h2 := two_le_firstData (inodes m)
  unfold bitmapLen bitmapAddr blksize at *
  omega

theorem Shape.sameOn_struct (h : Shape F (inodes m)) (hf : f ∈ F) (hp : DataBlock F (inodes m) B)
    (hk : k + n ≤ sizeofFile) : SameOn m (setBytes m (f + k) n w) (B * blksize) blksize := by
  apply sameOn_setBytes
  have hin := (h.inside hf).1
  have hne := hp.home_ne h hf
  unfold blksize at *
  omega

/-- The entry for block `n` is a field of the structure, or lies in the indirect block. -/
theorem slotAt_cases (m : Image) (f : Nat) (hn : n < maxblocks) :
    (∃ k, 128 ≤ k ∧ k + 4 ≤ sizeofFile ∧ slotAt m f n = f + k) ∨
      ndirect ≤ n ∧ ∃ k, k + 4 ≤ blksize ∧ slotAt m f n = held m f none * blksize + k := by
  unfold slotAt
  by_cases hlt : n < ndirect
  · rw [if_pos hlt]
    refine .inl ⟨136 + 4 * n, by omega, ?_, Nat.add_assoc ..⟩
    unfold ndirect sizeofFile at *
    omega
  · rw [if_neg hlt]
    refine .inr ⟨by omega, 4 * (n - ndirect), ?_, rfl⟩
    unfold maxblocks nindirect ndirect blksize at *
    omega

theorem Shape.sameOn_slot (h : Shape F (inodes m)) (hf : f ∈ F) (hp : DataBlock F (inodes m) B)
    (hn : n < maxblocks) : SameOn m (setWord m (slotAt m f n) v) (B * blksize) blksize := by
  rcases slotAt_cases m f hn with ⟨k, -, hk, hat⟩ | ⟨-, k, hk, hat⟩
  · rw [hat]
    exact h.sameOn_struct hf hp hk
  · rw [hat]
    apply sameOn_setBytes
    have hne : held m f none ≠ B := hp.indirect_ne hf
    unfold blksize at *
    omega

theorem SameOn.trans (h : SameOn m1 m2 a n) (h' : SameOn m2 m3 a n) :
    SameOn m1 m3 a n := fun x hx hx' => (h' x hx hx').trans (h x hx hx')

theorem DataBlock.agree {I J : Inodes} (hp : DataBlock F J B) (hA : I.Agree F J) :
    DataBlock F I B := by
  refine ⟨hA.firstData ▸ hp.1, fun g hg y hy heq => ?_⟩
  rw [hA.held g hg y hy] at heq
  obtain ⟨hne, hdir⟩ := hp.2 g hg y hy heq
  exact ⟨hne, fun hc => hdir ((hA.type g hg).symm.trans hc)⟩

section

variable (h : LaidOut F m)

include h

theorem Layout.sameOn_own (hf : f ∈ F) (hp : DataBlock F (inodes m) B)
    (hn : n < maxblocks) (hb : freeIn m b = true) :
    SameOn m (setWord (markUsed m b) (slotAt m f n) v) (B * blksize) blksize := by
  have hlt := h.lt_nblocks hb
  have hA := h.toShape.agree_markUsed hlt
  have hnone := hA.held f hf none trivial
  have hslot := ((h.toShape.setFree b false).agree hA).sameOn_slot (v := v) hf
    (DataBlock.agree (J := (inodes m).setFree b false) hp hA) hn
  rw [slotAt_congr hnone] at hslot
  exact SameOn.trans (sameOn_bitmap hp.1 hlt) hslot

/-- A free block is marked as used and filled with zeros. -/
theorem Layout.agree_cleared (hb : freeIn m b = true) :
    (inodes (setBytes (markUsed m b) (b * blksize) blksize fun _ => 0)).Agree F
      ((inodes m).setFree b false) := by
  have hA := h.toShape.agree_markUsed (h.lt_nblocks hb)
  have hpb : DataBlock F (inodes (markUsed m b)) b :=
    DataBlock.agree (J := (inodes m).setFree b false) (h.plain_of_free hb) hA
  have hsh := (h.toShape.setFree b false).agree hA
  exact (hsh.agree_write hpb (Nat.le_refl _) (Nat.le_refl _)).trans hA

theorem Layout.sameOn_ownIndirect (hf : f ∈ F)
    (hp : DataBlock F (inodes m) B) (hb : freeIn m b = true) (hne : B ≠ b) :
    SameOn m (setWord (setBytes (markUsed m b) (b * blksize) blksize fun _ => 0) (fIndirectAt f)
      v) (B * blksize) blksize := by
  have hlt := h.lt_nblocks hb
  have hA2 := h.agree_cleared hb
  have hzero : SameOn (markUsed m b) (setBytes (markUsed m b) (b * blksize) blksize fun _ => 0)
      (B * blksize) blksize := by
    apply sameOn_setBytes
    unfold blksize
    omega
  have hset := ((h.toShape.setFree b false).agree hA2).sameOn_struct (w := wordByte v) hf
    (DataBlock.agree (J := (inodes m).setFree b false) hp hA2) (show 176 + 4 ≤ sizeofFile by decide)
  exact SameOn.trans (SameOn.trans (sameOn_bitmap hp.1 hlt) hzero) hset

theorem Layout.sameOn_drop (hf : f ∈ F) (hp : DataBlock F (inodes m) B)
    (hn : n < maxblocks) (hb : b < nblocksIn m) :
    SameOn m (setWord (markFree m b) (slotAt m f n) v) (B * blksize) blksize := by
  have hA := h.toShape.agree_markFree hb
  have hnone := hA.held f hf none trivial
  have hslot := ((h.toShape.setFree b true).agree hA).sameOn_slot (v := v) hf
    (DataBlock.agree (J := (inodes m).setFree b true) hp hA) hn
  rw [slotAt_congr hnone] at hslot
  exact SameOn.trans (sameOn_bitmap hp.1 hb) hslot

theorem Layout.sameOn_dropIndirect (hf : f ∈ F)
    (hp : DataBlock F (inodes m) B) (hb : b < nblocksIn m) :
    SameOn m (setWord (markFree m b) (fIndirectAt f) v) (B * blksize) blksize := by
  have hA := h.toShape.agree_markFree hb
  have hset := ((h.toShape.setFree b true).agree hA).sameOn_struct (w := wordByte v) hf
    (DataBlock.agree (J := (inodes m).setFree b true) hp hA) (show 176 + 4 ≤ sizeofFile by decide)
  exact SameOn.trans (sameOn_bitmap hp.1 hb) hset

end

theorem Move.sameOn (hf : f ∈ F) (hmove : Move f st st') (h : LaidOut F st.mem)
    (hp : DataBlock F (inodes st.mem) B) (hused : freeIn st.mem B = false)
    (hne : ∀ n < maxblocks, held st.mem f (some n) ≠ B) :
    SameOn st.mem st'.mem (B * blksize) blksize := by
  cases hmove with
  | grow hgrow =>
    cases hgrow with
    | @data n a k w hn h0 hdir ha hk =>
      apply sameOn_setBytes
      have := hne n hn
      unfold blksize at *
      omega
    | own hn hi h0 hb =>
      rw [own_mem]
      exact h.sameOn_own hf hp hn hb
    | ownIndirect h0 hb =>
      rw [ownIndirect_mem]
      refine h.sameOn_ownIndirect hf hp hb ?_
      rintro rfl
      rw [hused] at hb
      cases hb
    | size v => exact h.toShape.sameOn_struct hf hp (show 128 + 4 ≤ sizeofFile by decide)
    | flush b =>
      rw [flush_mem]
      exact fun _ _ _ => rfl
    | record i n => exact fun _ _ _ => rfl
  | @drop n hn hdir h0 => exact h.sameOn_drop hf hp hn (h.range f hf (some n) hn h0).2
  | dropIndirect hdir h0 _ => exact h.sameOn_dropIndirect hf hp (h.range f hf none trivial h0).2

/-- Everything about the other files, and the type of every file. -/
structure Kept (F : Set Nat) (f : Nat) (m m' : Image) : Prop where
  nblocks : nblocksIn m' = nblocksIn m
  type : ∀ g ∈ F, fType m' g = fType m g
  size : ∀ g ∈ F, g ≠ f → fSize m' g = fSize m g
  held : ∀ g ∈ F, g ≠ f → ∀ x, ValidSlot x → held m' g x = held m g x
  bytes : ∀ g ∈ F, g ≠ f → fType m g ≠ ftypeDir → ∀ n < maxblocks, Jos.held m g (some n) ≠ 0 →
    SameOn m m' (Jos.held m g (some n) * blksize) blksize

theorem Kept.refl (m : Image) : Kept F f m m :=
  ⟨rfl, fun _ _ => rfl, fun _ _ _ => rfl, fun _ _ _ _ _ => rfl, fun _ _ _ _ _ _ _ _ _ _ => rfl⟩

theorem Kept.trans (h : Kept F f m1 m2) (h' : Kept F f m2 m3) : Kept F f m1 m3 where
  nblocks := h'.nblocks.trans h.nblocks
  type g hg := (h'.type g hg).trans (h.type g hg)
  size g hg hne := (h'.size g hg hne).trans (h.size g hg hne)
  held g hg hne x hx := (h'.held g hg hne x hx).trans (h.held g hg hne x hx)
  bytes g hg hne hdir n hn h0 := by
    have heq := h.held g hg hne (some n) hn
    have h1 := h'.bytes g hg hne (by rw [h.type g hg]; exact hdir) n hn (by rw [heq]; exact h0)
    rw [heq] at h1
    exact SameOn.trans (h.bytes g hg hne hdir n hn h0) h1

theorem Kept.of_agree {J : Inodes} (hA : (inodes m').Agree F J) (hn : J.nblocks = nblocksIn m)
    (ht : ∀ g, J.type g = fType m g) (hs : ∀ g, g ≠ f → J.size g = fSize m g)
    (hh : ∀ g, g ≠ f → ∀ x, J.held g x = Jos.held m g x)
    (hb : ∀ g ∈ F, g ≠ f → fType m g ≠ ftypeDir → ∀ n < maxblocks, Jos.held m g (some n) ≠ 0 →
      SameOn m m' (Jos.held m g (some n) * blksize) blksize) : Kept F f m m' where
  nblocks := hA.nblocks.trans hn
  type g hg := (hA.type g hg).trans (ht g)
  size g hg hne := (hA.size g hg).trans (hs g hne)
  held g hg hne x hx := (hA.held g hg x hx).trans (hh g hne x)
  bytes := hb

theorem Inodes.setHeld_other {I : Inodes} (hne : g ≠ f) : (I.setHeld f x b).held g y =
    I.held g y := by
  rw [setHeld_held, if_neg (fun hc => hne hc.1)]

theorem Inodes.setSize_other {I : Inodes} (hne : g ≠ f) : (I.setSize f v).size g = I.size g := by
  rw [setSize_size, if_neg hne]

theorem Move.kept (hf : f ∈ F) (hmove : Move f st st') (h : LaidOut F st.mem) :
    Kept F f st.mem st'.mem := by
  have hbytes : ∀ g ∈ F, g ≠ f → fType st.mem g ≠ ftypeDir → ∀ n < maxblocks,
      held st.mem g (some n) ≠ 0 →
      SameOn st.mem st'.mem (held st.mem g (some n) * blksize) blksize := by
    intro g hg hne hdir n hn h0
    refine hmove.sameOn hf h (h.toShape.plain_of_data hg hn hdir h0) (h.used g hg (some n) hn h0) ?_
    intro i hi heq
    exact hne (h.distinct g hg f hf (some n) (some i) hn hi h0 heq.symm).1
  cases hmove with
  | grow hgrow =>
    cases hgrow with
    | data hn h0 hdir ha hk =>
      exact .of_agree (h.toShape.agree_write (h.toShape.plain_of_data hf hn hdir h0) ha hk) rfl
        (fun _ => rfl) (fun _ _ => rfl) (fun _ _ _ => rfl) hbytes
    | own hn hi h0 hb =>
      rw [own_mem] at hbytes ⊢
      exact .of_agree (h.agree_own hf hn hi hb) rfl (fun _ => rfl) (fun _ _ => rfl)
        (fun _ hne _ => setHeld_other hne) hbytes
    | ownIndirect h0 hb =>
      rw [ownIndirect_mem] at hbytes ⊢
      exact .of_agree (h.agree_ownIndirect hf h0 hb) rfl (fun _ => rfl) (fun _ _ => rfl)
        (fun _ hne _ => setHeld_other hne) hbytes
    | size v =>
      exact .of_agree (h.toShape.agree_size hf) rfl (fun _ => rfl)
        (fun _ hne => setSize_other hne) (fun _ _ _ => rfl) hbytes
    | flush b =>
      rw [flush_mem]
      exact .refl _
    | record i n => exact .refl _
  | drop hn hdir h0 =>
    exact .of_agree (h.agree_drop hf hn h0) rfl (fun _ => rfl) (fun _ _ => rfl)
      (fun _ hne _ => setHeld_other hne) hbytes
  | dropIndirect hdir h0 hclear =>
    exact .of_agree (h.agree_dropIndirect hf h0 hclear) rfl (fun _ => rfl) (fun _ _ => rfl)
      (fun _ hne _ => setHeld_other hne) hbytes

theorem Moves.kept (hf : f ∈ F) (hmoves : Moves f st st') (h : LaidOut F st.mem) :
    Kept F f st.mem st'.mem := by
  induction hmoves with
  | refl => exact .refl _
  | tail hpath hmove ih => exact ih.trans (hmove.kept hf (Moves.layout hf hpath h))

theorem Moves.regular (hf : f ∈ F) (hmoves : Moves f st st') (h : LaidOut F st.mem)
    (hreg : fType st.mem f ≠ ftypeDir) : fType st'.mem f ≠ ftypeDir := by
  rw [(hmoves.kept hf h).type f hf]
  exact hreg

end Jos
