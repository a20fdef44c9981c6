import Jos.Files.Inodes

/-!
# What a write does to the block map

Each write of the file system to its metadata changes one item of the block map, and a
write to a block without metadata changes none.
-/

namespace Jos

open Logic BitVec

variable {F : Set Nat} {I : Inodes} {m m' : Image} {f g a b c n k : Nat} {x y : Option Nat}
  {w : Nat → Byte} {v : Word} {u : Word}

theorem Shape.inside (h : Shape F I) (hf : f ∈ F) :
    f % blksize + sizeofFile ≤ blksize ∧ f % 4 = 0 := by
  rcases h.placed f hf with rfl | ⟨d, _, _, n, _, j, hj, _, rfl⟩
  · decide
  · unfold blkfiles blksize sizeofFile at *
    omega

/-- The block of a file: the super block for the root, and otherwise a block of a
directory. -/
theorem Shape.home (h : Shape F I) (hf : f ∈ F) : (f = sRoot ∧ f / blksize = 1) ∨
    ∃ d ∈ F, I.IsDir d ∧ ∃ n < maxblocks, I.held d (some n) ≠ 0 ∧
      f / blksize = I.held d (some n) := by
  rcases h.placed f hf with rfl | ⟨d, hd, hdir, n, hn, j, hj, h0, rfl⟩
  · exact Or.inl ⟨rfl, by decide⟩
  · refine Or.inr ⟨d, hd, hdir, n, hn, h0, ?_⟩
    unfold blkfiles blksize sizeofFile at *
    omega

theorem Shape.apart (h : Shape F I) (hf : f ∈ F) (hg : g ∈ F) (hne : f ≠ g) :
    f + sizeofFile ≤ g ∨ g + sizeofFile ≤ f := by
  have h2 := two_le_firstData I
  rcases h.placed f hf with rfl | ⟨d, hd, _, n, hn, j, hj, h0, rfl⟩
  · rcases h.placed g hg with rfl | ⟨d', hd', _, n', hn', j', hj', h0', rfl⟩
    · exact absurd rfl hne
    · have := (h.range d' hd' (some n') hn' h0').1
      unfold sRoot superAddr sizeofFile blksize
      omega
  · have hb := (h.range d hd (some n) hn h0).1
    rcases h.placed g hg with rfl | ⟨d', hd', _, n', hn', j', hj', h0', rfl⟩
    · unfold sRoot superAddr sizeofFile blksize
      omega
    · unfold sizeofFile blksize at *
      omega

/-- A block without metadata: it is not reserved, and a slot that holds it is a data slot
of a file that is no directory. -/
def DataBlock (F : Set Nat) (I : Inodes) (b : Nat) : Prop :=
  I.firstData ≤ b ∧ ∀ f ∈ F, ∀ x, ValidSlot x → I.held f x = b → x ≠ none ∧ ¬I.IsDir f

theorem DataBlock.home_ne (hp : DataBlock F I b) (h : Shape F I) (hf : f ∈ F) :
    f / blksize ≠ b := by
  have h2 := two_le_firstData I
  have hb := hp.1
  rcases h.home hf with ⟨_, h1⟩ | ⟨d, hd, hdir, n, hn, _, heq⟩
  · omega
  · intro hfb
    exact (hp.2 d hd (some n) hn (heq.symm.trans hfb)).2 hdir

theorem DataBlock.indirect_ne (hp : DataBlock F I b) (hf : f ∈ F) : I.held f none ≠ b :=
  fun heq => (hp.2 f hf none trivial heq).1 rfl

theorem Layout.plain_of_free (h : Layout F I) (hb : I.free b = true) : DataBlock F I b :=
  ⟨h.free_ge hb, fun _ hf _ hx heq => absurd heq (h.not_held_of_free hb hf hx)⟩

theorem Shape.plain_of_data (h : Shape F I) (hf : f ∈ F) (hn : n < maxblocks)
    (hdir : ¬I.IsDir f) (h0 : I.held f (some n) ≠ 0) : DataBlock F I (I.held f (some n)) := by
  refine ⟨(h.range f hf (some n) hn h0).1, fun g hg y hy heq => ?_⟩
  obtain ⟨rfl, rfl⟩ := h.distinct f hf g hg (some n) y hn hy h0 heq.symm
  exact ⟨Option.some_ne_none n, hdir⟩

theorem Shape.home_ne_indirect (h : Shape F I) (hf : f ∈ F) (hg : g ∈ F)
    (h0 : I.held g none ≠ 0) : f / blksize ≠ I.held g none := by
  have h2 := two_le_firstData I
  have hr := (h.range g hg none trivial h0).1
  rcases h.home hf with ⟨_, h1⟩ | ⟨d, hd, _, n, hn, hd0, heq⟩
  · omega
  · intro hfb
    have := h.distinct d hd g hg (some n) none hn trivial hd0 (heq.symm.trans hfb)
    exact absurd this.2 (Option.some_ne_none n)

theorem entry_congr (hi : SameOn m m' (b * blksize) blksize) (hn : n < maxblocks) :
    word m' (b * blksize + 4 * (n - ndirect)) = word m (b * blksize + 4 * (n - ndirect)) := by
  apply hi.word (Nat.le_add_right _ _)
  unfold maxblocks nindirect ndirect blksize at *
  omega

theorem held_congr_fields
    (hs : ∀ j, 136 ≤ j → j + 4 ≤ sizeofFile → word m' (f + j) = word m (f + j))
    (hi : held m f none ≠ 0 → SameOn m m' (held m f none * blksize) blksize)
    (hx : ValidSlot x) : held m' f x = held m f x := by
  have hind : fIndirect m' f = fIndirect m f :=
    congrArg BitVec.toNat (hs 176 (by decide) (by decide))
  cases x with
  | none => exact hind
  | some n =>
    rw [held_some, held_some, hind]
    by_cases hlt : n < ndirect
    · rw [if_pos hlt, if_pos hlt]
      unfold fDirectAt
      rw [add_assoc, hs _ (by omega) (by unfold ndirect sizeofFile at *; omega)]
    · rw [if_neg hlt, if_neg hlt]
      by_cases h0 : fIndirect m f = 0
      · rw [if_pos h0, if_pos h0]
      · have hblock : SameOn m m' (fIndirect m f * blksize) blksize := hi h0
        rw [if_neg h0, if_neg h0, entry_congr hblock hx]

section

variable (hs : SameOn m m' f sizeofFile)

include hs

theorem field_congr (hk : k + 4 ≤ sizeofFile) : word m' (f + k) = word m (f + k) :=
  hs.word (Nat.le_add_right _ _) (by omega)

theorem fSize_congr : fSize m' f = fSize m f := field_congr hs (by decide)

theorem fType_congr : fType m' f = fType m f := field_congr hs (by decide)

theorem fIndirect_congr : fIndirect m' f = fIndirect m f := by
  unfold fIndirect fIndirectAt
  rw [field_congr hs (by decide)]

theorem fDirect_congr (hn : n < ndirect) : word m' (fDirectAt f n) = word m (fDirectAt f n) := by
  unfold fDirectAt
  rw [add_assoc, field_congr hs]
  unfold ndirect sizeofFile at *
  omega

theorem held_congr (hi : held m f none ≠ 0 → SameOn m m' (held m f none * blksize) blksize)
    (hx : ValidSlot x) : held m' f x = held m f x :=
  held_congr_fields (fun _ _ hj => field_congr hs hj) hi hx

end

def bitmapLen (m : Image) : Nat := ((inodes m).firstData - 2) * blksize

theorem bitmapAt_le (hb : b < nblocksIn m) : bitmapAt b + 4 ≤ bitmapAddr + bitmapLen m := by
  unfold bitmapAt bitmapLen Inodes.firstData
  show _ ≤ bitmapAddr + (2 + (nblocksIn m + _ - 1) / _ - 2) * _
  unfold blkbitsize blksize
  omega

section

variable (hs : SameOn m m' sNblocksAt 4)

include hs

theorem nblocksIn_congr : nblocksIn m' = nblocksIn m := by
  unfold nblocksIn
  rw [hs.word (le_refl _) (le_refl _)]

theorem freeIn_congr
    (hb : SameOn m m' bitmapAddr (bitmapLen m)) (b : Nat) : freeIn m' b = freeIn m b := by
  unfold freeIn
  rw [nblocksIn_congr hs]
  by_cases hlt : b < nblocksIn m
  · have hword : word m' (bitmapAt b) = word m (bitmapAt b) :=
      hb.word (Nat.le_add_right _ _) (bitmapAt_le hlt)
    rw [hword]
  · simp [hlt]

theorem inodes_agree (hb : SameOn m m' bitmapAddr (bitmapLen m))
    (hf : ∀ f ∈ F, SameOn m m' f sizeofFile)
    (hi : ∀ f ∈ F, held m f none ≠ 0 → SameOn m m' (held m f none * blksize) blksize) :
    (inodes m').Agree F (inodes m) where
  nblocks := nblocksIn_congr hs
  free := freeIn_congr hs hb
  size f h := fSize_congr (hf f h)
  type f h := fType_congr (hf f h)
  held f h _ hx := held_congr (hf f h) (hi f h) hx

end

theorem apart_of_block {d : Nat} (ha : b * blksize ≤ a) (hn : a + n ≤ b * blksize + blksize)
    (hd : d / blksize ≠ b) (hk : d % blksize + k ≤ blksize) : a + n ≤ d ∨ d + k ≤ a := by
  unfold blksize at *
  omega

theorem apart_bitmap (hb : (inodes m).firstData ≤ b)
    (ha : b * blksize ≤ a) : a + n ≤ bitmapAddr ∨ bitmapAddr + bitmapLen m ≤ a := by
  have h2 := two_le_firstData (inodes m)
  unfold bitmapAddr bitmapLen blksize at *
  omega

theorem Shape.agree_write (h : Shape F (inodes m)) (hp : DataBlock F (inodes m) b)
    (ha : b * blksize ≤ a) (hn : a + n ≤ b * blksize + blksize) :
    (inodes (setBytes m a n w)).Agree F (inodes m) := by
  have h2 := two_le_firstData (inodes m)
  have hb := hp.1
  refine inodes_agree (sameOn_setBytes ?_) (sameOn_setBytes (apart_bitmap hb ha))
    (fun f hf => sameOn_setBytes ?_) fun f hf h0 => sameOn_setBytes ?_
  · unfold sNblocksAt superAddr blksize at *
    omega
  · exact apart_of_block ha hn (hp.home_ne h hf) (h.inside hf).1
  · have hne : held m f none ≠ b := hp.indirect_ne hf
    unfold blksize at *
    omega

def markFree (m : Image) (b : Nat) : Image :=
  setWord m (bitmapAt b) (word m (bitmapAt b) ||| bitmapBit b)

def markUsed (m : Image) (b : Nat) : Image :=
  setWord m (bitmapAt b) (word m (bitmapAt b) &&& ~~~bitmapBit b)

theorem bitmapBit_eq (b : Nat) : bitmapBit b = BitVec.twoPow 32 (b % 32) := by
  rw [twoPow_eq]
  rfl

theorem freeIn_eq (m : Image) (b : Nat) : freeIn m b =
    (decide (b < nblocksIn m) && (word m (bitmapAt b)).getLsbD (b % 32)) := by
  unfold freeIn
  congr 1
  rw [bitmapBit_eq, and_twoPow]
  have hlt : b % 32 < 32 := Nat.mod_lt _ (by decide)
  have hne : (BitVec.twoPow 32 (b % 32) != 0) = true := by
    rw [bne_iff_ne]
    intro h0
    have hbit : (BitVec.twoPow 32 (b % 32)).getLsbD (b % 32) = true := by
      simp [hlt]
    rw [h0] at hbit
    simp at hbit
  cases (word m (bitmapAt b)).getLsbD (b % 32) with
  | false => rfl
  | true => exact hne

theorem freeIn_setWord {val : Bool} (hb : b < nblocksIn m) (hu : ∀ j < 32, u.getLsbD j =
      if j = b % 32 then val else (word m (bitmapAt b)).getLsbD j) :
    freeIn (setWord m (bitmapAt b) u) c = if c = b then val else freeIn m c := by
  have hn : nblocksIn (setWord m (bitmapAt b) u) = nblocksIn m := by
    apply nblocksIn_congr
    apply sameOn_setBytes
    unfold bitmapAt bitmapAddr sNblocksAt superAddr blksize
    omega
  rw [freeIn_eq, freeIn_eq, hn]
  by_cases hw : c / 32 = b / 32
  · have hat : bitmapAt c = bitmapAt b := by
      unfold bitmapAt
      rw [hw]
    rw [hat, word_setWord_self, hu _ (Nat.mod_lt _ (by decide))]
    by_cases hcb : c = b
    · subst hcb
      simp [hb]
    · rw [if_neg hcb, if_neg (by omega)]
  · rw [word_setWord_of_disjoint, if_neg (by rintro rfl; exact hw rfl)]
    unfold bitmapAt
    omega

theorem getLsbD_clear {w : Word} {j : Nat} (b : Nat) (hj : j < 32) :
    (w &&& ~~~bitmapBit b).getLsbD j = if j = b % 32 then false else w.getLsbD j := by
  rw [bitmapBit_eq, getLsbD_and, getLsbD_not, getLsbD_twoPow]
  by_cases hjb : j = b % 32
  · simp [hjb]
  · simp [hjb, hj, Ne.symm hjb]

theorem freeIn_markUsed (hb : b < nblocksIn m) :
    freeIn (markUsed m b) c = if c = b then false else freeIn m c :=
  freeIn_setWord hb fun _ hj => getLsbD_clear b hj

section

variable (h : Shape F (inodes m))

include h

theorem Shape.struct_of_bitmap (hf : f ∈ F)
    (hb : b < nblocksIn m) : SameOn m (setWord m (bitmapAt b) u) f sizeofFile := by
  apply sameOn_setBytes
  have h2 := two_le_firstData (inodes m)
  have hle := bitmapAt_le hb
  have hlow : bitmapAddr ≤ bitmapAt b := Nat.le_add_right _ _
  have hin := (h.inside hf).1
  rcases h.home hf with ⟨_, h1⟩ | ⟨d, hd, _, n, hn, hd0, heq⟩
  · unfold bitmapAddr blksize at *
    omega
  · have := (h.range d hd (some n) hn hd0).1
    unfold bitmapLen bitmapAddr blksize at *
    omega

theorem Shape.agree_bitmap {val : Bool} (hb : b < nblocksIn m) (hu : ∀ j < 32, u.getLsbD j =
      if j = b % 32 then val else (word m (bitmapAt b)).getLsbD j) :
    (inodes (setWord m (bitmapAt b) u)).Agree F ((inodes m).setFree b val) := by
  have h2 := two_le_firstData (inodes m)
  have hle := bitmapAt_le hb
  have hlow : bitmapAddr ≤ bitmapAt b := Nat.le_add_right _ _
  have hstruct : ∀ f ∈ F, SameOn m (setWord m (bitmapAt b) u) f sizeofFile :=
    fun f hf => h.struct_of_bitmap hf hb
  have hind : ∀ f ∈ F, held m f none ≠ 0 →
      SameOn m (setWord m (bitmapAt b) u) (held m f none * blksize) blksize := by
    intro f hf h0
    apply sameOn_setBytes
    have := (h.range f hf none trivial h0).1
    have hheld : (inodes m).held f none = held m f none := rfl
    unfold bitmapLen bitmapAddr blksize at *
    omega
  refine ⟨nblocksIn_congr (sameOn_setBytes ?_), fun c => ?_, fun f hf => fSize_congr (hstruct f hf),
    fun f hf => fType_congr (hstruct f hf),
    fun f hf x hx => held_congr (hstruct f hf) (hind f hf) hx⟩
  · unfold sNblocksAt superAddr bitmapAddr blksize at *
    omega
  · rw [Inodes.setFree_free]
    exact freeIn_setWord hb hu

theorem Shape.agree_markUsed (hb : b < nblocksIn m) :
    (inodes (markUsed m b)).Agree F ((inodes m).setFree b false) :=
  h.agree_bitmap hb fun _ hj => getLsbD_clear b hj

theorem Shape.agree_markFree (hb : b < nblocksIn m) :
    (inodes (markFree m b)).Agree F ((inodes m).setFree b true) := by
  refine h.agree_bitmap hb fun j hj => ?_
  rw [bitmapBit_eq, getLsbD_or, getLsbD_twoPow]
  by_cases hjb : j = b % 32
  · simp [hjb]
    omega
  · simp [hjb, Ne.symm hjb]

end

/-- Outside the file `f` and its indirect block the metadata is the same. -/
structure OnlyFile (F : Set Nat) (m m' : Image) (f : Nat) : Prop where
  nblocks : nblocksIn m' = nblocksIn m
  free : ∀ b, freeIn m' b = freeIn m b
  other : ∀ g ∈ F, g ≠ f → SameOn m m' g sizeofFile
  indirect : ∀ g ∈ F, g ≠ f → held m g none ≠ 0 →
    SameOn m m' (held m g none * blksize) blksize

section

variable (h : OnlyFile F m m' f)

include h

theorem OnlyFile.size (hg : g ∈ F) (hne : g ≠ f) :
    fSize m' g = fSize m g := fSize_congr (h.other g hg hne)

theorem OnlyFile.type (hg : g ∈ F) (hne : g ≠ f) :
    fType m' g = fType m g := fType_congr (h.other g hg hne)

theorem OnlyFile.held (hg : g ∈ F) (hne : g ≠ f) (hx : ValidSlot x) :
    held m' g x = held m g x := held_congr (h.other g hg hne) (h.indirect g hg hne) hx

/-- The rest of the metadata is as `I` says, if the file `f` is. -/
theorem OnlyFile.agree (hI : I.Agree F (inodes m))
    (hsize : fSize m' f = fSize m f) (htype : fType m' f = fType m f)
    {b : Nat} (hheld : ∀ y, ValidSlot y → Jos.held m' f y = if y = x then b else Jos.held m f y) :
    (inodes m').Agree F (I.setHeld f x b) := by
  refine ⟨h.nblocks.trans hI.nblocks.symm, fun c => (h.free c).trans (hI.free c).symm,
    fun g hg => ?_, fun g hg => ?_, fun g hg y hy => ?_⟩
  · by_cases hgf : g = f
    · subst hgf
      exact hsize.trans (hI.size g hg).symm
    · exact (h.size hg hgf).trans (hI.size g hg).symm
  · by_cases hgf : g = f
    · subst hgf
      exact htype.trans (hI.type g hg).symm
    · exact (h.type hg hgf).trans (hI.type g hg).symm
  · rw [Inodes.setHeld_held, hI.held g hg y hy]
    by_cases hgf : g = f
    · subst hgf
      show Jos.held m' g y = _
      rw [hheld y hy]
      simp only [true_and]
      rfl
    · rw [if_neg (fun hc => hgf hc.1)]
      exact h.held hg hgf hy

end

section

variable (h : Shape F (inodes m))

include h

section

variable (hf : f ∈ F)

include hf

theorem Shape.onlyFile (hk : k + n ≤ sizeofFile) : OnlyFile F m (setBytes m (f + k) n w) f := by
  have h2 := two_le_firstData (inodes m)
  have hin := (h.inside hf).1
  have hsuper : SameOn m (setBytes m (f + k) n w) sNblocksAt 4 := by
    apply sameOn_setBytes
    rcases h.home hf with ⟨rfl, _⟩ | ⟨d, hd, _, i, hi, hd0, heq⟩
    · unfold sRoot sNblocksAt superAddr
      omega
    · have := (h.range d hd (some i) hi hd0).1
      unfold sNblocksAt superAddr blksize at *
      omega
  have hbitmap : SameOn m (setBytes m (f + k) n w) bitmapAddr (bitmapLen m) := by
    apply sameOn_setBytes
    rcases h.home hf with ⟨_, h1⟩ | ⟨d, hd, _, i, hi, hd0, heq⟩
    · unfold bitmapAddr blksize at *
      omega
    · have := (h.range d hd (some i) hi hd0).1
      unfold bitmapLen bitmapAddr blksize at *
      omega
  refine ⟨nblocksIn_congr hsuper, freeIn_congr hsuper hbitmap, fun g hg hne => ?_,
    fun g hg _ h0 => ?_⟩
  · apply sameOn_setBytes
    have := h.apart hf hg (Ne.symm hne)
    omega
  · apply sameOn_setBytes
    have hne : f / blksize ≠ held m g none := h.home_ne_indirect hf hg h0
    unfold blksize at *
    omega

theorem Shape.sameOn_indirect (hk : k + n ≤ sizeofFile) (h0 : held m f none ≠ 0) :
    SameOn m (setBytes m (f + k) n w) (held m f none * blksize) blksize := by
  apply sameOn_setBytes
  have hin := (h.inside hf).1
  have hne : f / blksize ≠ held m f none := h.home_ne_indirect hf hf h0
  unfold blksize at *
  omega

theorem Shape.agree_size : (inodes (setWord m (fSizeAt f) v)).Agree F ((inodes m).setSize f v) := by
  have honly : OnlyFile F m (setWord m (fSizeAt f) v) f := h.onlyFile hf (by decide)
  have hdis : ∀ j, 128 + 4 ≤ j ∨ j + 4 ≤ 128 →
      word (setWord m (fSizeAt f) v) (f + j) = word m (f + j) := by
    intro j hj
    apply word_setWord_of_disjoint
    unfold fSizeAt
    omega
  refine ⟨honly.nblocks, honly.free, fun g hg => ?_, fun g hg => ?_, fun g hg y hy => ?_⟩
  · rw [Inodes.setSize_size]
    by_cases hgf : g = f
    · subst hgf
      rw [if_pos rfl]
      exact word_setWord_self
    · rw [if_neg hgf]
      exact honly.size hg hgf
  · by_cases hgf : g = f
    · subst hgf
      exact hdis 132 (by omega)
    · exact honly.type hg hgf
  · by_cases hgf : g = f
    · subst hgf
      exact held_congr_fields (fun j hj _ => hdis j (by omega))
        (fun h0 => h.sameOn_indirect hf (by decide) h0) hy
    · exact honly.held hg hgf hy

theorem Shape.agree_name (hn : n ≤ maxnamelen) :
    (inodes (setBytes m f n w)).Agree F (inodes m) := by
  have hlen : 0 + n ≤ sizeofFile := by
    unfold maxnamelen sizeofFile at *
    omega
  have honly : OnlyFile F m (setBytes m f n w) f := h.onlyFile hf hlen
  have hdis : ∀ j, 128 ≤ j → word (setBytes m f n w) (f + j) = word m (f + j) := by
    intro j hj
    apply word_setBytes_of_disjoint
    unfold maxnamelen at hn
    omega
  refine ⟨honly.nblocks, honly.free, fun g hg => ?_, fun g hg => ?_, fun g hg y hy => ?_⟩ <;>
    by_cases hgf : g = f
  · subst hgf
    exact hdis 128 (by omega)
  · exact honly.size hg hgf
  · subst hgf
    exact hdis 132 (by omega)
  · exact honly.type hg hgf
  · subst hgf
    exact held_congr_fields (fun j hj _ => hdis j (by omega))
      (fun h0 => h.sameOn_indirect hf hlen h0) hy
  · exact honly.held hg hgf hy

theorem Shape.agree_direct (hn : n < ndirect) : (inodes (setWord m (fDirectAt f n) v)).Agree F
      ((inodes m).setHeld f (some n) v.toNat) := by
  have hlen : 136 + 4 * n + 4 ≤ sizeofFile := by
    unfold ndirect sizeofFile at *
    omega
  have hat : fDirectAt f n = f + (136 + 4 * n) := add_assoc ..
  have honly : OnlyFile F m (setWord m (fDirectAt f n) v) f := by
    rw [hat]
    exact h.onlyFile hf hlen
  have hdis : ∀ j, 136 + 4 * n + 4 ≤ j ∨ j + 4 ≤ 136 + 4 * n →
      word (setWord m (fDirectAt f n) v) (f + j) = word m (f + j) := by
    intro j hj
    apply word_setWord_of_disjoint
    rw [hat]
    omega
  have hind : fIndirect (setWord m (fDirectAt f n) v) f = fIndirect m f := by
    unfold fIndirect fIndirectAt
    rw [hdis 176]
    unfold ndirect at hn
    omega
  refine honly.agree (.refl _) (hdis 128 (by omega)) (hdis 132 (by omega)) fun y hy => ?_
  cases y with
  | none => exact hind
  | some k =>
    rw [held_some, held_some, hind]
    by_cases hlt : k < ndirect
    · rw [if_pos hlt, if_pos hlt]
      by_cases hkn : k = n
      · subst hkn
        rw [if_pos rfl, word_setWord_self]
      · rw [if_neg (fun hc => hkn (Option.some.inj hc))]
        have : fDirectAt f k = f + (136 + 4 * k) := add_assoc ..
        rw [this, hdis _ (by omega)]
    · have hkn : ¬(some k = some n) := fun hc => hlt (by rw [Option.some.inj hc]; exact hn)
      rw [if_neg hlt, if_neg hlt, if_neg hkn]
      by_cases h0 : fIndirect m f = 0
      · rw [if_pos h0, if_pos h0]
      · have hsame : SameOn m (setWord m (fDirectAt f n) v) (fIndirect m f * blksize) blksize := by
          rw [hat]
          exact h.sameOn_indirect hf hlen h0
        rw [if_neg h0, if_neg h0, entry_congr hsame hy]

theorem Shape.onlyFile_indirect (h0 : held m f none ≠ 0) (hk : k + n ≤ blksize) :
    OnlyFile F m (setBytes m (held m f none * blksize + k) n w) f ∧
      SameOn m (setBytes m (held m f none * blksize + k) n w) f sizeofFile := by
  have h2 := two_le_firstData (inodes m)
  have hr : (inodes m).firstData ≤ held m f none := (h.range f hf none trivial h0).1
  have hsuper : SameOn m (setBytes m (held m f none * blksize + k) n w) sNblocksAt 4 := by
    apply sameOn_setBytes
    unfold sNblocksAt superAddr blksize at *
    omega
  have hbitmap : SameOn m (setBytes m (held m f none * blksize + k) n w) bitmapAddr
      (bitmapLen m) := sameOn_setBytes (apart_bitmap hr (Nat.le_add_right _ _))
  have hstruct : ∀ g ∈ F, SameOn m (setBytes m (held m f none * blksize + k) n w) g sizeofFile := by
    intro g hg
    apply sameOn_setBytes
    have hin := (h.inside hg).1
    have hne : g / blksize ≠ held m f none := h.home_ne_indirect hg hf h0
    unfold blksize at *
    omega
  refine ⟨⟨nblocksIn_congr hsuper, freeIn_congr hsuper hbitmap, fun g hg _ => hstruct g hg,
    fun g hg hgf hg0 => ?_⟩, hstruct f hf⟩
  apply sameOn_setBytes
  have hne : held m g none ≠ held m f none := by
    intro heq
    exact hgf (h.distinct g hg f hf none none trivial trivial hg0 heq).1
  unfold blksize at *
  omega

theorem Shape.agree_entry (hge : ndirect ≤ n) (hn : n < maxblocks) (h0 : held m f none ≠ 0) :
    (inodes (setWord m (held m f none * blksize + 4 * (n - ndirect)) v)).Agree F
      ((inodes m).setHeld f (some n) v.toNat) := by
  have hlen : ∀ {i}, ndirect ≤ i → i < maxblocks → 4 * (i - ndirect) + 4 ≤ blksize := by
    intro i hi hi'
    unfold maxblocks nindirect ndirect blksize at *
    omega
  obtain ⟨honly, hsame⟩ := h.onlyFile_indirect (w := wordByte v) hf h0 (hlen hge hn)
  have hind := fIndirect_congr hsame
  refine honly.agree (.refl _) (fSize_congr hsame) (fType_congr hsame) fun y hy => ?_
  cases y with
  | none => exact hind
  | some k =>
    rw [held_some, held_some, hind]
    by_cases hlt : k < ndirect
    · rw [if_pos hlt, if_pos hlt, fDirect_congr hsame hlt, if_neg]
      intro hc
      have := Option.some.inj hc
      omega
    · have hne : fIndirect m f ≠ 0 := h0
      rw [if_neg hlt, if_neg hlt, if_neg hne, if_neg hne]
      by_cases hkn : k = n
      · subst hkn
        rw [if_pos rfl]
        exact congrArg BitVec.toNat word_setWord_self
      · rw [if_neg (fun hc => hkn (Option.some.inj hc))]
        apply congrArg BitVec.toNat
        apply word_setWord_of_disjoint
        rw [held_none]
        omega

theorem Shape.agree_indirect (hold : ∀ n, ndirect ≤ n → n < maxblocks → held m f (some n) = 0)
    (hnew : v ≠ 0 → f / blksize ≠ v.toNat ∧ ∀ o < blksize, m (v.toNat * blksize + o) = 0) :
    (inodes (setWord m (fIndirectAt f) v)).Agree F ((inodes m).setHeld f none v.toNat) := by
  have honly : OnlyFile F m (setWord m (fIndirectAt f) v) f := h.onlyFile hf (by decide)
  have hdis : ∀ j, j + 4 ≤ 176 → word (setWord m (fIndirectAt f) v) (f + j) = word m (f + j) := by
    intro j hj
    apply word_setWord_of_disjoint
    unfold fIndirectAt
    omega
  have hind : fIndirect (setWord m (fIndirectAt f) v) f = v.toNat :=
    congrArg BitVec.toNat word_setWord_self
  refine honly.agree (.refl _) (hdis 128 (by omega)) (hdis 132 (by omega)) fun y hy => ?_
  cases y with
  | none => exact hind
  | some k =>
    rw [if_neg (Option.some_ne_none k)]
    by_cases hlt : k < ndirect
    · rw [held_some, held_some, if_pos hlt, if_pos hlt]
      have : fDirectAt f k = f + (136 + 4 * k) := add_assoc ..
      rw [this, hdis]
      unfold ndirect at hlt
      omega
    · rw [hold k (by omega) hy, held_some, if_neg hlt, hind]
      by_cases hv : v = 0
      · subst hv
        rfl
      · obtain ⟨hne, hzero⟩ := hnew hv
        have hv0 : v.toNat ≠ 0 := fun hc => hv (eq_of_toNat_eq hc)
        rw [if_neg hv0]
        have hin := (h.inside hf).1
        have hk : 4 * (k - ndirect) + 4 ≤ blksize := by
          have : k < maxblocks := hy
          unfold maxblocks nindirect ndirect blksize at *
          omega
        have hword : word (setWord m (fIndirectAt f) v)
            (v.toNat * blksize + 4 * (k - ndirect)) = 0 := by
          apply word_of_zero
          intro i hi
          rw [setWord_of_not_mem]
          · rw [add_assoc]
            exact hzero _ (by omega)
          · unfold fIndirectAt blksize sizeofFile at *
            omega
        rw [hword]
        rfl

end

end

end Jos
