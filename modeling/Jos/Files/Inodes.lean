import Jos.Files.Cache

/-!
# The block map of the files

Which blocks are free, what size and type each file has, and which block each slot holds. A slot is
`none` for `f_indirect` and `some n` for the file's block `n`. `Layout` ties the slots to the
bitmap.
-/

namespace Jos

open Logic Function

def maxblocks : Nat := ndirect + nindirect

def ValidSlot : Option Nat → Prop
  | none => True
  | some n => n < maxblocks

def fSize (m : Image) (f : Nat) : Word := word m (fSizeAt f)

def fType (m : Image) (f : Nat) : Word := word m (fTypeAt f)

def fIndirect (m : Image) (f : Nat) : Nat := (word m (fIndirectAt f)).toNat

/-- The block number in a slot, 0 if there is none. -/
def held (m : Image) (f : Nat) : Option Nat → Nat
  | none => fIndirect m f
  | some n =>
    if n < ndirect then (word m (fDirectAt f n)).toNat
    else if fIndirect m f = 0 then 0
    else (word m (fIndirect m f * blksize + 4 * (n - ndirect))).toNat

theorem held_none (m : Image) (f : Nat) : held m f none = fIndirect m f := rfl

theorem held_some (m : Image) (f n : Nat) : held m f (some n) =
    if n < ndirect then (word m (fDirectAt f n)).toNat
    else if fIndirect m f = 0 then 0
    else (word m (fIndirect m f * blksize + 4 * (n - ndirect))).toNat := rfl

/-- What the metadata says. -/
structure Inodes where
  nblocks : Nat
  free : Nat → Bool
  size : Nat → Word
  type : Nat → Word
  held : Nat → Option Nat → Nat

def inodes (m : Image) : Inodes where
  nblocks := nblocksIn m
  free := freeIn m
  size := fSize m
  type := fType m
  held := held m

namespace Inodes

def setFree (I : Inodes) (b : Nat) (v : Bool) : Inodes :=
  { I with free := update I.free b v }

def setHeld (I : Inodes) (f : Nat) (x : Option Nat) (b : Nat) : Inodes :=
  { I with held := update I.held f (update (I.held f) x b) }

def setSize (I : Inodes) (f : Nat) (v : Word) : Inodes :=
  { I with size := update I.size f v }

variable (I : Inodes) (f g b c : Nat) (x y : Option Nat) (v : Bool)

@[simp] theorem setFree_held : (I.setFree b v).held = I.held := rfl
@[simp] theorem setHeld_free : (I.setHeld f x b).free = I.free := rfl

theorem setFree_free : (I.setFree b v).free c = if c = b then v else I.free c := by
  by_cases h : c = b <;> simp [setFree, h]

theorem setHeld_held : (I.setHeld f x b).held g y = if g = f ∧ y = x then b else I.held g y := by
  by_cases hg : g = f
  · subst hg
    by_cases hy : y = x <;> simp [setHeld, hy]
  · simp [setHeld, hg]

theorem setSize_size (w : Word) : (I.setSize f w).size g = if g = f then w else I.size g := by
  by_cases h : g = f <;> simp [setSize, h]

/-- The first block that is neither the boot sector, the super block nor a bitmap block. -/
def firstData : Nat := 2 + (I.nblocks + blkbitsize - 1) / blkbitsize

def IsDir : Prop := I.type f = ftypeDir

/-- The two agree on the bitmap and on the files of `F`. -/
structure Agree (F : Set Nat) (I J : Inodes) : Prop where
  nblocks : I.nblocks = J.nblocks
  free : ∀ b, I.free b = J.free b
  size : ∀ f ∈ F, I.size f = J.size f
  type : ∀ f ∈ F, I.type f = J.type f
  held : ∀ f ∈ F, ∀ x, ValidSlot x → I.held f x = J.held f x

end Inodes

variable {F : Set Nat} {I J K : Inodes} {m : Image} {f g a b c n : Nat} {x y : Option Nat}
  {w : Nat → Byte} {v : Word}

theorem Inodes.Agree.refl (I : Inodes) : I.Agree F I :=
  ⟨rfl, fun _ => rfl, fun _ _ => rfl, fun _ _ => rfl, fun _ _ _ _ => rfl⟩

theorem Inodes.Agree.trans (h : I.Agree F J) (h' : J.Agree F K) : I.Agree F K :=
  ⟨h.nblocks.trans h'.nblocks, fun b => (h.free b).trans (h'.free b),
    fun f hf => (h.size f hf).trans (h'.size f hf),
    fun f hf => (h.type f hf).trans (h'.type f hf),
    fun f hf x hx => (h.held f hf x hx).trans (h'.held f hf x hx)⟩

theorem Inodes.Agree.setHeld (h : I.Agree F J) (f : Nat) (x : Option Nat) (b : Nat) :
    (I.setHeld f x b).Agree F (J.setHeld f x b) := by
  refine ⟨h.nblocks, h.free, h.size, h.type, fun g hg y hy => ?_⟩
  rw [Inodes.setHeld_held, Inodes.setHeld_held, h.held g hg y hy]

theorem Inodes.Agree.firstData (h : I.Agree F J) : I.firstData = J.firstData := by
  unfold Inodes.firstData
  rw [h.nblocks]

/-- Every file has its own blocks, outside the reserved ones. The files other than the
root lie in blocks of directories. -/
structure Shape (F : Set Nat) (I : Inodes) : Prop where
  fits : I.nblocks * blksize ≤ disksize
  reserved_le : I.firstData ≤ I.nblocks
  range : ∀ f ∈ F, ∀ x, ValidSlot x → I.held f x ≠ 0 →
    I.firstData ≤ I.held f x ∧ I.held f x < I.nblocks
  distinct : ∀ f ∈ F, ∀ g ∈ F, ∀ x y, ValidSlot x → ValidSlot y → I.held f x ≠ 0 →
    I.held f x = I.held g y → f = g ∧ x = y
  placed : ∀ f ∈ F, f = sRoot ∨ ∃ d ∈ F, I.IsDir d ∧ ∃ n < maxblocks, ∃ j < blkfiles,
    I.held d (some n) ≠ 0 ∧ f = I.held d (some n) * blksize + sizeofFile * j

/-- Moreover the reserved blocks and the blocks of the files are marked in use. -/
structure Layout (F : Set Nat) (I : Inodes) : Prop extends Shape F I where
  free_lt : ∀ b, I.free b = true → b < I.nblocks
  reserved : ∀ b < I.firstData, I.free b = false
  used : ∀ f ∈ F, ∀ x, ValidSlot x → I.held f x ≠ 0 → I.free (I.held f x) = false

abbrev LaidOut (F : Set Nat) (m : Image) : Prop := Layout F (inodes m)

theorem two_le_firstData (I : Inodes) : 2 ≤ I.firstData := Nat.le_add_right 2 _

namespace Shape

theorem agree (h : Shape F J) (hA : I.Agree F J) : Shape F I where
  fits := hA.nblocks ▸ h.fits
  reserved_le := hA.firstData ▸ hA.nblocks ▸ h.reserved_le
  range f hf x hx h0 := by
    rw [hA.held f hf x hx] at h0 ⊢
    rw [hA.firstData, hA.nblocks]
    exact h.range f hf x hx h0
  distinct f hf g hg x y hx hy h0 heq := by
    rw [hA.held f hf x hx] at h0 heq
    rw [hA.held g hg y hy] at heq
    exact h.distinct f hf g hg x y hx hy h0 heq
  placed f hf := by
    rcases h.placed f hf with h0 | ⟨d, hd, hdir, n, hn, j, hj, h0, hfd⟩
    · exact .inl h0
    · have hheld := hA.held d hd (some n) hn
      refine .inr ⟨d, hd, (hA.type d hd).trans hdir, n, hn, j, hj, ?_, ?_⟩ <;> rw [hheld]
      · exact h0
      · exact hfd

theorem setFree (h : Shape F I) (b : Nat) (v : Bool) : Shape F (I.setFree b v) :=
  ⟨h.fits, h.reserved_le, h.range, h.distinct, h.placed⟩

theorem setSize (h : Shape F I) (f : Nat) (v : Word) : Shape F (I.setSize f v) :=
  ⟨h.fits, h.reserved_le, h.range, h.distinct, h.placed⟩

/-- A slot gets a block that is fresh, or none; the blocks of a directory stay. -/
theorem setHeld (h : Shape F I) (hb : b ≠ 0 → I.firstData ≤ b ∧ b < I.nblocks ∧
      ∀ g ∈ F, ∀ y, ValidSlot y → I.held g y ≠ b) (h0 : I.IsDir f → I.held f x = 0) :
    Shape F (I.setHeld f x b) := by
  refine ⟨h.fits, h.reserved_le, fun g hg y hy h1 => ?_,
    fun g hg g' hg' y y' hy hy' h1 heq => ?_, fun g hg => ?_⟩
  · rw [Inodes.setHeld_held] at h1 ⊢
    split at h1
    · next hc =>
      rw [if_pos hc]
      exact ⟨(hb h1).1, (hb h1).2.1⟩
    · next hc =>
      rw [if_neg hc]
      exact h.range g hg y hy h1
  · rw [Inodes.setHeld_held] at h1 heq
    rw [Inodes.setHeld_held] at heq
    by_cases hy1 : g = f ∧ y = x
    · rw [if_pos hy1] at h1 heq
      by_cases hy2 : g' = f ∧ y' = x
      · exact ⟨hy1.1.trans hy2.1.symm, hy1.2.trans hy2.2.symm⟩
      · rw [if_neg hy2] at heq
        exact absurd heq.symm ((hb h1).2.2 g' hg' y' hy')
    · rw [if_neg hy1] at h1 heq
      by_cases hy2 : g' = f ∧ y' = x
      · rw [if_pos hy2] at heq
        exact absurd heq ((hb (heq ▸ h1)).2.2 g hg y hy)
      · rw [if_neg hy2] at heq
        exact h.distinct g hg g' hg' y y' hy hy' h1 heq
  · rcases h.placed g hg with hr | ⟨d, hd, hdir, n, hn, j, hj, h1, hgd⟩
    · exact .inl hr
    · have hne : ¬(d = f ∧ (some n : Option Nat) = x) := by
        rintro ⟨rfl, rfl⟩
        exact h1 (h0 hdir)
      refine .inr ⟨d, hd, hdir, n, hn, j, hj, ?_, ?_⟩ <;> rw [Inodes.setHeld_held, if_neg hne]
      · exact h1
      · exact hgd

theorem own (h : Shape F I) (h0 : I.held f x = 0) (hge : I.firstData ≤ b)
    (hlt : b < I.nblocks) (hfresh : ∀ g ∈ F, ∀ y, ValidSlot y → I.held g y ≠ b) :
    Shape F (I.setHeld f x b) :=
  h.setHeld (fun _ => ⟨hge, hlt, hfresh⟩) fun _ => h0

theorem clear (h : Shape F I) (hdir : ¬I.IsDir f) : Shape F (I.setHeld f x 0) :=
  h.setHeld (fun hc => absurd rfl hc) fun hc => absurd hc hdir

end Shape

namespace Layout

theorem agree (h : Layout F J) (hA : I.Agree F J) : Layout F I where
  toShape := h.toShape.agree hA
  free_lt b hb := hA.nblocks ▸ h.free_lt b ((hA.free b).symm.trans hb)
  reserved b hb := (hA.free b).trans (h.reserved b (hA.firstData ▸ hb))
  used f hf x hx h0 := by
    rw [hA.held f hf x hx] at h0 ⊢
    rw [hA.free]
    exact h.used f hf x hx h0

section

variable (h : Layout F I)

include h

theorem free_ge (hb : I.free b = true) : I.firstData ≤ b := by
  by_contra hlt
  rw [h.reserved b (by omega)] at hb
  cases hb

theorem free_ne_zero (hb : I.free b = true) : b ≠ 0 := by
  have := h.free_ge hb
  have := two_le_firstData I
  omega

theorem not_held_of_free (hb : I.free b = true) (hf : f ∈ F)
    (hx : ValidSlot x) : I.held f x ≠ b := by
  intro heq
  have h0 : I.held f x ≠ 0 := heq ▸ h.free_ne_zero hb
  have := h.used f hf x hx h0
  rw [heq, hb] at this
  cases this

theorem own (hb : I.free b = true)
    (h0 : I.held f x = 0) : Layout F ((I.setFree b false).setHeld f x b) where
  toShape := (h.toShape.setFree b false).own h0 (h.free_ge hb) (h.free_lt b hb)
    fun _ hg _ hy => h.not_held_of_free hb hg hy
  free_lt c hc := by
    rw [Inodes.setHeld_free, Inodes.setFree_free] at hc
    split at hc
    · cases hc
    · exact h.free_lt c hc
  reserved c hc := by
    rw [Inodes.setHeld_free, Inodes.setFree_free]
    split
    · rfl
    · exact h.reserved c hc
  used g hg y hy h1 := by
    rw [Inodes.setHeld_held, Inodes.setFree_held] at h1 ⊢
    rw [Inodes.setHeld_free, Inodes.setFree_free]
    split
    · rw [if_pos rfl]
    · rename_i hne
      rw [if_neg hne] at h1
      rw [if_neg (h.not_held_of_free hb hg hy)]
      exact h.used g hg y hy h1

theorem release (hf : f ∈ F) (hx : ValidSlot x) (hdir : ¬I.IsDir f) (h0 : I.held f x ≠ 0) :
    Layout F ((I.setFree (I.held f x) true).setHeld f x 0) where
  toShape := (h.toShape.setFree _ true).clear hdir
  free_lt c hc := by
    rw [Inodes.setHeld_free, Inodes.setFree_free] at hc
    split at hc
    · rename_i hcb
      rw [hcb]
      exact (h.range f hf x hx h0).2
    · exact h.free_lt c hc
  reserved c hc := by
    have hge := (h.range f hf x hx h0).1
    have hlt : c < I.firstData := hc
    rw [Inodes.setHeld_free, Inodes.setFree_free, if_neg (by omega)]
    exact h.reserved c hc
  used g hg y hy h1 := by
    rw [Inodes.setHeld_held, Inodes.setFree_held] at h1 ⊢
    rw [Inodes.setHeld_free, Inodes.setFree_free]
    split at h1
    · exact absurd rfl h1
    · rename_i hne
      rw [if_neg hne, if_neg]
      · exact h.used g hg y hy h1
      · intro heq
        exact hne (h.distinct g hg f hf y x hy hx h1 heq)

theorem setSize (f : Nat) (v : Word) : Layout F (I.setSize f v) :=
  ⟨h.toShape.setSize f v, h.free_lt, h.reserved, h.used⟩

end

end Layout

end Jos
