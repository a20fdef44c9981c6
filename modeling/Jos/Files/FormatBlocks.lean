import Jos.Files.Formatted

/-!
# The blocks of a finished image

Which blocks the root directory and the files of an image hold, and when the bitmap matches them. A
directory without entries gets a block that has not been allocated, and a short file keeps in
`f_indirect` what the memory of its entry had there.
-/

namespace Jos

open Logic

variable {s : Fmt} {heap : Image} {arg arg' : Arg} {args : List Arg} {b f g i j k n pos t : Nat}
  {nb : Word} {x y : Option Nat}

theorem startOf_add_le (hj : args[j]? = some arg) (hlt : j < k) :
    startOf args pos j + arg.blocks ≤ startOf args pos k := by
  induction args generalizing j k pos with
  | nil => cases hj
  | cons a args ih =>
    obtain ⟨k, rfl⟩ : ∃ n, k = n + 1 := ⟨k - 1, by omega⟩
    rw [startOf_succ]
    cases j with
    | zero =>
      obtain rfl : a = arg := Option.some.inj hj
      exact le_startOf
    | succ j =>
      rw [startOf_succ]
      exact ih hj (by omega)

theorem exists_startOf (hle : pos ≤ b) (hlt : b < pos + blocksOfAll args) :
    ∃ k arg, args[k]? = some arg ∧ startOf args pos k ≤ b ∧
      b < startOf args pos k + arg.blocks := by
  induction args generalizing pos with
  | nil => exact absurd hlt (Nat.not_lt.mpr hle)
  | cons a args ih =>
    have hcons : blocksOfAll (a :: args) = a.blocks + blocksOfAll args := List.sum_cons
    by_cases hb : b < pos + a.blocks
    · exact ⟨0, a, rfl, hle, hb⟩
    · obtain ⟨k, arg, hk, hle', hlt'⟩ := ih (Nat.not_lt.mp hb) (by omega)
      refine ⟨k + 1, arg, hk, ?_, ?_⟩ <;> rw [startOf_succ]
      · exact hle'
      · exact hlt'

theorem startOf_range (hk : args[k]? = some arg) :
    3 ≤ startOf args 3 k ∧ startOf args 3 k + arg.blocks ≤ dirStart args :=
  ⟨le_startOf, startOf_le hk⟩

theorem dataBlocks_le_blocks (arg : Arg) : arg.dataBlocks ≤ arg.blocks := Nat.le_add_right _ _

/-- The slot is a direct slot below the length of the file, or the indirect slot or a slot of
the indirect block, and it holds a block number. -/
structure Stored (m : Image) (f : Nat) (x : Option Nat) : Prop where
  valid : ValidSlot x
  below : ∀ i, x = some i → i < ndirect → i < blocksBelow (fSize m f).toNat
  holds : held m f x ≠ 0

/-- The root directory or an entry that an argument has got. -/
def FormattedFile (args : List Arg) (f : Nat) : Prop :=
  f = sRoot ∨ ∃ k < args.length, f = entryOfArg args k

theorem entryOfArg_inj (h : entryOfArg args j = entryOfArg args k) : j = k := by
  unfold entryOfArg sizeofFile at h
  omega

namespace Formatted

variable (h : Formatted args heap nb s)
include h

theorem toNat_ofNat (hb : b ≤ usedBlocks args) : (toWord b).toNat = b := by
  have := h.fits
  have := h.max
  rw [BitVec.toNat_ofNat]
  omega

theorem length_le : args.length ≤ maxDirEnts := by
  have := h.accepted.room
  omega

theorem blocks_root : blocksBelow (fSize s.diskmap sRoot).toNat = rootBlocks args.length := by
  have hroot := (rootBlocks_lt h.length_le).2
  rw [h.rootSize, BitVec.toNat_ofNat, Nat.mod_eq_of_lt, blocksBelow_mul]
  unfold ndirect at hroot
  unfold blksize
  omega

theorem held_root (hx : ValidSlot x) (h0 : held s.diskmap sRoot x ≠ 0) :
    ∃ i < rootBlocks args.length, x = some i ∧ held s.diskmap sRoot x = dirStart args + i := by
  have hind : fIndirect s.diskmap sRoot = 0 := congrArg BitVec.toNat h.rootIndirect
  have hroot := (rootBlocks_lt h.length_le).2
  cases x with
  | none => exact absurd hind h0
  | some i =>
    rw [held_some] at h0 ⊢
    by_cases hi : i < ndirect
    · rw [if_pos hi, h.rootDirect i hi] at h0 ⊢
      by_cases hlt : i < rootBlocks args.length
      · refine ⟨i, hlt, rfl, ?_⟩
        have hmax := h.max
        have hfits := h.fits
        rw [if_pos hlt, BitVec.toNat_ofNat]
        unfold usedBlocks at hfits
        unfold ndirect at hi
        omega
      · rw [if_neg hlt] at h0
        exact absurd rfl h0
    · rw [if_neg hi, if_pos hind] at h0
      exact absurd rfl h0

section

variable (hk : args[k]? = some arg)

include hk

theorem content_lt : arg.content.length < maxfilesize :=
  h.accepted.size arg (List.mem_of_getElem? hk)

theorem dataBlocks_le : arg.dataBlocks ≤ maxblocks := Arg.dataBlocks_le (h.content_lt hk)

theorem fSize_entry : (fSize s.diskmap (entryOfArg args k)).toNat = arg.content.length := by
  have hlt := h.content_lt hk
  have hsize : fSize s.diskmap (entryOfArg args k) = _ := (h.entry k arg hk).size
  rw [hsize, BitVec.toNat_ofNat]
  unfold maxfilesize ndirect nindirect blksize at hlt
  omega

theorem held_direct_entry (hi : i < arg.dataBlocks)
    (hd : i < ndirect) : held s.diskmap (entryOfArg args k) (some i) = startOf args 3 k + i := by
  have hle := (startOf_range hk).2
  have hblocks := dataBlocks_le_blocks arg
  have hword : word s.diskmap (fDirectAt (entryOfArg args k) i) = _ :=
    (h.entry k arg hk).direct i (by omega)
  rw [held_some, if_pos hd, hword, h.toNat_ofNat (by unfold usedBlocks; omega)]

theorem held_none_entry (hge : ndirect ≤ arg.dataBlocks) :
    held s.diskmap (entryOfArg args k) none = startOf args 3 k + arg.dataBlocks := by
  have hle := (startOf_range hk).2
  have hblocks := dataBlocks_le_blocks arg
  have hword : word s.diskmap (fIndirectAt (entryOfArg args k)) = _ := (h.entry k arg hk).indirect
  rw [if_pos hge] at hword
  rw [held_none]
  unfold fIndirect
  rw [hword, h.toNat_ofNat (by unfold usedBlocks; omega)]

theorem fIndirect_short (hlt : arg.dataBlocks < ndirect) :
    fIndirect s.diskmap (entryOfArg args k) = (arg.rest heap (sizeofFile * k) 176).toNat := by
  have hword := (h.entry k arg hk).indirect
  rw [if_neg (Nat.not_le.mpr hlt)] at hword
  exact congrArg BitVec.toNat hword

theorem held_index_entry (hge : ndirect ≤ arg.dataBlocks)
    (hd : ndirect ≤ i) (hi : i < maxblocks) : held s.diskmap (entryOfArg args k) (some i) =
      if i < arg.dataBlocks then startOf args 3 k + i else 0 := by
  have hle := (startOf_range hk).2
  have hpos := (startOf_range hk).1
  have hblocks := dataBlocks_le_blocks arg
  have hind : fIndirect s.diskmap (entryOfArg args k) = startOf args 3 k + arg.dataBlocks :=
    h.held_none_entry hk hge
  have hindex := (h.data k arg hk).index (i - ndirect)
    (by unfold maxblocks nindirect at *; omega) hge
  rw [held_some, if_neg (Nat.not_lt.mpr hd), if_neg (by omega), hind, hindex,
    Nat.add_sub_cancel' hd]
  by_cases hlt : i < arg.dataBlocks
  · rw [if_pos hlt, if_pos hlt, h.toNat_ofNat (by unfold usedBlocks; omega)]
  · rw [if_neg hlt, if_neg hlt]
    rfl

theorem held_data_entry (hi : i < arg.dataBlocks) :
    held s.diskmap (entryOfArg args k) (some i) = startOf args 3 k + i := by
  by_cases hd : i < ndirect
  · exact h.held_direct_entry hk hi hd
  · have hmax : i < maxblocks := Nat.lt_of_lt_of_le hi (h.dataBlocks_le hk)
    rw [h.held_index_entry hk (by omega) (Nat.not_lt.mp hd) hmax, if_pos hi]

/-- The slots of a file whose `f_indirect` is not left over: its data blocks in order, then its
indirect block. -/
theorem held_entry (hrest : arg.dataBlocks < ndirect → arg.rest heap (sizeofFile * k) 176 = 0)
    (hx : Stored s.diskmap (entryOfArg args k) x) :
    ∃ t < arg.blocks, held s.diskmap (entryOfArg args k) x = startOf args 3 k + t ∧
      (x = some t ∧ t < arg.dataBlocks ∨ x = none ∧ t = arg.dataBlocks) := by
  obtain ⟨hvalid, hbelow, h0⟩ := hx
  have hblocks := dataBlocks_le_blocks arg
  by_cases hge : ndirect ≤ arg.dataBlocks
  · have hsum : arg.blocks = arg.dataBlocks + 1 := by
      unfold Arg.blocks
      rw [if_pos hge]
    cases x with
    | none =>
      exact ⟨arg.dataBlocks, by omega, h.held_none_entry hk hge, .inr ⟨rfl, rfl⟩⟩
    | some i =>
      by_cases hi : i < ndirect
      · have hlt : i < arg.dataBlocks := by omega
        exact ⟨i, by omega, h.held_direct_entry hk hlt hi, .inl ⟨rfl, hlt⟩⟩
      · have hheld := h.held_index_entry hk hge (Nat.not_lt.mp hi) hvalid
        by_cases hlt : i < arg.dataBlocks
        · rw [if_pos hlt] at hheld
          exact ⟨i, by omega, hheld, .inl ⟨rfl, hlt⟩⟩
        · rw [if_neg hlt] at hheld
          exact absurd hheld h0
  · have hind : fIndirect s.diskmap (entryOfArg args k) = 0 :=
      (h.fIndirect_short hk (Nat.not_le.mp hge)).trans
        (congrArg BitVec.toNat (hrest (Nat.not_le.mp hge)))
    cases x with
    | none => exact absurd hind h0
    | some i =>
      by_cases hi : i < ndirect
      · have hlt : i < arg.dataBlocks := by
          have hlt := hbelow i rfl hi
          rwa [h.fSize_entry hk] at hlt
        exact ⟨i, by omega, h.held_direct_entry hk hlt hi, .inl ⟨rfl, hlt⟩⟩
      · rw [held_some, if_neg hi, if_pos hind] at h0
        exact absurd rfl h0

end

/-- Every block that has been allocated after the bitmap is in a slot, and not in the
`f_indirect` of a short file. -/
theorem exists_stored (hb : 3 ≤ b) (hlt : b < usedBlocks args) :
    ∃ f x, FormattedFile args f ∧ Stored s.diskmap f x ∧ held s.diskmap f x = b ∧
      ∀ k arg, args[k]? = some arg → arg.dataBlocks < ndirect → f = entryOfArg args k →
        x ≠ none := by
  by_cases hdir : b < dirStart args
  · obtain ⟨k, arg, hk, hle, hltk⟩ := exists_startOf hb hdir
    have hfile : FormattedFile args (entryOfArg args k) :=
      .inr ⟨k, (List.getElem?_eq_some_iff.mp hk).1, rfl⟩
    obtain ⟨t, rfl⟩ : ∃ t, b = startOf args 3 k + t := ⟨_, (Nat.add_sub_cancel' hle).symm⟩
    by_cases ht : t < arg.dataBlocks
    · have hmax : t < maxblocks := Nat.lt_of_lt_of_le ht (h.dataBlocks_le hk)
      have hheld := h.held_data_entry hk ht
      refine ⟨_, some t, hfile, ⟨hmax, ?_, by omega⟩, hheld, fun _ _ _ _ _ => nofun⟩
      rintro i ⟨⟩ hd
      rw [h.fSize_entry hk]
      exact ht
    · -- The indirect block of a long file.
      have hge : ndirect ≤ arg.dataBlocks := by
        by_contra hge
        unfold Arg.blocks at hltk
        rw [if_neg hge] at hltk
        omega
      have ht' : t = arg.dataBlocks := by
        unfold Arg.blocks at hltk
        rw [if_pos hge] at hltk
        omega
      have hheld := h.held_none_entry hk hge
      rw [← ht'] at hheld
      refine ⟨_, none, hfile, ⟨trivial, nofun, by omega⟩, hheld, fun k' arg' hk' hshort heq => ?_⟩
      rw [← entryOfArg_inj heq, hk] at hk'
      cases hk'
      omega
  · obtain ⟨i, rfl⟩ : ∃ i, b = dirStart args + i :=
      ⟨_, (Nat.add_sub_cancel' (Nat.not_lt.mp hdir)).symm⟩
    have hi : i < rootBlocks args.length := by
      have hlen : args.length ≠ 0 := by
        intro h0
        unfold usedBlocks at hlt
        have hnone : blocksBelow (0 * sizeofFile) = 0 := rfl
        rw [h0, hnone] at hlt
        omega
      unfold rootBlocks
      unfold usedBlocks at hlt
      rw [if_neg hlen]
      omega
    have hroot := (rootBlocks_lt h.length_le).2
    have hheld : held s.diskmap sRoot (some i) = dirStart args + i := by
      rw [held_some, if_pos (by omega), h.rootDirect i (by omega), if_pos hi,
        h.toNat_ofNat (Nat.le_of_lt hlt)]
    refine ⟨sRoot, some i, .inl rfl, ⟨?_, ?_, by omega⟩, hheld, fun _ _ _ _ _ => nofun⟩
    · exact Nat.lt_of_lt_of_le (Nat.lt_trans hi hroot) (by decide)
    · rintro j ⟨⟩ _
      rw [h.blocks_root]
      exact hi

end Formatted

/-- The bitmap of a finished image says what its metadata says. -/
structure BitmapMatches (args : List Arg) (s : Fmt) : Prop where
  /-- The blocks in use are block 0, the super block, the bitmap and what `alloc` returned. -/
  marked : ∀ b < nblocksIn s.diskmap, freeIn s.diskmap b = false ↔
    b = 0 ∨ b = 1 ∨ 2 ≤ b ∧ b < (inodes s.diskmap).firstData ∨ s.Allocated b
  /-- Block numbers that are stored are of blocks in use. -/
  used : ∀ f x, FormattedFile args f → Stored s.diskmap f x →
    held s.diskmap f x < nblocksIn s.diskmap ∧ freeIn s.diskmap (held s.diskmap f x) = false
  /-- No two slots hold the same block. -/
  unshared : ∀ f x g y, FormattedFile args f → Stored s.diskmap f x → FormattedFile args g →
    Stored s.diskmap g y → held s.diskmap f x = held s.diskmap g y → f = g ∧ x = y

/-- The memory of the entries of short files is zero at `f_indirect` after the name has been
copied there. -/
def NothingLeft (args : List Arg) (heap : Image) : Prop :=
  ∀ (k : Nat) (arg : Arg), args[k]? = some arg → arg.dataBlocks < ndirect →
    arg.rest heap (sizeofFile * k) 176 = 0

theorem three_le_usedBlocks : 3 ≤ usedBlocks args :=
  Nat.le_trans three_le_dirStart (Nat.le_add_right _ _)

theorem usedBlocks_eq (hne : args ≠ []) :
    usedBlocks args = dirStart args + rootBlocks args.length := by
  have hlen : args.length ≠ 0 := fun h0 => hne (List.length_eq_zero_iff.mp h0)
  unfold usedBlocks rootBlocks
  rw [if_neg hlen]

namespace Formatted

variable (h : Formatted args heap nb s)
include h

theorem free_iff (hb : b < nb.toNat) : freeIn s.diskmap b = false ↔ b < usedBlocks args := by
  rw [h.free, decide_eq_true hb, Bool.and_true, decide_eq_false_iff_not, Nat.not_le]

theorem firstData_eq : (inodes s.diskmap).firstData = 3 := by
  have hn : (inodes s.diskmap).nblocks = nb.toNat := h.nblocks
  have hmin := h.min
  have hmax := h.max
  unfold Inodes.firstData
  rw [hn]
  unfold blkbitsize blksize
  omega

theorem marked (b : Nat) (hb : b < nblocksIn s.diskmap) : freeIn s.diskmap b = false ↔
    b = 0 ∨ b = 1 ∨ 2 ≤ b ∧ b < (inodes s.diskmap).firstData ∨ s.Allocated b := by
  rw [h.nblocks] at hb
  rw [h.free_iff hb, h.firstData_eq, h.allocs]
  have : 3 ≤ usedBlocks args := three_le_usedBlocks
  omega

theorem stored_range (hrest : NothingLeft args heap) (hf : FormattedFile args f)
    (hx : Stored s.diskmap f x) :
    (∃ i < rootBlocks args.length, f = sRoot ∧ x = some i ∧
      held s.diskmap f x = dirStart args + i) ∨
    ∃ k arg t, args[k]? = some arg ∧ f = entryOfArg args k ∧ t < arg.blocks ∧
      held s.diskmap f x = startOf args 3 k + t ∧
      (x = some t ∧ t < arg.dataBlocks ∨ x = none ∧ t = arg.dataBlocks) := by
  obtain rfl | ⟨k, hk, rfl⟩ := hf
  · obtain ⟨i, hi, rfl, hheld⟩ := h.held_root hx.valid hx.holds
    exact .inl ⟨i, hi, rfl, rfl, hheld⟩
  · have hk' : args[k]? = some args[k] := List.getElem?_eq_getElem hk
    obtain ⟨t, ht, hheld, hslot⟩ := h.held_entry hk' (hrest k _ hk') hx
    exact .inr ⟨k, _, t, hk', rfl, ht, hheld, hslot⟩

theorem bitmapMatches (hne : args ≠ []) (hrest : NothingLeft args heap) : BitmapMatches args s := by
  have hused := usedBlocks_eq hne
  have hfits := h.fits
  refine ⟨h.marked, fun f x hf hx => ?_, fun f x g y hf hx hg hy heq => ?_⟩
  · have hlt : held s.diskmap f x < usedBlocks args := by
      obtain ⟨i, hi, -, -, hheld⟩ | ⟨k, arg, t, hk, -, ht, hheld, -⟩ := h.stored_range hrest hf hx
      · omega
      · have := (startOf_range hk).2
        omega
    have hlt' := Nat.lt_trans hlt hfits
    exact ⟨h.nblocks ▸ hlt', (h.free_iff hlt').mpr hlt⟩
  · obtain ⟨i, hi, rfl, rfl, hheld⟩ | ⟨k, arg, t, hk, rfl, ht, hheld, hslot⟩ :=
        h.stored_range hrest hf hx <;>
      obtain ⟨j, hj, rfl, rfl, hheld'⟩ | ⟨l, arg', u, hl, rfl, hu, hheld', hslot'⟩ :=
        h.stored_range hrest hg hy
    · obtain rfl : i = j := by omega
      exact ⟨rfl, rfl⟩
    · have := (startOf_range hl).2
      omega
    · have := (startOf_range hk).2
      omega
    · rcases Nat.lt_trichotomy k l with hlt | rfl | hlt
      · have hle : startOf args 3 k + arg.blocks ≤ startOf args 3 l := startOf_add_le hk hlt
        omega
      · rw [hk] at hl
        cases hl
        obtain rfl : t = u := by omega
        refine ⟨rfl, ?_⟩
        obtain ⟨rfl, hlt⟩ | ⟨rfl, hlt⟩ := hslot <;> obtain ⟨rfl, hlt'⟩ | ⟨rfl, hlt'⟩ := hslot'
        · rfl
        · omega
        · omega
        · rfl
      · have hle : startOf args 3 l + arg'.blocks ≤ startOf args 3 k := startOf_add_le hl hlt
        omega

/-- The empty root directory holds the first block that is free. -/
theorem ne_nil_of_matches (hm : BitmapMatches args s) : args ≠ [] := by
  rintro rfl
  have hroot : held s.diskmap sRoot (some 0) = 3 := by
    rw [held_some, if_pos (by decide), h.rootDirect 0 (by decide), if_pos (by decide)]
    rfl
  have hsize : blocksBelow (fSize s.diskmap sRoot).toNat = 1 := h.blocks_root
  have hstored : Stored s.diskmap sRoot (some 0) := by
    refine ⟨Nat.lt_add_left _ (by decide), ?_, by omega⟩
    rintro i ⟨⟩ _
    omega
  have hused := (hm.used sRoot (some 0) (.inl rfl) hstored).2
  rw [hroot, h.free_iff h.min] at hused
  exact absurd hused (by decide)

/-- An indirect slot that is left over points to a block of somebody else, or to one whose
words are no block numbers. -/
theorem rest_of_matches (hm : BitmapMatches args s) (hk : args[k]? = some arg)
    (hshort : arg.dataBlocks < ndirect) : arg.rest heap (sizeofFile * k) 176 = 0 := by
  by_contra hrest
  have hfile : FormattedFile args (entryOfArg args k) :=
    .inr ⟨k, (List.getElem?_eq_some_iff.mp hk).1, rfl⟩
  have hind := h.fIndirect_short hk hshort
  have h0 : fIndirect s.diskmap (entryOfArg args k) ≠ 0 := by
    rw [hind]
    exact fun h0 => hrest (BitVec.eq_of_toNat_eq h0)
  have hmax := h.max
  have hnb := h.nblocks
  have hlt := hm.used _ none hfile ⟨trivial, nofun, h0⟩
  rw [held_none, hnb] at hlt
  have hused := (h.free_iff hlt.1).mp hlt.2
  -- A slot of the indirect block with a word that is out of range.
  have hbig : ∀ i < nindirect,
      1024 < (word s.diskmap (fIndirect s.diskmap (entryOfArg args k) * blksize + 4 * i)).toNat →
      False := by
    intro i hi hword
    have hge : ¬ndirect + i < ndirect := by omega
    have hheld : held s.diskmap (entryOfArg args k) (some (ndirect + i)) =
        (word s.diskmap (fIndirect s.diskmap (entryOfArg args k) * blksize + 4 * i)).toNat := by
      rw [held_some, if_neg hge, if_neg h0, Nat.add_sub_cancel_left]
    have hvalid : ValidSlot (some (ndirect + i)) := Nat.add_lt_add_left hi _
    have hin := (hm.used _ _ hfile ⟨hvalid, fun j hj hd => ?_, by omega⟩).1
    · omega
    · cases hj
      omega
  rcases Nat.lt_or_ge (fIndirect s.diskmap (entryOfArg args k)) 3 with hlow | hhigh
  · obtain h1 | h2 : fIndirect s.diskmap (entryOfArg args k) = 1 ∨
        fIndirect s.diskmap (entryOfArg args k) = 2 := by omega
    · refine hbig 0 (by decide) ?_
      rw [h1, show word s.diskmap (1 * blksize + 4 * 0) = fsMagic from h.magic]
      decide
    · refine hbig 32 (by decide) ?_
      rw [h2, show word s.diskmap (2 * blksize + 4 * 32) = 0xFFFFFFFF from
        h.ones 32 (Nat.le_refl _) (by decide)]
      decide
  · obtain ⟨f, x, hf, hx, hheld, hother⟩ := h.exists_stored hhigh hused
    obtain ⟨heq, hnone⟩ := hm.unshared f x _ none hf hx hfile ⟨trivial, nofun, h0⟩ hheld
    exact hother k arg hk hshort heq hnone

end Formatted

/-- The bitmap of a finished image matches its metadata unless there was no file, or there was
something at `f_indirect` in the entry of a short file. -/
theorem bitmap_matches (hrun : fsformat args (Fmt.start heap nb) = .ret () s) :
    BitmapMatches args s ↔ args ≠ [] ∧ NothingLeft args heap := by
  have h : Formatted args heap nb s := Formatted.of_ret hrun
  constructor
  · intro hm
    exact ⟨h.ne_nil_of_matches hm, fun k arg hk hshort => h.rest_of_matches hm hk hshort⟩
  · rintro ⟨hne, hrest⟩
    exact h.bitmapMatches hne hrest

/-- An image of six blocks with one file of five bytes. -/
theorem bitmap_matches_hello :
    ∃ s, fsformat [⟨[104, 105], [1, 2, 3, 4, 5]⟩] (Fmt.start (fun _ => 0) 6) = .ret () s ∧
      BitmapMatches [⟨[104, 105], [1, 2, 3, 4, 5]⟩] s := by
  have hacc : AllAccepted [⟨[104, 105], [1, 2, 3, 4, 5]⟩] 3 (6 : Word).toNat 0 :=
    ⟨by decide, by decide, by decide, by decide⟩
  obtain ⟨s, hrun, -⟩ := fsformat_run (fun _ => 0) (by decide) (by decide) hacc (by decide)
  refine ⟨s, hrun, (bitmap_matches hrun).mpr ⟨nofun, fun k arg hk _ => ?_⟩⟩
  cases k with
  | zero =>
    cases hk
    decide
  | succ k => cases hk

/-- Without files the root directory holds block 3, which has not been allocated. -/
theorem empty_image_mismatch :
    ∃ s, fsformat [] (Fmt.start (fun _ => 0) 4) = .ret () s ∧ ¬BitmapMatches [] s := by
  have hacc : AllAccepted [] 3 (4 : Word).toNat 0 := ⟨nofun, nofun, by decide, by decide⟩
  obtain ⟨s, hrun, h⟩ := fsformat_run (fun _ => 0) (by decide) (by decide) hacc (by decide)
  exact ⟨s, hrun, fun hm => h.ne_nil_of_matches hm rfl⟩

end Jos
