import Jos.Files.Trees

/-!
# The disk behind the cache

A block that is not dirty is on the disk as it is in memory. After a flush the two are the
same on one block, and the rest of the disk is as before.
-/

namespace Jos

open Logic Store

variable {F : Set Nat} {m D : Image} {st st' : Store} {f a b c n k x : Nat}
  {L : List Nat} {w : Nat → Byte} {v : Word}

/-- The image `D`, with the blocks `L` of the image `m`. -/
def onBlocks (L : List Nat) (m D : Image) : Image := fun x => if x / blksize ∈ L then m x else D x

theorem onBlocks_of_mem (h : x / blksize ∈ L) : onBlocks L m D x = m x := if_pos h

theorem onBlocks_of_notMem (h : x / blksize ∉ L) : onBlocks L m D x = D x := if_neg h

theorem word_onBlocks (ha : a % blksize + 4 ≤ blksize) :
    word (onBlocks L m D) a = if a / blksize ∈ L then word m a else word D a := by
  have hdiv : ∀ i < 4, (a + i) / blksize = a / blksize := by
    intro i hi
    unfold blksize at *
    omega
  split
  · rename_i hL
    exact word_congr fun i hi => onBlocks_of_mem ((hdiv i hi).symm ▸ hL)
  · rename_i hL
    exact word_congr fun i hi => onBlocks_of_notMem (fun hc => hL (hdiv i hi ▸ hc))

theorem setBytes_eq_onBlocks :
    setBytes D (b * blksize) blksize (fun i => m (b * blksize + i)) = onBlocks [b] m D := by
  funext x
  by_cases hx : x / blksize = b
  · obtain ⟨hle, hlt⟩ := range_of_block hx
    rw [onBlocks_of_mem (by simp [hx]), setBytes_of_mem hle hlt, Nat.add_sub_cancel' hle]
  · rw [onBlocks_of_notMem (by simp [hx]), setBytes_of_not_mem (outside_of_block hx)]

theorem onBlocks_cons : onBlocks (b :: L) m D = onBlocks L m (onBlocks [b] m D) := by
  funext x
  by_cases hL : x / blksize ∈ L
  · rw [onBlocks_of_mem hL, onBlocks_of_mem (List.mem_cons_of_mem b hL)]
  · rw [onBlocks_of_notMem hL]
    by_cases hb : x / blksize = b
    · rw [onBlocks_of_mem (by simp [hb]), onBlocks_of_mem (by simp [hb])]
    · rw [onBlocks_of_notMem (by simp [hb, hL]), onBlocks_of_notMem (by simp [hb])]

/-- The number that an indirect block has for block `n`. -/
def entryOf (m : Image) (b n : Nat) : Nat := (word m (b * blksize + 4 * (n - ndirect))).toNat

theorem held_direct (hn : n < ndirect) : held m f (some n) = (word m (fDirectAt f n)).toNat := by
  rw [held_some, if_pos hn]

theorem held_entry (hn : ndirect ≤ n) (h0 : held m f none ≠ 0) :
    held m f (some n) = entryOf m (held m f none) n := by
  rw [held_none] at h0
  rw [held_some, if_neg (by omega), if_neg h0]
  rfl

theorem Shape.field_onBlocks (h : Shape F (inodes m)) (hf : f ∈ F) (hk : k + 4 ≤ sizeofFile) :
    word (onBlocks L m D) (f + k) = if f / blksize ∈ L then word m (f + k) else word D (f + k) := by
  obtain ⟨hdiv, hmod⟩ := h.field_block hf hk
  rw [word_onBlocks hmod, hdiv]

theorem fDirectAt_eq (f n : Nat) : fDirectAt f n = f + (136 + 4 * n) := Nat.add_assoc ..

theorem direct_in_file (hn : n < ndirect) : 136 + 4 * n + 4 ≤ sizeofFile := by
  unfold ndirect sizeofFile at *
  omega

theorem entryOf_onBlocks (hn : n < maxblocks) :
    entryOf (onBlocks L m D) c n = if c ∈ L then entryOf m c n else entryOf D c n := by
  have hblock : (c * blksize + 4 * (n - ndirect)) / blksize = c ∧
      (c * blksize + 4 * (n - ndirect)) % blksize + 4 ≤ blksize := by
    unfold maxblocks nindirect ndirect blksize at *
    omega
  unfold entryOf
  rw [word_onBlocks hblock.2, hblock.1]
  split <;> rfl

/-- A block that is not dirty is the same in memory and on the disk. -/
def Coherent (st : Store) : Prop := ∀ x, st.dirty (x / blksize) = false → st.disk x = st.mem x

theorem dirtied_eq_false {dirty : Nat → Bool} (h : dirtied dirty a n (x / blksize) = false) :
    dirty (x / blksize) = false ∧ (x < a ∨ a + n ≤ x) := by
  unfold dirtied at h
  rw [Bool.or_eq_false_iff] at h
  refine ⟨h.1, ?_⟩
  by_contra hin
  have hpart : (x / blksize * blksize < a + n && a < (x / blksize + 1) * blksize && 0 < n) =
      true := by
    simp only [Bool.and_eq_true, decide_eq_true_eq]
    unfold blksize
    omega
  rw [hpart] at h
  cases h.2

theorem Store.flush_dirty (st : Store) (b c : Nat) :
    (st.flush b).dirty c = if c = b then false else st.dirty c := by
  unfold Store.flush
  split
  · by_cases hc : c = b <;> simp [hc]
  · rename_i hd
    by_cases hc : c = b
    · rw [if_pos hc, hc]
      exact Bool.eq_false_iff.mpr hd
    · rw [if_neg hc]

section

variable (h : Coherent st)

include h

theorem Coherent.set : Coherent (st.set a n w) := by
  intro x hx
  obtain ⟨hclean, hout⟩ := dirtied_eq_false hx
  rw [set_disk, set_mem, setBytes_of_not_mem hout]
  exact h x hclean

theorem Coherent.setWord : Coherent (st.setWord a v) := h.set

theorem Coherent.flush_disk : (st.flush b).disk = onBlocks [b] st.mem st.disk := by
  unfold Store.flush
  split
  · exact setBytes_eq_onBlocks
  · rename_i hd
    funext x
    by_cases hx : x / blksize = b
    · rw [onBlocks_of_mem (by simp [hx])]
      exact h x (by rw [hx]; exact Bool.eq_false_iff.mpr hd)
    · rw [onBlocks_of_notMem (by simp [hx])]

theorem Coherent.flush : Coherent (st.flush b) := by
  intro x hx
  rw [h.flush_disk, flush_mem]
  by_cases hb : x / blksize = b
  · exact onBlocks_of_mem (by simp [hb])
  · rw [onBlocks_of_notMem (by simp [hb])]
    rw [flush_dirty, if_neg hb] at hx
    exact h x hx

theorem Coherent.flushAll (L : List Nat) : Coherent (st.flushAll L) := by
  induction L generalizing st with
  | nil => exact h
  | cons b L ih => exact ih h.flush

theorem Coherent.grow (hgrow : Grow f st st') : Coherent st' := by
  cases hgrow with
  | data hn h0 hdir ha hk => exact h.set
  | own hn hi h0 hb => exact h.setWord.flush.setWord
  | ownIndirect h0 hb => exact h.setWord.flush.set.setWord.flush
  | size v => exact h.setWord
  | flush b => exact h.flush
  | record i n => exact h

theorem Coherent.move (hmove : Move f st st') : Coherent st' := by
  cases hmove with
  | grow hgrow => exact h.grow hgrow
  | drop hn hdir h0 => exact h.setWord.setWord
  | dropIndirect hdir h0 hclear => exact h.setWord.setWord

theorem Coherent.moves (hmoves : Moves f st st') : Coherent st' := by
  induction hmoves with
  | refl => exact h
  | tail _ hmove ih => exact ih.move hmove

theorem ownIndirect_disk : (st.ownIndirect f b).disk =
    onBlocks [b] (st.ownIndirect f b).mem (st.take b).disk := by
  have hcoh : Coherent (((st.take b).set (b * blksize) blksize fun _ => 0).setWord (fIndirectAt f)
      (toWord b)) := h.setWord.flush.set.setWord
  unfold Store.ownIndirect
  rw [hcoh.flush_disk, flush_mem]
  rfl

end

/-- What the disk has held: before each write to it, and now. -/
def Store.images (st : Store) : List Image := st.past ++ [st.disk]

theorem Store.images_of_unwritten (h : Unwritten st st') : st'.images = st.images := by
  unfold Store.images
  rw [h.1, h.2]

theorem Coherent.flushAll_disk (h : Coherent st) (L : List Nat) :
    (st.flushAll L).disk = onBlocks L st.mem st.disk := by
  induction L generalizing st with
  | nil =>
    funext x
    rw [onBlocks_of_notMem List.not_mem_nil, flushAll_nil]
  | cons b L ih =>
    show ((st.flush b).flushAll L).disk = _
    rw [ih h.flush, flush_mem, h.flush_disk, ← onBlocks_cons]

def Fs.start (disk : Image) : Fs where
  disk := disk
  cache _ := 0
  mapped _ := false
  dirty _ := false
  past := []
  moves := []

theorem Fs.start_mem (disk : Image) : (Fs.start disk).mem = disk := rfl

theorem Fs.start_coherent (disk : Image) : Coherent (Fs.start disk).seen := fun _ _ => rfl

end Jos
