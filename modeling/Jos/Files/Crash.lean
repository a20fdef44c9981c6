import Jos.Files.Disk

/-!
# Blocks of files after a crash

While an operation runs, a slot on the disk holds what it holds in memory or nothing yet, so no two
files on the disk share a block. Only truncation clears slots that the disk still has: it writes the
block of the file first, but not an indirect block that it keeps.
-/

namespace Jos

open Logic Store List

variable {F : Set Nat} {m m' D : Image} {s s' : Fs} {st st' st1 : Store}
  {f g d a b c n k i j : Nat} {x y : Option Nat} {v : Word} {w : Nat → Byte}
  {L : List Nat} {name path : List Byte}

/-- Types are the same, and a slot on the disk holds what it holds in memory, or nothing, also in an
indirect block that the disk does not know of yet. -/
structure Behind (F : Set Nat) (m D : Image) : Prop where
  type : ∀ f ∈ F, fType D f = fType m f
  direct : ∀ f ∈ F, ∀ n < ndirect, held D f (some n) = 0 ∨ held D f (some n) = held m f (some n)
  indirect : ∀ f ∈ F, held D f none = 0 ∨ held D f none = held m f none
  entry : ∀ f ∈ F, held m f none ≠ 0 → ∀ n, ndirect ≤ n → n < maxblocks →
    entryOf D (held m f none) n = 0 ∨ entryOf D (held m f none) n = held m f (some n)

theorem Behind.refl (F : Set Nat) (m : Image) : Behind F m m where
  type _ _ := rfl
  direct _ _ _ _ := .inr rfl
  indirect _ _ := .inr rfl
  entry _ _ h0 _ hge _ := .inr (held_entry hge h0).symm

theorem Behind.held (h : Behind F m D) (hf : f ∈ F) (hx : ValidSlot x) :
    Jos.held D f x = 0 ∨ Jos.held D f x = Jos.held m f x := by
  cases x with
  | none => exact h.indirect f hf
  | some n =>
    by_cases hn : n < ndirect
    · exact h.direct f hf n hn
    · by_cases h0 : Jos.held D f none = 0
      · exact .inl (held_of_indirect_zero h0 (by omega))
      · have hind := (h.indirect f hf).resolve_left h0
        rw [held_entry (by omega) h0, hind]
        exact h.entry f hf (by rw [← hind]; exact h0) n (by omega) hx

theorem Behind.of_same (h : Behind F m D) (htype : ∀ f ∈ F, fType m' f = fType m f)
    (hheld : ∀ f ∈ F, ∀ x, ValidSlot x → Jos.held m' f x = Jos.held m f x) : Behind F m' D where
  type f hf := (h.type f hf).trans (htype f hf).symm
  direct f hf n hn := by
    rw [hheld f hf (some n) (show n < maxblocks by unfold maxblocks; omega)]
    exact h.direct f hf n hn
  indirect f hf := by
    rw [hheld f hf none trivial]
    exact h.indirect f hf
  entry f hf h0 n hge hn := by
    rw [hheld f hf none trivial] at h0 ⊢
    rw [hheld f hf (some n) hn]
    exact h.entry f hf h0 n hge hn

theorem Behind.write (h : Behind F m D) (hs : Shape F (inodes m)) :
    Behind F m (onBlocks L m D) := by
  refine ⟨fun f hf => ?_, fun f hf n hn => ?_, fun f hf => ?_, fun f hf h0 n hge hn => ?_⟩
  · refine (hs.field_onBlocks hf (show 132 + 4 ≤ sizeofFile by decide)).trans ?_
    split
    · rfl
    · exact h.type f hf
  · rw [held_direct hn, held_direct hn, fDirectAt_eq, hs.field_onBlocks hf (direct_in_file hn)]
    split
    · exact .inr rfl
    · have := h.direct f hf n hn
      rw [held_direct hn, held_direct hn, fDirectAt_eq] at this
      exact this
  · show (word (onBlocks L m D) (f + 176)).toNat = 0 ∨ (word (onBlocks L m D) (f + 176)).toNat = _
    rw [hs.field_onBlocks hf (by decide)]
    split
    · exact .inr rfl
    · exact h.indirect f hf
  · rw [entryOf_onBlocks hn]
    split
    · exact .inr (held_entry hge h0).symm
    · exact h.entry f hf h0 n hge hn

def Unshared (D : Image) : Prop :=
  ∀ f ∈ files D, ∀ g ∈ files D, ∀ x y, ValidSlot x → ValidSlot y → held D f x ≠ 0 →
    held D f x = held D g y → f = g

theorem Behind.files_sub (h : Behind (files m) m D) (hf : f ∈ files D) : f ∈ files m := by
  induction hf with
  | root => exact .root
  | @entry d n j _ hdir hn h0 hj ih =>
    rw [h.type d ih] at hdir
    have heq := (h.held ih (x := some n) hn).resolve_left h0
    rw [heq] at h0 ⊢
    exact .entry ih hdir hn h0 hj

theorem Behind.unshared (h : Behind (files m) m D) (hs : Shape (files m) (inodes m)) :
    Unshared D := by
  intro f hf g hg x y hx hy h0 heq
  have hf' := h.files_sub hf
  have hg' := h.files_sub hg
  have h1 := (h.held hf' hx).resolve_left h0
  have h2 := (h.held hg' hy).resolve_left (heq ▸ h0)
  rw [h1] at h0
  exact (hs.distinct f hf' g hg' x y hx hy h0 ((h1.symm.trans heq).trans h2)).1

/-- The disk is behind the memory, and no image that the disk has held shares a block. -/
structure Safe (st : Store) : Prop where
  layout : Layout (files st.mem) (inodes st.mem)
  coherent : Coherent st
  behind : Behind (files st.mem) st.mem st.disk
  past : ∀ D ∈ st.past, Unshared D

theorem past_of_flush (h : ∀ D ∈ st.images, Unshared D) : ∀ D ∈ (st.flush b).past, Unshared D := by
  intro D hD
  unfold Store.flush at hD
  split at hD
  · exact h D hD
  · exact h D (mem_append_left _ hD)

theorem Behind.own (h : Behind F m D) (h0 : Jos.held m f (some n) = 0)
    (htype : ∀ g ∈ F, fType m' g = fType m g) (hheld : ∀ g ∈ F, ∀ y, ValidSlot y →
      Jos.held m' g y = if g = f ∧ y = some n then b else Jos.held m g y) : Behind F m' D := by
  have hnone : ∀ g ∈ F, Jos.held m' g none = Jos.held m g none := by
    intro g hg
    rw [hheld g hg none trivial, if_neg (fun hc => Option.some_ne_none n hc.2.symm)]
  -- What the disk has in the slot is nothing, since the slot was empty in memory.
  have hslot : ∀ g ∈ F, ∀ k < maxblocks, ∀ e, e = 0 ∨ e = Jos.held m g (some k) →
      e = 0 ∨ e = Jos.held m' g (some k) := by
    intro g hg k hk e he
    rw [hheld g hg (some k) hk]
    split
    · rename_i hc
      rw [hc.1, Option.some.inj hc.2, h0] at he
      exact .inl (he.elim id id)
    · exact he
  refine ⟨fun g hg => (h.type g hg).trans (htype g hg).symm, fun g hg k hk => ?_,
    fun g hg => ?_, fun g hg h1 k hge hk => ?_⟩
  · exact hslot g hg k (by unfold maxblocks; omega) _ (h.direct g hg k hk)
  · rw [hnone g hg]
    exact h.indirect g hg
  · rw [hnone g hg] at h1 ⊢
    exact hslot g hg k hk _ (h.entry g hg h1 k hge hk)

theorem block_ne_bitmap (h : LaidOut F m) (hb : freeIn m b = true) (hc : freeIn m c = true)
    (ho : k < blksize) : (b * blksize + k) / blksize ≠ bitmapAt c / blksize := by
  have hlt := (bitmapAt_block (h.lt_nblocks hc)).1
  have hge : (inodes m).firstData ≤ b := h.free_ge hb
  have hdiv : (b * blksize + k) / blksize = b := by
    unfold blksize at *
    omega
  omega

theorem Grow.regular (hgrow : Grow f st st') (hl : Layout (files st.mem) (inodes st.mem))
    (hf : f ∈ files st.mem) (hreg : fType st.mem f ≠ ftypeDir) :
    f ∈ files st'.mem ∧ fType st'.mem f ≠ ftypeDir := by
  have hkept := (Move.grow hgrow).kept hf hl
  have hfiles : files st'.mem = files st.mem := files_eq_of_same hkept.type fun d hd hd' k hk =>
      hkept.held d hd (fun hc => hreg (hc ▸ hd')) (some k) hk
  rw [hfiles, hkept.type f hf]
  exact ⟨hf, hreg⟩

section

variable (h : Safe st)

include h

theorem Safe.unshared : ∀ D ∈ st.images, Unshared D := by
  intro D hD
  rcases mem_append.mp hD with hpast | hlast
  · exact h.past D hpast
  · rw [mem_singleton.mp hlast]
    exact h.behind.unshared h.layout.toShape

theorem Safe.flush (b : Nat) : Safe (st.flush b) := by
  refine ⟨?_, h.coherent.flush, ?_, past_of_flush h.unshared⟩
  · rw [flush_mem]
    exact h.layout
  · rw [h.coherent.flush_disk, flush_mem]
    exact h.behind.write h.layout.toShape

theorem Safe.flushAll (L : List Nat) : Safe (st.flushAll L) := by
  induction L generalizing st with
  | nil => exact h
  | cons b L ih => exact ih (h.flush b)

theorem Safe.set (hl : Layout (files st.mem) (inodes (st.set a n w).mem))
    (htype : ∀ f ∈ files st.mem, fType (st.set a n w).mem f = fType st.mem f)
    (hheld : ∀ f ∈ files st.mem, ∀ x, ValidSlot x →
      held (st.set a n w).mem f x = held st.mem f x) : Safe (st.set a n w) := by
  have hfiles := files_eq_of_same htype fun d hd _ k hk => hheld d hd (some k) hk
  refine ⟨?_, h.coherent.set, ?_, h.past⟩
  · rw [hfiles]
    exact hl
  · rw [hfiles]
    exact h.behind.of_same htype hheld

theorem Safe.set_agree (hA : (inodes (st.set a n w).mem).Agree (files st.mem) (inodes st.mem)) :
    Safe (st.set a n w) := h.set (h.layout.agree hA) hA.type hA.held

section

variable (hb : freeIn st.mem b = true)

include hb

theorem Safe.take : Safe (st.take b) := by
  have hA := h.layout.toShape.agree_markUsed (h.layout.lt_nblocks hb)
  have hset := h.set (h.layout.take hb) hA.type hA.held
  exact hset.flush _

theorem take_disk (hc : freeIn st.mem c = true)
    (ho : k < blksize) : (st.take c).disk (b * blksize + k) = st.disk (b * blksize + k) := by
  unfold Store.take
  rw [h.coherent.setWord.flush_disk, onBlocks_of_notMem
    (by simp [block_ne_bitmap h.layout hb hc ho])]
  rfl

theorem Safe.take_behind : Behind (files st.mem) st.mem (st.take b).disk := by
  have hA := h.layout.toShape.agree_markUsed (h.layout.lt_nblocks hb)
  rw [← take_mem] at hA
  have hfiles : files (st.take b).mem = files st.mem :=
    files_eq_of_same hA.type fun d hd _ k hk => hA.held d hd (some k) hk
  have hbehind := (h.take hb).behind
  rw [hfiles] at hbehind
  exact hbehind.of_same (fun g hg => (hA.type g hg).symm) fun g hg y hy => (hA.held g hg y hy).symm

end

section

variable (hf : f ∈ files st.mem)

include hf

theorem Safe.size (v : Word) : Safe (st.setWord (fSizeAt f) v) := by
  have hA := h.layout.toShape.agree_size (v := v) hf
  exact h.set ((h.layout.setSize f v).agree hA) hA.type hA.held

/-- A block is taken for a file, or a block of zeros for a directory. -/
theorem Safe.own (hn : n < maxblocks)
    (hi : ndirect ≤ n → held st.mem f none ≠ 0) (h0 : held st.mem f (some n) = 0)
    (hb : freeIn st.mem b = true) (hmem : fType st.mem f = ftypeDir → ∀ o < blksize,
      (st.own f n b).mem (b * blksize + o) = 0)
    (hdisk : fType st.mem f = ftypeDir → ∀ o < blksize, st.disk (b * blksize + o) = 0) :
    Safe (st.own f n b) := by
  have hl := h.layout
  have hmove : Move f st (st.own f n b) := .grow (.own hn hi h0 hb)
  have hkept := hmove.kept hf hl
  have hl' := hmove.layout hf hl
  have hA := hl.agree_own hf hn hi hb
  rw [← own_mem] at hA
  have ht := h.take hb
  have hbehind : Behind (files st.mem) (st.own f n b).mem (st.take b).disk := by
    refine (h.take_behind hb).own (b := b) h0 hkept.type fun g hg y hy => ?_
    refine (hA.held g hg y hy).trans ?_
    rw [Inodes.setHeld_held]
    rfl
  by_cases hdir : fType st.mem f = ftypeDir
  · have hz := fun j (hj : j < blkfiles) => zero_in_block (hmem hdir) hj
    have hz' := fun j (hj : j < blkfiles) => zero_in_block (m := (st.take b).disk) (b := b)
      (fun o ho => (take_disk h hb hb ho).trans (hdisk hdir o ho)) hj
    have hzero := fun j (hj : j < blkfiles) => zero_entry (hz j hj)
    have hzero' := fun j (hj : j < blkfiles) => zero_entry (hz' j hj)
    have ho := hl.owned hf hn hi hb
    have hblock : held (st.own f n b).mem f (some n) = b := by
      rw [ho.held (some n) hn, if_pos rfl]
    have hb0 := hl.free_ne_zero hb
    have hfiles := files_grown hn ⟨hf, hdir⟩ h0 hkept (fun k hk hne => by
      rw [ho.held (some k) hk, if_neg (fun hc => hne (Option.some.inj hc))]) hblock hb0
      fun j hj => (hzero j hj).1
    refine ⟨hl'.extend (fun g hg => (hfiles g).mpr (.inl hg)) fun g hg hnot => ?_,
      ht.coherent.setWord, ⟨fun g hg => ?_, fun g hg k hk => ?_, fun g hg => ?_,
      fun g hg h1 k hge hk => ?_⟩, ht.past⟩ <;> rcases (hfiles g).mp hg with hg' | ⟨j, hj, rfl⟩
    · exact absurd hg' hnot
    · refine ⟨fun y _ => (hzero j hj).2.2 y, f, hf, (hkept.type f hf).trans hdir, n, hn, j, hj,
        ne_of_eq_of_ne hblock hb0, ?_⟩
      exact congrArg (· * blksize + sizeofFile * j) hblock.symm
    · exact hbehind.type g hg'
    · have hfield : 132 + 4 ≤ sizeofFile := by decide
      exact (zero_field (hz' j hj) hfield).trans (zero_field (hz j hj) hfield).symm
    · exact hbehind.direct g hg' k hk
    · exact .inl ((hzero' j hj).2.2 _)
    · exact hbehind.indirect g hg'
    · exact .inl ((hzero' j hj).2.2 _)
    · exact hbehind.entry g hg' h1 k hge hk
    · exact absurd ((hzero j hj).2.2 none) h1
  · have hfiles := files_eq_of_same hkept.type fun d hd hd' k hk =>
        hkept.held d hd (fun hc => hdir (hc ▸ hd')) (some k) hk
    refine ⟨?_, ht.coherent.setWord, ?_, ht.past⟩
    · rw [hfiles]
      exact hl'
    · rw [hfiles]
      exact hbehind

/-- A block is taken for the indirect block, and goes to the disk before the file that refers
to it can. -/
theorem Safe.ownIndirect (h0 : held st.mem f none = 0)
    (hb : freeIn st.mem b = true) : Safe (st.ownIndirect f b) := by
  have hl := h.layout
  have hmove : Move f st (st.ownIndirect f b) := .grow (.ownIndirect h0 hb)
  have hl' := hmove.layout hf hl
  have hkept := hmove.kept hf hl
  have ht := h.take hb
  have ho := hl.ownedIndirect hf h0 hb
  have hheld : ∀ g ∈ files st.mem, ∀ k < maxblocks,
      held (st.ownIndirect f b).mem g (some k) = held st.mem g (some k) := by
    intro g hg k hk
    by_cases hgf : g = f
    · rw [hgf, ho.held (some k) hk, if_neg (Option.some_ne_none k)]
    · exact hkept.held g hg hgf (some k) hk
  have hfiles := files_eq_of_same hkept.type fun d hd _ k hk => hheld d hd k hk
  have hdisk := ownIndirect_disk (f := f) (b := b) h.coherent
  have hbehind := h.take_behind hb
  have hfield : ∀ g ∈ files st.mem, ∀ k, k + 4 ≤ sizeofFile →
      word (st.ownIndirect f b).disk (g + k) = word (st.take b).disk (g + k) := by
    intro g hg k hk
    rw [hdisk, hl'.toShape.field_onBlocks hg hk, if_neg (by simp [hl.home_ne_free hg hb])]
  refine ⟨?_, h.coherent.grow (.ownIndirect h0 hb), ?_, past_of_flush ht.unshared⟩
  · rw [hfiles]
    exact hl'
  rw [hfiles]
  refine ⟨fun g hg => ?_, fun g hg k hk => ?_, fun g hg => ?_, fun g hg h1 k hge hk => ?_⟩
  · exact (hfield g hg 132 (by decide)).trans ((hbehind.type g hg).trans (hkept.type g hg).symm)
  · have hlt : k < maxblocks := by
      unfold maxblocks
      omega
    have hk' := hbehind.direct g hg k hk
    rw [held_direct hk, fDirectAt_eq] at hk'
    rw [hheld g hg k hlt, held_direct hk, fDirectAt_eq, hfield g hg _ (direct_in_file hk)]
    exact hk'
  · have hind : held (st.ownIndirect f b).disk g none = held (st.take b).disk g none :=
      congrArg BitVec.toNat (hfield g hg 176 (by decide))
    rw [hind]
    by_cases hgf : g = f
    · have hz := hbehind.indirect g hg
      rw [hgf, h0] at hz
      rw [hgf]
      exact .inl (hz.elim id id)
    · rw [hkept.held g hg hgf none trivial]
      exact hbehind.indirect g hg
  · rw [hdisk, entryOf_onBlocks hk]
    by_cases hgf : g = f
    · rw [if_pos]
      · exact .inr (held_entry hge h1).symm
      · rw [hgf, ho.held none trivial, if_pos rfl]
        exact mem_singleton_self b
    · rw [hkept.held g hg hgf none trivial] at h1 ⊢
      have hne : held st.mem g none ≠ b := hl.not_held_of_free hb hg (x := none) trivial
      rw [if_neg (by simp [hne]), hheld g hg k hk]
      exact hbehind.entry g hg h1 k hge hk

theorem Safe.grow (hreg : fType st.mem f ≠ ftypeDir) (hgrow : Grow f st st') : Safe st' := by
  cases hgrow with
  | data hn h0 hdir ha hk =>
    exact h.set_agree (h.layout.toShape.agree_write
      (h.layout.toShape.plain_of_data hf hn hdir h0) ha hk)
  | own hn hi h0 hb =>
    exact h.own hf hn hi h0 hb (fun hd => absurd hd hreg) fun hd => absurd hd hreg
  | ownIndirect h0 hb => exact h.ownIndirect hf h0 hb
  | size v => exact h.size hf v
  | flush b => exact h.flush b
  | record i n => exact ⟨h.layout, h.coherent, h.behind, h.past⟩

theorem Safe.grows (hreg : fType st.mem f ≠ ftypeDir) (hgrows : Grows f st st') : Safe st' := by
  have hall : Safe st' ∧ f ∈ files st'.mem ∧ fType st'.mem f ≠ ftypeDir := by
    induction hgrows with
    | refl => exact ⟨h, hf, hreg⟩
    | tail _ hgrow ih => exact ⟨ih.1.grow ih.2.1 ih.2.2 hgrow,
      hgrow.regular ih.1.layout ih.2.1 ih.2.2⟩
  exact hall.1

end

end

/-- Truncation keeps an indirect block only if no slot in it is cleared. -/
def KeepsIndirect (m : Image) (f : Nat) (newsize : Word) : Prop :=
  newsize.toInt < (fSize m f).toInt → (blocksOf newsize).toNat ≤ ndirect ∨
    ∀ n < maxblocks, (blocksOf newsize).toNat ≤ n → held m f (some n) = 0

theorem Safe.resized (h : Safe st) (hf : f ∈ files st.mem) (hreg : fType st.mem f ≠ ftypeDir)
    (hr : Resized f v st st') (hkeep : KeepsIndirect st.mem f v) : Safe st' := by
  obtain ⟨st1, hmoves, hun, hlast⟩ := hr.last
  have hl := h.layout
  have hkept := hr.moves.kept hf hl
  have hl' := hr.moves.layout hf hl
  have hfiles : files st'.mem = files st.mem := files_eq_of_same hkept.type fun d hd hd' k hk =>
      hkept.held d hd (fun hc => hreg (hc ▸ hd')) (some k) hk
  have hcoh : Coherent (st1.setWord (fSizeAt f) v) := (h.coherent.moves hmoves).setWord
  have hdisk : st'.disk = onBlocks [f / blksize] st'.mem st.disk := by
    rw [hlast, Store.resize, hcoh.flush_disk, flush_mem, setWord_disk, hun.1]
  have hpast : ∀ D ∈ st'.past, Unshared D := by
    rw [hlast]
    refine past_of_flush ?_
    have himages := h.unshared
    rw [← images_of_unwritten hun] at himages
    exact himages
  -- The indirect block that is kept has the entries that it had.
  have hentry : held st'.mem f none ≠ 0 → held st'.mem f none = held st.mem f none ∧
      ∀ n < maxblocks, ndirect ≤ n → held st'.mem f (some n) = held st.mem f (some n) := by
    intro h0
    refine ⟨hr.indirect.resolve_right h0, fun n hn hge => ?_⟩
    rw [hr.slots n hn]
    split
    · rename_i hcut
      rcases hkeep hcut.1 with hle | hall
      · exact absurd (hr.cut hcut.1 hle) h0
      · exact (hall n hn hcut.2).symm
    · rfl
  have hfield : ∀ g ∈ files st.mem, ∀ k, k + 4 ≤ sizeofFile → word st'.disk (g + k) =
      if g / blksize = f / blksize then word st'.mem (g + k) else word st.disk (g + k) := by
    intro g hg k hk
    simp only [hdisk, hl'.toShape.field_onBlocks hg hk, mem_singleton]
  refine ⟨?_, ?_, ?_, hpast⟩
  · rw [hfiles]
    exact hl'
  · rw [hlast]
    exact hcoh.flush
  rw [hfiles]
  refine ⟨fun g hg => ?_, fun g hg n hn => ?_, fun g hg => ?_, fun g hg h0 n hge hn => ?_⟩
  · refine (hfield g hg 132 (by decide)).trans ?_
    split
    · rfl
    · exact (h.behind.type g hg).trans (hkept.type g hg).symm
  · rw [held_direct hn, held_direct hn, fDirectAt_eq, hfield g hg _ (direct_in_file hn)]
    split
    · exact .inr rfl
    · rename_i hne
      have hgf : g ≠ f := fun hc => hne (by rw [hc])
      have hb := h.behind.direct g hg n hn
      rw [← hkept.held g hg hgf (some n) (show n < maxblocks by unfold maxblocks; omega),
        held_direct hn, held_direct hn, fDirectAt_eq] at hb
      exact hb
  · have hind := hfield g hg 176 (by decide)
    split at hind
    · exact .inr (congrArg BitVec.toNat hind)
    · rename_i hne
      have hgf : g ≠ f := fun hc => hne (by rw [hc])
      have hb := h.behind.indirect g hg
      rw [← hkept.held g hg hgf none trivial] at hb
      have heq : held st'.disk g none = held st.disk g none := congrArg BitVec.toNat hind
      rw [heq]
      exact hb
  · -- An entry of an indirect block that is still there.
    have hsame : held st'.mem g none = held st.mem g none ∧
        held st'.mem g (some n) = held st.mem g (some n) := by
      by_cases hgf : g = f
      · subst hgf
        exact ⟨(hentry h0).1, (hentry h0).2 n hn hge⟩
      · exact ⟨hkept.held g hg hgf none trivial, hkept.held g hg hgf (some n) hn⟩
    rw [hdisk, entryOf_onBlocks hn]
    split
    · exact .inr (held_entry hge h0).symm
    · rw [hsame.1] at h0 ⊢
      rw [hsame.2]
      exact h.behind.entry g hg h0 n hge hn

/-- The first `k` free blocks hold zeros on the disk. -/
def CleanDisk (m D : Image) (k : Nat) : Prop :=
  ∀ b, freeIn m b = true → freeBelow m b < k → ∀ o < blksize, D (b * blksize + o) = 0

theorem freeBelow_congr (hfree : ∀ c, freeIn m' c = freeIn m c) :
    freeBelow m' b = freeBelow m b := by
  unfold freeBelow
  simp only [hfree]

theorem Safe.getSteps (h : Safe st) (hd : d ∈ dirs st.mem) (hsteps : GetSteps d n b st st')
    (hzero : ∀ o < blksize, st'.mem (b * blksize + o) = 0)
    (hclean : n < maxblocks → CleanDisk st.mem st.disk (needs st.mem d n (n + 1))) :
    Safe st' := by
  have hneeds := needs_succ (m := st.mem) (f := d) (show n < n + 1 by omega)
  cases hsteps with
  | present => exact h
  | own hn hi h0 hb =>
    rw [if_pos h0] at hneeds
    refine h.own hd.1 hn hi h0 hb.1 (fun _ => hzero) fun _ => ?_
    exact hclean hn b hb.1 (by rw [hb.freeBelow_eq_zero]; omega)
  | @ownIndirect c hn hge h0 hc hi h0' hb =>
    have hmove : Move d st (st.ownIndirect d c) := .grow (.ownIndirect h0 hc.1)
    have hkept := hmove.kept hd.1 h.layout
    have ho := h.layout.ownedIndirect hd.1 h0 hc.1
    have hneeds := needs_succ_indirect (m := st.mem) (show n < n + 1 by omega) hge h0
    -- The block is free and comes right after the new indirect block.
    have hfree := ho.taken.2 b
    rw [hb.1] at hfree
    split at hfree
    · cases hfree
    · rename_i hbc
      have hlt : c < b := by
        by_contra hle
        have := hc.2 b (by omega)
        rw [← hfree] at this
        cases this
      have hrank := ho.taken.freeBelow hc.1 hlt
      rw [hb.freeBelow_eq_zero] at hrank
      have hd' : d ∈ files (st.ownIndirect d c).mem := by
        refine IsFile.congr hd.1 fun e he hedir => ⟨(hkept.type e he).trans hedir, fun k hk _ => ?_⟩
        by_cases hed : e = d
        · rw [hed, ho.held (some k) hk, if_neg (Option.some_ne_none k)]
        · exact hkept.held e he hed (some k) hk
      refine (h.ownIndirect hd.1 h0 hc.1).own hd' hn (fun _ => hi) h0' hb.1 (fun _ => hzero)
        fun _ o ho' => ?_
      have hne : (b * blksize + o) / blksize ≠ c := by
        unfold blksize at *
        omega
      rw [ownIndirect_disk h.coherent, onBlocks_of_notMem (by simp [hne]),
        take_disk h hfree.symm hc.1 ho']
      exact hclean hn b hfree.symm (by omega) o ho'

/-- The block that `file_create` extends a directory by holds zeros on the disk. -/
def CreateClean (m D : Image) (path : List Byte) : Prop :=
  ∀ d name, walkIn m path = .missing d name → freeEntry m d = none →
    CleanDisk m D (needs m d (dirLen m d) (dirLen m d + 1))

theorem FileCreated.safe (h : FileCreated path d f name st st1 st') (ht : Tree st.mem)
    (hs : Safe st) (hclean : CreateClean st.mem st.disk path) : Safe st' := by
  have hs1 : Safe st1 := by
    rcases h.grown.steps with heq | ⟨hfull, b, v, hsteps, hzero⟩
    · rw [heq]
      exact hs
    · have hA := ht.layout.toShape.agree_size (v := v) h.dir.1
      have hfiles : Jos.files (st.setWord (fSizeAt d) v).mem = Jos.files st.mem :=
        files_eq_of_same hA.type fun e he _ k hk => hA.held e he (some k) hk
      have hdir : d ∈ dirs (st.setWord (fSizeAt d) v).mem := by
        refine ⟨?_, (hA.type d h.dir.1).trans h.dir.2⟩
        rw [hfiles]
        exact h.dir.1
      refine (hs.size h.dir.1 v).getSteps hdir hsteps hzero ?_
      intro hk c hc hrank
      have hfree : ∀ c, freeIn (st.setWord (fSizeAt d) v).mem c = freeIn st.mem c := hA.free
      rw [hfree] at hc
      rw [freeBelow_congr hfree] at hrank
      refine hclean d name h.walk hfull c hc (hrank.trans_eq ?_)
      exact needs_congr hk fun x hx => hA.held d h.dir.1 x hx
  rw [h.last]
  exact (hs1.set_agree (h.grown.tree.agree_named (h.grown.mem_files ht h.dir) h.name_lt)).flushAll _

/-- What a crash during the operation must not meet: an indirect block that is kept while slots
in it are cleared, and a directory that grows by a block with bytes in it. -/
def TreeOp.CrashOk (s : Fs) (op : TreeOp) : Prop :=
  op.Ok s.mem ∧ match op with
    | .file (.setSize f newsize) => KeepsIndirect s.mem f newsize
    | .create path => CreateClean s.mem s.disk path
    | _ => True

theorem TreeOp.safe {op : TreeOp} {r : Int × List Byte} (ht : Tree s.mem) (h : Safe s.seen)
    (hok : op.CrashOk s) (hrun : op.run s = .ret r s') : Safe s'.seen := by
  obtain ⟨hop, hcrash⟩ := hok
  cases TreeOp.effect_of_ret ht hop hrun with
  | file hop heffect =>
    obtain ⟨hf, hreg, -⟩ := hop
    cases heffect with
    | read hread => exact h.grows hf hreg hread.filled.grows
    | write hw => exact h.grows hf hreg hw.filled.grows
    | setSize hs => exact h.resized hf hreg hs hcrash
  | refused heq => exact heq ▸ h
  | created hnew => exact hnew.safe ht h hcrash
  | flushed _ heq =>
    rw [heq]
    exact h.flushAll _

def CrashStep (s s' : Fs) : Prop := ∃ op : TreeOp, op.CrashOk s ∧ ∃ r, op.run s = .ret r s'

theorem CrashStep.safe (hstep : CrashStep s s') (h : Tree s.mem ∧ Safe s.seen) :
    Tree s'.mem ∧ Safe s'.seen := by
  obtain ⟨op, hok, r, hrun⟩ := hstep
  obtain ⟨r', s'', hret, htree⟩ := TreeOp.run_tree h.1 hok.1
  rw [hrun] at hret
  cases hret
  exact ⟨htree, TreeOp.safe h.1 h.2 hok hrun⟩

/-- Whatever the disk has held, from the start of the server on a sound image: no block was in
slots of two files. Every further operation that meets the condition returns. -/
theorem crash_unshared (h : Tree m) (hrun : Relation.ReflTransGen CrashStep (Fs.start m) s) :
    (∀ D ∈ s.past ++ [s.disk], Unshared D) ∧
      ∀ op : TreeOp, op.CrashOk s → ∃ r s', op.run s = .ret r s' := by
  have hstart : Safe (Fs.start m).seen :=
    ⟨h.layout, Fs.start_coherent m, .refl _ _, fun D hD => absurd hD not_mem_nil⟩
  have hsafe : Tree s.mem ∧ Safe s.seen := by
    induction hrun with
    | refl => exact ⟨h, hstart⟩
    | tail _ hstep ih => exact hstep.safe ih
  refine ⟨hsafe.2.unshared, fun op hok => ?_⟩
  obtain ⟨r, s', hret, -⟩ := TreeOp.run_tree hsafe.1 hok.1
  exact ⟨r, s', hret⟩

/-- One byte is written to the first file of the small image. -/
theorem crash_unshared_write : Tree smallImage ∧ ∃ r s',
    (TreeOp.file (.write (3 * blksize) (fun _ => 7) 1 0)).run (Fs.start smallImage) = .ret r s' ∧
      ∀ D ∈ s'.past ++ [s'.disk], Unshared D := by
  have htree : Tree smallImage := smallImage_tree
  have hmem : 3 * blksize ∈ files smallImage :=
    mem_files_of_root (j := 0) (by decide) (by decide) (by decide)
  have hroom : Room smallImage (3 * blksize) 0 (0 + 1) := by
    unfold Room
    decide +kernel
  have hok : (TreeOp.file (.write (3 * blksize) (fun _ => 7) 1 0)).CrashOk (Fs.start smallImage) :=
    ⟨⟨hmem, by decide, by decide, hroom⟩, trivial⟩
  obtain ⟨r, s', hret⟩ := (crash_unshared htree .refl).2 _ hok
  exact ⟨htree, r, s', hret, (crash_unshared htree (.single ⟨_, hok, r, hret⟩)).1⟩

/-- A byte of block 11 is written to the first file, which is flushed and then truncated to 11
blocks; a byte is written to the second file, which is flushed. -/
def truncateAndReuse : FsM Unit := do
  let _ ← fileWrite (3 * blksize) (.bytes fun _ => 7) 1 45056
  fileFlush (3 * blksize)
  let _ ← fileSetSize (3 * blksize) 45056
  let _ ← fileWrite (3 * blksize + sizeofFile) (.bytes fun _ => 8) 1 0
  fileFlush (3 * blksize + sizeofFile)

/-- The indirect block of the first file still refers, on the disk, to the block that the
second file has got. -/
theorem truncation_shares_block : Tree smallImage ∧
    ∃ s', truncateAndReuse (Fs.start smallImage) = .ret () s' ∧ ¬Unshared s'.disk := by
  have hret : (truncateAndReuse (Fs.start smallImage)).returns fun _ => true := by decide +kernel
  obtain ⟨r, hrun, -⟩ := Outcome.ret_of_returns hret (Fs.start smallImage)
  refine ⟨smallImage_tree, _, hrun, fun hun => ?_⟩
  have hfiles : ∀ j < blkfiles, 3 * blksize + sizeofFile * j ∈
      files ((truncateAndReuse (Fs.start smallImage)).after (Fs.start smallImage)).disk :=
    fun j hj => mem_files_of_root (by decide +kernel) (by decide +kernel) hj
  have heq := hun _ (hfiles 0 (by decide)) _ (hfiles 1 (by decide)) (some 11) (some 0)
    (by unfold ValidSlot; decide) (by unfold ValidSlot; decide) (by decide +kernel)
    (by decide +kernel)
  exact absurd heq (by decide)

end Jos
