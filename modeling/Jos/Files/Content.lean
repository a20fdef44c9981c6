import Mathlib.Data.Finset.Card
import Mathlib.Order.Interval.Finset.Nat
import Jos.Files.Blocks

/-!
# The content of a file

`fileByte` is the byte at a position, if its block is there. A block that fills a hole keeps the
bytes it had while it was free. Whether `file_get_block` finds a block throughout a range depends on
the number of free blocks and the number of blocks that the range lacks.
-/

namespace Jos

open Logic Finset

variable {F : Set Nat} {m m' : Image} {st st' : Store} {f g a b c n k p lo hi : Nat}
  {x y : Option Nat} {v : Word}

def fileByte (m : Image) (f p : Nat) : Option Byte :=
  if held m f (some (p / blksize)) = 0 then none
  else some (m (held m f (some (p / blksize)) * blksize + p % blksize))

theorem fileByte_of_hole (h : held m f (some (p / blksize)) = 0) : fileByte m f p = none := if_pos h

theorem fileByte_of_held (h : held m f (some (p / blksize)) = b) (h0 : b ≠ 0) :
    fileByte m f p = some (m (b * blksize + p % blksize)) := by
  subst h
  exact if_neg h0

section

variable (hheld : held m' f (some (p / blksize)) = held m f (some (p / blksize)))

include hheld

theorem fileByte_eq_of (hbyte : held m f (some (p / blksize)) ≠ 0 →
      m' (held m f (some (p / blksize)) * blksize + p % blksize) =
        m (held m f (some (p / blksize)) * blksize + p % blksize)) :
    fileByte m' f p = fileByte m f p := by
  unfold fileByte
  rw [hheld]
  by_cases h0 : held m f (some (p / blksize)) = 0
  · rw [if_pos h0, if_pos h0]
  · rw [if_neg h0, if_neg h0, hbyte h0]

theorem fileByte_congr (hsame : held m f (some (p / blksize)) ≠ 0 →
      SameOn m m' (held m f (some (p / blksize)) * blksize) blksize) :
    fileByte m' f p = fileByte m f p := by
  refine fileByte_eq_of hheld fun h0 => hsame h0 _ (Nat.le_add_right _ _) ?_
  have hlt : p % blksize < blksize := Nat.mod_lt _ (by decide)
  omega

end

theorem div_lt_maxblocks (hp : p < maxfilesize) : p / blksize < maxblocks := by
  unfold maxfilesize maxblocks blksize at *
  omega

theorem Kept.fileByte (h : Kept F f m m') (hg : g ∈ F) (hne : g ≠ f)
    (hdir : fType m g ≠ ftypeDir) (hp : p < maxfilesize) : fileByte m' g p = fileByte m g p :=
  have hn := div_lt_maxblocks hp
  fileByte_congr (h.held g hg hne (some _) hn) (h.bytes g hg hne hdir _ hn)

/-- The number of free blocks below `b`. -/
def freeBelow (m : Image) (b : Nat) : Nat := ((Finset.range b).filter fun c => freeIn m c).card

def freeCount (m : Image) : Nat := freeBelow m (nblocksIn m)

theorem exists_firstFree (h : 0 < freeCount m) : ∃ b, FirstFree m b := by
  obtain ⟨c, hc⟩ : ((Finset.range (nblocksIn m)).filter fun c => freeIn m c).Nonempty :=
    card_pos.mp h
  have hex : ∃ b, freeIn m b = true := ⟨c, (mem_filter.mp hc).2⟩
  refine ⟨Nat.find hex, Nat.find_spec hex, fun d hd => ?_⟩
  have := Nat.find_min hex hd
  rwa [Bool.not_eq_true] at this

/-- The free blocks are those of `m` without `b`. -/
def TakenFrom (m m' : Image) (b : Nat) : Prop :=
  nblocksIn m' = nblocksIn m ∧ ∀ c, freeIn m' c = if c = b then false else freeIn m c

theorem TakenFrom.of_agree {I : Inodes} (h : (inodes m').Agree F I)
    (hI : I.nblocks = nblocksIn m) (hfree : I.free = ((inodes m).setFree b false).free) :
    TakenFrom m m' b := by
  refine ⟨h.nblocks.trans hI, fun c => (h.free c).trans ?_⟩
  rw [hfree]
  exact Inodes.setFree_free _ b c false

theorem TakenFrom.freeBelow (h : TakenFrom m m' b) (hb : freeIn m b = true) (hc : b < c) :
    freeBelow m' c + 1 = freeBelow m c := by
  have herase : (Finset.range c).filter (fun c => freeIn m' c) =
      ((Finset.range c).filter fun c => freeIn m c).erase b := by
    ext d
    rw [mem_erase, mem_filter, mem_filter, h.2]
    by_cases hd : d = b
    · simp [hd]
    · simp [hd]
  unfold Jos.freeBelow
  rw [herase]
  apply card_erase_add_one
  exact mem_filter.mpr ⟨mem_range.mpr hc, hb⟩

theorem TakenFrom.freeCount (h : TakenFrom m m' b) (hb : freeIn m b = true)
    (hlt : b < nblocksIn m) : freeCount m' + 1 = freeCount m := by
  unfold Jos.freeCount
  rw [h.1]
  exact h.freeBelow hb hlt

/-- The first `k` free blocks hold zeros. -/
def CleanFirst (m : Image) (k : Nat) : Prop :=
  ∀ b, freeIn m b = true → freeBelow m b < k → ∀ o < blksize, m (b * blksize + o) = 0

theorem CleanFirst.mono (h : CleanFirst m n) (hk : k ≤ n) : CleanFirst m k :=
  fun b hb hr => h b hb (by omega)

theorem FirstFree.freeBelow_eq_zero (h : FirstFree m b) : freeBelow m b = 0 := by
  unfold freeBelow
  rw [card_eq_zero, filter_eq_empty_iff]
  intro c hc
  rw [h.2 c (mem_range.mp hc)]
  decide

theorem CleanFirst.take (h : CleanFirst m (k + 1)) (hb : FirstFree m b) (ht : TakenFrom m m' b)
    (hsame : ∀ c, freeIn m c = true → c ≠ b → SameOn m m' (c * blksize) blksize) :
    CleanFirst m' k := by
  intro c hc hr o ho
  rw [ht.2] at hc
  by_cases hcb : c = b
  · rw [if_pos hcb] at hc
    cases hc
  · rw [if_neg hcb] at hc
    have hlt : b < c := by
      by_contra hle
      have := hb.2 c (by omega)
      rw [hc] at this
      cases this
    have hrank := ht.freeBelow hb.1 hlt
    rw [hsame c hc hcb _ (Nat.le_add_right _ _) (by omega)]
    exact h c hc (by omega) o ho

/-- The number of blocks of a range of the file that are missing. -/
def holes (m : Image) (f lo hi : Nat) : Nat :=
  ((Finset.Ico lo hi).filter fun n => held m f (some n) = 0).card

/-- The number of blocks that accesses to the blocks of a range take from the bitmap. -/
def needs (m : Image) (f lo hi : Nat) : Nat :=
  holes m f lo hi + if lo < hi ∧ ndirect < hi ∧ held m f none = 0 then 1 else 0

theorem holes_succ (h : lo < hi) :
    holes m f lo hi = (if held m f (some lo) = 0 then 1 else 0) + holes m f (lo + 1) hi := by
  unfold holes
  have hcons : Finset.Ico lo hi = insert lo (Finset.Ico (lo + 1) hi) := by
    ext n
    rw [mem_insert, mem_Ico, mem_Ico]
    omega
  rw [hcons, filter_insert]
  split
  · rw [card_insert_of_notMem, Nat.add_comm]
    simp
  · rw [Nat.zero_add]

theorem holes_congr (h : ∀ n, lo ≤ n → n < hi → held m' f (some n) = held m f (some n)) :
    holes m' f lo hi = holes m f lo hi := by
  unfold holes
  congr 1
  apply filter_congr
  intro n hn
  obtain ⟨h1, h2⟩ := mem_Ico.mp hn
  rw [h n h1 h2]

theorem needs_succ (h : lo < hi) :
    needs m f (lo + 1) hi + (if held m f (some lo) = 0 then 1 else 0) ≤ needs m f lo hi := by
  unfold needs
  rw [holes_succ h]
  have hle : (if lo + 1 < hi ∧ ndirect < hi ∧ held m f none = 0 then 1 else 0) ≤
      if lo < hi ∧ ndirect < hi ∧ held m f none = 0 then 1 else 0 := by
    split
    · rename_i hc
      rw [if_pos ⟨h, hc.2⟩]
    · exact Nat.zero_le _
  omega

/-- Without an indirect block, two blocks are missing for a block that is not direct. -/
theorem needs_succ_indirect (h : lo < hi) (hge : ndirect ≤ lo) (h0 : held m f none = 0) :
    needs m f lo hi = holes m f (lo + 1) hi + 2 := by
  unfold needs
  rw [holes_succ h, if_pos (held_of_indirect_zero h0 hge), if_pos ⟨h, by omega, h0⟩]
  omega

/-- The effect on the metadata of putting the free block `b` into the slot `x`. -/
structure Owned (F : Set Nat) (f : Nat) (x : Option Nat) (b : Nat) (m m' : Image) : Prop where
  taken : TakenFrom m m' b
  size : fSize m' f = fSize m f
  held : ∀ y, ValidSlot y → held m' f y = if y = x then b else held m f y
  bytes : ∀ B, DataBlock F (inodes m) B → B ≠ b → SameOn m m' (B * blksize) blksize

theorem Owned.of_agree (hf : f ∈ F)
    (hA : (inodes m').Agree F (((inodes m).setFree b false).setHeld f x b))
    (hbytes : ∀ B, DataBlock F (inodes m) B → B ≠ b → SameOn m m' (B * blksize) blksize) :
    Owned F f x b m m' := by
  refine ⟨.of_agree hA rfl rfl, hA.size f hf, fun y hy => (hA.held f hf y hy).trans ?_, hbytes⟩
  rw [Inodes.setHeld_held, Inodes.setFree_held]
  by_cases hyx : y = x
  · rw [if_pos ⟨rfl, hyx⟩, if_pos hyx]
  · rw [if_neg (fun hc => hyx hc.2), if_neg hyx]
    rfl

theorem Layout.owned (h : LaidOut F st.mem) (hf : f ∈ F) (hn : n < maxblocks)
    (hi : ndirect ≤ n → held st.mem f none ≠ 0) (hb : freeIn st.mem b = true) :
    Owned F f (some n) b st.mem (st.own f n b).mem := by
  rw [Store.own_mem]
  exact .of_agree hf (h.agree_own hf hn hi hb) fun B hp _ => h.sameOn_own hf hp hn hb

theorem Layout.ownedIndirect (h : LaidOut F st.mem) (hf : f ∈ F)
    (h0 : held st.mem f none = 0) (hb : freeIn st.mem b = true) :
    Owned F f none b st.mem (st.ownIndirect f b).mem := by
  rw [Store.ownIndirect_mem]
  exact .of_agree hf (h.agree_ownIndirect hf h0 hb) fun B hp hne =>
    h.sameOn_ownIndirect hf hp hb hne

/-- How block `n` of `f` has become `b`: it was there, or a block was taken for it, and before
that one for the indirect block. -/
inductive GetSteps (f n b : Nat) (st : Store) : Store → Prop where
  | present : GetSteps f n b st st
  | own (hn : n < maxblocks) (hi : ndirect ≤ n → held st.mem f none ≠ 0)
      (h0 : held st.mem f (some n) = 0) (hb : FirstFree st.mem b) :
      GetSteps f n b st (st.own f n b)
  | ownIndirect {c : Nat} (hn : n < maxblocks) (hge : ndirect ≤ n) (h0 : held st.mem f none = 0)
      (hc : FirstFree st.mem c) (hi : held (st.ownIndirect f c).mem f none ≠ 0)
      (h0' : held (st.ownIndirect f c).mem f (some n) = 0)
      (hb : FirstFree (st.ownIndirect f c).mem b) :
      GetSteps f n b st ((st.ownIndirect f c).own f n b)

theorem GetSteps.grows (h : GetSteps f n b st st') : Grows f st st' := by
  cases h with
  | present => exact .refl
  | own hn hi h0 hb => exact .single (.own hn hi h0 hb.1)
  | ownIndirect hn hge h0 hc hi h0' hb =>
    exact .head (.ownIndirect h0 hc.1) (.single (.own hn (fun _ => hi) h0' hb.1))

/-- What `file_get_block` has done: block `n` of `f` is `b`. Enough blocks are left for the
blocks of the range that ends at `hi`, if there were enough before. -/
structure Got (F : Set Nat) (f n hi b : Nat) (st st' : Store) : Prop where
  steps : GetSteps f n b st st'
  block : held st'.mem f (some n) = b
  ne_zero : b ≠ 0
  size : fSize st'.mem f = fSize st.mem f
  same : ∀ k < maxblocks, k ≠ n → held st'.mem f (some k) = held st.mem f (some k)
  old : held st.mem f (some n) ≠ 0 → held st.mem f (some n) = b
  bytes : ∀ B, DataBlock F (inodes st.mem) B → freeIn st.mem B = false →
    SameOn st.mem st'.mem (B * blksize) blksize
  room : needs st'.mem f (n + 1) hi ≤ freeCount st'.mem
  clean : CleanFirst st.mem (needs st.mem f n hi) →
    CleanFirst st'.mem (needs st'.mem f (n + 1) hi) ∧
      (held st.mem f (some n) = 0 → ∀ o < blksize, st'.mem (b * blksize + o) = 0)

theorem Got.grows (h : Got F f n hi b st st') : Grows f st st' := h.steps.grows

theorem Got.moves (h : Got F f n hi b st st') : Moves f st st' := h.grows.moves

theorem Got.refl (h0 : held st.mem f (some n) ≠ 0) (hlt : n < hi)
    (hroom : needs st.mem f n hi ≤ freeCount st.mem) :
    Got F f n hi (held st.mem f (some n)) st st where
  steps := .present
  block := rfl
  ne_zero := h0
  size := rfl
  same _ _ _ := rfl
  old _ := rfl
  bytes _ _ _ _ _ _ := rfl
  room := by
    have := needs_succ (m := st.mem) (f := f) hlt
    omega
  clean hc := by
    have := needs_succ (m := st.mem) (f := f) hlt
    exact ⟨hc.mono (by omega), fun hz => absurd hz h0⟩

theorem Owned.bytes_free (ho : Owned F f x b m m') (h : LaidOut F m)
    (hc : freeIn m c = true) (hne : c ≠ b) : SameOn m m' (c * blksize) blksize :=
  ho.bytes c (h.plain_of_free hc) hne

theorem ne_of_free (hB : freeIn m c = false) (hb : freeIn m b = true) : c ≠ b := by
  rintro rfl
  rw [hb] at hB
  cases hB

section

variable (h : LaidOut F st.mem)

include h

theorem Got.own (hf : f ∈ F) (hlt : n < hi) (hhi : hi ≤ maxblocks)
    (hi' : ndirect ≤ n → held st.mem f none ≠ 0) (h0 : held st.mem f (some n) = 0)
    (hb : FirstFree st.mem b) (hroom : needs st.mem f n hi ≤ freeCount st.mem) :
    Got F f n hi b st (st.own f n b) := by
  have hn : n < maxblocks := by omega
  have ho := h.owned hf hn hi' hb.1
  have hcount := ho.taken.freeCount hb.1 (h.lt_nblocks hb.1)
  have hsame : ∀ k < maxblocks, k ≠ n →
      held (st.own f n b).mem f (some k) = held st.mem f (some k) := by
    intro k hk hne
    rw [ho.held (some k) hk, if_neg (fun hc => hne (Option.some.inj hc))]
  -- The slots of the rest of the range are as before.
  have hneeds : needs (st.own f n b).mem f (n + 1) hi = needs st.mem f (n + 1) hi := by
    unfold needs
    rw [ho.held none trivial, if_neg (Option.some_ne_none n).symm, holes_congr]
    intro k hk hk'
    exact hsame k (by omega) (by omega)
  have hstep := needs_succ (m := st.mem) (f := f) hlt
  rw [if_pos h0] at hstep
  refine ⟨.own hn hi' h0 hb, ?_, h.free_ne_zero hb.1, ho.size, hsame, fun hne => absurd h0 hne,
    fun B hp hB => ho.bytes B hp (ne_of_free hB hb.1), ?_, fun hc => ?_⟩
  · rw [ho.held (some n) hn, if_pos rfl]
  · omega
  · rw [hneeds]
    refine ⟨(hc.mono hstep).take hb ho.taken fun c hc' hne => ho.bytes_free h hc' hne, ?_⟩
    intro _ o ho'
    have hkeep : SameOn st.mem (st.own f n b).mem (b * blksize) blksize := by
      rw [Store.own_mem]
      exact h.sameOn_own hf (h.plain_of_free hb.1) hn hb.1
    rw [hkeep _ (Nat.le_add_right _ _) (by omega)]
    exact hc b hb.1 (by rw [hb.freeBelow_eq_zero]; omega) o ho'

theorem Got.ownIndirect (hf : f ∈ F) (hlt : n < hi)
    (hhi : hi ≤ maxblocks) (hge : ndirect ≤ n) (h0 : held st.mem f none = 0)
    (hb : FirstFree st.mem b) (hc : FirstFree (st.ownIndirect f b).mem c)
    (hroom : needs st.mem f n hi ≤ freeCount st.mem) :
    Got F f n hi c st ((st.ownIndirect f b).own f n c) := by
  have hmove : Move f st (st.ownIndirect f b) := .grow (.ownIndirect h0 hb.1)
  have h1 := hmove.layout hf h
  have ho := h.ownedIndirect hf h0 hb.1
  have hcount := ho.taken.freeCount hb.1 (h.lt_nblocks hb.1)
  have hsame : ∀ k < maxblocks,
      held (st.ownIndirect f b).mem f (some k) = held st.mem f (some k) := by
    intro k hk
    rw [ho.held (some k) hk, if_neg (Option.some_ne_none k)]
  have hnone : held (st.ownIndirect f b).mem f none ≠ 0 := by
    rw [ho.held none trivial, if_pos rfl]
    exact h.free_ne_zero hb.1
  have hempty := held_of_indirect_zero h0 hge
  have hneeds : needs (st.ownIndirect f b).mem f n hi + 1 = needs st.mem f n hi := by
    rw [needs_succ_indirect hlt hge h0]
    unfold needs
    rw [if_neg (fun hc => hnone hc.2.2), holes_succ hlt, holes_congr (m := st.mem), if_pos]
    · omega
    · rw [hsame n (by omega)]
      exact hempty
    · exact fun k hk hk' => hsame k (by omega)
  have hempty1 := (hsame n (by omega)).trans hempty
  have hgot := Got.own h1 hf hlt hhi (fun _ => hnone) hempty1 hc (by omega)
  refine ⟨.ownIndirect (by omega) hge h0 hb hnone hempty1 hc, hgot.block, hgot.ne_zero,
    hgot.size.trans ho.size, fun k hk hne => (hgot.same k hk hne).trans (hsame k hk),
    fun hne => absurd hempty hne, fun B hp hB => ?_, hgot.room, fun hclean => ?_⟩
  · have hBb := ne_of_free hB hb.1
    refine SameOn.trans (ho.bytes B hp hBb) (hgot.bytes B ?_ ?_)
    · -- The block is not the new indirect block, so it is still plain.
      have hA := h.agree_ownIndirect hf h0 hb.1
      rw [← Store.ownIndirect_mem] at hA
      refine ⟨hA.firstData ▸ hp.1, fun g hg y hy heq => ?_⟩
      rw [hA.held g hg y hy, Inodes.setHeld_held] at heq
      split at heq
      · exact absurd heq.symm hBb
      · obtain ⟨hne, hdir⟩ := hp.2 g hg y hy heq
        exact ⟨hne, fun hc => hdir ((hA.type g hg).symm.trans hc)⟩
    · rw [ho.taken.2, if_neg hBb]
      exact hB
  · rw [← hneeds] at hclean
    obtain ⟨h1, h2⟩ := hgot.clean (hclean.take hb ho.taken fun c hc' hne => ho.bytes_free h hc' hne)
    refine ⟨h1, fun hz => h2 ?_⟩
    rw [hsame n (by omega)]
    exact hz

theorem fileGetBlock_spec (hf : f ∈ F) (hlt : v.toNat < hi)
    (hhi : hi ≤ maxblocks) (hroom : needs st.mem f v.toNat hi ≤ freeCount st.mem) :
    ∃ b st', FsRuns (fileGetBlock f v) st (.ok (b * blksize)) st' ∧
      Got F f v.toNat hi b st st' := by
  have hv : v.toNat < maxblocks := by omega
  by_cases h0 : held st.mem f (some v.toNat) = 0
  · by_cases hi' : ndirect ≤ v.toNat ∧ held st.mem f none = 0
    · have hneeds := needs_succ_indirect hlt hi'.1 hi'.2
      obtain ⟨b, hb⟩ := exists_firstFree (m := st.mem) (by omega)
      have hcount := (h.ownedIndirect hf hi'.2 hb.1).taken.freeCount hb.1 (h.lt_nblocks hb.1)
      obtain ⟨c, hc⟩ := exists_firstFree (m := (st.ownIndirect f b).mem) (by omega)
      exact ⟨c, _, fileGetBlock_ownIndirect h hf hi'.1 hv hi'.2 hb hc,
        .ownIndirect h hf hlt hhi hi'.1 hi'.2 hb hc hroom⟩
    · have hi'' : ndirect ≤ v.toNat → held st.mem f none ≠ 0 := fun hge hz => hi' ⟨hge, hz⟩
      have hstep := needs_succ (m := st.mem) (f := f) hlt
      rw [if_pos h0] at hstep
      obtain ⟨b, hb⟩ := exists_firstFree (m := st.mem) (by omega)
      exact ⟨b, _, fileGetBlock_own h hf hv hi'' h0 hb, .own h hf hlt hhi hi'' h0 hb hroom⟩
  · exact ⟨_, st, fileGetBlock_present h hf hv h0, .refl h0 hlt hroom⟩

end

end Jos
