import Jos.Files.Content

/-!
# Reading and writing ranges of a file

`file_read` and `file_write` go through a range block by block. Between 0 and `MAXFILESIZE` the
signed and unsigned arithmetic of the source is that of natural numbers.
-/

namespace Jos

open Logic BitVec Store

variable {F : Set Nat} {m m' : Image} {st st' st1 : Store} {f a b c n k p lo mid hi e i : Nat}
  {pos endPos v : Word} {data : Nat → Byte} {s : Nat} {w : Nat → Byte}

theorem toNat_blksize : (toWord blksize).toNat = blksize := by decide

section

variable (h : pos.toNat < 2 ^ 31)

include h

theorem msb_of_small : pos.msb = false := by
  rw [msb_eq_false_iff_two_mul_lt]
  omega

theorem toInt_of_small : pos.toInt = (pos.toNat : Int) :=
  toInt_eq_toNat_of_msb (msb_of_small h)

theorem sdiv_blksize : (pos.sdiv (toWord blksize)).toNat = pos.toNat / blksize := by
  have hb : (toWord blksize).msb = false := by decide
  rw [sdiv_eq, msb_of_small h, hb]
  show (pos.udiv (toWord blksize)).toNat = _
  rw [udiv_eq, toNat_udiv, toNat_blksize]

theorem srem_blksize : (pos.srem (toWord blksize)).toNat = pos.toNat % blksize := by
  have hb : (toWord blksize).msb = false := by decide
  rw [srem_eq, msb_of_small h, hb]
  show (pos.umod (toWord blksize)).toNat = _
  rw [umod_eq, toNat_umod, toNat_blksize]

theorem roundAddr_eq (blk : Nat) : roundAddr blk pos = blk + pos.toNat % blksize := by
  have hlt : pos.toNat % blksize < blksize := Nat.mod_lt _ (by decide)
  have hrem := srem_blksize h
  unfold roundAddr
  rw [toInt_of_small, hrem]
  · omega
  · rw [hrem]
    unfold blksize at *
    omega

end

theorem roundLen_eq (hpos : pos.toNat ≤ endPos.toNat) (hend : endPos.toNat ≤ maxfilesize) :
    (roundLen pos endPos).toNat =
      min (blksize - pos.toNat % blksize) (endPos.toNat - pos.toNat) := by
  have hsmall : pos.toNat < 2 ^ 31 := by
    unfold maxfilesize ndirect nindirect blksize at hend
    omega
  have hrem := srem_blksize hsmall
  have hin : (toWord blksize - pos.srem (toWord blksize)).toNat =
      blksize - pos.toNat % blksize := by
    rw [toNat_sub_of_le, hrem, toNat_blksize]
    rw [le_def, hrem, toNat_blksize]
    exact le_of_lt (Nat.mod_lt _ (by decide))
  have hsub := toNat_sub_of_le (le_def.mpr hpos)
  unfold roundLen
  dsimp only
  rw [hin, hsub]
  split
  · rename_i hle
    rw [hin]
    omega
  · rw [hsub]
    omega

/-- The blocks of the positions below `e`. -/
def blocksBelow (e : Nat) : Nat := (e + (blksize - 1)) / blksize

theorem blocksBelow_le (h : e ≤ maxfilesize) : blocksBelow e ≤ maxblocks := by
  unfold blocksBelow maxfilesize maxblocks blksize at *
  omega

/-- The positions from `a` to `b` and the bytes that go there. -/
def window (a b : Nat) (data : Nat → Byte) : Nat → Option Byte := fun p =>
  if a ≤ p ∧ p < b then some (data p) else none

/-- The bytes `W` have been written into the blocks `lo` to `mid` of `f`. Enough blocks are left
for the blocks from `mid` to `hi`. -/
structure Filled (f lo mid hi : Nat) (W : Nat → Option Byte) (st st' : Store) : Prop where
  grows : Grows f st st'
  wrote : ∀ p < maxfilesize, ∀ c, W p = some c → fileByte st'.mem f p = some c
  kept : ∀ p < maxfilesize, W p = none → ∀ c, fileByte st.mem f p = some c →
    fileByte st'.mem f p = some c
  outside : ∀ p < maxfilesize, p / blksize < lo ∨ mid ≤ p / blksize →
    fileByte st'.mem f p = fileByte st.mem f p
  room : needs st'.mem f mid hi ≤ freeCount st'.mem
  clean : CleanFirst st.mem (needs st.mem f lo hi) →
    CleanFirst st'.mem (needs st'.mem f mid hi) ∧
      ∀ p < maxfilesize, lo ≤ p / blksize → p / blksize < mid → W p = none →
        fileByte st.mem f p = none → fileByte st'.mem f p = some 0

theorem Filled.moves (h : Filled f lo mid hi W st st') : Moves f st st' := h.grows.moves

theorem Filled.refl (hroom : needs st.mem f lo hi ≤ freeCount st.mem) :
    Filled f lo lo hi (fun _ => none) st st where
  grows := .refl
  wrote _ _ _ h := by cases h
  kept _ _ _ _ h := h
  outside _ _ _ := rfl
  room := hroom
  clean hc := ⟨hc, fun p _ h h' => by omega⟩

variable {W W' : Nat → Option Byte}

theorem Filled.trans (h : Filled f lo mid hi W st st1) (h' : Filled f mid n hi W' st1 st')
    (hle : lo ≤ mid) (hmid : mid ≤ n) :
    Filled f lo n hi (fun p => if p / blksize < mid then W p else W' p) st st' where
  grows := h.grows.trans h'.grows
  wrote p hp c hc := by
    split at hc
    · rename_i hlt
      rw [h'.outside p hp (Or.inl hlt)]
      exact h.wrote p hp c hc
    · exact h'.wrote p hp c hc
  kept p hp hnone c hc := by
    split at hnone
    · rename_i hlt
      rw [h'.outside p hp (Or.inl hlt)]
      exact h.kept p hp hnone c hc
    · rename_i hge
      apply h'.kept p hp hnone
      rw [h.outside p hp (Or.inr (by omega))]
      exact hc
  outside p hp hout := by
    rw [h'.outside p hp (by omega), h.outside p hp (by omega)]
  room := h'.room
  clean hc := by
    obtain ⟨h1, h2⟩ := h.clean hc
    obtain ⟨h3, h4⟩ := h'.clean h1
    refine ⟨h3, fun p hp hlo hhi hnone hz => ?_⟩
    split at hnone
    · rename_i hlt
      rw [h'.outside p hp (Or.inl hlt)]
      exact h2 p hp hlo hlt hnone hz
    · rename_i hge
      apply h4 p hp (by omega) hhi hnone
      rw [h.outside p hp (Or.inr (by omega))]
      exact hz

theorem Got.filled (h : Got F f n hi b st st') (hl : LaidOut F st.mem) (hf : f ∈ F)
    (hreg : fType st.mem f ≠ ftypeDir) :
    Filled f n (n + 1) hi (fun _ => none) st st' := by
  have hkeep : ∀ k < maxblocks, held st.mem f (some k) ≠ 0 →
      SameOn st.mem st'.mem (held st.mem f (some k) * blksize) blksize := by
    intro k hk h0
    exact h.bytes _ (hl.toShape.plain_of_data hf hk hreg h0) (hl.used f hf (some k) hk h0)
  have hsame : ∀ p < maxfilesize, held st.mem f (some (p / blksize)) ≠ 0 →
      fileByte st'.mem f p = fileByte st.mem f p := by
    intro p hp h0
    have hk := div_lt_maxblocks hp
    refine fileByte_congr ?_ (hkeep _ hk)
    by_cases hpn : p / blksize = n
    · rw [hpn] at h0 ⊢
      rw [h.block, h.old h0]
    · exact h.same _ hk hpn
  refine ⟨h.grows, fun _ _ _ hc => absurd hc (by simp), fun p hp _ c hc => ?_,
    fun p hp hout => ?_, h.room, fun hclean => ?_⟩
  · rw [hsame p hp, hc]
    intro hz
    rw [fileByte_of_hole hz] at hc
    cases hc
  · have hk := div_lt_maxblocks hp
    exact fileByte_congr (h.same _ hk (by omega)) (hkeep _ hk)
  · obtain ⟨h1, h2⟩ := h.clean hclean
    refine ⟨h1, fun p hp hlo hhi _ hnone => ?_⟩
    have hpn : p / blksize = n := by omega
    have hz : held st.mem f (some n) = 0 := by
      by_contra h0
      rw [fileByte_of_held (by rw [hpn]) h0] at hnone
      cases hnone
    rw [fileByte_of_held (by rw [hpn]; exact h.block) h.ne_zero, h2 hz _ (Nat.mod_lt _ (by decide))]

theorem Shape.agree_data {o : Nat} (h : Shape F (inodes m)) (hf : f ∈ F)
    (hreg : fType m f ≠ ftypeDir) (hn : n < maxblocks) (h0 : held m f (some n) ≠ 0)
    (hk : o + k ≤ blksize) :
    (inodes (setBytes m (held m f (some n) * blksize + o) k w)).Agree F (inodes m) := by
  have hplain : DataBlock F (inodes m) (held m f (some n)) := h.plain_of_data hf hn hreg h0
  exact h.agree_write hplain (Nat.le_add_right _ _) (by omega)

theorem fileByte_set {s k : Nat} (hl : LaidOut F m) (hf : f ∈ F)
    (hreg : fType m f ≠ ftypeDir) (hn : n < maxblocks) (h0 : held m f (some n) ≠ 0)
    (hs : s / blksize = n) (hk : s % blksize + k ≤ blksize) (hp : p < maxfilesize) :
    fileByte (setBytes m (held m f (some n) * blksize + s % blksize) k w) f p =
      if s ≤ p ∧ p < s + k then some (w (p - s)) else fileByte m f p := by
  have hA := hl.toShape.agree_data (w := w) hf hreg hn h0 hk
  have hlt := div_lt_maxblocks hp
  have hheld := hA.held f hf (some (p / blksize)) hlt
  by_cases hin : s ≤ p ∧ p < s + k
  · have hpn : p / blksize = n := by
      unfold blksize at *
      omega
    have hoff : p % blksize = s % blksize + (p - s) := by
      unfold blksize at *
      omega
    have hb : held (setBytes m (held m f (some n) * blksize + s % blksize) k w) f
        (some (p / blksize)) = held m f (some n) := by
      rw [hpn] at hheld ⊢
      exact hheld
    rw [if_pos hin, fileByte_of_held hb h0, setBytes_of_mem (by omega) (by omega)]
    congr 2
    omega
  · rw [if_neg hin]
    refine (fileByte_eq_of hheld fun h1 => setBytes_of_not_mem ?_)
    by_cases hpn : p / blksize = n
    · rw [hpn]
      unfold blksize at *
      omega
    · have hne : held m f (some (p / blksize)) ≠ held m f (some n) := by
        intro heq
        exact hpn (Option.some.inj (hl.distinct f hf f hf (some _) (some n) hlt hn h1 heq).2)
      have hlt' : p % blksize < blksize := Nat.mod_lt _ (by decide)
      unfold blksize at *
      omega

theorem freeCount_congr (hn : nblocksIn m' = nblocksIn m) (hfree : ∀ b, freeIn m' b = freeIn m b) :
    freeCount m' = freeCount m ∧ ∀ b, freeBelow m' b = freeBelow m b := by
  have hbelow : ∀ b, freeBelow m' b = freeBelow m b := by
    intro b
    unfold freeBelow
    congr 1
    apply Finset.filter_congr
    intro c _
    rw [hfree]
  refine ⟨?_, hbelow⟩
  unfold freeCount
  rw [hn, hbelow]

theorem needs_congr (hhi : hi ≤ maxblocks)
    (h : ∀ x, ValidSlot x → held m' f x = held m f x) : needs m' f lo hi = needs m f lo hi := by
  unfold needs
  rw [h none trivial, holes_congr]
  intro n _ hn
  exact h (some n) (lt_of_lt_of_le hn hhi)

theorem CleanFirst.congr (h : CleanFirst m k) (hbelow : ∀ b, freeBelow m' b = freeBelow m b)
    (hfree : ∀ b, freeIn m' b = freeIn m b)
    (hsame : ∀ b, freeIn m b = true → SameOn m m' (b * blksize) blksize) : CleanFirst m' k := by
  intro b hb hr o ho
  rw [hfree] at hb
  rw [hbelow] at hr
  rw [hsame b hb _ (Nat.le_add_right _ _) (by omega)]
  exact h b hb hr o ho

theorem Filled.store (h : Filled f n (n + 1) hi (fun _ => none) st st1)
    (hl : LaidOut F st1.mem) (hf : f ∈ F) (hreg : fType st1.mem f ≠ ftypeDir)
    (hn : n < maxblocks) (hhi : hi ≤ maxblocks) (h0 : held st1.mem f (some n) ≠ 0)
    (hs : s / blksize = n) (hk : s % blksize + k ≤ blksize) :
    Filled f n (n + 1) hi (window s (s + k) fun p => w (p - s)) st
      ((st1.set (held st1.mem f (some n) * blksize + s % blksize) k w).move i k) := by
  have hA := hl.toShape.agree_data (w := w) hf hreg hn h0 hk
  have hmove : Grow f st1 (st1.set (held st1.mem f (some n) * blksize + s % blksize) k w) :=
    .data hn h0 hreg (Nat.le_add_right _ _) (by omega)
  have hbyte : ∀ p < maxfilesize, fileByte (setBytes st1.mem
      (held st1.mem f (some n) * blksize + s % blksize) k w) f p =
        if s ≤ p ∧ p < s + k then some (w (p - s)) else fileByte st1.mem f p :=
    fun p hp => fileByte_set hl hf hreg hn h0 hs hk hp
  have hnone : ∀ p < maxfilesize, window s (s + k) (fun p => w (p - s)) p = none →
      fileByte (setBytes st1.mem (held st1.mem f (some n) * blksize + s % blksize) k w) f p =
        fileByte st1.mem f p := by
    intro p hp hw
    rw [hbyte p hp]
    unfold window at hw
    split at hw
    · cases hw
    · rename_i hout
      exact if_neg hout
  have hcount := freeCount_congr hA.nblocks hA.free
  have hneeds : needs (setBytes st1.mem (held st1.mem f (some n) * blksize + s % blksize) k w) f
      (n + 1) hi = needs st1.mem f (n + 1) hi := needs_congr hhi fun x hx => hA.held f hf x hx
  refine ⟨(h.grows.tail hmove).tail (.record i k), fun p hp c hc => ?_,
    fun p hp hw c hc => ?_, fun p hp hout => ?_, ?_, fun hclean => ?_⟩
  · rw [move_mem, set_mem, hbyte p hp]
    unfold window at hc
    split at hc
    · rename_i hin
      rw [if_pos hin]
      exact hc
    · cases hc
  · exact (hnone p hp hw).trans (h.kept p hp rfl c hc)
  · refine Eq.trans ?_ (h.outside p hp hout)
    rw [move_mem, set_mem, hbyte p hp, if_neg]
    unfold blksize at *
    omega
  · rw [move_mem, set_mem, hneeds, hcount.1]
    exact h.room
  · obtain ⟨h1, h2⟩ := h.clean hclean
    refine ⟨?_, fun p hp hlo hmid hw hz => (hnone p hp hw).trans (h2 p hp hlo hmid rfl hz)⟩
    rw [move_mem, set_mem, hneeds]
    refine h1.congr hcount.2 hA.free fun c hc => sameOn_setBytes ?_
    -- The block of the file is not free.
    have hne : held st1.mem f (some n) ≠ c := ne_of_free (hl.used f hf (some n) hn h0) hc
    unfold blksize at *
    omega

/-- Copies that follow each other in the caller's buffer, from `i` to `j`. -/
inductive Copies : List (Nat × Nat) → Nat → Nat → Prop where
  | nil (i : Nat) : Copies [] i i
  | cons {i j : Nat} {L : List (Nat × Nat)} (n : Nat) (h : Copies L (i + n) j) :
      Copies ((i, n) :: L) i j

/-- The source gives the bytes of `data` for the first `total` places of the buffer. -/
def Source.Gives (src : Source) (data : Nat → Byte) (total : Nat) : Prop :=
  ∀ st i n, i + n ≤ total → ∃ w, FsRuns (src.fetch i n) st w st ∧
    ∀ j < n, w j = data (i + j)

theorem Source.gives_bytes (data : Nat → Byte) (total : Nat) :
    (Source.bytes data).Gives data total :=
  fun st _ _ _ => ⟨_, .pure _ st, fun _ _ => rfl⟩

theorem window_split {s s' : Nat} (hs : s' = min ((s / blksize + 1) * blksize) e) :
    (fun p => if p / blksize < s / blksize + 1 then window s s' data p else window s' e data p) =
      window s e data := by
  funext p
  unfold window blksize at *
  by_cases h1 : p / 4096 < s / 4096 + 1
  · rw [if_pos h1]
    by_cases h2 : s ≤ p ∧ p < e
    · rw [if_pos h2, if_pos (by omega)]
    · rw [if_neg h2, if_neg (by omega)]
  · rw [if_neg h1]
    by_cases h2 : s ≤ p ∧ p < e
    · rw [if_pos h2, if_pos (by omega)]
    · rw [if_neg h2, if_neg (by omega)]

theorem window_congr {data data' : Nat → Byte}
    (h : ∀ p, s ≤ p → p < e → data p = data' p) : window s e data = window s e data' := by
  funext p
  unfold window
  split
  · rename_i hp
    rw [h p hp.1 hp.2]
  · rfl

theorem window_self : window s s data = fun _ => none := by
  funext p
  exact if_neg (by omega)

theorem lt_of_le_maxfilesize (h : e ≤ maxfilesize) : e < 2 ^ 31 := by
  unfold maxfilesize ndirect nindirect blksize at h
  omega

theorem round_facts (hpos : pos.toNat < endPos.toNat) (hend : endPos.toNat ≤ maxfilesize) :
    pos.toNat / blksize < blocksBelow endPos.toNat ∧
    0 < (roundLen pos endPos).toNat ∧
    pos.toNat % blksize + (roundLen pos endPos).toNat ≤ blksize ∧
    (pos + roundLen pos endPos).toNat = pos.toNat + (roundLen pos endPos).toNat ∧
    pos.toNat + (roundLen pos endPos).toNat =
      min ((pos.toNat / blksize + 1) * blksize) endPos.toNat := by
  have hlen := roundLen_eq (le_of_lt hpos) hend
  have hsmall := lt_of_le_maxfilesize hend
  have hadd : (pos + roundLen pos endPos).toNat = pos.toNat + (roundLen pos endPos).toNat := by
    rw [toNat_add, hlen]
    apply Nat.mod_eq_of_lt
    omega
  refine ⟨?_, ?_, ?_, hadd, ?_⟩ <;> unfold blocksBelow at * <;> unfold blksize at * <;> omega

/-- The first block of the positions that are left. -/
def nextBlock (pos e : Nat) : Nat := if pos < e then pos / blksize else blocksBelow e

theorem nextBlock_round {s' : Nat} (hpos : k < e)
    (hs : s' = min ((k / blksize + 1) * blksize) e) : nextBlock s' e = k / blksize + 1 := by
  unfold nextBlock blocksBelow blksize at *
  split <;> omega

/-- What `file_write` does from the position `pos` on, when `i` bytes have been written. -/
structure Wrote (f pos e : Nat) (data : Nat → Byte) (i : Nat) (st st' : Store) : Prop where
  size : fSize st'.mem f = fSize st.mem f
  filled : Filled f (nextBlock pos e) (blocksBelow e) (blocksBelow e)
    (window pos e fun p => data (i + (p - pos))) st st'

theorem nextBlock_self : nextBlock e e = blocksBelow e := if_neg (lt_irrefl e)

theorem Wrote.done (hroom : needs st.mem f (blocksBelow e) (blocksBelow e) ≤ freeCount st.mem) :
    Wrote f e e data i st st := by
  refine ⟨rfl, ?_⟩
  rw [nextBlock_self, window_self]
  exact .refl hroom

theorem Wrote.round {data w : Nat → Byte} (hlt : s < e) (hk : 0 < k)
    (hmin : s + k = min ((s / blksize + 1) * blksize) e) (hw : ∀ j < k, w j = data (i + j))
    (hfill : Filled f (s / blksize) (s / blksize + 1) (blocksBelow e)
      (window s (s + k) fun p => w (p - s)) st (st1.move i k))
    (hsize : fSize st1.mem f = fSize st.mem f)
    (hrest : Wrote f (s + k) e data (i + k) (st1.move i k) st') :
    Wrote f s e data i st st' := by
  have hnext : nextBlock s e = s / blksize := if_pos hlt
  have hfirst : window s (s + k) (fun p => w (p - s)) =
      window s (s + k) fun p => data (i + (p - s)) :=
    window_congr fun p _ _ => hw _ (by omega)
  have hlast : window (s + k) e (fun p => data (i + k + (p - (s + k)))) =
      window (s + k) e fun p => data (i + (p - s)) :=
    window_congr fun p _ _ => congrArg data (by omega)
  obtain ⟨hsize', hfilled⟩ := hrest
  rw [nextBlock_round hlt hmin, hlast] at hfilled
  rw [hfirst] at hfill
  have htrans := hfill.trans hfilled (Nat.le_succ _) (by
    unfold blocksBelow
    unfold blksize at *
    omega)
  rw [window_split hmin] at htrans
  refine ⟨hsize'.trans hsize, ?_⟩
  rw [hnext]
  exact htrans

theorem round_runs (hl : LaidOut F st.mem) (hf : f ∈ F) (hlt : pos.toNat < endPos.toNat)
    (hend : endPos.toNat ≤ maxfilesize)
    (hroom : needs st.mem f (nextBlock pos.toNat endPos.toNat) (blocksBelow endPos.toNat) ≤
      freeCount st.mem) :
    ∃ b st1, FsRuns (fileGetBlock f (pos.sdiv (toWord blksize))) st
        (.ok (b * blksize)) st1 ∧
      Got F f (pos.toNat / blksize) (blocksBelow endPos.toNat) b st st1 ∧
      ReadableRange st1.mem (b * blksize + pos.toNat % blksize) (roundLen pos endPos).toNat := by
  obtain ⟨hblk, -, hin, -, -⟩ := round_facts hlt hend
  have hhi := blocksBelow_le hend
  have hmax := lt_of_le_maxfilesize hend
  have hdiv := sdiv_blksize (show pos.toNat < 2 ^ 31 by omega)
  have hnext : nextBlock pos.toNat endPos.toNat = pos.toNat / blksize := if_pos hlt
  rw [hnext] at hroom
  obtain ⟨b, st1, hget, hgot⟩ := fileGetBlock_spec
    (v := pos.sdiv (toWord blksize)) hl hf (by rw [hdiv]; exact hblk) hhi
    (by rw [hdiv]; exact hroom)
  rw [hdiv] at hgot
  have hread := (hgot.moves.layout hf hl).readable_held hf (x := some (pos.toNat / blksize))
    (lt_of_lt_of_le hblk hhi) (by rw [hgot.block]; exact hgot.ne_zero)
  rw [hgot.block] at hread
  exact ⟨b, st1, hget, hgot, readableRange_block hread (by omega) (by omega)⟩

theorem fileWriteLoop_of_not_lt {src : Source} (rounds : Nat) (h : ¬pos.toNat < endPos.toNat) :
    FsRuns (fileWriteLoop f src endPos rounds pos i) st 0 st := by
  cases rounds with
  | zero => exact .pure _ _
  | succ rounds => exact .ite_neg h (.pure _ _)

theorem fileWriteLoop_spec {src : Source} {total : Nat} (hf : f ∈ F)
    (hend : endPos.toNat ≤ maxfilesize) (hsrc : src.Gives data total) (rounds : Nat) :
    ∀ (pos : Word) (i : Nat) (st : Store), LaidOut F st.mem → fType st.mem f ≠ ftypeDir →
      pos.toNat ≤ endPos.toNat → endPos.toNat - pos.toNat ≤ rounds →
      i + (endPos.toNat - pos.toNat) ≤ total →
      needs st.mem f (nextBlock pos.toNat endPos.toNat) (blocksBelow endPos.toNat) ≤
        freeCount st.mem →
      ∃ st', FsRuns (fileWriteLoop f src endPos rounds pos i) st 0 st' ∧
        Wrote f pos.toNat endPos.toNat data i st st' := by
  induction rounds with
  | zero =>
    intro pos i st _ _ hle hrounds _ hroom
    have heq : pos.toNat = endPos.toNat := by omega
    rw [heq, nextBlock_self] at hroom
    rw [heq]
    exact ⟨st, .pure _ _, .done hroom⟩
  | succ rounds ih =>
    intro pos i st hl hreg hle hrounds htotal hroom
    by_cases hlt : pos.toNat < endPos.toNat
    · obtain ⟨hblk, hlen0, hin, hadd, hmin⟩ := round_facts hlt hend
      have hmax := lt_of_le_maxfilesize hend
      have hvalid := lt_of_lt_of_le hblk (blocksBelow_le hend)
      -- One round: the block, and the bytes into it.
      obtain ⟨b, st1, hget, hgot, hread⟩ := round_runs hl hf hlt hend hroom
      have hl1 := hgot.moves.layout hf hl
      have hreg1 := hgot.moves.regular hf hl hreg
      have hb0 : held st1.mem f (some (pos.toNat / blksize)) ≠ 0 := by
        rw [hgot.block]
        exact hgot.ne_zero
      obtain ⟨w, hfetch, hw⟩ := hsrc st1 i (roundLen pos endPos).toNat (by omega)
      have hfill := (hgot.filled hl hf hreg).store (w := w) (i := i) hl1 hf hreg1 hvalid
        (blocksBelow_le hend) hb0 rfl hin
      have hsize := ((hl1.toShape.agree_data (w := w) hf hreg1 hvalid hb0 hin).size f hf).trans
        hgot.size
      rw [hgot.block] at hfill hsize
      -- The rest of the loop.
      obtain ⟨st', hrun, hrest⟩ := ih (pos + roundLen pos endPos)
        (i + (roundLen pos endPos).toNat) _ (hfill.moves.layout hf hl)
        (hfill.moves.regular hf hl hreg) (by omega) (by omega) (by omega)
        (by rw [hadd, nextBlock_round hlt hmin]; exact hfill.room)
      rw [hadd] at hrest
      refine ⟨st', .ite_pos hlt (.bind hget (.bind hfetch ?_)),
        .round hlt hlen0 hmin hw hfill hsize hrest⟩
      rw [roundAddr_eq (by omega)]
      exact .bind (storeBytes_runs hread) (.bind (recordMove_runs _ _) hrun)
    · have heq : pos.toNat = endPos.toNat := by omega
      refine ⟨st, .ite_neg hlt (.pure _ _), ?_⟩
      rw [heq, nextBlock_self] at hroom
      rw [heq]
      exact .done hroom

/-- What `file_read` does from the position `pos` on, when `i` bytes have been read: it
returns the bytes `out`. -/
structure WasRead (f pos e i : Nat) (out : List Byte) (st st' : Store) : Prop where
  size : fSize st'.mem f = fSize st.mem f
  filled : Filled f (nextBlock pos e) (blocksBelow e) (blocksBelow e) (fun _ => none) st st'
  length : out.length = e - pos
  bytes : ∀ j < e - pos, fileByte st'.mem f (pos + j) = out[j]?

theorem WasRead.done (hroom : needs st.mem f (blocksBelow e) (blocksBelow e) ≤ freeCount st.mem) :
    WasRead f e e i [] st st := by
  refine ⟨rfl, ?_, ?_, fun j hj => ?_⟩
  · rw [nextBlock_self]
    exact .refl hroom
  · rw [Nat.sub_self]
    rfl
  · omega

theorem WasRead.round {out : List Byte} (hlt : s < e) (hend : e ≤ maxfilesize)
    (hmin : s + k = min ((s / blksize + 1) * blksize) e)
    (hfill : Filled f (s / blksize) (s / blksize + 1) (blocksBelow e) (fun _ => none) st st1)
    (hsize : fSize st1.mem f = fSize st.mem f)
    (hblock : held st1.mem f (some (s / blksize)) = b) (h0 : b ≠ 0)
    (hrest : WasRead f (s + k) e (i + k) out (st1.move i k) st') :
    WasRead f s e i ((List.range k).map (fun j => st1.mem (b * blksize + s % blksize + j)) ++ out)
      st st' := by
  have hnext : nextBlock s e = s / blksize := if_pos hlt
  obtain ⟨hsize', hfilled, hlen, hbytes⟩ := hrest
  rw [nextBlock_round hlt hmin] at hfilled
  have hmove : Filled f (s / blksize) (s / blksize + 1) (blocksBelow e) (fun _ => none) st
      (st1.move i k) := { hfill with grows := hfill.grows.tail (.record i k) }
  refine ⟨hsize'.trans hsize, ?_, ?_, fun j hj => ?_⟩
  · have htrans := hmove.trans hfilled (Nat.le_succ _) (by
      unfold blocksBelow
      unfold blksize at *
      omega)
    simp only [ite_self] at htrans
    rw [hnext]
    exact htrans
  · rw [List.length_append, List.length_map, List.length_range, hlen]
    omega
  · by_cases hjk : j < k
    · have hdiv : (s + j) / blksize = s / blksize := by
        unfold blksize at *
        omega
      have hmod : (s + j) % blksize = s % blksize + j := by
        unfold blksize at *
        omega
      have hbyte : fileByte st1.mem f (s + j) = some (st1.mem (b * blksize + s % blksize + j)) := by
        rw [fileByte_of_held (by rw [hdiv]; exact hblock) h0, hmod, Nat.add_assoc]
      rw [List.getElem?_append_left (by simpa using hjk), List.getElem?_map,
        List.getElem?_range hjk]
      exact hfilled.kept _ (by omega) rfl _ hbyte
    · have hshift : s + j = s + k + (j - k) := by omega
      rw [List.getElem?_append_right (by simpa using hjk), hshift, hbytes _ (by omega)]
      simp

theorem fileReadLoop_spec (hf : f ∈ F) (hend : endPos.toNat ≤ maxfilesize) (rounds : Nat) :
    ∀ (pos : Word) (buf : List Byte) (st : Store), LaidOut F st.mem →
      fType st.mem f ≠ ftypeDir → pos.toNat ≤ endPos.toNat →
      endPos.toNat - pos.toNat ≤ rounds →
      needs st.mem f (nextBlock pos.toNat endPos.toNat) (blocksBelow endPos.toNat) ≤
        freeCount st.mem →
      ∃ out st', FsRuns (fileReadLoop f endPos rounds pos buf) st (0, buf ++ out) st' ∧
        WasRead f pos.toNat endPos.toNat buf.length out st st' := by
  induction rounds with
  | zero =>
    intro pos buf st _ _ hle hrounds hroom
    have heq : pos.toNat = endPos.toNat := by omega
    rw [heq, nextBlock_self] at hroom
    rw [heq]
    refine ⟨[], st, ?_, .done hroom⟩
    rw [List.append_nil]
    exact .pure _ _
  | succ rounds ih =>
    intro pos buf st hl hreg hle hrounds hroom
    by_cases hlt : pos.toNat < endPos.toNat
    · obtain ⟨hblk, hlen0, hin, hadd, hmin⟩ := round_facts hlt hend
      have hmax := lt_of_le_maxfilesize hend
      obtain ⟨b, st1, hget, hgot, hread⟩ := round_runs hl hf hlt hend hroom
      have hl1 := hgot.moves.layout hf hl
      have hreg1 := hgot.moves.regular hf hl hreg
      have hfill := hgot.filled hl hf hreg
      obtain ⟨out, st', hrun, hrest⟩ := ih (pos + roundLen pos endPos) (buf ++
        (List.range (roundLen pos endPos).toNat).map fun j =>
          st1.mem (b * blksize + pos.toNat % blksize + j))
        (st1.move buf.length (roundLen pos endPos).toNat) hl1 hreg1 (by omega) (by omega)
        (by rw [hadd, nextBlock_round hlt hmin]; exact hfill.room)
      rw [hadd, List.length_append, List.length_map, List.length_range] at hrest
      refine ⟨_, st', ?_, .round hlt hend hmin hfill hgot.size hgot.block hgot.ne_zero hrest⟩
      rw [← List.append_assoc]
      refine .ite_pos hlt (.bind hget ?_)
      dsimp only
      rw [roundAddr_eq (by omega)]
      exact .bind (loadBytes_runs hread) (.bind (recordMove_runs _ _) hrun)
    · have heq : pos.toNat = endPos.toNat := by omega
      rw [heq, nextBlock_self] at hroom
      refine ⟨[], st, .ite_neg hlt ?_, ?_⟩
      · rw [List.append_nil]
        exact .pure _ _
      · rw [heq]
        exact .done hroom

end Jos
