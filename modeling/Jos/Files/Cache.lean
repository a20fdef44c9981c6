import Jos.Fs.Fs

/-!
# What the server sees of its cache

Which blocks are mapped does not show: an access to a block that is in use gives the same
bytes whether the block has to be loaded or not. `Fs.seen` is the state without that
detail, and the accesses of `fs/bc.c` are runs on what is seen.
-/

namespace Jos

open Logic Function

/-- The bytes that the server sees, the disk, the dirty blocks, and the two histories. -/
structure Store where
  mem : Image
  disk : Image
  dirty : Nat → Bool
  past : List Image
  moves : List (Nat × Nat)

def Fs.seen (s : Fs) : Store where
  mem := s.mem
  disk := s.disk
  dirty b := s.mapped b && s.dirty b
  past := s.past
  moves := s.moves

/-- The code, run from any file system that looks like `st`, returns `a` and leaves one that looks
like `st'`. -/
abbrev FsRuns {α : Type} (c : FsM α) (st : Store) (a : α) (st' : Store) : Prop :=
  Code.Runs Fs.seen c st a st'

/-- The disk has not been written. -/
def Unwritten (st st' : Store) : Prop := st'.disk = st.disk ∧ st'.past = st.past

namespace Store

def set (st : Store) (a n : Nat) (f : Nat → Byte) : Store :=
  { st with mem := setBytes st.mem a n f, dirty := dirtied st.dirty a n }

def setWord (st : Store) (a : Nat) (w : Word) : Store := st.set a 4 (wordByte w)

def flush (st : Store) (b : Nat) : Store :=
  if st.dirty b then
    { st with
      past := st.past ++ [st.disk]
      disk := setBytes st.disk (b * blksize) blksize fun i => st.mem (b * blksize + i)
      dirty := update st.dirty b false }
  else st

def move (st : Store) (i n : Nat) : Store := { st with moves := st.moves ++ [(i, n)] }

variable (st : Store) (a n b : Nat) (f : Nat → Byte) (w : Word)

@[simp] theorem set_mem : (st.set a n f).mem = setBytes st.mem a n f := rfl
@[simp] theorem set_disk : (st.set a n f).disk = st.disk := rfl
@[simp] theorem setWord_mem : (st.setWord a w).mem = Logic.setWord st.mem a w := rfl
@[simp] theorem setWord_disk : (st.setWord a w).disk = st.disk := rfl
@[simp] theorem move_mem (i : Nat) : (st.move i n).mem = st.mem := rfl

@[simp] theorem flush_mem : (st.flush b).mem = st.mem := by
  unfold flush
  split <;> rfl

end Store

/-- An access to block `b` does not panic. -/
def Readable (m : Image) (b : Nat) : Prop :=
  b * blksize < disksize ∧ b < nblocksIn m ∧ freeIn m b = false

variable {st st' : Store} {a b n : Nat} {f : Nat → Byte} {w : Word}

theorem range_of_block {x : Nat} (h : x / blksize = b) :
    b * blksize ≤ x ∧ x < b * blksize + blksize := by
  unfold blksize at *
  omega

theorem outside_of_block {x : Nat} (h : x / blksize ≠ b) :
    x < b * blksize ∨ b * blksize + blksize ≤ x := by
  unfold blksize at *
  omega

theorem Fs.mem_of_mapped {s : Fs} (h : s.mapped (a / blksize) = true) : s.mem a = s.cache a :=
  if_pos h

theorem Fs.mem_of_unmapped {s : Fs} (h : s.mapped (a / blksize) = false) : s.mem a = s.disk a :=
  if_neg (by rw [h]; decide)

theorem Fs.load_cache (s : Fs) (b : Nat) : (s.load b).cache =
    setBytes s.cache (b * blksize) blksize fun i => s.disk (b * blksize + i) := rfl

theorem Fs.store_cache (s : Fs) (a n : Nat) (f : Nat → Byte) :
    (s.store a n f).cache = setBytes s.cache a n f := rfl

theorem Fs.writeBack_disk (s : Fs) (b : Nat) : (s.writeBack b).disk =
    setBytes s.disk (b * blksize) blksize fun i => s.cache (b * blksize + i) := rfl

theorem Fs.seen_dirty (s : Fs) (b : Nat) : s.seen.dirty b = (s.mapped b && s.dirty b) := rfl

theorem Fs.load_mem (s : Fs) (hb : s.mapped b = false) : (s.load b).mem = s.mem := by
  funext a
  by_cases hab : a / blksize = b
  · obtain ⟨hle, hlt⟩ := range_of_block hab
    have hmap : (s.load b).mapped (a / blksize) = true := by
      rw [hab]
      exact update_self ..
    rw [Fs.mem_of_mapped hmap, Fs.mem_of_unmapped (by rw [hab]; exact hb)]
    rw [Fs.load_cache, setBytes_of_mem hle hlt, Nat.add_sub_cancel' hle]
  · have hmap : (s.load b).mapped (a / blksize) = s.mapped (a / blksize) := update_of_ne hab ..
    have hcache : (s.load b).cache a = s.cache a := by
      rw [Fs.load_cache, setBytes_of_not_mem (outside_of_block hab)]
    cases hm : s.mapped (a / blksize) with
    | true => rw [Fs.mem_of_mapped (hmap.trans hm), Fs.mem_of_mapped hm, hcache]
    | false => rw [Fs.mem_of_unmapped (hmap.trans hm), Fs.mem_of_unmapped hm]; rfl

theorem Fs.load_seen (s : Fs) (hb : s.mapped b = false) : (s.load b).seen = s.seen := by
  have hmem := s.load_mem hb
  unfold Fs.seen
  rw [hmem]
  congr 1
  funext x
  by_cases hx : x = b
  · subst hx
    simp [Fs.load, hb]
  · simp [Fs.load, hx]

theorem touch_run {s : Fs} (h : Readable s.mem b) :
    ∃ s', touch b s = .ret () s' ∧ s'.seen = s.seen ∧ s'.mapped b = true ∧
      ∀ x, s.mapped x = true → s'.mapped x = true := by
  obtain ⟨hdisk, hlt, hfree⟩ := h
  unfold touch
  cases hb : s.mapped b with
  | true => exact ⟨s, by rw [bind_apply, get_apply]; simp [hb, pure_apply], rfl, hb, fun x hx => hx⟩
  | false =>
    refine ⟨s.load b, ?_, s.load_seen hb, ?_, ?_⟩
    · rw [bind_apply, get_apply]
      dsimp only
      rw [if_pos hb]
      unfold bcPgfault
      have hblock : b * blksize / blksize = b := Nat.mul_div_cancel b (by decide)
      have hmap : ¬remap (b * blksize) < 0 := by simp [remap, blksize, pgsize]
      simp only [bind_apply, get_apply, modify_apply, pure_apply, hblock, s.load_mem hb,
        if_neg (Nat.not_le.mpr hdisk), if_neg (Nat.not_le.mpr hlt), if_neg hmap, hfree]
      rfl
    · exact update_self ..
    · intro x hx
      by_cases hxb : x = b
      · subst hxb
        exact update_self ..
      · exact (update_of_ne hxb ..).trans hx

theorem touch_runs (h : Readable st.mem b) : FsRuns (touch b) st () st := by
  intro s hs
  subst hs
  obtain ⟨s', hrun, hseen, _⟩ := touch_run (s := s) h
  exact ⟨s', hrun, hseen⟩

theorem touchRange_run {s : Fs} (h : ∀ x, a < x * blksize + blksize → x * blksize < a + n →
    Readable s.mem x) :
    ∃ s', touchRange a n s = .ret () s' ∧ s'.seen = s.seen ∧
      ∀ x, a ≤ x → x < a + n → s'.mapped (x / blksize) = true := by
  let I : Nat → Fs → Prop := fun i s' =>
    s'.seen = s.seen ∧ ∀ j < i, s'.mapped (a / blksize + j) = true
  have hround : ∀ i, i < rangeBlocks a n → ∀ s1, I i s1 →
      ∃ s2, touch (a / blksize + i) s1 = .ret () s2 ∧ I (i + 1) s2 := by
    intro i hi s1 hs1
    have hmem : s1.mem = s.mem := congrArg Store.mem hs1.1
    have hn : n ≠ 0 := by
      intro h0
      unfold rangeBlocks at hi
      rw [if_pos h0] at hi
      omega
    have hlast : a / blksize + i ≤ (a + n - 1) / blksize := by
      unfold rangeBlocks at hi
      rw [if_neg hn] at hi
      omega
    have hread : Readable s1.mem (a / blksize + i) := by
      rw [hmem]
      apply h <;> unfold blksize at * <;> omega
    obtain ⟨s2, hrun, hseen, hmap, hkeep⟩ := touch_run hread
    refine ⟨s2, hrun, hseen.trans hs1.1, fun j hj => ?_⟩
    by_cases hji : j = i
    · exact hji ▸ hmap
    · exact hkeep _ (hs1.2 j (by omega))
  obtain ⟨s', hrun, hseen, hmap⟩ := times_run I ⟨rfl, fun j hj => absurd hj (by omega)⟩ hround
  refine ⟨s', hrun, hseen, fun x hx hx' => ?_⟩
  have hle : a / blksize ≤ x / blksize := Nat.div_le_div_right hx
  have hle' : x / blksize ≤ (a + n - 1) / blksize := Nat.div_le_div_right (by omega)
  have hlt : x / blksize - a / blksize < rangeBlocks a n := by
    unfold rangeBlocks
    rw [if_neg (by omega)]
    omega
  have := hmap _ hlt
  rwa [Nat.add_sub_cancel' hle] at this

theorem load8_runs (h : Readable st.mem (a / blksize)) :
    FsRuns (load8 a) st (st.mem a) st := by
  intro s hs
  obtain ⟨s', hrun, hs'⟩ := touch_runs h s hs
  refine ⟨s', ?_, hs'⟩
  rw [← hs']
  exact bind_run hrun rfl

theorem loadWord_runs (h : Readable st.mem (a / blksize)) :
    FsRuns (loadWord a) st (word st.mem a) st := by
  intro s hs
  obtain ⟨s', hrun, hs'⟩ := touch_runs h s hs
  refine ⟨s', ?_, hs'⟩
  rw [← hs']
  exact bind_run hrun rfl

def ReadableRange (m : Image) (a n : Nat) : Prop :=
  ∀ x, a < x * blksize + blksize → x * blksize < a + n → Readable m x

theorem loadBytes_runs (h : ReadableRange st.mem a n) :
    FsRuns (loadBytes a n) st (fun i => st.mem (a + i)) st := by
  intro s hs
  subst hs
  obtain ⟨s', hrun, hs', _⟩ := touchRange_run (s := s) h
  refine ⟨s', ?_, hs'⟩
  rw [← hs']
  exact bind_run hrun rfl

theorem Fs.store_seen {s : Fs} (h : ∀ x, a ≤ x → x < a + n → s.mapped (x / blksize) = true) :
    (s.store a n f).seen = s.seen.set a n f := by
  have hmem : (s.store a n f).mem = setBytes s.mem a n f := by
    funext x
    by_cases hx : a ≤ x ∧ x < a + n
    · have hmap : (s.store a n f).mapped (x / blksize) = true := h x hx.1 hx.2
      rw [Fs.mem_of_mapped hmap, Fs.store_cache, setBytes_of_mem hx.1 hx.2,
        setBytes_of_mem hx.1 hx.2]
    · have hx' : x < a ∨ a + n ≤ x := by omega
      have hcache : (s.store a n f).cache x = s.cache x := by
        rw [Fs.store_cache, setBytes_of_not_mem hx']
      rw [setBytes_of_not_mem hx']
      unfold Fs.mem
      rw [hcache]
      rfl
  unfold Fs.seen Store.set
  rw [hmem]
  congr 1
  funext b
  show (s.mapped b && dirtied s.dirty a n b) = dirtied (fun b => s.mapped b && s.dirty b) a n b
  unfold dirtied
  dsimp only
  cases hb : s.mapped b with
  | true => rfl
  | false =>
    -- A block of the range is mapped, so this one is not in the range.
    have hout : (decide (b * blksize < a + n) && decide (a < (b + 1) * blksize) &&
        decide (0 < n)) = false := by
      by_contra hne
      simp only [Bool.not_eq_false, Bool.and_eq_true, decide_eq_true_eq] at hne
      obtain ⟨⟨h1, h2⟩, h3⟩ := hne
      have hx := h (max a (b * blksize)) (Nat.le_max_left _ _) (by omega)
      have hdiv : max a (b * blksize) / blksize = b := by
        unfold blksize at *
        omega
      rw [hdiv, hb] at hx
      cases hx
    rw [hout]
    rfl

theorem storeBytes_runs (h : ReadableRange st.mem a n) :
    FsRuns (storeBytes a n f) st () (st.set a n f) := by
  intro s hs
  subst hs
  obtain ⟨s', hrun, hs', hmap⟩ := touchRange_run (s := s) h
  refine ⟨s'.store a n f, bind_run hrun rfl, ?_⟩
  rw [Fs.store_seen hmap, hs']

theorem storeWord_runs (h : Readable st.mem (a / blksize)) (ha : a % blksize + 4 ≤ blksize) :
    FsRuns (storeWord a w) st () (st.setWord a w) := by
  intro s hs
  subst hs
  obtain ⟨s', hrun, hs', hmap, _⟩ := touch_run (s := s) h
  refine ⟨s'.store a 4 (wordByte w), bind_run hrun rfl, ?_⟩
  have hall : ∀ x, a ≤ x → x < a + 4 → s'.mapped (x / blksize) = true := by
    intro x hx hx'
    have : x / blksize = a / blksize := by
      unfold blksize at *
      omega
    rw [this, hmap]
  rw [Fs.store_seen hall, hs']
  rfl

theorem diskaddr_runs {blockno : Word} (hsuper : Readable st.mem 1) (h0 : blockno ≠ 0)
    (hlt : blockno.toNat < nblocksIn st.mem) :
    FsRuns (diskaddr blockno) st (blockno.toNat * blksize) st := by
  refine .bind (loadWord_runs (a := sNblocksAt) hsuper) (.ite_neg ?_ (.pure _ _))
  rintro (h | h)
  · exact h0 h
  · exact absurd h (Nat.not_le.mpr hlt)

theorem Fs.writeBack_seen {s : Fs} (hb : s.mapped b = true) (hd : s.dirty b = true) :
    (s.writeBack b).seen = s.seen.flush b := by
  have hmem : (s.writeBack b).mem = s.mem := by
    funext x
    cases hx : s.mapped (x / blksize) with
    | true =>
      have hmap : (s.writeBack b).mapped (x / blksize) = true := hx
      rw [Fs.mem_of_mapped hmap, Fs.mem_of_mapped hx]
      rfl
    | false =>
      have hmap : (s.writeBack b).mapped (x / blksize) = false := hx
      rw [Fs.mem_of_unmapped hmap, Fs.mem_of_unmapped hx]
      rw [Fs.writeBack_disk]
      apply setBytes_of_not_mem
      apply outside_of_block
      rintro rfl
      rw [hb] at hx
      cases hx
  have hflush : s.seen.flush b = { s.seen with
      past := s.past ++ [s.disk]
      disk := setBytes s.disk (b * blksize) blksize fun i => s.mem (b * blksize + i)
      dirty := update s.seen.dirty b false } := by
    unfold Store.flush
    rw [if_pos (by rw [Fs.seen_dirty, hb, hd]; rfl)]
    rfl
  rw [hflush]
  unfold Fs.seen
  rw [hmem]
  congr 1
  · funext x
    by_cases hx : x / blksize = b
    · obtain ⟨hle, hlt⟩ := range_of_block hx
      rw [Fs.writeBack_disk, setBytes_of_mem hle hlt, setBytes_of_mem hle hlt,
        Nat.add_sub_cancel' hle, Fs.mem_of_mapped (by rw [hx]; exact hb)]
    · rw [Fs.writeBack_disk, setBytes_of_not_mem (outside_of_block hx),
        setBytes_of_not_mem (outside_of_block hx)]
  · funext x
    unfold Fs.writeBack
    by_cases hx : x = b
    · subst hx
      simp
    · simp [hx]

theorem flushBlock_runs (h : a < disksize) :
    FsRuns (flushBlock a) st () (st.flush (a / blksize)) := by
  intro s hs
  subst hs
  unfold flushBlock
  rw [if_neg (Nat.not_le.mpr h)]
  cases hb : s.mapped (a / blksize) && s.dirty (a / blksize) with
  | true =>
    refine ⟨s.writeBack (a / blksize), ?_, ?_⟩
    · rw [bind_apply, get_apply]
      dsimp only
      rw [if_pos hb]
      rfl
    · rw [Bool.and_eq_true] at hb
      exact Fs.writeBack_seen hb.1 hb.2
  | false =>
    refine ⟨s, ?_, ?_⟩
    · rw [bind_apply, get_apply]
      dsimp only
      rw [if_neg (by rw [hb]; decide)]
      rfl
    · unfold Store.flush
      rw [if_neg (by rw [show s.seen.dirty (a / blksize) = _ from hb]; decide)]

theorem recordMove_runs (i n : Nat) : FsRuns (recordMove i n) st () (st.move i n) := by
  intro s hs
  subst hs
  exact ⟨_, rfl, rfl⟩

end Jos
