import Jos.Fs.Format
import Jos.Files.Access

/-!
# Runs of the image builder

What each function of `fsformat` leaves in the image and in the array of entries, and when it gives
up. A file gets the next blocks, and one more for their numbers if it has `NDIRECT` or more.
-/

namespace Jos

open Logic List

variable {s s' s1 : Fmt} {m m' : Image} {p : FilePtr} {arg : Arg} {args : List Arg}
  {a b c e k n x pos start : Nat} {len : Word}

theorem roundupUnsigned_toNat {v : Word} (h : v.toNat + blksize ≤ 2 ^ 32) :
    (roundupUnsigned v).toNat = blocksBelow v.toNat * blksize := by
  by_cases h0 : v.toNat = 0
  · have hv : v = 0 := BitVec.eq_of_toNat_eq h0
    subst hv
    decide
  · have hpred : (v - 1).toNat = v.toNat - 1 := by
      rw [BitVec.toNat_sub_of_le]
      · rfl
      · rw [BitVec.le_def]
        show 1 ≤ v.toNat
        omega
    have hmod : ((v - 1) % toWord blksize).toNat = (v.toNat - 1) % blksize := by
      rw [BitVec.toNat_umod, hpred]
      rfl
    unfold roundupUnsigned
    rw [BitVec.toNat_sub, BitVec.toNat_add, hpred, hmod, BitVec.toNat_ofNat]
    unfold blocksBelow blksize at *
    omega

theorem blocksBelow_mul (c : Nat) : blocksBelow (c * blksize) = c := by
  unfold blocksBelow blksize
  omega

/-- The number of blocks that `finishdir` gives to a directory with `k` entries. -/
def rootBlocks (k : Nat) : Nat := if k = 0 then 1 else blocksBelow (k * sizeofFile)

theorem roundupInt_toNat (hk : k ≤ maxDirEnts) :
    (roundupInt (toWord (k * sizeofFile))).toNat = rootBlocks k * blksize := by
  have hall : ∀ k < 129, (roundupInt (toWord (k * sizeofFile))).toNat =
      rootBlocks k * blksize := by decide +kernel
  exact hall k (Nat.lt_succ_of_le hk)

namespace FilePtr

def addr : FilePtr → Nat
  | .disk a => a
  | .ents a => a

/-- The memory that the pointer points into. -/
def mem : FilePtr → Fmt → Image
  | .disk _, s => s.diskmap
  | .ents _, s => s.ents

def withMem : FilePtr → Fmt → Image → Fmt
  | .disk _, s, m => { s with diskmap := m }
  | .ents _, s, m => { s with ents := m }

@[simp] theorem mem_withMem : p.mem (p.withMem s m) = m := by
  cases p <;> rfl

@[simp] theorem withMem_withMem : p.withMem (p.withMem s m) m' = p.withMem s m' := by
  cases p <;> rfl

@[simp] theorem withMem_mem : p.withMem s (p.mem s) = s := by
  cases p <;> rfl

end FilePtr

theorem storeFile_run (p : FilePtr) (k n : Nat) (f : Nat → Byte) (s : Fmt) :
    storeFile p k n f s = .ret () (p.withMem s (setBytes (p.mem s) (p.addr + k) n f)) := by
  cases p <;> rfl

theorem storeWords_run (p : FilePtr) (k c : Nat) (w : Nat → Word) (s : Fmt) : ∃ m,
    Code.times c (fun i => storeFile p (k + 4 * i) 4 (wordByte (w i))) s = .ret () (p.withMem s m) ∧
    (∀ i < c, word m (p.addr + k + 4 * i) = w i) ∧
    ∀ x, x < p.addr + k ∨ p.addr + k + 4 * c ≤ x → m x = p.mem s x := by
  have hloop : ∃ s', Code.times c (fun i => storeFile p (k + 4 * i) 4 (wordByte (w i))) s =
      .ret () s' ∧ ∃ m, s' = p.withMem s m ∧ (∀ i < c, word m (p.addr + k + 4 * i) = w i) ∧
        ∀ x, x < p.addr + k ∨ p.addr + k + 4 * c ≤ x → m x = p.mem s x :=
    times_run (fun j s' => ∃ m, s' = p.withMem s m ∧ (∀ i < j, word m (p.addr + k + 4 * i) = w i) ∧
      ∀ x, x < p.addr + k ∨ p.addr + k + 4 * j ≤ x → m x = p.mem s x)
    ⟨p.mem s, p.withMem_mem.symm, fun i hi => absurd hi (Nat.not_lt_zero i), fun _ _ => rfl⟩
    fun j _ s' hs' => by
      obtain ⟨m, rfl, hword, hout⟩ := hs'
      refine ⟨_, storeFile_run .., _, by rw [FilePtr.withMem_withMem], fun i hi => ?_,
        fun x hx => ?_⟩
      · rw [FilePtr.mem_withMem, ← Nat.add_assoc]
        by_cases hij : i = j
        · subst hij
          exact word_setWord_self
        · rw [word_setBytes_of_disjoint (by omega)]
          exact hword i (by omega)
      · rw [FilePtr.mem_withMem, setBytes_of_not_mem (by omega)]
        exact hout x (by omega)
  obtain ⟨s', hrun, m, rfl, hword, hout⟩ := hloop
  exact ⟨m, hrun, hword, hout⟩

def Fmt.taken (s : Fmt) (r : Nat) : Fmt :=
  { s with
    diskpos := s.diskpos + r
    allocs := s.allocs ++ [(s.diskpos, r)] }

theorem alloc_run {bytes : Word} (hbytes : bytes.toNat + blksize ≤ 2 ^ 32)
    (hpos : s.diskpos = pos * blksize) :
    alloc bytes s = if pos + blocksBelow bytes.toNat < s.nblocks.toNat then
        .ret (pos * blksize) (s.taken (blocksBelow bytes.toNat * blksize))
      else .panic "out of disk blocks" := by
  have hblock : blockof (s.diskpos + (roundupUnsigned bytes).toNat) =
      pos + blocksBelow bytes.toNat := by
    rw [roundupUnsigned_toNat hbytes, hpos, ← add_mul]
    exact Nat.mul_div_cancel _ (by decide)
  have heq : alloc bytes s = (if s.nblocks.toNat ≤
      blockof (s.diskpos + (roundupUnsigned bytes).toNat) then
      Code.panic "out of disk blocks" else pure s.diskpos : FmtM Nat)
      (s.taken (roundupUnsigned bytes).toNat) := rfl
  rw [heq, hblock, roundupUnsigned_toNat hbytes, hpos]
  by_cases hfit : pos + blocksBelow bytes.toNat < s.nblocks.toNat
  · rw [if_pos hfit, if_neg (not_le.mpr hfit)]
    rfl
  · rw [if_neg hfit, if_pos (not_lt.mp hfit)]
    rfl

theorem alloc_block (hpos : s.diskpos = pos * blksize) :
    alloc (toWord blksize) s = if pos + 1 < s.nblocks.toNat then
        .ret (pos * blksize) (s.taken blksize)
      else .panic "out of disk blocks" := by
  have hsmall : (toWord blksize).toNat + blksize ≤ 2 ^ 32 := by decide
  have hone : blocksBelow (toWord blksize).toNat = 1 := by decide
  rw [alloc_run hsmall hpos, hone, Nat.one_mul]

def Fmt.Allocated (s : Fmt) (b : Nat) : Prop :=
  ∃ r ∈ s.allocs, r.1 ≤ b * blksize ∧ b * blksize < r.1 + r.2

theorem Fmt.taken_allocated (hpos : s.diskpos = pos * blksize) :
    (s.taken (c * blksize)).Allocated b ↔ s.Allocated b ∨ pos ≤ b ∧ b < pos + c := by
  unfold Fmt.Allocated Fmt.taken
  simp only [mem_append, mem_singleton, or_and_right, exists_or, exists_eq_left]
  have hrange : s.diskpos ≤ b * blksize ∧ b * blksize < s.diskpos + c * blksize ↔
      pos ≤ b ∧ b < pos + c := by
    rw [hpos, ← Nat.add_mul, Nat.mul_le_mul_right_iff (by decide), Nat.mul_lt_mul_right (by decide)]
  rw [hrange]

/-- The size and the direct slots of the file at `a` have been filled in, for `c` blocks from
`start` on. -/
structure Fields (a start c : Nat) (len : Word) (m m' : Image) : Prop where
  size : word m' (a + 128) = len
  direct : ∀ i < min c ndirect, word m' (a + 136 + 4 * i) = toWord (start + i)
  outside : ∀ x, x < a + 128 ∨ a + 132 ≤ x ∧ x < a + 136 ∨ a + 136 + 4 * min c ndirect ≤ x →
    m' x = m x

theorem finishfile_fields (p : FilePtr) (start : Nat) (len : Word) (s : Fmt)
    (hc : (roundupUnsigned len).toNat = c * blksize) : ∃ m,
    Fields p.addr start c len (p.mem s) m ∧ finishfile p start len s =
        (if min c ndirect = ndirect then finishindirect p start c else pure () : FmtM Unit)
          (p.withMem s m) := by
  have hcount : (roundupUnsigned len).toNat / blksize = c := by
    rw [hc]
    exact Nat.mul_div_cancel _ (by decide)
  obtain ⟨m, hrun, hword, hout⟩ := storeWords_run p 136 (min c ndirect)
    (fun i => toWord (start + i)) (p.withMem s (setWord (p.mem s) (p.addr + 128) len))
  rw [FilePtr.withMem_withMem] at hrun
  rw [FilePtr.mem_withMem] at hout
  refine ⟨m, ⟨?_, hword, fun x hx => ?_⟩, ?_⟩
  · rw [SameOn.word (m := setWord (p.mem s) (p.addr + 128) len) (a := p.addr + 128) (n := 4)
      (fun x _ hx => hout x (by omega)) (le_refl _) (le_refl _)]
    exact word_setWord_self
  · rw [hout x (by omega)]
    exact setWord_of_not_mem (by omega)
  · unfold finishfile
    rw [hcount]
    exact bind_run (storeFile_run ..) (bind_run hrun rfl)

theorem finishfile_direct (p : FilePtr) (start : Nat) (s : Fmt)
    (hc : (roundupUnsigned len).toNat = c * blksize) (hlt : c < ndirect) : ∃ m,
    Fields p.addr start c len (p.mem s) m ∧ finishfile p start len s = .ret () (p.withMem s m) := by
  obtain ⟨m, hfields, hrun⟩ := finishfile_fields p start len s hc
  refine ⟨m, hfields, ?_⟩
  rw [hrun, if_neg (by omega)]
  rfl

/-- The numbers of the blocks behind the direct ones are in the block `ind`. -/
structure Indexed (ind start c : Nat) (m m' : Image) : Prop where
  index : ∀ i < c - ndirect,
    word m' (ind * blksize + 4 * i) = toWord (start + (ndirect + i))
  outside : ∀ x, x < ind * blksize ∨ ind * blksize + 4 * (c - ndirect) ≤ x → m' x = m x

theorem finishindirect_run (a start c : Nat) (hpos : s.diskpos = pos * blksize)
    (hfit : pos + 1 < s.nblocks.toNat) : ∃ d, Indexed pos start c s.diskmap d ∧
      finishindirect (.ents a) start c s = .ret () { s.taken blksize with
        ents := setWord s.ents (a + 176) (toWord pos)
        diskmap := d } := by
  have halloc := alloc_block hpos
  rw [if_pos hfit] at halloc
  have hblock : blockof (pos * blksize) = pos := Nat.mul_div_cancel _ (by decide)
  obtain ⟨d, hrun, hword, hout⟩ := storeWords_run (.disk (pos * blksize)) 0 (c - ndirect)
    (fun i => toWord (start + (ndirect + i)))
    ({ s.taken blksize with ents := setWord s.ents (a + 176) (toWord pos) })
  have haddr : (FilePtr.disk (pos * blksize)).addr + 0 = pos * blksize := Nat.add_zero _
  rw [haddr] at hword hout
  refine ⟨d, ⟨hword, hout⟩, ?_⟩
  refine bind_run halloc (bind_run (storeFile_run ..) ?_)
  rw [hblock]
  have hbody : (fun i => storeDisk (pos * blksize + 4 * i) 4
      (wordByte (toWord (start + (ndirect + i))))) =
      fun i => storeFile (.disk (pos * blksize)) (0 + 4 * i) 4
        (wordByte (toWord (start + (ndirect + i)))) := by
    funext i
    rw [Nat.zero_add]
    rfl
  rw [hbody]
  exact hrun

theorem finishindirect_panic (p : FilePtr) (start c : Nat) (hpos : s.diskpos = pos * blksize)
    (hfit : ¬pos + 1 < s.nblocks.toNat) :
    finishindirect p start c s = .panic "out of disk blocks" := by
  have halloc := alloc_block hpos
  rw [if_neg hfit] at halloc
  exact bind_panic halloc

/-- The blocks of a file, without the block of their numbers. -/
def Arg.dataBlocks (arg : Arg) : Nat := blocksBelow arg.content.length

def Arg.blocks (arg : Arg) : Nat :=
  arg.dataBlocks + if ndirect ≤ arg.dataBlocks then 1 else 0

/-- The memory of a directory entry after the name has been copied. -/
def Arg.named (arg : Arg) (heap : Image) (e : Nat) : Image :=
  setBytes heap e (arg.name.length + 1) fun i => arg.name.getD i 0

/-- What the entry at `e` has at the distance `k` before `finishfile`. -/
def Arg.rest (arg : Arg) (heap : Image) (e k : Nat) : Word := word (arg.named heap e) (e + k)

/-- The memory at `e` is the entry of a file whose blocks start at `start`. The slots that the
file does not use have what was there. -/
structure EntryFor (arg : Arg) (start : Nat) (rest : Nat → Word) (m : Image) (e : Nat) :
    Prop where
  name : ∀ i < maxnamelen, i ≤ arg.name.length → m (e + i) = arg.name.getD i 0
  size : word m (e + 128) = toWord arg.content.length
  type : word m (e + 132) = ftypeReg
  direct : ∀ i < min arg.dataBlocks ndirect,
    word m (e + 136 + 4 * i) = toWord (start + i)
  spare : ∀ i < ndirect, arg.dataBlocks ≤ i → word m (e + 136 + 4 * i) = rest (136 + 4 * i)
  indirect : word m (e + 176) = if ndirect ≤ arg.dataBlocks then
    toWord (start + arg.dataBlocks) else rest 176

/-- The blocks from `start` on hold the file. -/
structure DataFor (arg : Arg) (start : Nat) (m : Image) : Prop where
  content : ∀ i < arg.content.length, m (start * blksize + i) = arg.content.getD i 0
  index : ∀ i < nindirect, ndirect ≤ arg.dataBlocks →
    word m ((start + arg.dataBlocks) * blksize + 4 * i) =
      if ndirect + i < arg.dataBlocks then toWord (start + (ndirect + i)) else 0

/-- What `writefile` has done with the blocks from `pos` on. -/
structure FileWritten (arg : Arg) (pos : Nat) (s s' : Fmt) : Prop where
  nblocks : s'.nblocks = s.nblocks
  super : s'.super = s.super
  bitmap : s'.bitmap = s.bitmap
  n : s'.n = s.n + 1
  diskpos : s'.diskpos = (pos + arg.blocks) * blksize
  allocs : ∀ b, s'.Allocated b ↔ s.Allocated b ∨ pos ≤ b ∧ b < pos + arg.blocks
  entry : EntryFor arg pos (arg.rest s.ents (sizeofFile * s.n)) s'.ents (sizeofFile * s.n)
  ents : ∀ x, x < sizeofFile * s.n ∨ sizeofFile * (s.n + 1) ≤ x → s'.ents x = s.ents x
  data : DataFor arg pos s'.diskmap
  disk : ∀ x, x < pos * blksize ∨ (pos + arg.blocks) * blksize ≤ x → s'.diskmap x = s.diskmap x

theorem FileWritten.zero (h : FileWritten arg pos s s')
    (hzero : ∀ x, pos * blksize ≤ x → s.diskmap x = 0) :
    ∀ x, (pos + arg.blocks) * blksize ≤ x → s'.diskmap x = 0 := by
  intro x hx
  rw [h.disk x (.inr hx)]
  exact hzero x (Nat.le_trans (Nat.mul_le_mul_right _ (Nat.le_add_right _ _)) hx)

structure Accepted (arg : Arg) (pos : Nat) (s : Fmt) : Prop where
  name : arg.name.length ≤ nameMax
  size : arg.content.length < maxfilesize
  room : s.n < maxDirEnts
  fits : pos + arg.blocks < s.nblocks.toNat

def Fmt.added (s : Fmt) (arg : Arg) : Fmt :=
  { s with
    n := s.n + 1
    ents := setWord (arg.named s.ents (sizeofFile * s.n)) (sizeofFile * s.n + 132) ftypeReg }

theorem diradd_run (arg : Arg) (s : Fmt) : diradd ftypeReg arg.name s =
    if s.n < maxDirEnts then .ret (.ents (sizeofFile * s.n)) (s.added arg)
    else .panic "too many directory entries" := by
  have heq : diradd ftypeReg arg.name s = (if maxDirEnts < s.n + 1 then
      Code.panic "too many directory entries" else do
      storeFile (.ents (sizeofFile * s.n)) 0 (arg.name.length + 1) fun i => arg.name.getD i 0
      storeFile (.ents (sizeofFile * s.n)) 132 4 (wordByte ftypeReg)
      return .ents (sizeofFile * s.n) : FmtM FilePtr) { s with n := s.n + 1 } := rfl
  rw [heq]
  by_cases hroom : s.n < maxDirEnts
  · rw [if_pos hroom, if_neg (by omega)]
    rfl
  · rw [if_neg hroom, if_pos (by omega)]
    rfl

theorem EntryFor.of_fields {heap : Image}
    (h : Fields e pos arg.dataBlocks (toWord arg.content.length)
      (setWord (arg.named heap e) (e + 132) ftypeReg) m)
    (hsame : ∀ x, x < e + 176 ∨ e + 180 ≤ x → m' x = m x)
    (hind : word m' (e + 176) = if ndirect ≤ arg.dataBlocks then
      toWord (pos + arg.dataBlocks) else arg.rest heap e 176) :
    EntryFor arg pos (arg.rest heap e) m' e := by
  have hword : ∀ a, a + 4 ≤ e + 176 → word m' a = word m a := fun a ha =>
    word_congr fun i hi => hsame (a + i) (by omega)
  refine ⟨fun i hi hle => ?_, ?_, ?_, fun i hi => ?_, fun i hi hle => ?_, hind⟩
  · unfold maxnamelen at hi
    rw [hsame _ (by omega), h.outside _ (by omega), setWord_of_not_mem (by omega)]
    unfold Arg.named
    rw [setBytes_of_mem (by omega) (by omega), Nat.add_sub_cancel_left]
  · rw [hword _ (by omega)]
    exact h.size
  · rw [hword _ (by omega)]
    have hsame : word m (e + 132) =
        word (setWord (arg.named heap e) (e + 132) ftypeReg) (e + 132) :=
      word_congr fun i hi => h.outside _ (by omega)
    rw [hsame]
    exact word_setWord_self
  · have hlt : i < ndirect := lt_of_lt_of_le hi (Nat.min_le_right _ _)
    unfold ndirect at hlt
    rw [hword _ (by omega)]
    exact h.direct i hi
  · have hmin : min arg.dataBlocks ndirect ≤ i := le_trans (Nat.min_le_left _ _) hle
    unfold ndirect at hi hmin
    rw [hword _ (by omega)]
    unfold Arg.rest
    rw [← add_assoc]
    refine word_congr fun j hj => ?_
    rw [h.outside _ (by unfold ndirect; omega), setWord_of_not_mem (by omega)]

theorem Fields.outside_entry {heap : Image} (hname : arg.name.length ≤ nameMax)
    (h : Fields e pos c len (setWord (arg.named heap e) (e + 132) ftypeReg) m)
    (hx : x < e ∨ e + sizeofFile ≤ x) : m x = heap x := by
  have hlt : min c ndirect ≤ ndirect := Nat.min_le_right _ _
  unfold nameMax at hname
  unfold sizeofFile at hx
  unfold ndirect at hlt
  rw [h.outside x (by unfold ndirect; omega), setWord_of_not_mem (by omega)]
  exact setBytes_of_not_mem (by omega)

theorem Arg.content_le (arg : Arg) : arg.content.length ≤ arg.dataBlocks * blksize := by
  unfold Arg.dataBlocks blocksBelow blksize
  omega

theorem Arg.dataBlocks_le (h : arg.content.length < maxfilesize) :
    arg.dataBlocks ≤ ndirect + nindirect := by
  unfold Arg.dataBlocks blocksBelow blksize
  unfold maxfilesize blksize at h
  omega

theorem DataFor.of_copy {m1 : Image} (hzero : ∀ x, pos * blksize ≤ x → m x = 0)
    (hm1 : m1 = setBytes m (pos * blksize) arg.content.length fun i => arg.content.getD i 0)
    (hbefore : ∀ x, x < (pos + arg.dataBlocks) * blksize → m' x = m1 x)
    (hindex : ndirect ≤ arg.dataBlocks → Indexed (pos + arg.dataBlocks) pos arg.dataBlocks m1 m') :
    DataFor arg pos m' := by
  have hlen := arg.content_le
  refine ⟨fun i hi => ?_, fun i hi hge => ?_⟩
  · rw [hbefore _ (by rw [add_mul]; omega), hm1, setBytes_of_mem (by omega) (by omega),
      Nat.add_sub_cancel_left]
  · by_cases hlt : ndirect + i < arg.dataBlocks
    · rw [if_pos hlt]
      exact (hindex hge).index i (by omega)
    · rw [if_neg hlt]
      apply word_of_zero
      intro j hj
      rw [(hindex hge).outside _ (by omega), hm1, setBytes_of_not_mem (by rw [add_mul]; omega)]
      exact hzero _ (by rw [add_mul]; omega)

/-- The image with the contents of the file, before `finishfile`. -/
def Fmt.copied (s : Fmt) (arg : Arg) (pos : Nat) : Fmt :=
  { (s.added arg).taken (arg.dataBlocks * blksize) with
    diskmap := setBytes s.diskmap (pos * blksize) arg.content.length
      fun i => arg.content.getD i 0 }

theorem Fmt.copied_outside (s : Fmt)
    (hx : x < pos * blksize ∨ (pos + arg.dataBlocks) * blksize ≤ x) :
    (s.copied arg pos).diskmap x = s.diskmap x := by
  have hcopy := arg.content_le
  rw [add_mul] at hx
  have hx' : x < pos * blksize ∨ pos * blksize + arg.content.length ≤ x := by omega
  unfold Fmt.copied
  dsimp only
  exact setBytes_of_not_mem hx'

theorem outside_blocks (hc : c ≤ ndirect + nindirect)
    (hx : x < pos * blksize ∨ (pos + (c + 1)) * blksize ≤ x) :
    (x < (pos + c) * blksize ∨ (pos + c) * blksize + 4 * (c - ndirect) ≤ x) ∧
      (x < pos * blksize ∨ (pos + c) * blksize ≤ x) := by
  unfold nindirect at hc
  unfold blksize at *
  omega

theorem Arg.roundup (h : arg.content.length < maxfilesize) :
    (roundupUnsigned (toWord arg.content.length)).toNat = arg.dataBlocks * blksize := by
  have hlen : (toWord arg.content.length).toNat = arg.content.length := by
    rw [BitVec.toNat_ofNat]
    unfold maxfilesize ndirect nindirect blksize at h
    omega
  rw [roundupUnsigned_toNat, hlen]
  · rfl
  · rw [hlen]
    unfold maxfilesize ndirect nindirect blksize at *
    omega

section

variable (hpos : s.diskpos = pos * blksize)

include hpos

theorem writefile_copied (hname : arg.name.length ≤ nameMax)
    (hsize : arg.content.length < maxfilesize) (hroom : s.n < maxDirEnts) :
    writefile arg s = if pos + arg.dataBlocks < s.nblocks.toNat then
        finishfile (.ents (sizeofFile * s.n)) pos (toWord arg.content.length)
          (s.copied arg pos)
      else .panic "out of disk blocks" := by
  have hlen : (toWord arg.content.length).toNat = arg.content.length := by
    rw [BitVec.toNat_ofNat]
    unfold maxfilesize ndirect nindirect blksize at hsize
    omega
  have hadd := diradd_run arg s
  rw [if_pos hroom] at hadd
  have hfits : (toWord arg.content.length).toNat + blksize ≤ 2 ^ 32 := by
    rw [hlen]
    unfold maxfilesize ndirect nindirect blksize at *
    omega
  have halloc := alloc_run (s := s.added arg) hfits hpos
  rw [hlen] at halloc
  unfold writefile
  rw [if_neg (not_lt.mpr hname), if_neg (not_le.mpr hsize)]
  refine bind_run hadd ?_
  by_cases hfit : pos + arg.dataBlocks < s.nblocks.toNat
  · have hblock : blockof (pos * blksize) = pos := Nat.mul_div_cancel _ (by decide)
    have hret : alloc (toWord arg.content.length) (s.added arg) =
        .ret (pos * blksize) ((s.added arg).taken (arg.dataBlocks * blksize)) := by
      rw [halloc]
      exact if_pos hfit
    rw [if_pos hfit]
    refine bind_run hret (bind_run rfl ?_)
    rw [hblock]
    rfl
  · have hpanic : alloc (toWord arg.content.length) (s.added arg) =
        .panic "out of disk blocks" := by
      rw [halloc]
      exact if_neg hfit
    rw [if_neg hfit]
    exact bind_panic hpanic

theorem copied_diskpos (arg : Arg) (m : Image) :
    (FilePtr.withMem (.ents (sizeofFile * s.n)) (s.copied arg pos) m).diskpos =
      (pos + arg.dataBlocks) * blksize := by
  show s.diskpos + arg.dataBlocks * blksize = _
  rw [hpos, add_mul]

theorem writefile_run (hzero : ∀ x, pos * blksize ≤ x → s.diskmap x = 0) (h : Accepted arg pos s) :
    ∃ s', writefile arg s = .ret () s' ∧ FileWritten arg pos s s' := by
  have hfits := h.fits
  have hcopied := writefile_copied hpos h.name h.size h.room
  rw [if_pos (by unfold Arg.blocks at hfits; omega)] at hcopied
  obtain ⟨m, hfields, hrun⟩ := finishfile_fields (.ents (sizeofFile * s.n)) pos
    (toWord arg.content.length) (s.copied arg pos) (Arg.roundup h.size)
  rw [hrun] at hcopied
  have hfields : Fields (sizeofFile * s.n) pos arg.dataBlocks (toWord arg.content.length)
      (setWord (arg.named s.ents (sizeofFile * s.n)) (sizeofFile * s.n + 132) ftypeReg) m := hfields
  have hents : ∀ x, x < sizeofFile * s.n ∨ sizeofFile * (s.n + 1) ≤ x → m x = s.ents x :=
    fun x hx => hfields.outside_entry h.name (by rw [Nat.mul_add, Nat.mul_one] at hx; exact hx)
  have hallocs : ∀ b, (s.copied arg pos).Allocated b ↔
      s.Allocated b ∨ pos ≤ b ∧ b < pos + arg.dataBlocks :=
    fun b => Fmt.taken_allocated (s := s.added arg) hpos
  by_cases hge : ndirect ≤ arg.dataBlocks
  · have hblocks : arg.blocks = arg.dataBlocks + 1 := by
      unfold Arg.blocks
      rw [if_pos hge]
    rw [if_pos (Nat.min_eq_right hge)] at hcopied
    have hpos' := copied_diskpos hpos arg m
    obtain ⟨d, hindexed, hind⟩ := finishindirect_run (sizeofFile * s.n) pos arg.dataBlocks hpos'
      (show pos + arg.dataBlocks + 1 < s.nblocks.toNat by omega)
    rw [hind] at hcopied
    refine ⟨_, hcopied, rfl, rfl, rfl, rfl, ?_, fun b => ?_, ?_, fun x hx => ?_, ?_, fun x hx => ?_⟩
    · show s.diskpos + arg.dataBlocks * blksize + blksize = _
      rw [hpos, hblocks, ← add_mul, ← Nat.succ_mul]
      rfl
    · have htaken := Fmt.taken_allocated (b := b) (c := 1) hpos'
      rw [Nat.one_mul] at htaken
      have hold : (FilePtr.withMem (.ents (sizeofFile * s.n)) (s.copied arg pos) m).Allocated b ↔
          s.Allocated b ∨ pos ≤ b ∧ b < pos + arg.dataBlocks := hallocs b
      refine htaken.trans ?_
      rw [hold, or_assoc, hblocks]
      exact or_congr_right (by omega)
    · refine EntryFor.of_fields hfields (fun x hx => setWord_of_not_mem hx) ?_
      rw [if_pos hge]
      exact word_setWord_self
    · have hsame := hents x hx
      rw [← hsame]
      apply setWord_of_not_mem
      unfold sizeofFile at *
      omega
    · exact DataFor.of_copy hzero rfl (fun x hx => hindexed.outside x (.inl hx)) fun _ => hindexed
    · rw [hblocks] at hx
      obtain ⟨hx1, hx2⟩ := outside_blocks (Arg.dataBlocks_le h.size) hx
      exact (hindexed.outside x hx1).trans (s.copied_outside hx2)
  · have hblocks : arg.blocks = arg.dataBlocks := by
      unfold Arg.blocks
      rw [if_neg hge, Nat.add_zero]
    rw [if_neg (by omega)] at hcopied
    refine ⟨_, hcopied, rfl, rfl, rfl, rfl, ?_, fun b => ?_, ?_, hents, ?_, fun x hx => ?_⟩
    · show s.diskpos + arg.dataBlocks * blksize = _
      rw [hpos, hblocks, ← add_mul]
    · rw [hblocks]
      exact hallocs b
    · refine EntryFor.of_fields hfields (fun _ _ => rfl) ?_
      rw [if_neg hge]
      refine word_congr fun i hi => ?_
      have hmin : min arg.dataBlocks ndirect ≤ 10 := Nat.min_le_right ..
      exact (hfields.outside _ (by omega)).trans (setWord_of_not_mem (by omega))
    · exact DataFor.of_copy hzero rfl (fun _ _ => rfl) fun hc => absurd hc hge
    · rw [hblocks] at hx
      exact s.copied_outside hx

theorem Accepted.of_ret (h : writefile arg s = .ret () s') : Accepted arg pos s := by
  have hname : arg.name.length ≤ nameMax := by
    by_contra hc
    unfold writefile at h
    rw [if_pos (not_le.mp hc)] at h
    cases h
  have hsize : arg.content.length < maxfilesize := by
    by_contra hc
    unfold writefile at h
    rw [if_neg (not_lt.mpr hname), if_pos (not_lt.mp hc)] at h
    cases h
  have hroom : s.n < maxDirEnts := by
    by_contra hc
    have hadd := diradd_run arg s
    rw [if_neg hc] at hadd
    unfold writefile at h
    rw [if_neg (not_lt.mpr hname), if_neg (not_le.mpr hsize), bind_apply, hadd] at h
    cases h
  refine ⟨hname, hsize, hroom, ?_⟩
  rw [writefile_copied hpos hname hsize hroom] at h
  by_cases hfit : pos + arg.dataBlocks < s.nblocks.toNat
  · rw [if_pos hfit] at h
    unfold Arg.blocks
    by_cases hge : ndirect ≤ arg.dataBlocks
    · -- The block of the numbers has to fit as well.
      by_contra hc
      rw [if_pos hge] at hc
      obtain ⟨m, -, hrun⟩ := finishfile_fields (.ents (sizeofFile * s.n)) pos
        (toWord arg.content.length) (s.copied arg pos) (Arg.roundup hsize)
      have hpos' := copied_diskpos hpos arg m
      rw [hrun, if_pos (Nat.min_eq_right hge), finishindirect_panic _ _ _ hpos' hc] at h
      cases h
    · rw [if_neg hge]
      exact hfit
  · rw [if_neg hfit] at h
    cases h

end

theorem Arg.rest_congr {heap heap' : Image} {k : Nat} (h : SameOn heap heap' e sizeofFile)
    (hk : k + 4 ≤ sizeofFile) : arg.rest heap' e k = arg.rest heap e k := by
  refine word_congr fun i hi => ?_
  unfold Arg.named setBytes
  rw [h _ (by omega) (by omega)]

theorem EntryFor.rest_congr {rest rest' : Nat → Word} (h : EntryFor arg start rest m e)
    (hrest : ∀ k, k + 4 ≤ sizeofFile → rest' k = rest k) : EntryFor arg start rest' m e := by
  refine ⟨h.name, h.size, h.type, h.direct, fun i hi hle => ?_, ?_⟩
  · rw [hrest _ (by unfold ndirect at hi; unfold sizeofFile; omega)]
    exact h.spare i hi hle
  · rw [hrest 176 (by decide)]
    exact h.indirect

theorem EntryFor.moved {rest : Nat → Word} {e' : Nat} (h : EntryFor arg start rest m e)
    (hm : ∀ i < sizeofFile, m' (e' + i) = m (e + i)) : EntryFor arg start rest m' e' := by
  have hword : ∀ k, k + 4 ≤ sizeofFile → word m' (e' + k) = word m (e + k) := by
    intro k hk
    unfold word
    have hbyte : ∀ j < 4, m' (e' + k + j) = m (e + k + j) := by
      intro j hj
      rw [add_assoc, add_assoc]
      exact hm (k + j) (by omega)
    rw [hbyte 3 (by omega), hbyte 2 (by omega), hbyte 1 (by omega), hm k (by omega)]
  refine ⟨fun i hi hle => ?_, ?_, ?_, fun i hi => ?_, fun i hi hle => ?_, ?_⟩
  · rw [hm _ (by unfold maxnamelen sizeofFile at *; omega)]
    exact h.name i hi hle
  · rw [hword 128 (by decide)]
    exact h.size
  · rw [hword 132 (by decide)]
    exact h.type
  · have hlt : i < ndirect := lt_of_lt_of_le hi (Nat.min_le_right _ _)
    rw [add_assoc, hword _ (by unfold sizeofFile; unfold ndirect at hlt; omega),
      ← add_assoc]
    exact h.direct i hi
  · rw [add_assoc, hword _ (by unfold sizeofFile; unfold ndirect at hi; omega), ← add_assoc]
    exact h.spare i hi hle
  · rw [hword 176 (by decide)]
    exact h.indirect

theorem DataFor.congr (h : DataFor arg start m)
    (hm : SameOn m m' (start * blksize) (arg.blocks * blksize)) : DataFor arg start m' := by
  have hlen := arg.content_le
  refine ⟨fun i hi => ?_, fun i hi hge => ?_⟩
  · have hle : arg.dataBlocks * blksize ≤ arg.blocks * blksize :=
      Nat.mul_le_mul_right _ (Nat.le_add_right _ _)
    rw [hm _ (by omega) (by omega)]
    exact h.content i hi
  · have hblocks : arg.blocks * blksize = arg.dataBlocks * blksize + blksize := by
      unfold Arg.blocks
      rw [if_pos hge, Nat.succ_mul]
    have hword : word m' ((start + arg.dataBlocks) * blksize + 4 * i) =
        word m ((start + arg.dataBlocks) * blksize + 4 * i) := by
      apply hm.word
      · rw [Nat.add_mul]
        omega
      · rw [Nat.add_mul, hblocks]
        unfold nindirect blksize at *
        omega
    rw [hword]
    exact h.index i hi hge

def blocksOfAll (args : List Arg) : Nat := (args.map Arg.blocks).sum

def startOf (args : List Arg) (pos k : Nat) : Nat := pos + blocksOfAll (args.take k)

theorem startOf_succ : startOf (arg :: args) pos (k + 1) = startOf args (pos + arg.blocks) k := by
  unfold startOf blocksOfAll
  rw [take_succ_cons, map_cons, sum_cons, add_assoc]

theorem le_startOf : pos ≤ startOf args pos k := Nat.le_add_right _ _

theorem startOf_le {args : List Arg} {arg : Arg} (h : args[k]? = some arg) :
    startOf args pos k + arg.blocks ≤ pos + blocksOfAll args := by
  induction args generalizing k pos with
  | nil => cases h
  | cons a args ih =>
    have hcons : blocksOfAll (a :: args) = a.blocks + blocksOfAll args := sum_cons
    cases k with
    | zero =>
      obtain rfl : a = arg := Option.some.inj h
      rw [hcons]
      show pos + 0 + a.blocks ≤ _
      omega
    | succ k =>
      rw [startOf_succ, hcons, ← add_assoc]
      exact ih h

structure AllAccepted (args : List Arg) (pos nblocks n : Nat) : Prop where
  name : ∀ arg ∈ args, arg.name.length ≤ nameMax
  size : ∀ arg ∈ args, arg.content.length < maxfilesize
  room : n + args.length ≤ maxDirEnts
  fits : pos + blocksOfAll args < nblocks

/-- What the loop over the arguments has done with the blocks from `pos` on. -/
structure FilesWritten (args : List Arg) (pos : Nat) (s s' : Fmt) : Prop where
  nblocks : s'.nblocks = s.nblocks
  super : s'.super = s.super
  bitmap : s'.bitmap = s.bitmap
  n : s'.n = s.n + args.length
  diskpos : s'.diskpos = (pos + blocksOfAll args) * blksize
  allocs : ∀ b, s'.Allocated b ↔ s.Allocated b ∨ pos ≤ b ∧ b < pos + blocksOfAll args
  entry : ∀ k arg, args[k]? = some arg →
    EntryFor arg (startOf args pos k) (arg.rest s.ents (sizeofFile * (s.n + k))) s'.ents
      (sizeofFile * (s.n + k))
  ents : ∀ x, x < sizeofFile * s.n ∨ sizeofFile * (s.n + args.length) ≤ x → s'.ents x = s.ents x
  data : ∀ k arg, args[k]? = some arg → DataFor arg (startOf args pos k) s'.diskmap
  disk : ∀ x, x < pos * blksize ∨ (pos + blocksOfAll args) * blksize ≤ x →
    s'.diskmap x = s.diskmap x

theorem FilesWritten.nil (hpos : s.diskpos = pos * blksize) : FilesWritten [] pos s s where
  nblocks := rfl
  super := rfl
  bitmap := rfl
  n := rfl
  diskpos := hpos
  allocs b := by
    show _ ↔ _ ∨ pos ≤ b ∧ b < pos
    constructor
    · exact .inl
    · rintro (h | ⟨h1, h2⟩)
      · exact h
      · omega
  entry _ _ h := by cases h
  ents _ _ := rfl
  data _ _ h := by cases h
  disk _ _ := rfl

theorem FilesWritten.cons (h1 : FileWritten arg pos s s1)
    (h2 : FilesWritten args (pos + arg.blocks) s1 s') : FilesWritten (arg :: args) pos s s' := by
  have hcons : blocksOfAll (arg :: args) = arg.blocks + blocksOfAll args := sum_cons
  have hn1 := h1.n
  refine ⟨h2.nblocks.trans h1.nblocks, h2.super.trans h1.super, h2.bitmap.trans h1.bitmap, ?_, ?_,
    fun b => ?_, fun k a hk => ?_, fun x hx => ?_, fun k a hk => ?_, fun x hx => ?_⟩
  · rw [h2.n, hn1, length_cons]
    omega
  · rw [h2.diskpos, hcons, Nat.add_assoc]
  · rw [h2.allocs, h1.allocs, hcons, or_assoc]
    exact or_congr_right (by omega)
  · cases k with
    | zero =>
      obtain rfl := Option.some.inj hk
      refine h1.entry.moved fun i hi => h2.ents _ (.inl ?_)
      rw [hn1, Nat.add_zero, Nat.mul_add, Nat.mul_one]
      exact Nat.add_lt_add_left hi _
    | succ k =>
      rw [startOf_succ]
      have hentry := h2.entry k a hk
      rw [hn1, Nat.add_assoc, Nat.add_comm 1 k] at hentry
      have hsame : SameOn s1.ents s.ents (sizeofFile * (s.n + (k + 1))) sizeofFile :=
        fun x hx _ => (h1.ents x (.inr (Nat.le_trans (Nat.mul_le_mul_left _ (by omega)) hx))).symm
      exact hentry.rest_congr fun k hk => Arg.rest_congr hsame hk
  · rw [length_cons] at hx
    rw [h2.ents x, h1.ents x]
    · unfold sizeofFile at *
      omega
    · rw [hn1]
      unfold sizeofFile at *
      omega
  · cases k with
    | zero =>
      obtain rfl := Option.some.inj hk
      refine h1.data.congr fun x _ hx => h2.disk x (.inl ?_)
      rw [Nat.add_mul]
      exact hx
    | succ k =>
      rw [startOf_succ]
      exact h2.data k a hk
  · rw [hcons, ← Nat.add_assoc] at hx
    rw [h2.disk x, h1.disk x]
    · exact hx.imp_right (Nat.le_trans (Nat.mul_le_mul_right _ (Nat.le_add_right _ _)))
    · exact hx.imp_left fun hx => Nat.lt_of_lt_of_le hx
        (Nat.mul_le_mul_right _ (Nat.le_add_right _ _))

theorem writefiles_run (args : List Arg) : ∀ (pos : Nat) (s : Fmt), s.diskpos = pos * blksize →
    (∀ x, pos * blksize ≤ x → s.diskmap x = 0) →
    AllAccepted args pos s.nblocks.toNat s.n →
    ∃ s', writefiles args s = .ret () s' ∧ FilesWritten args pos s s' := by
  induction args with
  | nil => exact fun pos s hpos _ _ => ⟨s, rfl, .nil hpos⟩
  | cons arg args ih =>
    intro pos s hpos hzero hacc
    have hcons : blocksOfAll (arg :: args) = arg.blocks + blocksOfAll args := sum_cons
    have hfits := hacc.fits
    have hroom := hacc.room
    rw [hcons] at hfits
    rw [length_cons] at hroom
    obtain ⟨s1, hrun, hw⟩ := writefile_run hpos hzero
      ⟨hacc.name arg (mem_cons_self ..), hacc.size arg (mem_cons_self ..), by omega,
        by omega⟩
    have hzero1 := hw.zero hzero
    obtain ⟨s', hrun', hws⟩ := ih (pos + arg.blocks) s1 hw.diskpos hzero1
      ⟨fun a ha => hacc.name a (mem_cons_of_mem _ ha),
        fun a ha => hacc.size a (mem_cons_of_mem _ ha), by rw [hw.n]; omega,
        by rw [hw.nblocks]; omega⟩
    exact ⟨s', bind_run hrun hrun', .cons hw hws⟩

theorem AllAccepted.of_ret (args : List Arg) : ∀ (pos : Nat) (s : Fmt),
    s.diskpos = pos * blksize → (∀ x, pos * blksize ≤ x → s.diskmap x = 0) →
    pos < s.nblocks.toNat → s.n ≤ maxDirEnts → writefiles args s = .ret () s' →
    AllAccepted args pos s.nblocks.toNat s.n := by
  induction args with
  | nil =>
    intro pos s _ _ hlt hroom _
    exact ⟨fun _ h => absurd h not_mem_nil, fun _ h => absurd h not_mem_nil, hroom, hlt⟩
  | cons arg args ih =>
    intro pos s hpos hzero hlt hroom h
    have hcons : blocksOfAll (arg :: args) = arg.blocks + blocksOfAll args := sum_cons
    obtain ⟨u, s1, hrun, hrest⟩ := ret_of_bind h
    have hacc := Accepted.of_ret hpos hrun
    obtain ⟨s2, hrun', hw⟩ := writefile_run hpos hzero hacc
    rw [hrun] at hrun'
    cases hrun'
    have hzero1 := hw.zero hzero
    have hroom1 := hacc.room
    have hall := ih (pos + arg.blocks) s1 hw.diskpos hzero1 (by rw [hw.nblocks]; exact hacc.fits)
      (by rw [hw.n]; omega) hrest
    have hfits := hall.fits
    have hlen := hall.room
    rw [hw.nblocks] at hfits
    rw [hw.n] at hlen
    refine ⟨fun a ha => ?_, fun a ha => ?_, ?_, ?_⟩
    · rcases mem_cons.mp ha with rfl | ha
      · exact hacc.name
      · exact hall.name a ha
    · rcases mem_cons.mp ha with rfl | ha
      · exact hacc.size
      · exact hall.size a ha
    · rw [length_cons]
      omega
    · rw [hcons]
      omega

def blankDisk (nblocks : Word) : Image :=
  let m := setWord (setWord (fun _ => 0) sMagicAt fsMagic) sNblocksAt nblocks
  let m := setBytes (setWord m (fTypeAt sRoot) ftypeDir) sRoot 2 fun i => [47, 0].getD i 0
  setBytes m bitmapAddr blksize fun _ => 0xFF

def Fmt.opened (s : Fmt) : Fmt :=
  { s with
    diskmap := blankDisk s.nblocks
    diskpos := 3 * blksize
    super := superAddr
    bitmap := bitmapAddr
    allocs := s.allocs ++ [(0, blksize)] ++ [(0 + blksize, blksize)] ++
      [(0 + blksize + blksize, blksize)] }

theorem opendisk_run (h2 : 2 ≤ s.nblocks.toNat) (hmax : s.nblocks.toNat ≤ 1024) :
    opendisk s = if 3 < s.nblocks.toNat then .ret () s.opened
      else .panic "out of disk blocks" := by
  have hbits : (s.nblocks.toNat + blkbitsize - 1) / blkbitsize = 1 := by
    unfold blkbitsize blksize
    omega
  obtain ⟨s0, hs0⟩ : ∃ s0 : Fmt, s0 = { s with diskmap := fun _ => 0, diskpos := 0 } := ⟨_, rfl⟩
  have hpos0 : s0.diskpos = 0 * blksize := by
    rw [hs0, Nat.zero_mul]
  have hpos1 : (s0.taken blksize).diskpos = 1 * blksize := by
    show s0.diskpos + blksize = _
    rw [hpos0]
    omega
  obtain ⟨s2, hs2⟩ : ∃ s2 : Fmt, s2 = { (s0.taken blksize).taken blksize with
    super := 1 * blksize
    diskmap := setBytes (setWord (setWord (setWord (fun _ => 0) sMagicAt fsMagic) sNblocksAt
      s.nblocks) (fTypeAt sRoot) ftypeDir) sRoot 2 fun i => [47, 0].getD i 0 } := ⟨_, rfl⟩
  have hpos2 : s2.diskpos = 2 * blksize := by
    rw [hs2]
    show s0.diskpos + blksize + blksize = _
    rw [hpos0]
    omega
  have hn0 : s0.nblocks = s.nblocks := by rw [hs0]
  have hn2 : s2.nblocks = s.nblocks := by rw [hs2]; exact hn0
  have halloc0 := alloc_block hpos0
  have halloc1 := alloc_block hpos1
  have halloc2 := alloc_block hpos2
  rw [if_pos (by rw [hn0]; omega)] at halloc0
  have hblank : Code.modify (fun s : Fmt => { s with diskmap := fun _ => 0, diskpos := 0 }) s =
      (.ret () s0 : Outcome String Fmt Unit) := by
    rw [hs0]
    rfl
  refine bind_run hblank (bind_run halloc0 ?_)
  have hn1 : (s0.taken blksize).nblocks = s.nblocks := hn0
  rw [hn1] at halloc1
  by_cases h3 : 1 + 1 < s.nblocks.toNat
  · rw [if_pos h3] at halloc1
    rw [hn2] at halloc2
    refine bind_run halloc1 (bind_run rfl (bind_run rfl (bind_run rfl
      (bind_run rfl (bind_run rfl (bind_run rfl ?_))))))
    rw [show ((s0.taken blksize).taken blksize).nblocks = s.nblocks from hn0, hbits, Nat.one_mul]
    subst hs0 hs2
    by_cases h4 : 2 + 1 < s.nblocks.toNat
    · rw [if_pos h4] at halloc2
      rw [if_pos h4]
      refine bind_run halloc2 (bind_run rfl ?_)
      refine congrArg (Outcome.ret ()) ?_
      rw [Fmt.mk.injEq]
      refine ⟨rfl, rfl, ?_, rfl, rfl, rfl, rfl, rfl⟩
      show 0 + blksize + blksize + blksize = 3 * blksize
      omega
    · rw [if_neg h4] at halloc2
      rw [if_neg h4]
      exact bind_panic halloc2
  · rw [if_neg h3] at halloc1
    rw [if_neg (by omega)]
    exact bind_panic halloc1

theorem Fmt.opened_allocated (h : s.allocs = []) : s.opened.Allocated b ↔ b < 3 := by
  unfold Fmt.Allocated Fmt.opened
  rw [h]
  simp only [nil_append, cons_append, mem_cons, not_mem_nil, or_false,
    exists_eq_or_imp, exists_eq_left]
  unfold blksize
  omega

/-- The entries of the directory are in the blocks from `pos` on, and the root names them. -/
structure DirWritten (pos : Nat) (s s' : Fmt) : Prop where
  nblocks : s'.nblocks = s.nblocks
  bitmap : s'.bitmap = s.bitmap
  diskpos : s'.diskpos = (pos + blocksBelow (s.n * sizeofFile)) * blksize
  allocs : ∀ b, s'.Allocated b ↔
    s.Allocated b ∨ pos ≤ b ∧ b < pos + blocksBelow (s.n * sizeofFile)
  entries : ∀ i < s.n * sizeofFile, s'.diskmap (pos * blksize + i) = s.ents i
  size : word s'.diskmap (s.super + 8 + 128) = toWord (rootBlocks s.n * blksize)
  direct : ∀ i < rootBlocks s.n,
    word s'.diskmap (s.super + 8 + 136 + 4 * i) = toWord (pos + i)
  outside : ∀ x, x < s.super + 8 + 128 ∨ s.super + 8 + 132 ≤ x ∧ x < s.super + 8 + 136 ∨
    s.super + 8 + 136 + 4 * rootBlocks s.n ≤ x →
    x < pos * blksize ∨ pos * blksize + s.n * sizeofFile ≤ x → s'.diskmap x = s.diskmap x

theorem rootBlocks_lt (hk : k ≤ maxDirEnts) : 0 < rootBlocks k ∧ rootBlocks k < ndirect := by
  unfold rootBlocks blocksBelow sizeofFile blksize ndirect
  unfold maxDirEnts at hk
  split <;> omega

def Fmt.listed (s : Fmt) (pos : Nat) : Fmt :=
  { s.taken (blocksBelow (s.n * sizeofFile) * blksize) with
    diskmap := setBytes s.diskmap (pos * blksize) (s.n * sizeofFile) s.ents }

theorem finishdir_run (hpos : s.diskpos = pos * blksize) (hn : s.n ≤ maxDirEnts)
    (hsuper : s.super + 8 + sizeofFile ≤ pos * blksize) :
    if pos + blocksBelow (s.n * sizeofFile) < s.nblocks.toNat then
      ∃ s', finishdir s = .ret () s' ∧ DirWritten pos s s'
    else finishdir s = .panic "out of disk blocks" := by
  have hsize : (toWord (s.n * sizeofFile)).toNat = s.n * sizeofFile := by
    rw [BitVec.toNat_ofNat]
    unfold maxDirEnts at hn
    unfold sizeofFile
    omega
  have hbytes : (toWord (s.n * sizeofFile)).toNat + blksize ≤ 2 ^ 32 := by
    rw [hsize]
    unfold maxDirEnts at hn
    unfold sizeofFile blksize
    omega
  have halloc := alloc_run hbytes hpos
  rw [hsize] at halloc
  by_cases hfit : pos + blocksBelow (s.n * sizeofFile) < s.nblocks.toNat
  · rw [if_pos hfit] at halloc ⊢
    obtain ⟨hroot0, hroot⟩ := rootBlocks_lt hn
    have hblock : blockof (pos * blksize) = pos := Nat.mul_div_cancel _ (by decide)
    have hc : (roundupUnsigned (roundupInt (toWord (s.n * sizeofFile)))).toNat =
        rootBlocks s.n * blksize := by
      rw [roundupUnsigned_toNat, roundupInt_toNat hn, blocksBelow_mul]
      · rw [roundupInt_toNat hn]
        unfold ndirect at hroot
        unfold blksize
        omega
    have hlen : roundupInt (toWord (s.n * sizeofFile)) =
        toWord (rootBlocks s.n * blksize) := by
      apply BitVec.eq_of_toNat_eq
      rw [roundupInt_toNat hn, BitVec.toNat_ofNat]
      unfold ndirect at hroot
      unfold blksize
      omega
    obtain ⟨m, hfields, hrun⟩ := finishfile_direct (.disk (s.super + 8)) pos (s.listed pos) hc hroot
    have hmin : min (rootBlocks s.n) ndirect = rootBlocks s.n := Nat.min_eq_left (by omega)
    have hdirect := hfields.direct
    have hout := hfields.outside
    rw [hmin] at hdirect hout
    have hroot10 : rootBlocks s.n < 10 := hroot
    have hcopied : finishdir s =
        .ret () ((FilePtr.disk (s.super + 8)).withMem (s.listed pos) m) := by
      refine bind_run rfl (bind_run halloc (bind_run rfl (bind_run rfl ?_)))
      rw [hsize, hblock]
      exact hrun
    refine ⟨_, hcopied, ?_⟩
    refine ⟨rfl, rfl, ?_, fun b => Fmt.taken_allocated hpos, fun i hi => ?_, ?_, hdirect,
      fun x hx hx' => ?_⟩
    · show s.diskpos + _ = _
      rw [hpos, ← add_mul]
    · refine (hout _ (.inr (.inr ?_))).trans ?_
      · show s.super + 8 + 136 + _ ≤ _
        unfold sizeofFile at hsuper
        omega
      · show setBytes s.diskmap (pos * blksize) (s.n * sizeofFile) s.ents _ = _
        rw [setBytes_of_mem (by omega) (by omega), Nat.add_sub_cancel_left]
    · rw [← hlen]
      exact hfields.size
    · exact (hout x hx).trans (setBytes_of_not_mem hx')
  · rw [if_neg hfit] at halloc ⊢
    exact bind_run rfl (bind_panic halloc)

end Jos
