import Jos.Files.Disk
import Jos.Kernel.Allocation

/-!
# Page faults in the block cache

`bc_pgfault` calls `sys_page_map` with the address of the access, which is an error unless it is the
first of a page. So the first access to a block has to be at its first byte, and so has that to the
word of the bitmap that the handler looks at. Apart from that the cache does not show.
-/

namespace Jos

open Logic Function

variable {s s' s0 : Fs} {a b n : Nat} {c : Nat}

/-- An access to the byte `a`, with at most `n` handlers on the exception stack. -/
def accessAt : Nat → Nat → FsM Unit
  | 0, _ => Code.panic "the exception stack is full"
  | n + 1, a => do
    if (← Code.get).mapped (a / blksize) = false then
      bcPgfault (accessAt n) a

/-- `fs_init` has read the super block and the first block of the bitmap. -/
structure Ready (s : Fs) : Prop where
  super : s.mapped 1 = true
  bitmap : s.mapped 2 = true

theorem Ready.load (h : Ready s) (b : Nat) : Ready (s.load b) := by
  constructor <;> simp [Fs.load, update_apply, h.super, h.bitmap]

theorem accessAt_mapped (h : s.mapped (a / blksize) = true) : accessAt (n + 1) a s = .ret () s := by
  simp [accessAt, bind_apply, get_apply, pure_apply, h]

theorem Ready.super_run (h : Ready s) : accessAt (n + 1) sNblocksAt s = .ret () s :=
  accessAt_mapped h.super

structure Accessed (s : Fs) (a : Nat) (s' : Fs) : Prop where
  ready : Ready s'
  seen : s'.seen = s.seen
  mapped : s'.mapped (a / blksize) = true
  rest : ∀ b, s'.mapped b = s.mapped b ∧ s'.dirty b = s.dirty b ∨
    s.mapped b = false ∧ s'.dirty b = false

theorem Accessed.load (h : Ready s) (hs : s.mapped (a / blksize) = false) :
    Accessed s a (s.load (a / blksize)) := by
  refine ⟨h.load _, s.load_seen hs, update_self .., fun b => ?_⟩
  by_cases hb : b = a / blksize
  · subst hb
    exact .inr ⟨hs, update_self ..⟩
  · exact .inl ⟨update_of_ne hb .., update_of_ne hb ..⟩

theorem Accessed.trans {c : Nat} {s1 : Fs} (h : Accessed s a s1) (h' : Accessed s1 c s') :
    Accessed s a s' := by
  refine ⟨h'.ready, h'.seen.trans h.seen, ?_, fun b => ?_⟩
  · rcases h'.rest (a / blksize) with hsame | hno
    · exact hsame.1.trans h.mapped
    · exact absurd h.mapped (by simp [hno.1])
  · rcases h'.rest b with hsame | hno <;> rcases h.rest b with hsame1 | hno1
    · exact .inl ⟨hsame.1.trans hsame1.1, hsame.2.trans hsame1.2⟩
    · exact .inr ⟨hno1.1, hsame.2.trans hno1.2⟩
    · exact .inr ⟨hsame1.1.symm.trans hno.1, hno.2⟩
    · exact .inr ⟨hno1.1, hno.2⟩

theorem Accessed.clean (h : Accessed s a s') (hs : s.mapped (a / blksize) = false) :
    s'.dirty (a / blksize) = false := by
  rcases h.rest (a / blksize) with hsame | hno
  · exact absurd (hsame.1.symm.trans h.mapped) (by simp [hs])
  · exact hno.2

/-- The access returns if `Q` holds, and otherwise the handler panics. -/
def ReturnsIff (n : Nat) (s : Fs) (a : Nat) (Q : Prop) : Prop :=
  Q ∧ (∃ s', accessAt n a s = .ret () s' ∧ Accessed s a s') ∨ ¬Q ∧ ∃ e, accessAt n a s = .panic e

theorem returnsIff_mapped {Q : Prop} (h : Ready s) (hs : s.mapped (a / blksize) = true) (hQ : Q) :
    ReturnsIff (n + 1) s a Q :=
  .inl ⟨hQ, s, accessAt_mapped hs, h, rfl, hs, fun _ => .inl ⟨rfl, rfl⟩⟩

theorem returnsIff_fault {Q : Prop} (h : Ready s) (hs : s.mapped (a / blksize) = false)
    (ha : a < disksize)
    (hbit : ReturnsIff (n + 1) (s.load (a / blksize)) (bitmapAt (a / blksize)) Q) :
    ReturnsIff (n + 2) s a (a % blksize = 0 ∧ Readable s.mem (a / blksize) ∧ Q) := by
  have hdisk : a / blksize * blksize < disksize := (Nat.div_mul_le_self a blksize).trans_lt ha
  have hload := Accessed.load h hs
  unfold ReturnsIff
  rw [accessAt]
  simp only [bind_apply, get_apply, hs, if_true, bcPgfault, if_neg (Nat.not_le.mpr ha), h.super_run]
  by_cases hlt : a / blksize < nblocksIn s.mem
  swap
  · refine .inr ⟨fun hq => hlt hq.2.1.2.1, "reading non-existent block", ?_⟩
    rw [if_pos (Nat.le_of_not_lt hlt)]
    rfl
  by_cases hoff : a % blksize = 0
  swap
  · have hmap : remap a < 0 := by simp [remap, pgsize, show ¬a % 4096 = 0 from hoff, eInval]
    refine .inr ⟨fun hq => hoff hq.1, "in bc_pgfault, sys_page_map", ?_⟩
    simp only [if_neg (Nat.not_le.mpr hlt), bind_apply, modify_apply, if_pos hmap]
    rfl
  have hmap : ¬remap a < 0 := by simp [remap, pgsize, show a % 4096 = 0 from hoff]
  simp only [if_neg (Nat.not_le.mpr hlt), bind_apply, modify_apply, if_neg hmap,
    hload.ready.super_run]
  rcases hbit with ⟨hQ, s', hrun, hs'⟩ | ⟨hQ, e, hrun⟩
  · have hmem : s'.mem = s.mem := congrArg Store.mem (hs'.seen.trans hload.seen)
    simp only [hrun, get_apply, hmem]
    cases hfree : freeIn s.mem (a / blksize) with
    | true => exact .inr ⟨fun hq => absurd hq.2.1.2.2 (by simp [hfree]), _, rfl⟩
    | false => exact .inl ⟨⟨hoff, ⟨hdisk, hlt, hfree⟩, hQ⟩, s', rfl, hload.trans hs'⟩
  · exact .inr ⟨fun hq => hQ hq.2.2, e, by rw [hrun]⟩

/-- The access causes no fault, or one that the handler can serve. -/
def Quick (s : Fs) (a : Nat) : Prop :=
  s.mapped (a / blksize) = true ∨ a % blksize = 0 ∧ Readable s.mem (a / blksize)

theorem returnsIff_quick (h : Ready s) (ha : a < disksize)
    (hbit : bitmapAt (a / blksize) / blksize = 2) : ReturnsIff (n + 2) s a (Quick s a) := by
  cases hs : s.mapped (a / blksize) with
  | true => exact returnsIff_mapped h hs (.inl hs)
  | false =>
    have hstep := returnsIff_fault (n := n) (Q := True) h hs ha
      (returnsIff_mapped (h.load _) (by rw [hbit]; exact (h.load _).bitmap) trivial)
    simpa [Quick, hs] using hstep

/-- The block is in the cache, or the access is to its first byte and the handler can read the
bitmap. -/
def Smooth (s : Fs) (a : Nat) : Prop :=
  s.mapped (a / blksize) = true ∨ a % blksize = 0 ∧ Quick s (bitmapAt (a / blksize))

theorem returnsIff_smooth (h : Ready s) (hb : Readable s.mem (a / blksize)) :
    ReturnsIff (n + 3) s a (Smooth s a) := by
  have ha : a < disksize := by
    have hlt := hb.1
    unfold blksize disksize at *
    omega
  cases hs : s.mapped (a / blksize) with
  | true => exact returnsIff_mapped h hs (.inl hs)
  | false =>
    have hne : a / blksize ≠ 2 := fun he => by simp [he, h.bitmap] at hs
    have hin : bitmapAt (a / blksize) < disksize ∧ bitmapAt (a / blksize) / blksize ≠ a / blksize ∧
        bitmapAt (bitmapAt (a / blksize) / blksize) / blksize = 2 := by
      unfold bitmapAt bitmapAddr blksize disksize at *
      omega
    have hquick : Quick (s.load (a / blksize)) (bitmapAt (a / blksize)) ↔
        Quick s (bitmapAt (a / blksize)) := by
      have hmap : (s.load (a / blksize)).mapped (bitmapAt (a / blksize) / blksize) = _ :=
        update_of_ne hin.2.1 ..
      unfold Quick
      rw [s.load_mem hs, hmap]
    have hstep := returnsIff_fault h hs ha (returnsIff_quick (n := n) (h.load _) hin.1 hin.2.2)
    simpa [Smooth, hs, hb, hquick] using hstep

/-- An access that the handlers serve shows no more than `touch`, which leaves their faults out. -/
theorem accessAt_touch (h : Ready s) (hb : Readable s.mem (a / blksize))
    (hrun : accessAt (n + 3) a s = .ret () s') :
    ∃ t, touch (a / blksize) s = .ret () t ∧ t.seen = s'.seen := by
  have hb' : Readable s.seen.mem (a / blksize) := hb
  obtain ⟨t, ht, hseen⟩ := touch_runs hb' s rfl
  rcases returnsIff_smooth (n := n) h hb with ⟨-, s1, hrun1, hs1⟩ | ⟨-, e, hpanic⟩
  · cases hrun.symm.trans hrun1
    exact ⟨t, ht, hseen.trans hs1.seen.symm⟩
  · cases hrun.symm.trans hpanic

inductive CacheOp where
  | read (a : Nat)
  | write (a : Nat) (x : Byte)
  | flush (a : Nat)

namespace CacheOp

variable {op : CacheOp} {ops : List CacheOp} {r : Option Byte}

def run (n : Nat) : CacheOp → FsM (Option Byte)
  | read a => do
    accessAt n a
    return some ((← Code.get).mem a)
  | write a x => do
    accessAt n a
    Code.modify fun s => s.store a 1 fun _ => x
    return none
  | flush a => do
    flushBlock a
    return none

/-- The operation on a disk without a cache. -/
def apply (m : Image) : CacheOp → Image
  | write a x => setBytes m a 1 fun _ => x
  | _ => m

def Allocated (s : Fs) : CacheOp → Prop
  | read a | write a _ => Readable s.mem (a / blksize)
  | flush a => a < disksize

def Served (s : Fs) : CacheOp → Prop
  | read a | write a _ => Smooth s a
  | flush _ => True

/-- The operation has returned `r`, and nothing but its time shows that there is a cache. -/
structure Transparent (op : CacheOp) (s : Fs) (r : Option Byte) (s' : Fs) : Prop where
  mem : s'.mem = op.apply s.mem
  value : ∀ a, op = read a → r = some (s.mem a)
  loaded : ∀ a x, op = read a ∨ op = write a x → s'.mapped (a / blksize) = true
  first : ∀ a, op = read a → s.mapped (a / blksize) = false →
    s'.dirty (a / blksize) = false ∧ ∀ x, x / blksize = a / blksize → s'.cache x = s.disk x
  flushed : ∀ a, op = flush a → ∀ x, x / blksize = a / blksize → s'.disk x = s'.mem x

theorem read_transparent (hc : Coherent s.seen) (hs : Accessed s a s') :
    (read a).Transparent s (some (s'.mem a)) s' ∧ Ready s' ∧ Coherent s'.seen := by
  have hmem : s'.mem = s.mem := congrArg Store.mem hs.seen
  refine ⟨⟨hmem, ?_, ?_, ?_, ?_⟩, hs.ready, hs.seen ▸ hc⟩
  · rintro _ ⟨⟩
    rw [hmem]
  · rintro _ _ (⟨⟨⟩⟩ | h)
    · exact hs.mapped
    · cases h
  · rintro _ ⟨⟩ hno
    refine ⟨hs.clean hno, fun x hx => ?_⟩
    rw [← Fs.mem_of_mapped (by rw [hx]; exact hs.mapped), hmem]
    exact Fs.mem_of_unmapped (by rw [hx]; exact hno)
  · rintro _ ⟨⟩

theorem write_transparent {x : Byte} (hc : Coherent s.seen) (hs : Accessed s a s') :
    (write a x).Transparent s none (s'.store a 1 fun _ => x) ∧
      Ready (s'.store a 1 fun _ => x) ∧ Coherent (s'.store a 1 fun _ => x).seen := by
  have hseen : (s'.store a 1 fun _ => x).seen = s.seen.set a 1 fun _ => x := by
    rw [Fs.store_seen, hs.seen]
    intro y hy hy'
    rw [show y = a by omega]
    exact hs.mapped
  refine ⟨⟨congrArg Store.mem hseen, ?_, ?_, ?_, ?_⟩, ⟨hs.ready.super, hs.ready.bitmap⟩, ?_⟩
  · rintro _ ⟨⟩
  · rintro _ _ (h | ⟨⟨⟩⟩)
    · cases h
    · exact hs.mapped
  · rintro _ ⟨⟩
  · rintro _ ⟨⟩
  · rw [hseen]
    exact hc.set

theorem flush_transparent (h : Ready s) (hc : Coherent s.seen) (ha : a < disksize) :
    ∃ s', (flush a).run n s = .ret none s' ∧ (flush a).Transparent s none s' ∧ Ready s' ∧
      Coherent s'.seen := by
  obtain ⟨s', hrun, hseen⟩ := flushBlock_runs ha s rfl
  have hready : Ready s' := by
    unfold flushBlock at hrun
    simp only [if_neg (Nat.not_le.mpr ha), bind_apply, get_apply] at hrun
    split at hrun <;> cases hrun
    · exact ⟨h.super, h.bitmap⟩
    · exact h
  have hmem : s'.mem = s.mem := (congrArg Store.mem hseen).trans (Store.flush_mem ..)
  refine ⟨s', bind_run hrun rfl, ⟨hmem, ?_, ?_, ?_, ?_⟩, hready, hseen ▸ hc.flush⟩
  · rintro _ ⟨⟩
  · rintro _ _ (h | h) <;> cases h
  · rintro _ ⟨⟩
  · rintro _ ⟨⟩ x hx
    rw [show s'.disk = _ from (congrArg Store.disk hseen).trans hc.flush_disk, hmem]
    exact onBlocks_of_mem (by simp [hx])

theorem run_cases (h : Ready s) (hc : Coherent s.seen) (hop : op.Allocated s) :
    op.Served s ∧ (∃ r s', op.run (n + 3) s = .ret r s' ∧ op.Transparent s r s' ∧ Ready s' ∧
        Coherent s'.seen) ∨
      ¬op.Served s ∧ ∃ e, op.run (n + 3) s = .panic e := by
  cases op with
  | read a =>
    rcases returnsIff_smooth (n := n) h hop with ⟨hq, s', hrun, hs'⟩ | ⟨hq, e, hrun⟩
    · exact .inl ⟨hq, _, s', bind_run hrun rfl, read_transparent hc hs'⟩
    · exact .inr ⟨hq, e, by rw [run, bind_apply, hrun]⟩
  | write a x =>
    rcases returnsIff_smooth (n := n) h hop with ⟨hq, s', hrun, hs'⟩ | ⟨hq, e, hrun⟩
    · exact .inl ⟨hq, _, _, bind_run hrun rfl, write_transparent hc hs'⟩
    · exact .inr ⟨hq, e, by rw [run, bind_apply, hrun]⟩
  | flush a => exact .inl ⟨trivial, none, flush_transparent h hc hop⟩

end CacheOp

/-- Operations on allocated blocks that have returned, with at most `n` handlers at a time. -/
inductive CacheRun (n : Nat) (s0 : Fs) : List CacheOp → Fs → Prop
  | nil : CacheRun n s0 [] s0
  | snoc {ops op s r s'} (h : CacheRun n s0 ops s) (hop : op.Allocated s)
      (hrun : op.run n s = .ret r s') : CacheRun n s0 (ops ++ [op]) s'

theorem CacheRun.keeps {ops : List CacheOp} (h0 : Ready s0) (hc : Coherent s0.seen)
    (h : CacheRun (n + 3) s0 ops s) :
    Ready s ∧ Coherent s.seen ∧ s.mem = ops.foldl CacheOp.apply s0.mem := by
  induction h with
  | nil => exact ⟨h0, hc, rfl⟩
  | snoc _ hop hrun ih =>
    obtain ⟨hready, hcoh, hmem⟩ := ih
    rcases CacheOp.run_cases (n := n) hready hcoh hop with ⟨-, r, s', hrun', ht, h'⟩ | ⟨-, e, hrun'⟩
    · cases hrun.symm.trans hrun'
      refine ⟨h'.1, h'.2, ?_⟩
      rw [List.foldl_concat, ← hmem]
      exact ht.mem
    · cases hrun.symm.trans hrun'

/-- After any operations, the next one is as on a disk without a cache exactly if it causes no
fault away from the first byte of a block. -/
theorem cache_transparent {ops : List CacheOp} {op : CacheOp} (h0 : Ready s0)
    (hc : Coherent s0.seen) (hrun : CacheRun (n + 3) s0 ops s) (hop : op.Allocated s) :
    s.mem = ops.foldl CacheOp.apply s0.mem ∧
      ((∃ r s', op.run (n + 3) s = .ret r s' ∧ op.Transparent s r s') ↔ op.Served s) := by
  obtain ⟨hready, hcoh, hmem⟩ := hrun.keeps h0 hc
  refine ⟨hmem, ?_⟩
  rcases CacheOp.run_cases (n := n) hready hcoh hop with ⟨hq, r, s', hrun', ht, -⟩ | ⟨hq, e, hrun'⟩
  · exact iff_of_true ⟨r, s', hrun', ht⟩ hq
  · refine iff_of_false ?_ hq
    rintro ⟨r, s', hret, -⟩
    cases hret.symm.trans hrun'

def warmFs : Fs := ((Fs.start smallImage).load 1).load 2

theorem warmFs_ready : Ready warmFs := ⟨by decide, by decide⟩

theorem warmFs_seen : warmFs.seen = (Fs.start smallImage).seen := by
  unfold warmFs
  rw [Fs.load_seen, Fs.load_seen]
  · rfl
  · rfl

theorem warmFs_coherent : Coherent warmFs.seen := warmFs_seen ▸ Fs.start_coherent smallImage

theorem warmFs_readable : Readable warmFs.mem 3 := by
  rw [show warmFs.mem = smallImage from congrArg Store.mem warmFs_seen]
  exact ⟨by decide, by decide +kernel, by decide +kernel⟩

/-- Once the first byte of the block has been read, its second one can be. -/
theorem cache_transparent_read : ∃ r s r' s',
    (CacheOp.read (3 * blksize)).run 3 warmFs = .ret r s ∧
    (CacheOp.read (3 * blksize + 1)).run 3 s = .ret r' s' ∧
    (CacheOp.read (3 * blksize + 1)).Transparent s r' s' := by
  have hfirst : ((CacheOp.read (3 * blksize)).run 3 warmFs).check fun _ s => s.mapped 3 := by
    decide +kernel
  obtain ⟨r, s, hret, hmap⟩ := Outcome.ret_of_check hfirst
  have hrun : CacheRun 3 warmFs [.read (3 * blksize)] s := .snoc .nil warmFs_readable hret
  have hmem : s.mem = warmFs.mem := (hrun.keeps warmFs_ready warmFs_coherent).2.2
  have hop : (CacheOp.read (3 * blksize + 1)).Allocated s := by
    show Readable s.mem 3
    exact hmem ▸ warmFs_readable
  have hiff := (cache_transparent (n := 0) warmFs_ready warmFs_coherent hrun hop).2
  obtain ⟨r', s', hret', ht⟩ := hiff.mpr (.inl hmap)
  exact ⟨r, s, r', s', hret, hret', ht⟩

/-- The first access to the block of the root directory is to its second byte. -/
theorem cache_not_transparent : Readable warmFs.mem ((3 * blksize + 1) / blksize) ∧
    ∃ e, (CacheOp.read (3 * blksize + 1)).run 3 warmFs = .panic e := by
  have hb := warmFs_readable
  have hop : (CacheOp.read (3 * blksize + 1)).Allocated warmFs := hb
  rcases CacheOp.run_cases (n := 0) warmFs_ready warmFs_coherent hop with hret | hpanic
  · rcases hret.1 with hmap | hzero
    · exact absurd hmap (by decide)
    · exact absurd hzero.1 (by decide)
  · exact ⟨hb, hpanic.2⟩

end Jos
