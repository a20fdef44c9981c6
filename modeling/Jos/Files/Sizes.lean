import Jos.Files.Clients

/-!
# The sizes of files behind the file server

No handler checks the size that a client asks for. If clients ask for sizes in range, sizes stay
in range, and a smaller size gives back the blocks behind it.
-/

namespace Jos

open Logic

variable {m : Image} {s s0 s' : Serv} {t : Fs} {f : Nat} {n : Word}

/-- The slots of `f` behind the size `n` are empty, and their blocks are free. -/
def CutOff (m m' : Image) (f : Nat) (n : Word) : Prop :=
  ∀ k < maxblocks, blocksBelow n.toNat ≤ k →
    held m' f (some k) = 0 ∧ (held m f (some k) ≠ 0 → freeIn m' (held m f (some k)) = true)

theorem fileSetSize_cutOff (ht : Tree t.mem) (hf : f ∈ files t.mem)
    (hreg : fType t.mem f ≠ ftypeDir) (hmax : (fSize t.mem f).toNat ≤ maxfilesize)
    (hn : n.toNat < (fSize t.mem f).toNat) :
    ∃ t', fileSetSize f n t = .ret 0 t' ∧ CutOff t.mem t'.mem f n := by
  obtain ⟨st', hrun, hs⟩ := fileSetSize_spec n
    (show Layout _ (inodes t.seen.mem) from ht.layout) ht.tight hf hreg
  obtain ⟨t', hret, rfl⟩ := hrun t rfl
  have hlt := lt_of_le_maxfilesize hmax
  have hcut : n.toInt < (fSize t.mem f).toInt := by
    rw [toInt_of_small hlt, toInt_of_small (by omega)]
    omega
  refine ⟨t', hret, fun k hk hle => ?_⟩
  have hge : (blocksOf n).toNat ≤ k := by
    rw [blocksOf_of_small]
    · exact hle
    · unfold maxfilesize ndirect nindirect blksize at hmax
      unfold blksize
      omega
  exact ⟨(hs.slots k hk).trans (if_pos ⟨hcut, hge⟩), hs.freed ht.layout hf hk hcut hge⟩

def SizeStep (s s' : Serv) : Prop := ∃ req r s1, InOrder req s ∧ SizeInRange req s ∧
  serveRequest req s = .ret r s1 ∧ ClientStep r.2 s1 s'

theorem SizeStep.keeps (hstep : SizeStep s s') (h : Opened s.view) (hs : SizesOk s.fs.mem) :
    Opened s'.view ∧ SizesOk s'.fs.mem := by
  obtain ⟨req, r, s1, hok, hsize, hret, hclient⟩ := hstep
  obtain ⟨r', v', hrun, hserved, hkeep⟩ := serveRequest_served h hok
  obtain ⟨rfl, rfl⟩ := hrun.eq_of_ret rfl hret
  refine ⟨h.step hserved hclient, ?_⟩
  rw [hclient.fs]
  exact hkeep hsize hs

/-- In every run the sizes stay in range, and setting a smaller size cuts the file off. -/
theorem sizes_in_range (h : Tree m) (hsizes : SizesOk m)
    (hstart : ClientStep none (Serv.init (Fs.start m)) s0)
    (hrun : Relation.ReflTransGen SizeStep s0 s) :
    SizesOk s.fs.mem ∧ ∀ f ∈ files s.fs.mem, fType s.fs.mem f ≠ ftypeDir →
      ∀ n : Word, n.toNat < (fSize s.fs.mem f).toNat →
        ∃ t, fileSetSize f n s.fs = .ret 0 t ∧ CutOff s.fs.mem t.mem f n := by
  have hkeep : Opened s.view ∧ SizesOk s.fs.mem := by
    induction hrun with
    | refl =>
      refine ⟨opened_init h hstart, ?_⟩
      rw [hstart.fs]
      exact hsizes
    | tail _ hstep ih => exact hstep.keeps ih.1 ih.2
  refine ⟨hkeep.2, fun f hf hreg n hn => ?_⟩
  exact fileSetSize_cutOff hkeep.1.tree hf hreg (hkeep.2 f hf) hn

theorem smallImage_sizesOk : SizesOk smallImage := by
  intro f hf
  rw [smallImage_files] at hf
  rcases smallFiles_facts hf with rfl | hf
  · decide
  · have hzero : (fSize smallImage f).toNat = 0 := by
      apply smallImage_word <;> unfold fSizeAt <;> omega
    rw [hzero]
    exact Nat.zero_le _

@[irreducible] def xOpened : Serv := (serveRequest fsreqOpen createX).after createX

theorem createX_run : serveRequest fsreqOpen createX = .ret (0, some 0) xOpened := by
  unfold xOpened
  exact Outcome.eq_ret createX (by decide +kernel)

/-- The client has got the page with its `struct Fd`, and has written a request about it. -/
def askX (a : Nat) (w : Word) : Serv :=
  { xOpened with
    fdRef := fun i => if i = 0 then 2 else 0
    fsreq := setWord (setWord (fun _ => 0) reqFileidAt 1024) a w }

theorem askX_client (a : Nat) (w : Word) : ClientStep (some 0) xOpened (askX a w) :=
  ⟨rfl, rfl, fun _ => firstFd_ref⟩

@[irreducible] def xPut : Serv := (serveRequest fsreqWrite (askX reqNAt 1)).after (askX reqNAt 1)

theorem xPut_run : serveRequest fsreqWrite (askX reqNAt 1) = .ret (1, none) xPut := by
  unfold xPut
  exact Outcome.eq_ret _ (by decide +kernel)

theorem writeX_inOrder : InOrder fsreqWrite (askX reqNAt 1) := by
  refine ⟨fun h => absurd h (by decide), fun o f ho hf => ?_⟩
  have hentry : (askX reqNAt 1).reqEntry = some 0 := by decide +kernel
  have hfile : (askX reqNAt 1).reqFile = some (3 * blksize) := by decide +kernel
  cases hentry.symm.trans ho
  cases hfile.symm.trans hf
  have hmem : 3 * blksize ∈ files xOpened.fs.mem :=
    mem_files_of_root (j := 0) (by decide +kernel) (by decide +kernel) (by decide)
  refine ⟨fun h => absurd h (by decide), fun h => absurd h (by decide), fun _ => ⟨by decide, hmem,
    by decide +kernel, by decide +kernel, ?_⟩, fun h => absurd h (by decide)⟩
  unfold Room
  decide +kernel

/-- A client creates a file and writes one byte to it, and the file can be cut off again. -/
theorem sizes_in_range_written : fSize xPut.fs.mem (3 * blksize) = 1 ∧ SizesOk xPut.fs.mem ∧
    ∃ t, fileSetSize (3 * blksize) 0 xPut.fs = .ret 0 t ∧
      CutOff xPut.fs.mem t.mem (3 * blksize) 0 := by
  have hcreate : SizeStep createX (askX reqNAt 1) := ⟨_, _, xOpened, createX_inOrder,
    fun h => absurd h (by decide), createX_run, askX_client _ _⟩
  have hwrite : SizeStep (askX reqNAt 1) xPut := ⟨_, _, xPut, writeX_inOrder,
    fun h => absurd h (by decide), xPut_run, rfl, rfl, fun _ => Or.inl⟩
  have htree : Tree smallImage := smallImage_tree
  obtain ⟨hsizes, hcut⟩ := sizes_in_range htree smallImage_sizesOk (requested_start _)
    ((Relation.ReflTransGen.single hcreate).tail hwrite)
  have hmem : 3 * blksize ∈ files xPut.fs.mem :=
    mem_files_of_root (j := 0) (by decide +kernel) (by decide +kernel) (by decide)
  exact ⟨by decide +kernel, hsizes, hcut _ hmem (by decide +kernel) 0 (by decide +kernel)⟩

@[irreducible] def xResized : Serv :=
  (serveRequest fsreqSetSize (askX reqSizeAt (-1))).after (askX reqSizeAt (-1))

/-- A client creates a file and gives it the size -1. -/
theorem size_out_of_range : serveRequest fsreqOpen createX = .ret (0, some 0) xOpened ∧
    ClientStep (some 0) xOpened (askX reqSizeAt (-1)) ∧
    serveRequest fsreqSetSize (askX reqSizeAt (-1)) = .ret (0, none) xResized ∧
    3 * blksize ∈ files xResized.fs.mem ∧ (fSize xResized.fs.mem (3 * blksize)).toInt = -1 := by
  have hrun : serveRequest fsreqSetSize (askX reqSizeAt (-1)) = .ret (0, none) xResized := by
    unfold xResized
    exact Outcome.eq_ret _ (by decide +kernel)
  refine ⟨createX_run, askX_client _ _, hrun, ?_, by decide +kernel⟩
  exact mem_files_of_root (j := 0) (by decide +kernel) (by decide +kernel) (by decide)

end Jos
