import Jos.Files.Requests
import Jos.Files.Reading

/-!
# Directories behind the file server

A request changes a directory only by adding a named entry, if it is not sent to an open directory
and its numbers are in range. The runs of the handlers are told on `Serv.view`, which does not show
which blocks are in the cache.
-/

namespace Jos

open Logic Function

variable {m m' : Image} {s s' : Serv} {st st' st1 : Store} {d e f g n o i : Nat}
  {count offset size : Word} {path name : List Byte} {body : Nat → ServM Int}

/-- The same for the server. -/
abbrev ServRuns {α : Type} (c : ServM α) (v : View) (a : α) (v' : View) : Prop :=
  Code.Runs Serv.view c v a v'

variable {v v' : View}

theorem onFs_runs {α : Type} {c : FsM α} {a : α} (h : FsRuns c v.store a st') :
    ServRuns (onFs c) v a { v with store := st' } := by
  rintro s rfl
  obtain ⟨t, hrun, rfl⟩ := h s.fs rfl
  exact ⟨_, zoom_of_ret hrun, rfl⟩

/-- The disk and the open files are the same, and no page with `struct Fd` has got a second
reference. -/
structure SameTable (v v' : View) : Prop where
  store : v'.store = v.store
  oFile : ∀ i, (v'.opentab i).oFile = (v.opentab i).oFile
  fdRef : ∀ i, 1 < v'.fdRef i → 1 < v.fdRef i

/-- Moreover the request is the same. -/
structure SameFiles (v v' : View) : Prop extends SameTable v v' where
  fsreq : v'.fsreq = v.fsreq

theorem SameTable.trans {v1 : View} (h : SameTable v v1) (h' : SameTable v1 v') : SameTable v v' :=
  ⟨h'.store.trans h.store, fun i => (h'.oFile i).trans (h.oFile i),
    fun i hi => h.fdRef i (h'.fdRef i hi)⟩

theorem SameFiles.refl (v : View) : SameFiles v v := ⟨⟨rfl, fun _ => rfl, fun _ h => h⟩, rfl⟩

theorem SameFiles.trans {v1 : View} (h : SameFiles v v1) (h' : SameFiles v1 v') :
    SameFiles v v' := ⟨h.toSameTable.trans h'.toSameTable, h'.fsreq.trans h.fsreq⟩

abbrev View.read (v : View) (a : Nat) : View := { v with accesses := v.accesses ++ [(a, 4)] }

theorem reqWord_read (v : View) (a : Nat) :
    ServRuns (reqWord a) v (word v.fsreq a) (v.read a) := by
  rintro s rfl
  exact ⟨_, rfl, rfl⟩

theorem View.read_same (v : View) (a : Nat) : SameFiles v (v.read a) :=
  ⟨⟨rfl, fun _ => rfl, fun _ h => h⟩, rfl⟩

theorem reqWord_runs (v : View) (a : Nat) : ∃ v', ServRuns (reqWord a) v
    (word v.fsreq a) v' ∧ SameFiles v v' := ⟨_, reqWord_read v a, v.read_same a⟩

def pathIn (page : Image) : List Byte :=
  ((List.range (maxpathlen - 1)).map page).takeWhile (· != 0)

theorem reqPath_runs (v : View) : ∃ v', ServRuns reqPath v (pathIn v.fsreq) v' ∧
    SameFiles v v' := by
  refine ⟨{ v with accesses := v.accesses ++ [(0, maxpathlen)] }, ?_, ⟨rfl, fun _ => rfl,
    fun _ h => h⟩, rfl⟩
  rintro s rfl
  exact ⟨_, rfl, rfl⟩

theorem setFd_runs (v : View) (i : Nat) (g : Fd → Fd) : ∃ v', ServRuns (setFd i g) v ()
    v' ∧ SameFiles v v' := by
  refine ⟨{ v with fd := update v.fd i (g (v.fd i)) }, ?_, ⟨rfl, fun _ => rfl, fun _ h => h⟩, rfl⟩
  rintro s rfl
  exact ⟨_, rfl, rfl⟩

theorem setOpenFile_runs (v : View) (i : Nat) {g : OpenFile → OpenFile}
    (hg : ∀ x, (g x).oFile = x.oFile) : ∃ v', ServRuns (setOpenFile i g) v () v' ∧
      SameFiles v v' := by
  refine ⟨{ v with opentab := update v.opentab i (g (v.opentab i)) }, ?_,
    ⟨rfl, fun k => ?_, fun _ h => h⟩, rfl⟩
  · rintro s rfl
    exact ⟨_, rfl, rfl⟩
  · by_cases hk : k = i
    · subst hk
      simp [hg]
    · simp [hk]

theorem openfileAllocFrom_runs (rounds i : Nat) (v : View) : ∃ r o v',
    ServRuns (openfileAllocFrom rounds i) v (r, o) v' ∧ SameFiles v v' := by
  induction rounds generalizing i with
  | zero => exact ⟨_, _, v, .pure _ v, .refl v⟩
  | succ rounds ih =>
    by_cases h0 : v.fdRef i = 0 ∧ v.noMem
    · refine ⟨-eNoMem, i, v, .get_bind ?_, .refl v⟩
      rintro s rfl
      exact .ite_pos h0 (.pure _ _)
    · by_cases h1 : v.fdRef i ≤ 1
      · obtain ⟨v1, hset, hsame1⟩ := setOpenFile_runs
          { v with fdRef := update v.fdRef i 1 } i
          (g := fun o => { o with oFileid := o.oFileid + toWord maxopen }) fun _ => rfl
        obtain ⟨v2, hfd, hsame2⟩ := setFd_runs v1 i fun _ => ⟨0, 0, 0, 0⟩
        have hsame0 : SameFiles v { v with fdRef := update v.fdRef i 1 } := by
          refine ⟨⟨rfl, fun _ => rfl, fun k hk => ?_⟩, rfl⟩
          by_cases hki : k = i
          · subst hki
            simp at hk
          · simpa [hki] using hk
        refine ⟨((v2.opentab i).oFileid.toInt), i, v2, .get_bind ?_,
          (hsame0.trans hsame1).trans hsame2⟩
        rintro s rfl
        refine .ite_neg h0 (.ite_pos h1 (.bind (.modify ?_) (.bind hset (.bind hfd
          (.get_bind ?_)))))
        · intro s' hs'
          rw [← hs']
          rfl
        · rintro s2 rfl
          exact .pure _ _
      · obtain ⟨r, o, v', hrun, hsame⟩ := ih (i + 1)
        refine ⟨r, o, v', .get_bind ?_, hsame⟩
        rintro s rfl
        exact .ite_neg h0 (.ite_neg h1 hrun)

theorem openfileAlloc_runs (v : View) : ∃ r o v', ServRuns openfileAlloc v (r, o) v' ∧
    SameFiles v v' := openfileAllocFrom_runs maxopen 0 v

theorem View.lt_fdRef_of_reqEntry (h : v.reqEntry = some o) : 1 < v.fdRef o := by
  unfold View.reqEntry at h
  dsimp only at h
  split at h
  · cases h
  · rename_i hc
    cases h
    exact Nat.lt_of_not_le (not_or.mp hc).1

theorem withOpenFile_runs {P : View → Prop} (hP : ∀ v', SameFiles v v' → P v')
    (h : ∀ o v1, v.reqEntry = some o → SameFiles v v1 → v1.fd = v.fd →
      ∃ r v', ServRuns (body o) v1 r v' ∧ P v') :
    ∃ r v', ServRuns (withOpenFile body) v r v' ∧ P v' := by
  have hword := reqWord_read v reqFileidAt
  have hsame := v.read_same reqFileidAt
  by_cases hc : v.fdRef ((word v.fsreq reqFileidAt).toNat % maxopen) ≤ 1 ∨
      (v.opentab ((word v.fsreq reqFileidAt).toNat % maxopen)).oFileid ≠ word v.fsreq reqFileidAt
  · have hlookup : ServRuns (openfileLookup (word v.fsreq reqFileidAt))
        (v.read reqFileidAt) (.error (-eInval)) (v.read reqFileidAt) := by
      refine .get_bind fun s hs => .ite_pos ?_ (.pure _ _)
      rw [show s.fdRef = v.fdRef from congrArg View.fdRef hs,
        show s.opentab = v.opentab from congrArg View.opentab hs]
      exact hc
    exact ⟨-eInval, _, .bind hword (.bind hlookup (.pure _ _)), hP _ hsame⟩
  · have hlookup : ServRuns (openfileLookup (word v.fsreq reqFileidAt))
        (v.read reqFileidAt) (.ok ((word v.fsreq reqFileidAt).toNat % maxopen))
        (v.read reqFileidAt) := by
      refine .get_bind fun s hs => .ite_neg ?_ (.pure _ _)
      rw [show s.fdRef = v.fdRef from congrArg View.fdRef hs,
        show s.opentab = v.opentab from congrArg View.opentab hs]
      exact hc
    obtain ⟨r, v', hbody, hPv⟩ := h _ _ (if_neg hc) hsame rfl
    exact ⟨r, v', .bind hword (.bind hlookup hbody), hPv⟩

theorem openFile_runs (h : (v.opentab o).oFile = some f) :
    ServRuns (openFile o) v f v := by
  refine .get_bind ?_
  rintro s rfl
  have hf : (s.opentab o).oFile = some f := h
  rw [hf]
  exact .pure _ _

/-- The directories are as before: their sizes and blocks, and the names and types of the files
in them. -/
structure DirsSame (m m' : Image) : Prop where
  files : files m' = files m
  type : ∀ g ∈ Jos.files m, fType m' g = fType m g
  names : NamesKept (Jos.files m) m m'
  size : ∀ d ∈ dirs m, fSize m' d = fSize m d
  held : ∀ d ∈ dirs m, ∀ x, ValidSlot x → held m' d x = held m d x

theorem DirsSame.refl (m : Image) : DirsSame m m :=
  ⟨rfl, fun _ _ => rfl, .refl m, fun _ _ => rfl, fun _ _ _ _ => rfl⟩

/-- The directory `d` has got an entry `f` with the given name. It has kept its blocks, and
has grown by one if all its entries were in use. -/
structure EntryAdded (d f : Nat) (name : List Byte) (m m' : Image) : Prop where
  dir : d ∈ dirs m
  entry : ∃ n < dirLen m' d, ∃ j < blkfiles, f = entryAt (held m' d (some n)) j
  unused : f ∈ files m → m f = 0
  named : name ≠ [] ∧ nameEq m' name f = true
  files : ∀ g ∈ files m, g ∈ files m'
  type : ∀ g ∈ Jos.files m, fType m' g = fType m g
  names : ∀ g ∈ Jos.files m, g ≠ f → SameOn m m' g maxnamelen
  size : ∀ e ∈ dirs m, e ≠ d → fSize m' e = fSize m e
  held : ∀ e ∈ dirs m, e ≠ d → ∀ x, ValidSlot x → held m' e x = held m e x
  slots : ∀ n < dirLen m d, Jos.held m' d (some n) = Jos.held m d (some n)
  grown : dirLen m' d = dirLen m d ∨
    dirLen m' d = dirLen m d + 1 ∧ freeEntry m d = none

/-- What a request may do to the directories. -/
def DirsChange (m m' : Image) : Prop :=
  DirsSame m m' ∨ ∃ d f name m1, EntryAdded d f name m m1 ∧ DirsSame m1 m'

theorem Moves.dirsSame (ht : Tree st.mem) (hf : f ∈ files st.mem)
    (hreg : fType st.mem f ≠ ftypeDir) (hmoves : Moves f st st') :
    DirsSame st.mem st'.mem := by
  have hkept := hmoves.kept hf ht.layout
  have hne : ∀ d ∈ dirs st.mem, d ≠ f := by
    rintro d hd rfl
    exact hreg hd.2
  refine ⟨files_eq_of_same hkept.type fun d hd hdir n hn => ?_, hkept.type,
    hmoves.names hf ht.layout, fun d hd => hkept.size d hd.1 (hne d hd),
    fun d hd => hkept.held d hd.1 (hne d hd)⟩
  exact hkept.held d hd (hne d ⟨hd, hdir⟩) (some n) hn

theorem nameEq_of_bytes {a : Nat} (h : ∀ i < name.length, m (a + i) = name.getD i 0)
    (h0 : m (a + name.length) = 0) : nameEq m name a = true := by
  induction name generalizing a with
  | nil => exact beq_iff_eq.mpr h0
  | cons c name ih =>
    unfold nameEq
    rw [Bool.and_eq_true]
    refine ⟨beq_iff_eq.mpr (h 0 (Nat.succ_pos _)), ih (fun i hi => ?_) ?_⟩
    · rw [show a + 1 + i = a + (i + 1) by omega]
      exact h (i + 1) (Nat.succ_lt_succ hi)
    · rw [show a + 1 + name.length = a + (name.length + 1) by omega]
      exact h0

theorem nameEq_named (st : Store) (f : Nat) (name : List Byte) :
    nameEq (st.named f name).mem name f = true := by
  unfold Store.named
  rw [Store.set_mem]
  refine nameEq_of_bytes (fun i hi => ?_) ?_
  · rw [setBytes_of_mem (Nat.le_add_right _ _) (by omega), Nat.add_sub_cancel_left]
  · rw [setBytes_of_mem (Nat.le_add_right _ _) (by omega), Nat.add_sub_cancel_left]
    simp

theorem FileCreated.entryAdded (h : FileCreated path d f name st st1 st') (ht : Tree st.mem) :
    EntryAdded d f name st.mem st'.mem := by
  have hgrown := h.grown
  have hf := hgrown.mem_files ht h.dir
  have hA := h.agree ht
  have hkept := hgrown.moves.kept h.dir.1 ht.layout
  have hmoved := hgrown.moves.names h.dir.1 ht.layout
  have hnames := hgrown.tree.names_named hf h.name_lt
  have hfiles := h.files ht
  have hd1 := hgrown.sub d h.dir.1
  have hlen : dirLen st'.mem d = dirLen st1.mem d :=
    congrArg (fun v : Word => v.toNat / blksize) (hA.size d hd1)
  have hdir1 : fType st1.mem d = ftypeDir := (hkept.type d h.dir.1).trans h.dir.2
  have hmax := (hgrown.tree.size d hd1 hdir1).2
  have hheld : ∀ n < dirLen st1.mem d, held st'.mem d (some n) = held st1.mem d (some n) :=
    fun n hn => hA.held d hd1 (some n) (show n < maxblocks by omega)
  have hlen1 : dirLen st.mem d ≤ dirLen st1.mem d := by
    rcases hgrown.len with heq | ⟨heq, _⟩ <;> omega
  refine ⟨h.dir, ?_, fun hold => ?_, ⟨h.name_ne, ?_⟩, fun g hg => ?_, fun g hg => ?_,
    fun g hg hne => ?_, fun e he hne => ?_, fun e he hne x hx => ?_, fun n hn => ?_, ?_⟩
  · obtain ⟨n, hn, j, hj, heq⟩ := hgrown.entry
    exact ⟨n, by omega, j, hj, by rw [hheld n hn]; exact heq⟩
  · have hsame := hmoved f hold f (Nat.le_refl f) (by unfold maxnamelen; omega)
    rw [← hsame]
    exact hgrown.unnamed
  · rw [h.mem]
    exact nameEq_named st1 f name
  · rw [hfiles]
    exact hgrown.sub g hg
  · exact (hA.type g (hgrown.sub g hg)).trans (hkept.type g hg)
  · rw [h.mem]
    exact SameOn.trans (hmoved g hg) (hnames g ⟨hgrown.sub g hg, hne⟩)
  · exact (hA.size e (hgrown.sub e he.1)).trans (hkept.size e he.1 hne)
  · exact (hA.held e (hgrown.sub e he.1) x hx).trans (hkept.held e he.1 hne x hx)
  · rw [hheld n (by omega)]
    exact hgrown.slots n hn
  · rw [hlen]
    exact hgrown.len

theorem Moves.tree (ht : Tree st.mem) (hf : f ∈ files st.mem) (hreg : fType st.mem f ≠ ftypeDir)
    (hmoves : Moves f st st') (htight : Tight (files st.mem) st'.mem)
    (hsize : 0 ≤ (fSize st'.mem f).toInt) : Tree st'.mem ∧ DirsSame st.mem st'.mem := by
  have hkept := hmoves.kept hf ht.layout
  exact ⟨(ht.kept hf hreg hkept ⟨hmoves.layout hf ht.layout, htight,
    hkept.size_nonneg ht.toWellFormed hsize⟩).2, hmoves.dirsSame ht hf hreg⟩

/-- The sizes of all files are in range. -/
def SizesOk (m : Image) : Prop := ∀ g ∈ files m, (fSize m g).toNat ≤ maxfilesize

theorem Moves.sizesOk (ht : Tree st.mem) (hf : f ∈ files st.mem) (hmoves : Moves f st st')
    (hd : DirsSame st.mem st'.mem)
    (hnew : SizesOk st.mem → (fSize st'.mem f).toNat ≤ maxfilesize) (h : SizesOk st.mem) :
    SizesOk st'.mem := by
  intro g hg
  rw [hd.files] at hg
  by_cases hgf : g = f
  · exact hgf ▸ hnew h
  · rw [(hmoves.kept hf ht.layout).size g hg hgf]
    exact h g hg

theorem fileSetSize_tree (ht : Tree st.mem) (hf : f ∈ files st.mem)
    (hreg : fType st.mem f ≠ ftypeDir) (hsize : 0 ≤ size.toInt) :
    ∃ st', FsRuns (fileSetSize f size) st 0 st' ∧ Tree st'.mem ∧
      DirsSame st.mem st'.mem ∧
      (size.toNat ≤ maxfilesize → SizesOk st.mem → SizesOk st'.mem) := by
  obtain ⟨st', hrun, hs⟩ := fileSetSize_spec size ht.layout ht.tight hf hreg
  obtain ⟨ht', hd⟩ := hs.moves.tree ht hf hreg
    (hs.tight ht.layout hf ht.tight (small_of_toInt_nonneg hsize)) (by rw [hs.size]; exact hsize)
  refine ⟨st', hrun, ht', hd, fun hmax => hs.moves.sizesOk ht hf hd fun _ => ?_⟩
  rw [hs.size]
  exact hmax

/-- The read is at an offset in range. A regular file is not longer than `MAXFILESIZE`, and there
are blocks for its holes. -/
def ReadOk (m : Image) (f : Nat) (count offset : Word) : Prop :=
  0 ≤ offset.toInt ∧ (fType m f ≠ ftypeDir → (fSize m f).toNat ≤ maxfilesize ∧
    Room m f offset.toNat (offset.toNat + readLen (fSize m f) count offset))

theorem Tree.dir_full (ht : Tree m) (hd : d ∈ dirs m) : (fSize m d).toNat ≤ maxfilesize ∧
    ∀ n < blocksBelow (fSize m d).toNat, held m d (some n) ≠ 0 := by
  obtain ⟨hsize, hmax⟩ := ht.size d hd.1 hd.2
  have hbelow : blocksBelow (fSize m d).toNat = dirLen m d := by
    rw [hsize]
    unfold blocksBelow blksize
    omega
  refine ⟨?_, fun n hn => ht.full d hd.1 hd.2 n (by omega)⟩
  rw [hsize]
  unfold maxfilesize blksize
  unfold maxblocks at hmax
  omega

theorem fileRead_tree (ht : Tree st.mem) (hf : f ∈ files st.mem)
    (hok : ReadOk st.mem f count offset) :
    ∃ r st', FsRuns (fileRead f count offset) st r st' ∧ Tree st'.mem ∧
      DirsSame st.mem st'.mem ∧ (SizesOk st.mem → SizesOk st'.mem) := by
  obtain ⟨hoff, hroom⟩ := hok
  by_cases hdir : fType st.mem f = ftypeDir
  · obtain ⟨hmax, hfull⟩ := ht.dir_full ⟨hf, hdir⟩
    obtain ⟨L, hrun⟩ := fileRead_full ht.layout hf (small_of_toInt_nonneg hoff) hmax hfull
    exact ⟨_, _, hrun, ht, .refl _, id⟩
  · obtain ⟨hsize, hroom⟩ := hroom hdir
    have hmax := lt_of_le_maxfilesize hsize
    obtain ⟨out, st', hrun, hread⟩ := fileRead_spec ht.layout hf hdir (small_of_toInt_nonneg hoff)
      rfl (fun h0 => by
        have := readLen_le h0 hoff
        rw [toInt_of_small hmax] at this
        omega) hroom
    have htree := hread.filled.moves.tree ht hf hdir ?_ ?_
    · refine ⟨_, st', hrun, htree.1, htree.2, hread.filled.moves.sizesOk ht hf htree.2 fun _ => ?_⟩
      rw [hread.size]
      exact hsize
    · refine hread.filled.tight ht.layout hf ht.tight (fun hlt => ?_) (by rw [hread.size])
      rw [hread.size]
      apply readLen_le _ hoff
      -- An empty range has no blocks.
      by_contra h0
      have hzero : readLen (fSize st.mem f) count offset = 0 := by omega
      rw [hzero, Nat.add_zero, nextBlock_self] at hlt
      omega
    · rw [hread.size]
      exact ht.size_nonneg f hf

/-- The bytes that a client wants to write. -/
def reqBuf (page : Image) (i : Nat) : Byte := page (reqBufAt + i)

theorem Source.gives_request {page : Image} {total : Nat} (h : reqBufAt + total ≤ pgsize) :
    (Source.request page).Gives (reqBuf page) total := by
  intro st i n hle
  have hstart : reqBufAt + i - pgsize = 0 := by omega
  have hlen : reqBufAt + i + n - pgsize - 0 = 0 := by omega
  refine ⟨fun j => if reqBufAt + i + j < pgsize then page (reqBufAt + i + j)
    else st.mem (reqBufAt + i + j - pgsize), ?_, fun j hj => ?_⟩
  · rintro s rfl
    refine ⟨s, ?_, rfl⟩
    unfold Source.fetch
    dsimp only
    rw [hstart, hlen]
    rfl
  · dsimp only
    rw [if_pos (by omega)]
    exact congrArg page (by omega)

theorem fileWrite_tree {page : Image} (ht : Tree st.mem)
    (hop : (FileOp.write f (reqBuf page) count offset).InRange (files st.mem) st.mem)
    (hfits : reqBufAt + count.toNat ≤ pgsize) :
    ∃ r st', FsRuns (fileWrite f (.request page) count offset) st r st' ∧
      Tree st'.mem ∧ DirsSame st.mem st'.mem ∧ (SizesOk st.mem → SizesOk st'.mem) := by
  obtain ⟨hf, hreg, hmax, hroom⟩ := id hop
  change f ∈ files st.mem at hf
  change fType st.mem f ≠ ftypeDir at hreg
  have hend := write_end hmax
  rw [← hend] at hroom
  obtain ⟨st', hrun, hw⟩ := fileWrite_spec ht.layout hf hreg (by omega)
    (Source.gives_request hfits) hroom
  have href := write_refines ht.toWellFormed represents_start hop hw
  have hd := hw.filled.moves.dirsSame ht hf hreg
  refine ⟨_, st', hrun, (ht.kept hf hreg href.kept href.wellFormed).2, hd,
    hw.filled.moves.sizesOk ht hf hd fun hsizes => ?_⟩
  rw [hw.size, writeSize]
  split
  · rw [hend]
    exact hmax
  · exact hsizes f hf

theorem fsSync_runs {F : Set Nat} (h : LaidOut F st.mem) :
    ∃ L, (∀ b, 1 ≤ b → b < nblocksIn st.mem → b ∈ L) ∧
      FsRuns fsSync st () (st.flushAll L) := by
  have hfits : nblocksIn st.mem * blksize ≤ disksize := h.fits
  have hsmall : nblocksIn st.mem < 2 ^ 32 := BitVec.isLt _
  have hloop : ∃ st', FsRuns (Code.times (nblocksIn st.mem - 1) fun i => do
      flushBlock (← diskaddr (toWord (1 + i)))) st () st' ∧
      ∃ L, (∀ b, 1 ≤ b → b ≤ nblocksIn st.mem - 1 → b ∈ L) ∧ st' = st.flushAll L :=
    Code.Runs.times _ (fun i x => ∃ L, (∀ b, 1 ≤ b → b ≤ i → b ∈ L) ∧ x = st.flushAll L)
      ⟨[], by omega, rfl⟩ fun i hi x hx => by
      obtain ⟨L, hL, rfl⟩ := hx
      have hword : (toWord (1 + i)).toNat = 1 + i := by
        rw [BitVec.toNat_ofNat]
        omega
      have hmem := st.flushAll_mem L
      have hne : toWord (1 + i) ≠ 0 := fun h0 => by
        have := congrArg BitVec.toNat h0
        rw [hword] at this
        exact absurd this (by simp)
      have haddr :=
        diskaddr_runs (by rw [hmem]; exact h.readable_super) hne (by rw [hmem, hword]; omega)
      have hlt : (toWord (1 + i)).toNat * blksize < disksize := by
        rw [hword]
        unfold blksize at *
        omega
      refine ⟨_, .bind haddr (flushBlock_runs hlt), L ++ [_], fun b h1 hb => ?_,
        (st.flushAll_append L [_]).symm⟩
      rw [hword, Nat.mul_div_cancel _ (by decide)]
      rcases Nat.lt_or_ge i b with hlt | hle
      · simp [show b = 1 + i by omega]
      · exact List.mem_append_left _ (hL b h1 hle)
  obtain ⟨st', hloop, L, hL, rfl⟩ := hloop
  exact ⟨L, fun b h1 hb => hL b h1 (by omega),
    .bind (loadWord_runs (a := sNblocksAt) h.readable_super) hloop⟩

/-- What a request that is in order has done. -/
structure Served (sent : Option Nat) (v v' : View) : Prop where
  tree : Tree v'.store.mem
  change : DirsChange v.store.mem v'.store.mem
  oFile : ∀ i f, (v'.opentab i).oFile = some f →
    (v.opentab i).oFile = some f ∨ f ∈ files v'.store.mem
  set : ∀ i, (v.opentab i).oFile ≠ none ∨ sent = some i → (v'.opentab i).oFile ≠ none
  fdRef : ∀ i, 1 < v'.fdRef i → 1 < v.fdRef i

/-- Moreover sizes in range stay in range, if `C` holds. -/
def ServedIf (C : Prop) (sent : Option Nat) (v v' : View) : Prop :=
  Served sent v v' ∧ (C → SizesOk v.store.mem → SizesOk v'.store.mem)

variable {v1 : View} {C : Prop}

theorem SameTable.served (h1 : SameTable v v1) (ht : Tree st'.mem)
    (hd : DirsChange v.store.mem st'.mem) (hs : C → SizesOk v.store.mem → SizesOk st'.mem)
    (h2 : SameTable { v1 with store := st' } v') : ServedIf C none v v' := by
  have hoFile : ∀ i, (v'.opentab i).oFile = (v.opentab i).oFile :=
    fun i => (h2.oFile i).trans (h1.oFile i)
  have hstore : v'.store = st' := h2.store
  refine ⟨⟨by rw [hstore]; exact ht, by rw [hstore]; exact hd, fun i f hf => .inl ?_,
    fun i hi => ?_, fun i hi => h1.fdRef i (h2.fdRef i hi)⟩, by rw [hstore]; exact hs⟩
  · rw [← hoFile]
    exact hf
  · rw [hoFile]
    rcases hi with hi | hi
    · exact hi
    · cases hi

theorem SameTable.served_same (h : SameTable v v') (ht : Tree v.store.mem) :
    ServedIf C none v v' := by
  have hself : SameTable v v := (SameFiles.refl v).toSameTable
  exact hself.served ht (.inl (.refl _)) (fun _ => id) h

/-- The open files of a server are files, and every entry whose page a client may have is one. -/
structure Opened (v : View) : Prop where
  tree : Tree v.store.mem
  mem : ∀ i f, (v.opentab i).oFile = some f → f ∈ files v.store.mem
  set : ∀ i, 1 < v.fdRef i → (v.opentab i).oFile ≠ none

theorem DirsSame.files_sub (h : DirsSame m m') (hf : f ∈ Jos.files m) : f ∈ Jos.files m' := by
  rw [h.files]
  exact hf

theorem DirsChange.files_sub (h : DirsChange m m') (hf : f ∈ files m) : f ∈ files m' := by
  rcases h with h | ⟨d, g, name, m1, h1, h2⟩
  · exact h.files_sub hf
  · exact h2.files_sub (h1.files f hf)

/-- The open file that the request names, and its file. -/
def View.reqFile (v : View) : Option Nat := v.reqEntry.bind fun o => (v.opentab o).oFile

theorem withOpenFile_served (h : Opened v)
    (hbody : ∀ o f v1, v.reqEntry = some o → v.reqFile = some f → f ∈ files v.store.mem →
      SameFiles v v1 → v1.fd = v.fd → (v1.opentab o).oFile = some f →
      ∃ r v', ServRuns (body o) v1 r v' ∧ ServedIf C none v v') :
    ∃ r v', ServRuns (withOpenFile body) v r v' ∧ ServedIf C none v v' := by
  refine withOpenFile_runs (fun v' hs => hs.toSameTable.served_same h.tree)
    fun o v1 ho hsame hfd => ?_
  obtain ⟨f, hf⟩ := Option.ne_none_iff_exists'.mp (h.set o (View.lt_fdRef_of_reqEntry ho))
  have hfile : v.reqFile = some f := by
    unfold View.reqFile
    rw [ho]
    exact hf
  exact hbody o f v1 ho hfile (h.mem o f hf) hsame hfd ((hsame.oFile o).trans hf)

theorem serveSetSize_served (h : Opened v) (hok : ∀ f, v.reqFile = some f →
      fType v.store.mem f ≠ ftypeDir ∧ 0 ≤ (word v.fsreq reqSizeAt).toInt) :
    ∃ r v', ServRuns serveSetSize v r v' ∧
      ServedIf ((word v.fsreq reqSizeAt).toNat ≤ maxfilesize) none v v' := by
  refine withOpenFile_served h fun o f v1 _ hfile hf hsame _ hopen => ?_
  obtain ⟨hreg, hsize⟩ := hok f hfile
  obtain ⟨v2, hword, hsame2⟩ := reqWord_runs v1 reqSizeAt
  have hsame' := hsame.trans hsame2
  obtain ⟨st', hrun, ht, hd, hs⟩ := fileSetSize_tree h.tree hf hreg hsize
  rw [← hsame'.store] at hrun
  rw [hsame.fsreq] at hword
  refine ⟨0, { v2 with store := st' }, .bind (openFile_runs hopen) (.bind hword (onFs_runs hrun)),
    hsame'.toSameTable.served ht (.inl hd) hs (SameFiles.refl _).toSameTable⟩

theorem onBuffer_runs {α : Type} {c : FsM α} {a : α} (base : Nat)
    (h : FsRuns c v.store a st') : ∃ v', ServRuns (onBuffer base c) v a v' ∧
      SameFiles { v with store := st' } v' ∧ v'.fd = v.fd := by
  refine ⟨{ v with
    store := st'
    accesses := v.accesses ++ (st'.moves.drop v.store.moves.length).map fun p =>
      (base + p.1, p.2) }, ?_, ⟨⟨rfl, fun _ => rfl, fun _ h => h⟩, rfl⟩, rfl⟩
  refine .get_bind ?_
  rintro s rfl
  refine .bind (onFs_runs h) (.bind (.modify ?_) (.pure _ _))
  intro s' hs'
  have hmoves : s'.fs.moves = st'.moves := congrArg (fun v => v.store.moves) hs'
  have hold : s.view.store.moves = s.fs.moves := rfl
  rw [← hmoves, hold]
  exact congrArg (fun v : View => { v with accesses := v.accesses ++
    (s'.fs.moves.drop s.fs.moves.length).map fun p : Nat × Nat => (base + p.1, p.2) }) hs'

theorem advance_runs (v : View) (o : Nat) (r : Int) : ∃ v', ServRuns (do
      if r < 0 then
        return r
      else do
        setFd o fun fd => { fd with fdOffset := fd.fdOffset + BitVec.ofInt 32 r }
        return r : ServM Int) v r v' ∧ SameFiles v v' := by
  by_cases hr : r < 0
  · exact ⟨v, .ite_pos hr (.pure _ _), .refl v⟩
  · obtain ⟨v', hset, hsame⟩ := setFd_runs v o fun fd =>
      { fd with fdOffset := fd.fdOffset + BitVec.ofInt 32 r }
    exact ⟨v', .ite_neg hr (.bind hset (.pure _ _)), hsame⟩

theorem serveRead_served (h : Opened v) (hok : ∀ o f, v.reqEntry = some o → v.reqFile = some f →
      ReadOk v.store.mem f v.readCount (v.fd o).fdOffset) :
    ∃ r v', ServRuns serveRead v r v' ∧ ServedIf C none v v' := by
  refine withOpenFile_served h fun o f v1 ho hfile hf hsame hfd hopen => ?_
  have hword := reqWord_read v1 reqNAt
  rw [hsame.fsreq] at hword
  obtain ⟨⟨r, buf⟩, st', hrun, ht, hd, hs⟩ := fileRead_tree h.tree hf (hok o f ho hfile)
  rw [← hsame.store] at hrun
  obtain ⟨v2, hbuf, hsame2, hfd2⟩ := onBuffer_runs (v := v1.read reqNAt) 0 hrun
  obtain ⟨v3, hadv, hsame3⟩ := advance_runs
    { v2 with fsreq := setBytes v2.fsreq 0 buf.length fun i => buf.getD i 0 } o r
  refine ⟨r, v3, .bind hword (.bind (openFile_runs hopen) (.get_bind fun s hs => ?_)),
    hsame.toSameTable.served ht (.inl hd) (fun _ => hs) ?_⟩
  · have hfds : s.fd = v.fd := (congrArg View.fd hs).trans hfd
    rw [hfds]
    refine .bind hbuf (.bind (.modify ?_) hadv)
    rintro s' rfl
    rfl
  · have hpage : SameTable v2
        { v2 with fsreq := setBytes v2.fsreq 0 buf.length fun i => buf.getD i 0 } :=
      ⟨rfl, fun _ => rfl, fun _ h => h⟩
    exact SameTable.trans ⟨hsame2.store, hsame2.oFile, hsame2.fdRef⟩
      (hpage.trans hsame3.toSameTable)

theorem serveWrite_served (h : Opened v) (hok : ∀ o f, v.reqEntry = some o → v.reqFile = some f →
      reqBufAt + (word v.fsreq reqNAt).toNat ≤ pgsize ∧
        (FileOp.write f (reqBuf v.fsreq) (word v.fsreq reqNAt) (v.fd o).fdOffset).InRange
          (files v.store.mem) v.store.mem) :
    ∃ r v', ServRuns serveWrite v r v' ∧ ServedIf C none v v' := by
  refine withOpenFile_served h fun o f v1 ho hfile hf hsame hfd hopen => ?_
  have hword := reqWord_read v1 reqNAt
  rw [hsame.fsreq] at hword
  obtain ⟨hfits, hop⟩ := hok o f ho hfile
  obtain ⟨r, st', hrun, ht, hd, hs⟩ := fileWrite_tree h.tree hop hfits
  rw [← hsame.store] at hrun
  obtain ⟨v2, hbuf, hsame2, hfd2⟩ := onBuffer_runs (v := v1.read reqNAt) reqBufAt hrun
  obtain ⟨v3, hadv, hsame3⟩ := advance_runs v2 o r
  refine ⟨r, v3, .bind (openFile_runs hopen) (.bind hword (.get_bind fun s hs => .bind ?_ hadv)),
    hsame.toSameTable.served ht (.inl hd) (fun _ => hs) ?_⟩
  · have hfds : s.fd = v.fd := (congrArg View.fd hs).trans hfd
    have hpage : s.fsreq = v.fsreq := (congrArg View.fsreq hs).trans hsame.fsreq
    rw [hfds, hpage]
    exact hbuf
  · exact SameTable.trans ⟨hsame2.store, hsame2.oFile, hsame2.fdRef⟩ hsame3.toSameTable

theorem storeReq_runs (v : View) (a n : Nat) (w : Nat → Byte) : ∃ v',
    ServRuns (storeReq a n w) v () v' ∧ SameTable v v' := by
  refine ⟨{ v with
    accesses := v.accesses ++ [(a, n)]
    fsreq := setBytes v.fsreq a n w }, ?_, rfl, fun _ => rfl, fun _ h => h⟩
  rintro s rfl
  exact ⟨_, rfl, rfl⟩

theorem copyName_runs {k : Nat} (hl : Layout (files st.mem) (inodes st.mem))
    (hf : f ∈ files st.mem) (hk : k < maxnamelen) (h0 : st.mem (f + k) = 0) (rounds : Nat) :
    ∀ (i : Nat) (v : View), v.store = st → i ≤ k → k - i < rounds → ∃ v',
      ServRuns (copyName f rounds i) v () v' ∧ SameTable v v' := by
  induction rounds with
  | zero => exact fun i v _ _ h => absurd h (Nat.not_lt_zero _)
  | succ rounds ih =>
    intro i v hv hi hrounds
    have hlt : i < pgsize := by
      unfold maxnamelen at hk
      unfold pgsize
      omega
    have hblock : (f + i) / blksize = f / blksize := by
      have hhome := (hl.toShape.field_block hf (show 252 + 4 ≤ sizeofFile by decide)).1
      unfold maxnamelen at hk
      unfold blksize at *
      omega
    have hread : Readable v.store.mem ((f + i) / blksize) := by
      rw [hv, hblock]
      exact hl.readable_home hf
    obtain ⟨v1, hstore, hsame⟩ := storeReq_runs v i 1 fun _ => st.mem (f + i)
    have hload : ServRuns (onFs (load8 (f + i))) v (st.mem (f + i)) v := by
      have := onFs_runs (v := v) (load8_runs hread)
      rw [hv] at this
      subst hv
      exact this
    by_cases hc : st.mem (f + i) = 0
    · exact ⟨v1, .bind hload (.bind (.ite_pos hlt hstore) (.ite_neg (not_not.mpr hc)
        (.pure _ _))), hsame⟩
    · have hik : i ≠ k := fun heq => hc (heq ▸ h0)
      obtain ⟨v2, hrest, hsame2⟩ := ih (i + 1) v1 (hsame.store.trans hv) (by omega) (by omega)
      exact ⟨v2, .bind hload (.bind (.ite_pos hlt hstore) (.ite_pos hc hrest)), hsame.trans hsame2⟩

/-- The name of the file ends within its field. -/
def NameEnds (m : Image) (f : Nat) : Prop := ∃ k < maxnamelen, m (f + k) = 0

theorem onFs_loadWord {k : Nat} (ht : Tree v.store.mem) (hf : f ∈ files v.store.mem)
    (hk : k + 4 ≤ sizeofFile) : ServRuns (onFs (loadWord (f + k))) v
      (word v.store.mem (f + k)) v :=
  onFs_runs (v := v) (loadWord_runs (ht.layout.readable_field hf hk))

theorem serveStat_served (h : Opened v) (hok : ∀ f, v.reqFile = some f → NameEnds v.store.mem f) :
    ∃ r v', ServRuns serveStat v r v' ∧ ServedIf C none v v' := by
  refine withOpenFile_served h fun o f v1 _ hfile hf hsame _ hopen => ?_
  obtain ⟨k, hk, h0⟩ := hok f hfile
  obtain ⟨v2, hname, hsame2⟩ := copyName_runs h.tree.layout hf hk h0 disksize 0 v1 hsame.store
    (Nat.zero_le _) (by unfold maxnamelen at hk; unfold disksize; omega)
  have h2 := hsame.toSameTable.trans hsame2
  have hsize := onFs_loadWord (v := v2) (by rw [h2.store]; exact h.tree)
    (by rw [h2.store]; exact hf) (show 128 + 4 ≤ sizeofFile by decide)
  obtain ⟨v3, hstore, hsame3⟩ := storeReq_runs v2 retSizeAt 4
    (wordByte (word v2.store.mem (f + 128)))
  have h3 := h2.trans hsame3
  have htype := onFs_loadWord (v := v3) (by rw [h3.store]; exact h.tree)
    (by rw [h3.store]; exact hf) (show 132 + 4 ≤ sizeofFile by decide)
  obtain ⟨v4, hstore', hsame4⟩ := storeReq_runs v3 retIsdirAt 4
    (wordByte (if word v3.store.mem (f + 132) = ftypeDir then 1 else 0))
  refine ⟨0, v4, .bind (openFile_runs hopen) (.bind hname (.bind hsize (.bind hstore (.bind htype
    (.bind hstore' (.pure _ _)))))), (h3.trans hsame4).served_same h.tree⟩

theorem serveFlush_served (h : Opened v) :
    ∃ r v', ServRuns serveFlush v r v' ∧ ServedIf C none v v' := by
  refine withOpenFile_served h fun o f v1 _ _ hf hsame _ hopen => ?_
  have hrun := fileFlush_runs h.tree.layout hf
  rw [← hsame.store] at hrun
  have hmem := Store.flushAll_mem v1.store (flushList v1.store.mem f)
  rw [hsame.store] at hmem
  refine ⟨0, _, .bind (openFile_runs hopen) (.bind (onFs_runs hrun) (.pure _ _)),
    hsame.toSameTable.served ?_ (.inl ?_) ?_ (SameFiles.refl _).toSameTable⟩ <;>
    rw [hsame.store, hmem]
  · exact h.tree
  · exact .refl _
  · exact fun _ => id

theorem serveSync_served (h : Opened v) :
    ∃ r v', ServRuns serveSync v r v' ∧ ServedIf C none v v' := by
  obtain ⟨L, -, hrun⟩ := fsSync_runs h.tree.layout
  refine ⟨0, _, .bind (onFs_runs hrun) (.pure _ _), (SameFiles.refl v).toSameTable.served ?_
    (.inl ?_) ?_ (SameFiles.refl _).toSameTable⟩ <;> rw [Store.flushAll_mem]
  · exact h.tree
  · exact .refl _
  · exact fun _ => id

end Jos
