import Jos.Files.Arrays

/-!
# Directories

The files of a disk are the root and the entries of every directory. In a sound tree `dir_lookup`
and `walk_path` change nothing, and what they find is a function of the bytes.
-/

namespace Jos

open Logic List

variable {F : Set Nat} {m m' : Image} {st : Store}
  {f g a b c d n k p hi i j : Nat} {x : Option Nat} {v : Word} {name path : List Byte}

def entryAt (b j : Nat) : Nat := b * blksize + sizeofFile * j

inductive IsFile (m : Image) : Nat → Prop where
  | root : IsFile m sRoot
  | entry {d n j : Nat} (hd : IsFile m d) (hdir : fType m d = ftypeDir) (hn : n < maxblocks)
      (h0 : held m d (some n) ≠ 0) (hj : j < blkfiles) :
      IsFile m (entryAt (held m d (some n)) j)

def files (m : Image) : Set Nat := fun f => IsFile m f

def dirLen (m : Image) (d : Nat) : Nat := (fSize m d).toNat / blksize

/-- A sound tree of directories: the files are well formed, and a directory has all blocks of
its size. -/
structure Tree (m : Image) : Prop extends WellFormed (files m) m where
  root : fType m sRoot = ftypeDir
  size : ∀ d ∈ files m, fType m d = ftypeDir →
    (fSize m d).toNat = dirLen m d * blksize ∧ dirLen m d ≤ maxblocks
  full : ∀ d ∈ files m, fType m d = ftypeDir → ∀ n < dirLen m d, held m d (some n) ≠ 0

theorem IsFile.congr (h : IsFile m f) (hdir : ∀ d ∈ files m, fType m d = ftypeDir →
    fType m' d = ftypeDir ∧ ∀ n < maxblocks, held m d (some n) ≠ 0 →
      held m' d (some n) = held m d (some n)) : IsFile m' f := by
  induction h with
  | root => exact .root
  | @entry d n j hd htype hn h0 hj ih =>
    obtain ⟨htype', hheld⟩ := hdir d hd htype
    have heq := hheld n hn h0
    have hentry := IsFile.entry ih htype' hn (by rw [heq]; exact h0) hj
    rw [heq] at hentry
    exact hentry

theorem entryAt_facts (hj : j < blkfiles) : entryAt b j / blksize = b ∧
    entryAt b j % blksize + sizeofFile ≤ blksize := by
  unfold entryAt blkfiles sizeofFile blksize at *
  omega

theorem entryAt_eq : b * blksize + sizeofFile * j = entryAt b j := rfl

/-- Whether the string at `a` is `name`. -/
def nameEq (m : Image) : List Byte → Nat → Bool
  | [], a => m a == 0
  | c :: name, a => m a == c && nameEq m name (a + 1)

theorem strcmpEq_runs (h : ∀ i ≤ name.length, Readable st.mem ((a + i) / blksize)) :
    FsRuns (strcmpEq name a) st (nameEq st.mem name a) st := by
  induction name generalizing a with
  | nil => exact .bind (load8_runs (h 0 (Nat.zero_le _))) (.pure _ _)
  | cons c name ih =>
    refine .bind (load8_runs (h 0 (Nat.zero_le _))) ?_
    unfold nameEq
    by_cases hc : st.mem a = c
    · rw [beq_iff_eq.mpr hc, Bool.true_and]
      refine .ite_pos hc (ih fun i hi => ?_)
      have := h (i + 1) (by simpa using hi)
      rwa [show a + (i + 1) = a + 1 + i by omega] at this
    · rw [beq_eq_false_iff_ne.mpr hc, Bool.false_and]
      exact .ite_neg hc (.pure _ _)

theorem nameEq_congr (h : ∀ i ≤ name.length, m' (a + i) = m (a + i)) :
    nameEq m' name a = nameEq m name a := by
  induction name generalizing a with
  | nil =>
    unfold nameEq
    rw [show m' a = m a from h 0 (Nat.zero_le _)]
  | cons c name ih =>
    unfold nameEq
    rw [show m' a = m a from h 0 (Nat.zero_le _), ih]
    intro i hi
    have := h (i + 1) (by simpa using hi)
    rwa [show a + (i + 1) = a + 1 + i by omega] at this

/-- The first of some entries that satisfies the test. -/
def firstEntry (t : Nat → Bool) : Nat → Nat → Option Nat
  | 0, _ => none
  | rounds + 1, f => if t f then some f else firstEntry t rounds (f + sizeofFile)

/-- The first entry of some blocks of a directory that satisfies the test. -/
def firstInDir (m : Image) (d : Nat) (t : Nat → Bool) : Nat → Nat → Option Nat
  | 0, _ => none
  | rounds + 1, n =>
    match firstEntry t blkfiles (held m d (some n) * blksize) with
    | some f => some f
    | none => firstInDir m d t rounds (n + 1)

theorem firstEntry_cases {t : Nat → Bool} (rounds : Nat) :
    (∃ j < rounds, firstEntry t rounds a = some (a + sizeofFile * j) ∧
      t (a + sizeofFile * j) = true) ∨
    (firstEntry t rounds a = none ∧ ∀ j < rounds, t (a + sizeofFile * j) = false) := by
  induction rounds generalizing a with
  | zero => exact .inr ⟨rfl, fun j hj => absurd hj (Nat.not_lt_zero j)⟩
  | succ rounds ih =>
    unfold firstEntry
    by_cases ht : t a = true
    · refine .inl ⟨0, Nat.succ_pos _, ?_, ?_⟩
      · rw [if_pos ht, Nat.mul_zero, Nat.add_zero]
      · rw [Nat.mul_zero, Nat.add_zero]
        exact ht
    · rw [if_neg ht]
      have hshift : ∀ j, a + sizeofFile + sizeofFile * j = a + sizeofFile * (j + 1) := by
        intro j
        rw [Nat.mul_succ]
        omega
      rcases ih (a := a + sizeofFile) with ⟨j, hj, h1, h2⟩ | ⟨h1, h2⟩
      · rw [hshift] at h1 h2
        exact .inl ⟨j + 1, by omega, h1, h2⟩
      · refine .inr ⟨h1, fun j hj => ?_⟩
        cases j with
        | zero =>
          rw [Nat.mul_zero, Nat.add_zero]
          exact Bool.not_eq_true _ ▸ ht
        | succ j =>
          rw [← hshift]
          exact h2 j (by omega)

theorem firstInDir_cases {t : Nat → Bool} (rounds : Nat) :
    (∃ i, n ≤ i ∧ i < n + rounds ∧ ∃ j < blkfiles,
      firstInDir m d t rounds n = some (entryAt (held m d (some i)) j) ∧
      t (entryAt (held m d (some i)) j) = true) ∨
    (firstInDir m d t rounds n = none ∧ ∀ i, n ≤ i → i < n + rounds → ∀ j < blkfiles,
      t (entryAt (held m d (some i)) j) = false) := by
  induction rounds generalizing n with
  | zero => exact .inr ⟨rfl, fun i h1 h2 => by omega⟩
  | succ rounds ih =>
    have hentry := fun j => entryAt_eq (b := held m d (some n)) (j := j)
    unfold firstInDir
    rcases firstEntry_cases (t := t) (a := held m d (some n) * blksize) blkfiles with
      ⟨j, hj, h1, h2⟩ | ⟨h1, h2⟩
    · rw [h1]
      rw [hentry] at h2
      exact .inl ⟨n, le_refl _, by omega, j, hj, congrArg some (hentry j), h2⟩
    · rw [h1]
      rcases ih (n := n + 1) with ⟨i, hi, hi', j, hj, h3, h4⟩ | ⟨h3, h4⟩
      · exact .inl ⟨i, by omega, by omega, j, hj, h3, h4⟩
      · refine .inr ⟨h3, fun i hi hi' j hj => ?_⟩
        by_cases hin : i = n
        · rw [hin, ← hentry]
          exact h2 j hj
        · exact h4 i (by omega) (by omega) j hj

theorem firstEntry_congr {t t' : Nat → Bool} (rounds : Nat)
    (h : ∀ j < rounds, t' (a + sizeofFile * j) = t (a + sizeofFile * j)) :
    firstEntry t' rounds a = firstEntry t rounds a := by
  induction rounds generalizing a with
  | zero => rfl
  | succ rounds ih =>
    have h0 := h 0 (Nat.succ_pos _)
    rw [Nat.mul_zero, Nat.add_zero] at h0
    unfold firstEntry
    rw [h0, ih]
    intro j hj
    have := h (j + 1) (by omega)
    rwa [show a + sizeofFile * (j + 1) = a + sizeofFile + sizeofFile * j by
      rw [Nat.mul_succ]; omega] at this

theorem firstInDir_congr {t t' : Nat → Bool} (rounds : Nat)
    (hheld : ∀ i, n ≤ i → i < n + rounds → held m' d (some i) = held m d (some i))
    (h : ∀ i, n ≤ i → i < n + rounds → ∀ j < blkfiles,
      t' (entryAt (held m d (some i)) j) = t (entryAt (held m d (some i)) j)) :
    firstInDir m' d t' rounds n = firstInDir m d t rounds n := by
  induction rounds generalizing n with
  | zero => rfl
  | succ rounds ih =>
    unfold firstInDir
    rw [hheld n (le_refl _) (by omega), firstEntry_congr (t := t),
      ih (fun i hi hi' => hheld i (by omega) (by omega)) fun i hi hi' => h i (by omega) (by omega)]
    intro j hj
    rw [entryAt_eq]
    exact h n (le_refl _) (by omega) j hj

theorem scanBlock_runs (test : Nat → FsM Bool) {t : Nat → Bool} (rounds : Nat)
    (h : ∀ j < rounds, FsRuns (test (a + sizeofFile * j)) st
      (t (a + sizeofFile * j)) st) :
    FsRuns (scanBlock test rounds a) st (firstEntry t rounds a) st := by
  induction rounds generalizing a with
  | zero => exact .pure _ _
  | succ rounds ih =>
    have h0 := h 0 (Nat.succ_pos _)
    rw [Nat.mul_zero, Nat.add_zero] at h0
    refine .bind h0 ?_
    unfold firstEntry
    refine .ite (fun _ => .pure _ _) fun _ => ih fun j hj => ?_
    have := h (j + 1) (by omega)
    rwa [show a + sizeofFile * (j + 1) = a + sizeofFile + sizeofFile * j by
      rw [Nat.mul_succ]; omega] at this

theorem scanDir_runs (test : Nat → FsM Bool) {t : Nat → Bool} (hl : LaidOut F st.mem)
    (hd : d ∈ F) (rounds : Nat) (hmax : v.toNat + rounds ≤ maxblocks)
    (hfull : ∀ i, v.toNat ≤ i → i < v.toNat + rounds → held st.mem d (some i) ≠ 0)
    (h : ∀ i, v.toNat ≤ i → i < v.toNat + rounds → ∀ j < blkfiles, FsRuns
      (test (entryAt (held st.mem d (some i)) j)) st (t (entryAt (held st.mem d (some i)) j)) st) :
    FsRuns (scanDir d test rounds v) st
      (.ok (firstInDir st.mem d t rounds v.toNat)) st := by
  induction rounds generalizing v with
  | zero => exact .pure _ _
  | succ rounds ih =>
    have hv : v.toNat < maxblocks := by omega
    have hget := fileGetBlock_present hl hd hv (hfull _ (le_refl _) (by omega))
    have hblock := scanBlock_runs test (t := t)
      (a := held st.mem d (some v.toNat) * blksize) blkfiles fun j hj => by
        rw [entryAt_eq]
        exact h _ (le_refl _) (by omega) j hj
    refine .bind hget (.bind hblock ?_)
    unfold firstInDir
    cases firstEntry t blkfiles (held st.mem d (some v.toNat) * blksize) with
    | some f => exact .pure _ _
    | none =>
      have hnext : (v + 1).toNat = v.toNat + 1 := by
        rw [BitVec.toNat_add]
        unfold maxblocks ndirect nindirect blksize at hmax
        apply Nat.mod_eq_of_lt
        show v.toNat + 1 < 2 ^ 32
        omega
      rw [← hnext]
      exact ih (by omega) (fun i hi hi' => hfull i (by omega) (by omega))
        fun i hi hi' => h i (by omega) (by omega)

/-- The directories `F` are sound, have all their blocks, and contain every directory that
one of them has an entry for. -/
structure DirTree (F : Set Nat) (m : Image) : Prop where
  layout : LaidOut F m
  root : sRoot ∈ F
  isDir : ∀ d ∈ F, fType m d = ftypeDir
  size : ∀ d ∈ F, (fSize m d).toNat = dirLen m d * blksize ∧ dirLen m d ≤ maxblocks
  full : ∀ d ∈ F, ∀ n < dirLen m d, held m d (some n) ≠ 0
  closed : ∀ d ∈ F, ∀ n < dirLen m d, ∀ j < blkfiles,
    fType m (entryAt (held m d (some n)) j) = ftypeDir → entryAt (held m d (some n)) j ∈ F

def dirs (m : Image) : Set Nat := fun d => d ∈ files m ∧ fType m d = ftypeDir

theorem Layout.subset {I : Inodes} {G : Set Nat} (h : Layout F I) (hsub : ∀ f ∈ G, f ∈ F)
    (hdirs : ∀ d ∈ F, I.IsDir d → d ∈ G) : Layout G I where
  fits := h.fits
  reserved_le := h.reserved_le
  range f hf := h.range f (hsub f hf)
  distinct f hf g hg := h.distinct f (hsub f hf) g (hsub g hg)
  placed f hf := by
    rcases h.placed f (hsub f hf) with h0 | ⟨d, hd, hdir, hrest⟩
    · exact .inl h0
    · exact .inr ⟨d, hdirs d hd hdir, hdir, hrest⟩
  free_lt := h.free_lt
  reserved := h.reserved
  used f hf := h.used f (hsub f hf)

theorem Tree.dirTree (h : Tree m) : DirTree (dirs m) m where
  layout := h.layout.subset (fun _ hf => hf.1) fun _ hd hdir => ⟨hd, hdir⟩
  root := ⟨.root, h.root⟩
  isDir _ hd := hd.2
  size d hd := h.size d hd.1 hd.2
  full d hd := h.full d hd.1 hd.2
  closed d hd n hn j hj htype := by
    have hmax := (h.size d hd.1 hd.2).2
    exact ⟨.entry hd.1 hd.2 (by omega) (h.full d hd.1 hd.2 n hn) hj, htype⟩

theorem size_lt_of_dirLen (h : (fSize m d).toNat = dirLen m d * blksize ∧ dirLen m d ≤ maxblocks) :
    (fSize m d).toNat < 2 ^ 31 := by
  unfold maxblocks ndirect nindirect blksize at h
  omega

theorem dirBlocks_runs (h : LaidOut F st.mem) (hd : d ∈ F)
    (hsize : (fSize st.mem d).toNat = dirLen st.mem d * blksize ∧ dirLen st.mem d ≤ maxblocks) :
    ∃ nblock, FsRuns (dirBlocks d) st nblock st ∧ nblock.toNat = dirLen st.mem d := by
  have hsmall := size_lt_of_dirLen hsize
  refine ⟨_, .bind (fSize_runs h hd) (.ite_neg (fun hne => hne ?_) (.pure _ _)),
    sdiv_blksize hsmall⟩
  apply BitVec.eq_of_toNat_eq
  rw [srem_blksize hsmall, hsize.1]
  exact Nat.mul_mod_left ..

/-- The entry with a name. -/
def lookupIn (m : Image) (d : Nat) (name : List Byte) : Option Nat :=
  firstInDir m d (nameEq m name) (dirLen m d) 0

theorem entryAt_block (hj : j < blkfiles) (hk : k < sizeofFile) :
    (entryAt b j + k) / blksize = b := by
  unfold entryAt blkfiles sizeofFile blksize at *
  omega

theorem DirTree.readable_entry (h : DirTree F m) (hd : d ∈ F) (hn : n < dirLen m d)
    (hj : j < blkfiles) (hk : k < sizeofFile) :
    Readable m ((entryAt (held m d (some n)) j + k) / blksize) := by
  have hmax := (h.size d hd).2
  rw [entryAt_block hj hk]
  exact h.layout.readable_held hd (x := some n) (lt_of_lt_of_le hn hmax) (h.full d hd n hn)

theorem dirLookup_runs (h : DirTree F st.mem) (hd : d ∈ F) (hname : name.length < maxnamelen) :
    FsRuns (dirLookup d name) st (match lookupIn st.mem d name with
        | some f => .ok f
        | none => .error (-eNotFound)) st := by
  obtain ⟨nblock, hrun, hlen⟩ := dirBlocks_runs h.layout hd (h.size d hd)
  have hmax := (h.size d hd).2
  have hscan := scanDir_runs (strcmpEq name) (t := nameEq st.mem name) (v := 0) h.layout hd
    (dirLen st.mem d) (by show 0 + _ ≤ _; omega)
    (fun i _ hi => h.full d hd i (by simpa using hi))
    (fun i _ hi j hj => strcmpEq_runs fun k hk => h.readable_entry hd (by simpa using hi) hj (by
      unfold maxnamelen at hname
      unfold sizeofFile
      omega))
  refine .bind hrun ?_
  rw [hlen]
  refine .bind hscan ?_
  have hres : firstInDir st.mem d (nameEq st.mem name) (dirLen st.mem d) (0 : Word).toNat =
      lookupIn st.mem d name := rfl
  rw [hres]
  cases lookupIn st.mem d name with
  | some f => exact .pure _ _
  | none => exact .pure _ _

theorem lookupIn_cases (m : Image) (d : Nat) (name : List Byte) :
    (∃ i < dirLen m d, ∃ j < blkfiles, lookupIn m d name = some (entryAt (held m d (some i)) j) ∧
      nameEq m name (entryAt (held m d (some i)) j) = true) ∨
    (lookupIn m d name = none ∧ ∀ i < dirLen m d, ∀ j < blkfiles,
      nameEq m name (entryAt (held m d (some i)) j) = false) := by
  rcases firstInDir_cases (m := m) (d := d) (t := nameEq m name) (n := 0) (dirLen m d) with
    ⟨i, _, hi, j, hj, h1, h2⟩ | ⟨h1, h2⟩
  · exact .inl ⟨i, by omega, j, hj, h1, h2⟩
  · exact .inr ⟨h1, fun i hi j hj => h2 i (by omega) (by omega) j hj⟩

/-- Where `walk_path` ends. -/
def walkFrom (m : Image) : Nat → List Byte → Option Nat → Nat → Walk
  | 0, _, dir, f => .found dir f
  | _ + 1, [], dir, f => .found dir f
  | rounds + 1, c :: path, _, f =>
    if maxnamelen ≤ ((c :: path).takeWhile (· != slash)).length then .failed (-eBadPath)
    else if fType m f ≠ ftypeDir then .failed (-eNotFound)
    else
      match lookupIn m f ((c :: path).takeWhile (· != slash)) with
      | some f' => walkFrom m rounds (skipSlash ((c :: path).dropWhile (· != slash))) (some f) f'
      | none =>
        if skipSlash ((c :: path).dropWhile (· != slash)) = [] then
          .missing f ((c :: path).takeWhile (· != slash))
        else .failed (-eNotFound)

/-- A file that `walk_path` can be at: its block is in use, and if it is a directory it is
one of `F`. -/
def Visited (F : Set Nat) (m : Image) (f : Nat) : Prop :=
  (∀ k < sizeofFile, Readable m ((f + k) / blksize)) ∧ (fType m f = ftypeDir → f ∈ F)

theorem DirTree.visited_entry (h : DirTree F m) (hd : d ∈ F) (hn : n < dirLen m d)
    (hj : j < blkfiles) : Visited F m (entryAt (held m d (some n)) j) :=
  ⟨fun _ hk => h.readable_entry hd hn hj hk, h.closed d hd n hn j hj⟩

theorem DirTree.visited_root (h : DirTree F m) : Visited F m sRoot := by
  refine ⟨fun k hk => ?_, fun _ => h.root⟩
  have hdiv : (sRoot + k) / blksize = 1 := by
    unfold sRoot superAddr sizeofFile blksize at *
    omega
  rw [hdiv]
  exact h.layout.readable_super

theorem walkLoop_runs (h : DirTree F st.mem) (rounds : Nat) :
    ∀ (path : List Byte) (dir : Option Nat) (f : Nat), Visited F st.mem f →
      FsRuns (walkLoop rounds path dir f) st (walkFrom st.mem rounds path dir f) st := by
  induction rounds with
  | zero => exact fun path dir f _ => .pure _ _
  | succ rounds ih =>
    intro path dir f hf
    cases path with
    | nil => exact .pure _ _
    | cons c path =>
      refine .ite (fun _ => .pure _ _) fun hlong => ?_
      refine .bind (loadWord_runs (hf.1 132 (by decide))) (.ite (fun _ => .pure _ _) fun hdir => ?_)
      have hd := hf.2 (not_not.mp hdir)
      refine .bind (dirLookup_runs h hd (Nat.lt_of_not_le hlong)) ?_
      rcases lookupIn_cases st.mem f ((c :: path).takeWhile (· != slash)) with
        ⟨i, hi, j, hj, h1, _⟩ | ⟨h1, _⟩
      · rw [h1]
        exact ih _ _ _ (h.visited_entry hd hi hj)
      · rw [h1]
        dsimp only
        by_cases hrest : skipSlash ((c :: path).dropWhile (· != slash)) = []
        · rw [if_pos hrest]
          exact .ite_pos ⟨rfl, hrest⟩ (.pure _ _)
        · rw [if_neg hrest]
          exact .ite_neg (fun hc => hrest hc.2) (.pure _ _)

def walkIn (m : Image) (path : List Byte) : Walk :=
  walkFrom m path.length (skipSlash path) none sRoot

theorem walkPath_runs (h : DirTree F st.mem) (path : List Byte) :
    FsRuns (walkPath path) st (walkIn st.mem path) st :=
  walkLoop_runs h _ _ _ _ h.visited_root

/-- The maximal runs of characters other than slashes. -/
def components (path : List Byte) : List (List Byte) := (path.splitOn slash).filter (· ≠ [])

theorem ne_nil_of_components (h : name ∈ components path) : name ≠ [] := by
  simpa using (mem_filter.mp h).2

theorem components_append (hne : name ≠ []) (h : slash ∉ name) :
    components (name ++ slash :: path) = name :: components path := by
  unfold components
  rw [splitOn_append_cons_self_of_not_mem h]
  simp [hne]

theorem components_eq_singleton (hne : name ≠ []) (h : slash ∉ name) :
    components name = [name] := by
  unfold components
  rw [splitOn_eq_singleton h]
  simp [hne]

theorem components_slash (path : List Byte) : components (slash :: path) = components path := by
  unfold components
  rw [← nil_append (slash :: path), splitOn_append_cons_self_of_not_mem not_mem_nil]
  rfl

theorem components_skipSlash (path : List Byte) :
    components (skipSlash path) = components path := by
  induction path with
  | nil => rfl
  | cons c path ih =>
    unfold skipSlash at ih ⊢
    by_cases hc : c = slash
    · subst hc
      rw [dropWhile_cons_of_pos (by simp), ih, components_slash]
    · rw [dropWhile_cons_of_neg (by simpa using hc)]

theorem head_skipSlash (c : Byte) (rest : List Byte) (h : skipSlash path = c :: rest) :
    c ≠ slash := by
  intro hc
  have hhead := List.head?_dropWhile_not (p := (· == slash)) (l := path)
  unfold skipSlash at h
  rw [h] at hhead
  simp [hc] at hhead

theorem components_cons {c : Byte} (hc : c ≠ slash) : components (c :: path) =
    (c :: path).takeWhile (· != slash) ::
      components (skipSlash ((c :: path).dropWhile (· != slash))) := by
  have hne : (c :: path).takeWhile (· != slash) ≠ [] := by simp [hc]
  have hno : slash ∉ (c :: path).takeWhile (· != slash) := fun hmem => by
    simpa using all_eq_true.mp all_takeWhile slash hmem
  have hsplit := takeWhile_append_dropWhile (p := (· != slash)) (l := c :: path)
  rw [components_skipSlash]
  cases hrest : (c :: path).dropWhile (· != slash) with
  | nil =>
    rw [hrest, append_nil] at hsplit
    rw [hsplit] at hne hno ⊢
    exact components_eq_singleton hne hno
  | cons x rest =>
    have hhead := List.head?_dropWhile_not (p := (· != slash)) (l := c :: path)
    rw [hrest] at hhead hsplit
    obtain rfl : x = slash := by simpa using hhead
    rw [components_slash, ← components_append hne hno, hsplit]

/-- Where a path with the components `cs` leads to from `f`. -/
def resolve (m : Image) : List (List Byte) → Option Nat → Nat → Walk
  | [], dir, f => .found dir f
  | c :: cs, _, f =>
    if maxnamelen ≤ c.length then .failed (-eBadPath)
    else if fType m f ≠ ftypeDir then .failed (-eNotFound)
    else
      match lookupIn m f c with
      | some f' => resolve m cs (some f) f'
      | none => if cs = [] then .missing f c else .failed (-eNotFound)

theorem walkFrom_eq_resolve (m : Image) (rounds : Nat) : ∀ (path : List Byte) (dir : Option Nat)
    (f : Nat), path.length ≤ rounds → (∀ c rest, path = c :: rest → c ≠ slash) →
      walkFrom m rounds path dir f = resolve m (components path) dir f := by
  induction rounds with
  | zero =>
    intro path dir f hlen _
    rw [List.length_eq_zero_iff.mp (Nat.le_zero.mp hlen)]
    rfl
  | succ rounds ih =>
    intro path dir f hlen hhead
    cases path with
    | nil => rfl
    | cons c path =>
      have hc := hhead c path rfl
      have hlen' : (skipSlash ((c :: path).dropWhile (· != slash))).length ≤ rounds := by
        rw [List.dropWhile_cons_of_pos (by simpa using hc)]
        have hskip : skipSlash (path.dropWhile (· != slash)) <:+ path :=
          (List.dropWhile_suffix _).trans (List.dropWhile_suffix _)
        exact hskip.length_le.trans (Nat.le_of_succ_le_succ hlen)
      rw [walkFrom, components_cons hc, resolve]
      congr 2
      cases lookupIn m f ((c :: path).takeWhile (· != slash)) with
      | some f' => exact ih _ _ _ hlen' head_skipSlash
      | none =>
        dsimp only
        cases hrest : skipSlash ((c :: path).dropWhile (· != slash)) with
        | nil => rfl
        | cons x rest =>
          rw [components_cons (head_skipSlash x rest hrest), if_neg (List.cons_ne_nil _ _),
            if_neg (List.cons_ne_nil _ _)]

theorem walkIn_eq_resolve (m : Image) (path : List Byte) :
    walkIn m path = resolve m (components path) none sRoot := by
  rw [← components_skipSlash path]
  exact walkFrom_eq_resolve m _ _ _ _ (dropWhile_suffix _).length_le head_skipSlash

end Jos
