import Mathlib.Data.List.TakeWhile
import Jos.Files.FormatBlocks
import Jos.Files.Server

/-!
# The image builder and the file server

An image that `fsformat` has written is a sound tree, with one entry in the root for each argument.
Opening a file by its name and reading all of it gives what the argument had.
-/

namespace Jos

open Logic List

variable {s : Fmt} {heap m : Image} {arg : Arg} {args : List Arg} {b f i j k n p : Nat}
  {nb : Word} {x : Option Nat} {name : List Byte} {st : Store}

/-- The names fit in their field, and the memory of the entries was zero. -/
structure Clean (args : List Arg) (heap : Image) : Prop where
  name : ∀ arg ∈ args, arg.name.length < maxnamelen
  zero : ∀ x, heap x = 0

theorem Clean.rest (h : Clean args heap) (hk : args[k]? = some arg) (hn : maxnamelen ≤ n)
    (e : Nat) : arg.rest heap e n = 0 := by
  have hname := h.name arg (mem_of_getElem? hk)
  refine word_of_zero fun i hi => ?_
  unfold Arg.named
  rw [setBytes_of_not_mem (by omega)]
  exact h.zero _

theorem Clean.nothingLeft (h : Clean args heap) : NothingLeft args heap :=
  fun _ _ hk _ => h.rest hk (by decide) _

theorem entryAt_dirStart (i j : Nat) :
    entryAt (dirStart args + i) j = entryOfArg args (blkfiles * i + j) := by
  unfold entryAt entryOfArg blkfiles sizeofFile blksize
  omega

namespace Formatted

variable (h : Formatted args heap nb s)
include h

theorem fType_entry (hk : args[k]? = some arg) :
    fType s.diskmap (entryOfArg args k) = ftypeReg := (h.entry k arg hk).type

theorem word_unused (hk : args.length ≤ k) (n : Nat) :
    word s.diskmap (entryOfArg args k + n) = 0 := by
  refine word_of_zero fun i hi => h.zero _ ?_
  unfold entryOfArg sizeofFile
  omega

theorem held_unused (hk : args.length ≤ k) (x : Option Nat) :
    held s.diskmap (entryOfArg args k) x = 0 := by
  have hind : fIndirect s.diskmap (entryOfArg args k) = 0 :=
    congrArg BitVec.toNat (h.word_unused hk 176)
  cases x with
  | none => exact hind
  | some i =>
    rw [held_some, if_pos hind]
    by_cases hi : i < ndirect
    · have hword : word s.diskmap (fDirectAt (entryOfArg args k) i) = 0 := by
        unfold fDirectAt
        rw [add_assoc]
        exact h.word_unused hk _
      rw [if_pos hi, hword]
      rfl
    · rw [if_neg hi]

theorem fType_entry_ne (k : Nat) : fType s.diskmap (entryOfArg args k) ≠ ftypeDir := by
  by_cases hk : k < args.length
  · rw [h.fType_entry (List.getElem?_eq_getElem hk)]
    decide
  · rw [show fType s.diskmap (entryOfArg args k) = 0 from h.word_unused (not_lt.mp hk) 132]
    decide

theorem mem_files (hf : f ∈ files s.diskmap) :
    f = sRoot ∨ ∃ i < rootBlocks args.length, ∃ j < blkfiles,
      held s.diskmap sRoot (some i) = dirStart args + i ∧
        f = entryOfArg args (blkfiles * i + j) := by
  induction hf with
  | root => exact .inl rfl
  | @entry d n j hd htype hn h0 hj ih =>
    rcases ih with rfl | ⟨i', _, j', _, _, rfl⟩
    · obtain ⟨i, hi, hx, hheld⟩ := h.held_root (x := some n) hn h0
      cases hx
      refine .inr ⟨n, hi, j, hj, hheld, ?_⟩
      rw [hheld, entryAt_dirStart]
    · exact absurd htype (h.fType_entry_ne _)

theorem stored_of_held (hc : Clean args heap) (hf : f ∈ files s.diskmap) (hx : ValidSlot x)
    (h0 : held s.diskmap f x ≠ 0) : FormattedFile args f ∧ Stored s.diskmap f x := by
  rcases h.mem_files hf with rfl | ⟨i, _, j, _, _, rfl⟩
  · refine ⟨.inl rfl, hx, fun n hn _ => ?_, h0⟩
    obtain ⟨i, hi, rfl, -⟩ := h.held_root hx h0
    cases hn
    rw [h.blocks_root]
    exact hi
  · by_cases hk : blkfiles * i + j < args.length
    · refine ⟨.inr ⟨_, hk, rfl⟩, hx, fun n hn hd => ?_, h0⟩
      have hk' := List.getElem?_eq_getElem hk
      subst hn
      rw [h.fSize_entry hk']
      by_contra hge
      have hspare := (h.entry _ _ hk').spare n hd (not_lt.mp hge)
      rw [hc.rest hk' (by unfold maxnamelen; omega)] at hspare
      rw [held_some, if_pos hd] at h0
      exact h0 (congrArg BitVec.toNat hspare)
    · exact absurd (h.held_unused (not_lt.mp hk) x) h0

theorem layout (hne : args ≠ []) (hc : Clean args heap) :
    Layout (files s.diskmap) (inodes s.diskmap) := by
  have hm := h.bitmapMatches hne hc.nothingLeft
  have hfirst := h.firstData_eq
  have hn : (inodes s.diskmap).nblocks = nb.toNat := h.nblocks
  have hmin := h.min
  have hmax := h.max
  refine ⟨⟨?_, ?_, fun f hf x hx h0 => ?_, fun f hf g hg x y hx hy h0 heq => ?_,
    fun f hf => ?_⟩, fun b hb => ?_, fun b hb => ?_, fun f hf x hx h0 => ?_⟩
  · rw [hn]
    unfold blksize disksize
    omega
  · rw [hn, hfirst]
    exact le_of_lt hmin
  · obtain ⟨hfile, hstored⟩ := h.stored_of_held hc hf hx h0
    refine ⟨?_, (hm.used f x hfile hstored).1⟩
    rw [hfirst]
    show 3 ≤ held s.diskmap f x
    have hdir : 3 ≤ dirStart args := three_le_dirStart
    obtain ⟨i, -, -, -, hheld⟩ | ⟨k, arg, t, -, -, -, hheld, -⟩ :=
      h.stored_range hc.nothingLeft hfile hstored
    · omega
    · have hstart : 3 ≤ startOf args 3 k := le_startOf
      omega
  · obtain ⟨hfile, hstored⟩ := h.stored_of_held hc hf hx h0
    have h0' : held s.diskmap g y ≠ 0 := fun h0' => h0 (heq.trans h0')
    obtain ⟨hfile', hstored'⟩ := h.stored_of_held hc hg hy h0'
    exact hm.unshared f x g y hfile hstored hfile' hstored' heq
  · rcases h.mem_files hf with rfl | ⟨i, hi, j, hj, hheld, rfl⟩
    · exact .inl rfl
    · refine .inr ⟨sRoot, .root, h.rootType, i, ?_, j, hj, ?_, ?_⟩
      · have hroot := (rootBlocks_lt h.length_le).2
        exact lt_of_lt_of_le (lt_trans hi hroot) (by decide)
      · show held s.diskmap sRoot (some i) ≠ 0
        have hdir : 3 ≤ dirStart args := three_le_dirStart
        omega
      · show _ = held s.diskmap sRoot (some i) * blksize + sizeofFile * j
        rw [hheld, ← entryAt_dirStart]
        rfl
  · have hfree : freeIn s.diskmap b = true := hb
    rw [h.free, Bool.and_eq_true, decide_eq_true_iff, decide_eq_true_iff] at hfree
    rw [hn]
    exact hfree.2
  · rw [hfirst] at hb
    have hused : 3 ≤ usedBlocks args := three_le_usedBlocks
    exact (h.free_iff (by omega)).mpr (by omega)
  · obtain ⟨hfile, hstored⟩ := h.stored_of_held hc hf hx h0
    exact (hm.used f x hfile hstored).2

theorem held_root_direct (hne : args ≠ []) (hi : i < rootBlocks args.length) :
    held s.diskmap sRoot (some i) = dirStart args + i := by
  have hroot := (rootBlocks_lt h.length_le).2
  have hused := usedBlocks_eq hne
  rw [held_some, if_pos (by omega), h.rootDirect i (by omega), if_pos hi, h.toNat_ofNat (by omega)]

theorem fSize_root : (fSize s.diskmap sRoot).toNat = rootBlocks args.length * blksize := by
  have hroot := (rootBlocks_lt h.length_le).2
  rw [h.rootSize, BitVec.toNat_ofNat, Nat.mod_eq_of_lt]
  unfold ndirect at hroot
  unfold blksize
  omega

theorem dirLen_root : dirLen s.diskmap sRoot = rootBlocks args.length := by
  unfold dirLen
  rw [h.fSize_root]
  exact Nat.mul_div_cancel _ (by decide)

theorem fSize_lt (hf : f ∈ files s.diskmap) : (fSize s.diskmap f).toNat < 2 ^ 31 := by
  rcases h.mem_files hf with rfl | ⟨i, _, j, _, _, rfl⟩
  · have hroot := (rootBlocks_lt h.length_le).2
    rw [h.fSize_root]
    unfold ndirect at hroot
    unfold blksize
    omega
  · by_cases hk : blkfiles * i + j < args.length
    · have hlt := h.content_lt (List.getElem?_eq_getElem hk)
      rw [h.fSize_entry (List.getElem?_eq_getElem hk)]
      exact lt_of_le_maxfilesize (le_of_lt hlt)
    · have hsize : fSize s.diskmap (entryOfArg args (blkfiles * i + j)) = 0 :=
        h.word_unused (not_lt.mp hk) 128
      rw [hsize]
      decide

theorem tree (hne : args ≠ []) (hc : Clean args heap) : Tree s.diskmap := by
  have hdir : ∀ d ∈ files s.diskmap, fType s.diskmap d = ftypeDir → d = sRoot := by
    intro d hd htype
    rcases h.mem_files hd with rfl | ⟨i, _, j, _, _, rfl⟩
    · rfl
    · exact absurd htype (h.fType_entry_ne _)
  have hroot := (rootBlocks_lt h.length_le).2
  have hmax : ndirect ≤ maxblocks := Nat.le_add_right _ _
  refine ⟨⟨h.layout hne hc, fun f hf n hn h0 => ?_, fun f hf => ?_⟩, h.rootType,
    fun d hd htype => ?_, fun d hd htype n hn => ?_⟩
  · rw [toInt_of_small (h.fSize_lt hf), Int.ofNat_lt]
    have hlt : n < blocksBelow (fSize s.diskmap f).toNat := by
      obtain ⟨hfile, hstored⟩ := h.stored_of_held hc hf (x := some n) hn h0
      obtain ⟨i, hi, rfl, hx, -⟩ | ⟨k, arg, t, hk, rfl, -, -, hslot⟩ :=
        h.stored_range hc.nothingLeft hfile hstored
      · cases hx
        rw [h.blocks_root]
        exact hi
      · rw [h.fSize_entry hk]
        obtain ⟨hx, ht⟩ | ⟨hx, -⟩ := hslot
        · cases hx
          exact ht
        · cases hx
    unfold blocksBelow at hlt
    unfold blksize at *
    omega
  · rw [toInt_of_small (h.fSize_lt hf)]
    exact Int.natCast_nonneg _
  · rw [hdir d hd htype, h.dirLen_root]
    exact ⟨h.fSize_root, by omega⟩
  · rw [hdir d hd htype] at hn ⊢
    rw [h.dirLen_root] at hn
    rw [h.held_root_direct hne hn]
    have hstart : 3 ≤ dirStart args := three_le_dirStart
    omega

end Formatted

/-- A name that a path of one component has. -/
structure Component (name : List Byte) : Prop where
  ne : name ≠ []
  lt : name.length < maxnamelen
  slash : Jos.slash ∉ name
  zero : 0 ∉ name

theorem nameEq_iff {a : List Byte} {e : Nat} (h : ∀ i ≤ a.length, m (e + i) = a.getD i 0)
    (ha : 0 ∉ a) (hname : 0 ∉ name) : nameEq m name e = true ↔ name = a := by
  constructor
  · intro heq
    induction name generalizing a e with
    | nil =>
      have h0 : m e = 0 := beq_iff_eq.mp heq
      cases a with
      | nil => rfl
      | cons c a =>
        have hc : m e = c := h 0 (Nat.zero_le _)
        exact absurd (hc.symm.trans h0) fun hc0 => ha (hc0 ▸ mem_cons_self)
    | cons c name ih =>
      unfold nameEq at heq
      rw [Bool.and_eq_true, beq_iff_eq] at heq
      have hmem : (0 : Byte) ≠ c := fun h0 => hname (h0 ▸ mem_cons_self)
      cases a with
      | nil =>
        have h0 : m e = 0 := h 0 (le_refl _)
        exact absurd (h0.symm.trans heq.1) hmem
      | cons d a =>
        have hd : m e = d := h 0 (Nat.zero_le _)
        have htail : name = a := by
          refine ih (a := a) (e := e + 1) (fun i hi => ?_)
            (fun h0 => ha (mem_cons_of_mem _ h0))
            (fun h0 => hname (mem_cons_of_mem _ h0)) heq.2
          rw [show e + 1 + i = e + (i + 1) by omega]
          exact h (i + 1) (Nat.succ_le_succ hi)
        rw [htail, heq.1.symm.trans hd]
  · rintro rfl
    refine nameEq_of_bytes (fun i hi => h i (le_of_lt hi)) ?_
    rw [h _ (le_refl _), getD_eq_default _ _ (le_refl _)]

theorem nameEq_zero (hname : Component name) {e : Nat} (h0 : m e = 0) :
    nameEq m name e = false := by
  cases name with
  | nil => exact absurd rfl hname.ne
  | cons c name =>
    have hc : (m e == c) = false :=
      beq_eq_false_iff_ne.mpr fun hc => hname.zero (h0 ▸ hc ▸ mem_cons_self)
    unfold nameEq
    rw [hc, Bool.false_and]

theorem walkIn_component (h : Component name) (hroot : fType m sRoot = ftypeDir) :
    walkIn m (slash :: name) =
      match lookupIn m sRoot name with
      | some f => .found (some sRoot) f
      | none => .missing sRoot name := by
  rw [walkIn_eq_resolve, components_slash, components_eq_singleton h.ne h.slash, resolve,
    if_neg (not_le.mpr h.lt), if_neg (not_not.mpr hroot)]
  rfl

theorem div_lt_rootBlocks (hk : k < args.length) : k / blkfiles < rootBlocks args.length := by
  unfold rootBlocks
  rw [if_neg (by omega)]
  unfold blocksBelow blkfiles sizeofFile blksize
  omega

/-- The arguments have names that a path can have, all different. -/
structure Named (args : List Arg) : Prop where
  name : ∀ arg ∈ args, Component arg.name
  nodup : (args.map Arg.name).Nodup

theorem Named.eq_of_name {arg' : Arg} (h : Named args) (harg' : arg' ∈ args) (harg : arg ∈ args)
    (heq : arg'.name = arg.name) : arg' = arg := inj_on_of_nodup_map h.nodup harg' harg heq

namespace Formatted

variable (h : Formatted args heap nb s)
include h

theorem nameEq_entry (hnamed : Named args) (hname : Component name) (hk : args[k]? = some arg) :
    nameEq s.diskmap name (entryOfArg args k) = true ↔ name = arg.name := by
  have harg := hnamed.name arg (mem_of_getElem? hk)
  have hlt := harg.lt
  refine nameEq_iff (fun i hi => ?_) harg.zero hname.zero
  exact (h.entry k arg hk).name i (by omega) hi

theorem nameEq_unused (hname : Component name) (hk : args.length ≤ k) :
    nameEq s.diskmap name (entryOfArg args k) = false := by
  refine nameEq_zero hname (h.zero _ ?_)
  unfold entryOfArg sizeofFile
  omega

theorem arg_of_nameEq (hnamed : Named args) (hname : Component name)
    (heq : nameEq s.diskmap name (entryOfArg args k) = true) :
    ∃ arg, args[k]? = some arg ∧ arg.name = name := by
  by_cases hk : k < args.length
  · have hk' : args[k]? = some args[k] := List.getElem?_eq_getElem hk
    exact ⟨_, hk', ((h.nameEq_entry hnamed hname hk').mp heq).symm⟩
  · rw [h.nameEq_unused hname (not_lt.mp hk)] at heq
    cases heq

theorem entryOfArg_eq (hk : k < args.length) : entryOfArg args k =
    entryAt (held s.diskmap sRoot (some (k / blkfiles))) (k % blkfiles) := by
  have hne : args ≠ [] := ne_nil_of_length_pos (Nat.zero_lt_of_lt hk)
  rw [h.held_root_direct hne (div_lt_rootBlocks hk), entryAt_dirStart, Nat.div_add_mod]

theorem lookup_file (hnamed : Named args) (hk : args[k]? = some arg) :
    lookupIn s.diskmap sRoot arg.name = some (entryOfArg args k) := by
  have hlt : k < args.length := (List.getElem?_eq_some_iff.mp hk).1
  have hne : args ≠ [] := ne_nil_of_length_pos (Nat.zero_lt_of_lt hlt)
  have hname := hnamed.name arg (mem_of_getElem? hk)
  have hdirLen := h.dirLen_root
  rcases lookupIn_cases s.diskmap sRoot arg.name with ⟨i, hi, j, hj, hfound, heq⟩ | ⟨-, hnone⟩
  · rw [hdirLen] at hi
    rw [h.held_root_direct hne hi, entryAt_dirStart] at hfound heq
    obtain ⟨arg', hk', hsame⟩ := h.arg_of_nameEq hnamed hname heq
    have hidx : blkfiles * i + j = k := by
      have hlt' : blkfiles * i + j < (args.map Arg.name).length := by
        rw [length_map]
        exact (List.getElem?_eq_some_iff.mp hk').1
      refine (List.getElem?_inj hlt' hnamed.nodup).mp ?_
      rw [List.getElem?_map, List.getElem?_map, hk, hk', Option.map_some, Option.map_some, hsame]
    rw [hfound, hidx]
  · have hfalse := hnone (k / blkfiles) (by rw [hdirLen]; exact div_lt_rootBlocks hlt)
      (k % blkfiles) (Nat.mod_lt _ (by decide))
    rw [← h.entryOfArg_eq hlt, (h.nameEq_entry hnamed hname hk).mpr rfl] at hfalse
    cases hfalse

theorem lookup_none (hne : args ≠ []) (hnamed : Named args) (hname : Component name)
    (hother : ∀ arg ∈ args, arg.name ≠ name) : lookupIn s.diskmap sRoot name = none := by
  rcases lookupIn_cases s.diskmap sRoot name with ⟨i, hi, j, hj, -, heq⟩ | ⟨hnone, -⟩
  · rw [h.dirLen_root] at hi
    rw [h.held_root_direct hne hi, entryAt_dirStart] at heq
    obtain ⟨arg, hk, hsame⟩ := h.arg_of_nameEq hnamed hname heq
    exact absurd hsame (hother arg (mem_of_getElem? hk))
  · exact hnone

theorem entry_mem_files (hk : k < args.length) : entryOfArg args k ∈ files s.diskmap := by
  have hne : args ≠ [] := List.ne_nil_of_length_pos (Nat.zero_lt_of_lt hk)
  have hroot := div_lt_rootBlocks hk
  have hmax : rootBlocks args.length ≤ maxblocks :=
    Nat.le_trans (Nat.le_of_lt (rootBlocks_lt h.length_le).2) (Nat.le_add_right _ _)
  have hstart : 0 < dirStart args := Nat.lt_of_lt_of_le (by decide) three_le_dirStart
  rw [h.entryOfArg_eq hk]
  refine .entry .root h.rootType (Nat.lt_of_lt_of_le hroot hmax) ?_ (Nat.mod_lt _ (by decide))
  rw [h.held_root_direct hne hroot]
  exact Nat.ne_of_gt (Nat.add_pos_left hstart _)

theorem bytesFrom_entry (hk : args[k]? = some arg) :
    bytesFrom s.diskmap (entryOfArg args k) 0 arg.content.length = arg.content := by
  have hbyte : ∀ p (hp : p < arg.content.length),
      byteAt s.diskmap (entryOfArg args k) (0 + p) = arg.content[p] := by
    intro p hp
    have hblk : p / blksize < arg.dataBlocks := by
      unfold Arg.dataBlocks blocksBelow blksize
      omega
    unfold byteAt
    rw [Nat.zero_add, h.held_data_entry hk hblk, add_mul, add_assoc,
      mul_comm (p / blksize), Nat.div_add_mod, (h.data k arg hk).content p hp,
      getD_eq_getElem _ _ hp]
  unfold bytesFrom
  refine ext_getElem (by rw [length_map, length_range]) fun p hp hp' => ?_
  rw [getElem_map, getElem_range, hbyte p hp']

end Formatted

/-- Open a file, look at its size and read all of it. -/
def openAndRead (path : List Byte) : FsM (Except Int (Word × Int × List Byte)) := do
  match ← fileOpen path with
  | .error r => return .error r
  | .ok f =>
    let size ← loadWord (fSizeAt f)
    let (r, buf) ← fileRead f size 0
    return .ok (size, r, buf)

def readFiles : List (List Byte) → FsM (List (Except Int (Word × Int × List Byte)))
  | [] => return []
  | name :: names => do
    let r ← openAndRead (slash :: name)
    return r :: (← readFiles names)

def session (names : List (List Byte)) : FsM (List (Except Int (Word × Int × List Byte))) := do
  checkSuper
  checkBitmap
  readFiles names

/-- The answer for a name is the size and the contents of the argument with that name. -/
structure Answer (args : List Arg) (name : List Byte)
    (r : Except Int (Word × Int × List Byte)) : Prop where
  file : ∀ arg ∈ args, arg.name = name →
    r = .ok (toWord arg.content.length, arg.content.length, arg.content)
  other : (∀ arg ∈ args, arg.name ≠ name) → r = .error (-eNotFound)

theorem checkSuper_runs (ht : Tree st.mem) (hmagic : word st.mem sMagicAt = fsMagic) :
    FsRuns checkSuper st () st := by
  have hload := loadWord_runs (a := sMagicAt) ht.layout.readable_super
  have hload' := loadWord_runs (a := sNblocksAt) ht.layout.readable_super
  have hfits := ht.layout.fits
  refine .bind hload (.ite_neg (not_not.mpr hmagic) (.bind hload' (.ite_neg ?_ (.pure _ _))))
  show ¬disksize / blksize < nblocksIn st.mem
  rw [Nat.not_lt]
  exact (Nat.le_div_iff_mul_le (by decide)).mpr hfits

theorem assertUsed_runs (ht : Tree st.mem) (hb : b < (inodes st.mem).firstData) :
    FsRuns (assertUsed b) st () st := by
  have hfree : freeIn st.mem b = false := ht.layout.reserved b hb
  have hrun := blockIsFree_runs ht.layout b
  rw [hfree] at hrun
  exact .bind hrun (.ite_neg nofun (.pure _ _))

theorem checkBitmap_runs (ht : Tree st.mem) : FsRuns checkBitmap st () st := by
  have hload := loadWord_runs (a := sNblocksAt) ht.layout.readable_super
  have htwo := two_le_firstData (inodes st.mem)
  have hbody : ∀ i, i < (nblocksIn st.mem + blkbitsize - 1) / blkbitsize → ∀ g, g = st →
      ∃ g', FsRuns (assertUsed (2 + i)) g () g' ∧ g' = st := by
    rintro i hi g rfl
    exact ⟨g, assertUsed_runs ht (Nat.add_lt_add_left hi 2), rfl⟩
  obtain ⟨g, hloop, hg⟩ :=
    Code.Runs.times (fun i => assertUsed (2 + i)) (fun _ g => g = st) rfl hbody
  subst hg
  exact .bind hload (.bind hloop (.bind (assertUsed_runs ht (by omega))
    (assertUsed_runs ht (by omega))))

theorem openAndRead_runs (h : Formatted args heap nb s) (hne : args ≠ []) (hc : Clean args heap)
    (hnamed : Named args) (hname : Component name) (hmem : st.mem = s.diskmap) :
    ∃ r st', FsRuns (openAndRead (slash :: name)) st r st' ∧ st'.mem = s.diskmap ∧
      Answer args name r := by
  have ht : Tree st.mem := hmem ▸ h.tree hne hc
  have hwalk := walkPath_runs ht.dirTree (slash :: name)
  rw [hmem, walkIn_component hname h.rootType] at hwalk
  by_cases hfile : ∃ (k : Nat) (arg : Arg), args[k]? = some arg ∧ arg.name = name
  · obtain ⟨k, arg, hk, rfl⟩ := hfile
    have hmem_f := h.entry_mem_files (List.getElem?_eq_some_iff.mp hk).1
    have hsize := h.fSize_entry hk
    have hlt := h.content_lt hk
    rw [h.lookup_file hnamed hk] at hwalk
    rw [← hmem] at hmem_f hsize
    have hfull : ∀ n < blocksBelow (fSize st.mem (entryOfArg args k)).toNat,
        held st.mem (entryOfArg args k) (some n) ≠ 0 := by
      intro n hn
      rw [hsize] at hn
      rw [hmem, h.held_data_entry hk hn]
      have hstart : 3 ≤ startOf args 3 k := le_startOf
      omega
    have hoff : (0 : Word).toNat = 0 := rfl
    obtain ⟨L, hread⟩ : ∃ L, FsRuns (fileRead (entryOfArg args k)
        (fSize st.mem (entryOfArg args k)) 0) st _ { st with moves := st.moves ++ L } :=
      fileRead_full ht.layout hmem_f (by decide) (by omega) hfull
    have hlen : readLen (fSize st.mem (entryOfArg args k)) (fSize st.mem (entryOfArg args k)) 0 =
        arg.content.length := by
      have hsmall := h.fSize_lt (hmem ▸ hmem_f)
      rw [← hmem] at hsmall
      unfold readLen
      rw [toInt_of_small hsmall, hsize]
      exact Nat.min_eq_left (by simp)
    have hbytes := h.bytesFrom_entry hk
    rw [← hmem] at hbytes
    rw [hlen, hoff, hbytes] at hread
    refine ⟨_, _, .bind (.bind hwalk (.pure _ _)) (.bind (fSize_runs ht.layout hmem_f)
      (.bind hread (.pure _ _))), hmem, fun arg' harg' heq => ?_,
      fun hother => absurd rfl (hother arg (mem_of_getElem? hk))⟩
    have hword : fSize st.mem (entryOfArg args k) = toWord arg.content.length := by
      rw [hmem]
      exact (h.entry k arg hk).size
    rw [hnamed.eq_of_name harg' (mem_of_getElem? hk) heq, hword]
  · have hother : ∀ arg ∈ args, arg.name ≠ name := by
      intro arg harg heq
      obtain ⟨k, hk⟩ := mem_iff_getElem?.mp harg
      exact hfile ⟨k, arg, hk, heq⟩
    rw [h.lookup_none hne hnamed hname hother] at hwalk
    exact ⟨_, st, .bind (.bind hwalk (.pure _ _)) (.pure _ _), hmem,
      fun arg harg heq => absurd heq (hother arg harg), fun _ => rfl⟩

theorem readFiles_runs (h : Formatted args heap nb s) (hne : args ≠ []) (hc : Clean args heap)
    (hnamed : Named args) (names : List (List Byte)) (hnames : ∀ name ∈ names, Component name)
    (hmem : st.mem = s.diskmap) :
    ∃ rs st', FsRuns (readFiles names) st rs st' ∧
      List.Forall₂ (Answer args) names rs := by
  induction names generalizing st with
  | nil => exact ⟨[], st, .pure _ _, .nil⟩
  | cons name names ih =>
    obtain ⟨r, st1, hrun, hmem1, hanswer⟩ :=
      openAndRead_runs h hne hc hnamed (hnames name mem_cons_self) hmem
    obtain ⟨rs, st2, hruns, hanswers⟩ :=
      ih (fun name hn => hnames name (mem_cons_of_mem _ hn)) hmem1
    exact ⟨r :: rs, st2, .bind hrun (.bind hruns (.pure _ _)), .cons hanswer hanswers⟩

/-- The image builder and the server agree: files that leave a block of the disk over get an image,
and the server accepts it, finds each file by name with all its bytes, and finds no other name. -/
theorem format_round_trip (hne : args ≠ []) (hlen : args.length ≤ maxDirEnts)
    (hnamed : Named args) (hsize : ∀ arg ∈ args, arg.content.length < maxfilesize)
    (hmax : nb.toNat ≤ 1024) (hheap : ∀ x, heap x = 0) :
    (usedBlocks args < nb.toNat → ∃ s, fsformat args (Fmt.start heap nb) = .ret () s) ∧
    ∀ s, fsformat args (Fmt.start heap nb) = .ret () s → ∀ names : List (List Byte),
      (∀ name ∈ names, Component name) → ∃ rs s', session names (Fs.start s.diskmap) = .ret rs s' ∧
        List.Forall₂ (Answer args) names rs := by
  constructor
  · intro hfits
    have hused : 3 ≤ usedBlocks args := three_le_usedBlocks
    have hacc : AllAccepted args 3 nb.toNat 0 := by
      refine ⟨fun arg harg => ?_, hsize, by omega, ?_⟩
      · have hlt := (hnamed.name arg harg).lt
        unfold maxnamelen at hlt
        unfold nameMax
        omega
      · exact Nat.lt_of_le_of_lt (Nat.le_add_right (dirStart args) _) hfits
    obtain ⟨s, hrun, -⟩ := fsformat_run heap (by omega) hmax hacc hfits
    exact ⟨s, hrun⟩
  · intro s hrun names hnames
    have h : Formatted args heap nb s := Formatted.of_ret hrun
    have hc : Clean args heap := ⟨fun arg harg => (hnamed.name arg harg).lt, hheap⟩
    have ht : Tree (Fs.start s.diskmap).seen.mem := h.tree hne hc
    have hmem : (Fs.start s.diskmap).seen.mem = s.diskmap := Fs.start_mem s.diskmap
    obtain ⟨rs, st', hread, hanswers⟩ := readFiles_runs h hne hc hnamed names hnames hmem
    have hsession : FsRuns (session names) (Fs.start s.diskmap).seen rs st' :=
      .bind (checkSuper_runs ht h.magic) (.bind (checkBitmap_runs ht) hread)
    obtain ⟨s', hret, -⟩ := hsession _ rfl
    exact ⟨rs, s', hret, hanswers⟩

/-- A file `hi` on a disk of six blocks, asked for together with a name that does not exist. -/
theorem format_round_trip_hi :
    ∃ s, fsformat [⟨[104, 105], [1, 2, 3, 4, 5]⟩] (Fmt.start (fun _ => 0) 6) = .ret () s ∧
      ∃ rs s', session [[104, 105], [104]] (Fs.start s.diskmap) = .ret rs s' ∧
        List.Forall₂ (Answer [⟨[104, 105], [1, 2, 3, 4, 5]⟩]) [[104, 105], [104]] rs := by
  have hname : ∀ name ∈ [[104, 105], [104]], Component name := by
    intro name hn
    obtain rfl | rfl : name = [104, 105] ∨ name = [104] := by simpa using hn
    · exact ⟨by decide, by decide, by decide, by decide⟩
    · exact ⟨by decide, by decide, by decide, by decide⟩
  have hnamed : Named [⟨[104, 105], [1, 2, 3, 4, 5]⟩] := by
    refine ⟨fun arg harg => ?_, by decide⟩
    rw [mem_singleton.mp harg]
    exact hname [104, 105] mem_cons_self
  have hmax : (6 : Word).toNat ≤ 1024 := by decide
  obtain ⟨hwrite, hread⟩ := format_round_trip (cons_ne_nil _ _) (by decide) hnamed
    (by decide) hmax fun _ => rfl
  obtain ⟨s, hrun⟩ := hwrite (by decide)
  exact ⟨s, hrun, hread s hrun _ hname⟩

end Jos
