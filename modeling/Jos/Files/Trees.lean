import Jos.Files.Create

/-!
# Runs of operations on a tree of directories

Reading, writing and setting the size of regular files, creating files and flushing them
keep a sound tree of directories sound.
-/

namespace Jos

open Logic

variable {m m' : Image} {s s' : Fs} {st st' st1 : Store} {f g d n : Nat}
  {name path : List Byte}

inductive TreeOp where
  | file (op : FileOp)
  | create (path : List Byte)
  | flush (f : Nat)

def TreeOp.run : TreeOp → FsM (Int × List Byte)
  | .file op => op.run
  | .create path => do
    match ← fileCreate path with
    | .ok _ => return (0, [])
    | .error r => return (r, [])
  | .flush f => do
    fileFlush f
    return (0, [])

/-- The operation is in range, there are enough free blocks, and a block that a directory
grows by holds zeros. -/
def TreeOp.Ok (m : Image) : TreeOp → Prop
  | .file op => op.InRange (files m) m
  | .create path => CreateOk m path
  | .flush f => f ∈ files m

theorem Tree.kept (h : Tree m) (hf : f ∈ files m) (hreg : fType m f ≠ ftypeDir)
    (hk : Kept (files m) f m m') (hw : WellFormed (files m) m') :
    files m' = files m ∧ Tree m' := by
  have hdir : ∀ d ∈ files m, fType m d = ftypeDir → d ≠ f := by
    rintro d _ hd rfl
    exact hreg hd
  have hheld : ∀ d ∈ files m, fType m d = ftypeDir → ∀ n < maxblocks,
      held m' d (some n) = held m d (some n) :=
    fun d hd hd' n hn => hk.held d hd (hdir d hd hd') (some n) hn
  have hfiles : files m' = files m := by
    ext g
    constructor
    · intro hg
      induction hg with
      | root => exact .root
      | @entry d n j _ htype hn h0 hj ih =>
        rw [hk.type d ih] at htype
        rw [hheld d ih htype n hn] at h0 ⊢
        exact .entry ih htype hn h0 hj
    · intro hg
      exact IsFile.congr hg fun d hd htype =>
        ⟨(hk.type d hd).trans htype, fun n hn _ => hheld d hd htype n hn⟩
  have hlen : ∀ d ∈ files m, fType m d = ftypeDir → dirLen m' d = dirLen m d := by
    intro d hd htype
    unfold dirLen
    rw [hk.size d hd (hdir d hd htype)]
  refine ⟨hfiles, ?_, (hk.type _ .root).trans h.root, fun d hd htype => ?_,
    fun d hd htype n hn => ?_⟩
  · rw [hfiles]
    exact hw
  · rw [hfiles] at hd
    have htype' := (hk.type d hd).symm.trans htype
    rw [hlen d hd htype', hk.size d hd (hdir d hd htype')]
    exact h.size d hd htype'
  · rw [hfiles] at hd
    have htype' := (hk.type d hd).symm.trans htype
    rw [hlen d hd htype'] at hn
    have hmax := (h.size d hd htype').2
    rw [hheld d hd htype' n (by omega)]
    exact h.full d hd htype' n hn

theorem Tree.resolve_found (h : Tree m) {cs : List (List Byte)} {dir dir' : Option Nat}
    (hf : f ∈ files m) (hw : resolve m cs dir f = .found dir' g) : g ∈ files m := by
  induction cs generalizing dir f with
  | nil =>
    cases hw
    exact hf
  | cons c cs ih =>
    unfold resolve at hw
    split at hw
    · cases hw
    · split at hw
      · cases hw
      · rename_i hdir
        have hd : fType m f = ftypeDir := not_not.mp hdir
        rcases lookupIn_cases m f c with ⟨i, hi, j, hj, h1, _⟩ | ⟨h1, _⟩
        · have hmax := (h.size f hf hd).2
          rw [h1] at hw
          exact ih (.entry hf hd (by omega) (h.full f hf hd i hi) hj) hw
        · rw [h1] at hw
          dsimp only at hw
          split at hw <;> cases hw

theorem Tree.walk_found {dir : Option Nat} (h : Tree m) (hw : walkIn m path = .found dir f) :
    f ∈ files m := h.resolve_found .root ((walkIn_eq_resolve m path).symm.trans hw)

theorem flush_runs {F : Set Nat} (h : LaidOut F st.mem) (hf : f ∈ F) :
    FsRuns (TreeOp.flush f).run st (0, []) (st.flushAll (flushList st.mem f)) :=
  .bind (fileFlush_runs h hf) (.pure _ _)

inductive TreeEffect (st st' : Store) : TreeOp → Int × List Byte → Prop where
  | file {op : FileOp} {r : Int × List Byte} (hop : op.InRange (files st.mem) st.mem)
      (h : FileEffect st st' op r) : TreeEffect st st' (.file op) r
  | refused {path : List Byte} {r : Int × List Byte} (h : st' = st) :
      TreeEffect st st' (.create path) r
  | created {path name : List Byte} {r : Int × List Byte} {d f : Nat} {st1 : Store}
      (h : FileCreated path d f name st st1 st') : TreeEffect st st' (.create path) r
  | flushed {f : Nat} {r : Int × List Byte} (hf : f ∈ files st.mem)
      (h : st' = st.flushAll (flushList st.mem f)) : TreeEffect st st' (.flush f) r

variable {op : TreeOp} {r : Int × List Byte}

theorem TreeOp.effect (h : Tree st.mem) (hok : op.Ok st.mem) :
    ∃ r st', FsRuns op.run st r st' ∧ TreeEffect st st' op r := by
  cases op with
  | file op =>
    obtain ⟨r, st', hrun, heffect⟩ := FileOp.effect h.toWellFormed hok
    exact ⟨r, st', hrun, .file hok heffect⟩
  | create path =>
    obtain ⟨r, st', hrun, ⟨⟨e, rfl⟩, heq⟩ | ⟨d, f, name, st1, rfl, hnew⟩⟩ := fileCreate_spec h hok
    · exact ⟨_, st', .bind hrun (.pure _ _), .refused heq⟩
    · exact ⟨_, st', .bind hrun (.pure _ _), .created hnew⟩
  | flush f => exact ⟨_, _, flush_runs h.layout hok, .flushed hok rfl⟩

theorem TreeOp.effect_of_ret (h : Tree s.mem) (hok : op.Ok s.mem) (hrun : op.run s = .ret r s') :
    TreeEffect s.seen s'.seen op r := by
  obtain ⟨r', st', hruns, heffect⟩ := TreeOp.effect (show Tree s.seen.mem from h) hok
  obtain ⟨rfl, rfl⟩ := hruns.eq_of_ret rfl hrun
  exact heffect

theorem TreeEffect.tree (h : TreeEffect st st' op r) (ht : Tree st.mem) : Tree st'.mem := by
  cases h with
  | file hop heffect =>
    have href := heffect.refines ht.toWellFormed represents_start hop
    exact (ht.kept hop.1 hop.2.1 href.kept href.wellFormed).2
  | refused heq => exact heq ▸ ht
  | created hnew => exact hnew.tree ht
  | flushed _ heq =>
    rw [heq, Store.flushAll_mem]
    exact ht

theorem TreeOp.run_tree (h : Tree s.mem) (hok : op.Ok s.mem) :
    ∃ r s', op.run s = .ret r s' ∧ Tree s'.mem := by
  obtain ⟨r, st', hrun, heffect⟩ := TreeOp.effect (show Tree s.seen.mem from h) hok
  obtain ⟨s', hret, rfl⟩ := hrun s rfl
  exact ⟨r, s', hret, heffect.tree h⟩

theorem mem_files_of_root {j : Nat} (hdir : fType m sRoot = ftypeDir)
    (hheld : held m sRoot (some 0) = 3) (hj : j < blkfiles) :
    3 * blksize + sizeofFile * j ∈ files m := by
  have hentry := IsFile.entry (m := m) (n := 0) .root hdir (by decide) (by rw [hheld]; decide) hj
  rw [hheld] at hentry
  exact hentry

theorem smallImage_files : files smallImage = smallFiles := by
  have hheld := smallImage_held (f := sRoot) (x := some 0) (Or.inl rfl)
  rw [if_pos ⟨rfl, rfl⟩] at hheld
  ext f
  constructor
  · intro hf
    induction hf with
    | root => exact Or.inl rfl
    | @entry d n j _ _ _ h0 hj ih =>
      rw [smallImage_held ih] at h0 ⊢
      split at h0
      · rename_i hc
        rw [if_pos hc]
        exact Or.inr ⟨j, hj, rfl⟩
      · exact absurd rfl h0
  · rintro (rfl | ⟨j, hj, rfl⟩)
    · exact .root
    · exact mem_files_of_root (by decide) hheld hj

theorem smallImage_tree : Tree smallFs.mem := by
  have hw := smallImage_wellFormed
  rw [← smallImage_files] at hw
  have honly : ∀ d ∈ files smallImage, fType smallImage d = ftypeDir → d = sRoot := by
    intro d hd hdir
    rw [smallImage_files] at hd
    rcases hd with rfl | ⟨j, hj, rfl⟩
    · rfl
    · have hzero : (fType smallImage (3 * blksize + sizeofFile * j)).toNat = 0 := by
        apply smallImage_word <;> unfold fTypeAt blksize sizeofFile <;> omega
      rw [hdir] at hzero
      cases hzero
  refine ⟨hw, by decide, fun d hd hdir => ?_, fun d hd hdir n hn => ?_⟩ <;>
    obtain rfl := honly d hd hdir
  · decide
  · have hlen : dirLen smallImage sRoot = 1 := by decide
    have hn0 : n = 0 := by
      rw [smallFs_mem, hlen] at hn
      omega
    rw [hn0, smallFs_mem, smallImage_held (Or.inl rfl), if_pos ⟨rfl, rfl⟩]
    decide

end Jos
