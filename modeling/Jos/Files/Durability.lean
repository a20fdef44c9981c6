import Jos.Files.Disk

/-!
# Flushed files are on the disk

Between operations the disk has the names and types of all files, the sizes and slots of all
directories and the mark of every block in use. A file that has just been flushed is there with its
size, slots and bytes, and a server that starts from the disk finds it.
-/

namespace Jos

open Logic Store Inodes List

variable {F N N' E E' : Set Nat} {m m' D : Image} {s s' s1 : Fs} {st st' st1 : Store}
  {f g d e b c n : Nat} {dir : Option Nat} {L : List Nat} {name path : List Byte}

/-- The disk has the names and types of the files `N`, and the sizes and slots of the
directories `E`. -/
structure Synced (N E : Set Nat) (m D : Image) : Prop where
  nblocks : nblocksIn D = nblocksIn m
  type : ∀ g ∈ N, fType D g = fType m g
  names : NamesKept N m D
  size : ∀ d ∈ E, fSize D d = fSize m d
  held : ∀ d ∈ E, ∀ x, ValidSlot x → held D d x = held m d x

/-- A block that is in use is marked in use on the disk. -/
def Marked (m D : Image) : Prop := ∀ b, freeIn D b = true → freeIn m b = true

theorem Synced.of_same (h : Synced N E m D) (hn : nblocksIn m' = nblocksIn m)
    (htype : ∀ g ∈ N, fType m' g = fType m g) (hnames : NamesKept N m m')
    (hsize : ∀ d ∈ E, fSize m' d = fSize m d)
    (hheld : ∀ d ∈ E, ∀ x, ValidSlot x → Jos.held m' d x = Jos.held m d x) : Synced N E m' D where
  nblocks := h.nblocks.trans hn.symm
  type g hg := (h.type g hg).trans (htype g hg).symm
  names g hg x hx hx' := (h.names g hg x hx hx').trans (hnames g hg x hx hx').symm
  size d hd := (h.size d hd).trans (hsize d hd).symm
  held d hd x hx := (h.held d hd x hx).trans (hheld d hd x hx).symm

theorem nblocksIn_onBlocks (h : nblocksIn D = nblocksIn m) :
    nblocksIn (onBlocks L m D) = nblocksIn m := by
  unfold nblocksIn
  rw [word_onBlocks (by decide)]
  split
  · rfl
  · exact h

/-- A field of a file that is in a block written, or that the disk has already. -/
theorem Shape.field_written {k : Nat} (h : Shape F (inodes m)) (hg : g ∈ F)
    (hk : k + 4 ≤ sizeofFile) (hD : g / blksize ∉ L → word D (g + k) = word m (g + k)) :
    word (onBlocks L m D) (g + k) = word m (g + k) := by
  rw [h.field_onBlocks hg hk]
  split
  · rfl
  · rename_i hL
    exact hD hL

/-- Blocks go to the disk. Afterwards it has the files in these blocks as well, and the
directories that are in them together with their indirect blocks. -/
theorem Synced.write (h : Synced N E m D) (hs : Shape F (inodes m)) (hNF : ∀ g ∈ N', g ∈ F)
    (hEF : ∀ d ∈ E', d ∈ F) (hN : ∀ g ∈ N', g ∈ N ∨ g / blksize ∈ L)
    (hE : ∀ d ∈ E', d ∈ E ∨ d / blksize ∈ L ∧ (Jos.held m d none ≠ 0 → Jos.held m d none ∈ L)) :
    Synced N' E' m (onBlocks L m D) := by
  have hold : ∀ d ∈ E', d / blksize ∉ L → d ∈ E := fun d hd hL =>
    (hE d hd).resolve_right fun hc => hL hc.1
  have hnone : ∀ d ∈ E', Jos.held (onBlocks L m D) d none = Jos.held m d none := by
    intro d hd
    refine congrArg BitVec.toNat (hs.field_written (k := 176) (hEF d hd) (by decide) fun hL => ?_)
    exact BitVec.eq_of_toNat_eq (h.held d (hold d hd hL) none trivial)
  refine ⟨?_, fun g hg => ?_, fun g hg x hx hx' => ?_, fun d hd => ?_, fun d hd x hx => ?_⟩
  · exact nblocksIn_onBlocks h.nblocks
  · exact hs.field_written (k := 132) (hNF g hg) (by decide) fun hL =>
      h.type g ((hN g hg).resolve_right hL)
  · by_cases hL : x / blksize ∈ L
    · exact onBlocks_of_mem hL
    · rw [onBlocks_of_notMem hL]
      have hblock : x / blksize = g / blksize := by
        have hin := (hs.inside (hNF g hg)).1
        unfold maxnamelen at hx'
        unfold blksize sizeofFile at *
        omega
      exact h.names g ((hN g hg).resolve_right (hblock ▸ hL)) x hx hx'
  · exact hs.field_written (k := 128) (hEF d hd) (by decide) fun hL => h.size d (hold d hd hL)
  · cases x with
    | none => exact hnone d hd
    | some n =>
      by_cases hn : n < ndirect
      · rw [held_direct hn, held_direct hn, fDirectAt_eq]
        refine congrArg BitVec.toNat (hs.field_written (hEF d hd) (direct_in_file hn) fun hL => ?_)
        have heq := h.held d (hold d hd hL) (some n) hx
        rw [held_direct hn, held_direct hn, fDirectAt_eq] at heq
        exact BitVec.eq_of_toNat_eq heq
      · have hge : ndirect ≤ n := Nat.le_of_not_lt hn
        by_cases h0 : Jos.held m d none = 0
        · rw [held_of_indirect_zero h0 hge, held_of_indirect_zero ((hnone d hd).trans h0) hge]
        · rw [held_entry hge h0, held_entry hge (hnone d hd ▸ h0), hnone d hd, entryOf_onBlocks hx]
          split
          · rfl
          · rename_i hL
            -- The indirect block was not written, so the disk had it before.
            have hd' := (hE d hd).resolve_right fun hc => hL (hc.2 h0)
            have heq := h.held d hd' none trivial
            have hentry := h.held d hd' (some n) hx
            rw [held_entry hge h0, held_entry hge (heq ▸ h0), heq] at hentry
            exact hentry

theorem freeIn_onBlocks (h : nblocksIn D = nblocksIn m) : freeIn (onBlocks L m D) b =
    if bitmapAt b / blksize ∈ L then freeIn m b else freeIn D b := by
  have hword : bitmapAt b % blksize + 4 ≤ blksize := by
    unfold bitmapAt bitmapAddr blksize
    omega
  unfold freeIn
  rw [nblocksIn_onBlocks h, word_onBlocks hword, h]
  split <;> rfl

theorem Marked.write (h : Marked m D) (hn : nblocksIn D = nblocksIn m) :
    Marked m (onBlocks L m D) := by
  intro b hb
  rw [freeIn_onBlocks hn] at hb
  split at hb
  · exact hb
  · exact h b hb

/-- The disk has the directories and the marks of the bitmap, and the blocks that are not
dirty. -/
structure Durable (N E : Set Nat) (st : Store) : Prop where
  coherent : Coherent st
  synced : Synced N E st.mem st.disk
  marked : Marked st.mem st.disk

theorem Durable.mono (h : Durable N E st) (hN : ∀ g ∈ N', g ∈ N) (hE : ∀ d ∈ E', d ∈ E) :
    Durable N' E' st where
  coherent := h.coherent
  synced := ⟨h.synced.nblocks, fun g hg => h.synced.type g (hN g hg),
    fun g hg => h.synced.names g (hN g hg), fun d hd => h.synced.size d (hE d hd),
    fun d hd => h.synced.held d (hE d hd)⟩
  marked := h.marked

theorem Durable.flushAll (h : Durable N E st) (hs : Shape F (inodes st.mem))
    (hNF : ∀ g ∈ N', g ∈ F) (hEF : ∀ d ∈ E', d ∈ F) (hN : ∀ g ∈ N', g ∈ N ∨ g / blksize ∈ L)
    (hE : ∀ d ∈ E', d ∈ E ∨ d / blksize ∈ L ∧ (held st.mem d none ≠ 0 → held st.mem d none ∈ L)) :
    Durable N' E' (st.flushAll L) := by
  refine ⟨h.coherent.flushAll L, ?_, ?_⟩ <;> rw [h.coherent.flushAll_disk, flushAll_mem]
  · exact h.synced.write hs hNF hEF hN hE
  · exact h.marked.write h.synced.nblocks

theorem Layout.kept_take (h : LaidOut F st.mem) (hb : freeIn st.mem b = true) :
    (inodes (st.take b).mem).Agree F ((inodes st.mem).setFree b false) ∧
      NamesKept F st.mem (st.take b).mem := by
  rw [take_mem]
  exact ⟨h.toShape.agree_markUsed (h.lt_nblocks hb), h.toShape.names_bitmap (h.lt_nblocks hb)⟩

theorem Inodes.free_of_setFree {I : Inodes} (hc : I.free c = true) :
    (I.setFree b true).free c = true := by
  rw [setFree_free]
  split
  · rfl
  · exact hc

section Move

variable (hNF : ∀ g ∈ N, g ∈ F) (hEF : ∀ d ∈ E, d ∈ F)

include hNF hEF

theorem Durable.take (h : Durable N E st) (hl : LaidOut F st.mem)
    (hb : freeIn st.mem b = true) : Durable N E (st.take b) := by
  obtain ⟨hA, hnames⟩ := hl.kept_take hb
  have hdisk : (st.take b).disk = onBlocks [bitmapAt b / blksize] (st.take b).mem st.disk := by
    unfold Store.take
    rw [h.coherent.setWord.flush_disk, flush_mem]
    rfl
  have hsynced : Synced N E (st.take b).mem st.disk :=
    h.synced.of_same hA.nblocks (fun g hg => hA.type g (hNF g hg))
      (fun g hg => hnames g (hNF g hg)) (fun d hd => hA.size d (hEF d hd))
      fun d hd => hA.held d (hEF d hd)
  refine ⟨h.coherent.setWord.flush, ?_, fun c hc => ?_⟩
  · rw [hdisk]
    exact hsynced.write ((hl.toShape.setFree b false).agree hA) hNF hEF (fun _ hg => .inl hg)
      fun _ hd => .inl hd
  · rw [hdisk, freeIn_onBlocks hsynced.nblocks] at hc
    split at hc
    · exact hc
    · rename_i hL
      have hcb : c ≠ b := by
        rintro rfl
        exact hL (mem_singleton_self _)
      have hfree : freeIn (st.take b).mem c = freeIn st.mem c := by
        refine (hA.free c).trans ?_
        rw [setFree_free, if_neg hcb]
        rfl
      rw [hfree]
      exact h.marked c hc

theorem Durable.move (h : Durable N E st) (hl : LaidOut F st.mem) (hf : f ∈ F)
    (hfE : f ∉ E) (hmove : Move f st st') : Durable N E st' := by
  have hk := hmove.kept hf hl
  have hnames := hmove.names hf hl
  have hne : ∀ d ∈ E, d ≠ f := by
    rintro d hd rfl
    exact hfE hd
  have hsynced : Synced N E st'.mem st.disk :=
    h.synced.of_same hk.nblocks (fun g hg => hk.type g (hNF g hg))
      (fun g hg => hnames g (hNF g hg)) (fun d hd => hk.size d (hEF d hd) (hne d hd))
      fun d hd => hk.held d (hEF d hd) (hne d hd)
  -- What the disk has after a block has been taken, it has after the rest of the move.
  have hrest : ∀ {b}, freeIn st.mem b = true → Synced N E st'.mem (st.take b).disk := by
    intro b hb
    obtain ⟨hA, hn⟩ := hl.kept_take hb
    refine (h.take hNF hEF hl hb).synced.of_same (hk.nblocks.trans hA.nblocks.symm)
      (fun g hg => (hk.type g (hNF g hg)).trans (hA.type g (hNF g hg)).symm)
      (fun g hg x hx hx' => (hnames g (hNF g hg) x hx hx').trans (hn g (hNF g hg) x hx hx').symm)
      (fun d hd => (hk.size d (hEF d hd) (hne d hd)).trans (hA.size d (hEF d hd)).symm)
      fun d hd y hy => (hk.held d (hEF d hd) (hne d hd) y hy).trans (hA.held d (hEF d hd) y hy).symm
  have hmarked : ∀ {b}, freeIn st.mem b = true →
      (∀ c, freeIn st'.mem c = ((inodes st.mem).setFree b false).free c) →
      Marked st'.mem (st.take b).disk := by
    intro b hb hfree c hc
    rw [hfree, ← (hl.kept_take hb).1.free c]
    exact (h.take hNF hEF hl hb).marked c hc
  have hgiven : (∀ c, freeIn st.mem c = true → freeIn st'.mem c = true) →
      Marked st'.mem st.disk := fun hfree c hc => hfree c (h.marked c hc)
  refine ⟨h.coherent.move hmove, ?_, ?_⟩
  · cases hmove with
    | grow hgrow =>
      cases hgrow with
      | data hn h0 hdir ha hlen => exact hsynced
      | own hn hi h0 hb => exact hrest hb
      | @ownIndirect b h0 hb =>
        rw [ownIndirect_disk h.coherent]
        have hmove : Move f st (st.ownIndirect f b) := .grow (.ownIndirect h0 hb)
        exact (hrest hb).write (hmove.layout hf hl).toShape hNF hEF (fun _ hg => .inl hg)
          fun _ hd => .inl hd
      | size v => exact hsynced
      | flush b =>
        rw [h.coherent.flush_disk]
        rw [flush_mem] at hsynced ⊢
        exact hsynced.write hl.toShape hNF hEF (fun _ hg => .inl hg) fun _ hd => .inl hd
      | record i n => exact hsynced
    | drop hn hdir h0 => exact hsynced
    | dropIndirect hdir h0 hclear => exact hsynced
  · cases hmove with
    | grow hgrow =>
      cases hgrow with
      | data hn h0 hdir ha hlen =>
        have hplain := hl.toShape.plain_of_data hf hn hdir h0
        exact hgiven fun c hc => ((hl.toShape.agree_write hplain ha hlen).free c).trans hc
      | own hn hi h0 hb =>
        refine hmarked hb fun c => ?_
        rw [own_mem]
        exact (hl.agree_own hf hn hi hb).free c
      | ownIndirect h0 hb =>
        rw [ownIndirect_disk h.coherent]
        refine Marked.write (hmarked hb fun c => ?_) (hrest hb).nblocks
        rw [ownIndirect_mem]
        exact (hl.agree_ownIndirect hf h0 hb).free c
      | size v => exact hgiven fun c hc => ((hl.toShape.agree_size hf).free c).trans hc
      | flush b =>
        rw [h.coherent.flush_disk, flush_mem]
        exact h.marked.write h.synced.nblocks
      | record i n => exact h.marked
    | drop hn hdir h0 =>
      refine hgiven fun c hc => ((hl.agree_drop hf hn h0).free c).trans ?_
      exact free_of_setFree hc
    | dropIndirect hdir h0 hclear =>
      refine hgiven fun c hc => ((hl.agree_dropIndirect hf h0 hclear).free c).trans ?_
      exact free_of_setFree hc

theorem Durable.moves (h : Durable N E st) (hl : LaidOut F st.mem) (hf : f ∈ F)
    (hfE : f ∉ E) (hmoves : Moves f st st') : Durable N E st' := by
  induction hmoves with
  | refl => exact h
  | tail hpath hmove ih => exact ih.move hNF hEF (Moves.layout hf hpath hl) hf hfE hmove

end Move

theorem flushList_home : f / blksize ∈ flushList m f := by
  unfold flushList
  simp

theorem flushList_indirect (h0 : held m f none ≠ 0) : held m f none ∈ flushList m f := by
  unfold flushList
  simp [h0]

theorem Tight.flushList_held (h : Tight F m) (hf : f ∈ F)
    (hsmall : (fSize m f).toNat + (blksize - 1) < 2 ^ 31) (hn : n < maxblocks)
    (h0 : held m f (some n) ≠ 0) : held m f (some n) ∈ flushList m f := by
  have hlt := lt_blocksOf hn (h f hf n hn h0)
  have hlt' : n < (blocksOf (fSize m f)).toInt.toNat := by
    have hle : (blocksOf (fSize m f)).toNat < 2 ^ 31 := by
      rw [blocksOf_of_small hsmall]
      unfold blocksBelow blksize at *
      omega
    rw [toInt_of_small hle]
    exact hlt
  unfold flushList presentBlocks
  simp only [mem_append, mem_filter, mem_map, mem_range]
  exact .inl (.inl ⟨⟨n, by omega, rfl⟩, by simpa using h0⟩)

theorem Grown.new_file (h : Grown d f st st') (ht : Tree st.mem) (hd : d ∈ dirs st.mem)
    (hg : g ∈ files st'.mem) (hnot : g ∉ files st.mem) :
    ∃ n < maxblocks, held st'.mem d (some n) ≠ 0 ∧ g / blksize = held st'.mem d (some n) := by
  have hkept := h.moves.kept hd.1 ht.layout
  cases hg with
  | root => exact absurd .root hnot
  | @entry e n j he hdir hn h0 hj =>
    have he' : e ∈ files st.mem := by
      by_contra hc
      exact (h.fresh e he hc).1 hdir
    by_cases hed : e = d
    · subst hed
      exact ⟨n, hn, h0, (entryAt_facts hj).1⟩
    · rw [hkept.held e he' hed (some n) hn] at h0 hnot
      exact absurd (.entry he' ((hkept.type e he').symm.trans hdir) hn h0 hj) hnot

theorem FileCreated.durable (h : FileCreated path d f name st st1 st') (ht : Tree st.mem)
    (hd : Durable (Jos.files st.mem) (dirs st.mem) st) :
    Durable (Jos.files st'.mem) (dirs st'.mem) st' := by
  have hgrown := h.grown
  have hf := hgrown.mem_files ht h.dir
  have hA := hgrown.tree.agree_named hf h.name_lt
  have hnames := hgrown.tree.names_named hf h.name_lt
  have hkept := hgrown.moves.kept h.dir.1 ht.layout
  -- While the directory grows, the disk keeps up with the other directories.
  have hd1 : Durable (Jos.files st.mem) (fun e => e ∈ dirs st.mem ∧ e ≠ d) st1 :=
    (hd.mono (fun _ hg => hg) fun _ he => he.1).moves (fun _ hg => hg) (fun _ he => he.1.1)
      ht.layout h.dir.1 (fun hc => hc.2 rfl) hgrown.moves
  have hd2 : Durable (fun g => g ∈ Jos.files st.mem ∧ g ≠ f) (fun e => e ∈ dirs st.mem ∧ e ≠ d)
      (st1.named f name) := by
    refine ⟨hd1.coherent.set, ?_, fun c hc => (hA.free c).trans (hd1.marked c hc)⟩
    refine (hd1.mono (fun _ hg => hg.1) fun _ he => he).synced.of_same hA.nblocks
      (fun g hg => hA.type g (hgrown.sub g hg.1)) (fun g hg => hnames g ⟨hgrown.sub g hg.1, hg.2⟩)
      (fun e he => hA.size e (hgrown.sub e he.1.1)) fun e he => hA.held e (hgrown.sub e he.1.1)
  have htree : Tree (st1.named f name).mem := hgrown.tree.agree hA
  have hmem := files_eq_of_agree hA
  have hdir : d ∈ dirs (st1.named f name).mem := by
    have hsub := hgrown.sub d h.dir.1
    exact ⟨hmem ▸ hsub, (hA.type d hsub).trans ((hkept.type d h.dir.1).trans h.dir.2)⟩
  have hblock : ∀ n < maxblocks, held st1.mem d (some n) ≠ 0 →
      held st1.mem d (some n) ∈ flushList (st1.named f name).mem d := by
    intro n hn h0
    have hsize := htree.size d hdir.1 hdir.2
    have heq : held (st1.named f name).mem d (some n) = held st1.mem d (some n) :=
      hA.held d (hgrown.sub d h.dir.1) (some n) hn
    rw [← heq] at h0 ⊢
    refine htree.tight.flushList_held hdir.1 ?_ hn h0
    unfold maxblocks ndirect nindirect blksize at *
    omega
  rw [h.last, flushAll_mem]
  refine hd2.flushAll htree.layout.toShape (fun _ hg => hg) (fun _ he => he.1) ?_ ?_
  · intro g hg
    rw [hmem] at hg
    by_cases hgf : g = f
    · obtain ⟨n, hn, j, hj, heq⟩ := hgrown.entry
      have htype := (hkept.type d h.dir.1).trans h.dir.2
      have hsub := hgrown.sub d h.dir.1
      have hmax := (hgrown.tree.size d hsub htype).2
      have hhome : g / blksize = held st1.mem d (some n) := by
        rw [hgf, heq]
        exact (entryAt_facts hj).1
      rw [hhome]
      exact .inr (hblock n (by omega) (hgrown.tree.full d hsub htype n hn))
    · by_cases hold : g ∈ Jos.files st.mem
      · exact .inl ⟨hold, hgf⟩
      · obtain ⟨n, hn, h0, heq⟩ := hgrown.new_file ht h.dir hg hold
        rw [heq]
        exact .inr (hblock n hn h0)
  · intro e he
    by_cases hed : e = d
    · rw [hed]
      exact .inr ⟨flushList_home, flushList_indirect⟩
    · have he1 : e ∈ Jos.files st1.mem := hmem ▸ he.1
      have htype : fType st1.mem e = ftypeDir := (hA.type e he1).symm.trans he.2
      have hold : e ∈ Jos.files st.mem := by
        by_contra hc
        exact (hgrown.fresh e he1 hc).1 htype
      exact .inl ⟨⟨hold, (hkept.type e hold).symm.trans htype⟩, hed⟩

theorem TreeOp.durable {op : TreeOp} {r : Int × List Byte} (ht : Tree s.mem)
    (h : Durable (files s.mem) (dirs s.mem) s.seen) (hok : op.Ok s.mem)
    (hrun : op.run s = .ret r s') : Durable (files s'.mem) (dirs s'.mem) s'.seen := by
  have hl := ht.layout
  cases TreeOp.effect_of_ret ht hok hrun with
  | file hop heffect =>
    obtain ⟨hf, hreg, -⟩ := hop
    have hmoves := heffect.moves
    have hkept := hmoves.kept hf hl
    have hfiles : files s'.mem = files s.mem := files_eq_of_same hkept.type fun d hd hdir n hn =>
        hkept.held d hd (fun hc => hreg (hc ▸ hdir)) (some n) hn
    refine (h.moves (fun _ hg => hg) (fun _ hd => hd.1) hl hf (fun hc => hreg hc.2)
      hmoves).mono (fun g hg => hfiles ▸ hg) fun d hd => ?_
    have hd' : d ∈ files s.mem := hfiles ▸ hd.1
    exact ⟨hd', (hkept.type d hd').symm.trans hd.2⟩
  | refused heq =>
    have hmem : s'.mem = s.mem := congrArg Store.mem heq
    rw [heq, hmem]
    exact h
  | created hnew => exact hnew.durable ht h
  | flushed _ heq =>
    have hmem : s'.mem = s.mem := (congrArg Store.mem heq).trans (flushAll_mem ..)
    rw [heq, hmem]
    exact h.flushAll hl.toShape (fun _ hg => hg) (fun _ hd => hd.1)
      (fun _ hg => .inl hg) fun _ hd => .inl hd

section

variable (h : Synced (files m) (dirs m) m D)

include h

theorem Synced.dirTree (hm : Marked m D) (ht : Tree m) : DirTree (dirs m) D := by
  have hdt := ht.dirTree
  have hl := hdt.layout
  have hA : (inodes D).Agree (dirs m) { inodes m with free := freeIn D } :=
    ⟨h.nblocks, fun _ => rfl, h.size, fun d hd => h.type d hd.1, h.held⟩
  have hshape : Shape (dirs m) { inodes m with free := freeIn D } :=
    ⟨hl.fits, hl.reserved_le, hl.range, hl.distinct, hl.placed⟩
  have hfirst := hA.firstData
  have hused : ∀ b, freeIn m b = false → freeIn D b = false := by
    intro b hb
    by_contra hc
    rw [hm b (by simpa using hc)] at hb
    cases hb
  have hlen : ∀ d ∈ dirs m, dirLen D d = dirLen m d := by
    intro d hd
    unfold dirLen
    rw [h.size d hd]
  have hslot : ∀ d ∈ dirs m, ∀ n < dirLen D d, n < dirLen m d ∧
      Jos.held D d (some n) = Jos.held m d (some n) := by
    intro d hd n hn
    rw [hlen d hd] at hn
    have hmax := (hdt.size d hd).2
    exact ⟨hn, h.held d hd (some n) (show n < maxblocks by omega)⟩
  refine ⟨⟨hshape.agree hA, fun b hb => ?_, fun b hb => ?_, fun d hd x hx h0 => ?_⟩, hdt.root,
    fun d hd => (h.type d hd.1).trans hd.2, fun d hd => ?_, fun d hd n hn => ?_,
    fun d hd n hn j hj hdir => ?_⟩
  · have hlt : b < nblocksIn m := hl.free_lt b (hm b hb)
    exact hlt.trans_eq h.nblocks.symm
  · exact hused b (hl.reserved b (hfirst ▸ hb))
  · have heq : (inodes D).held d x = Jos.held m d x := h.held d hd x hx
    rw [heq] at h0 ⊢
    exact hused _ (hl.used d hd x hx h0)
  · rw [hlen d hd, h.size d hd]
    exact hdt.size d hd
  · obtain ⟨hn', heq⟩ := hslot d hd n hn
    rw [heq]
    exact hdt.full d hd n hn'
  · obtain ⟨hn', heq⟩ := hslot d hd n hn
    have hmax := (hdt.size d hd).2
    rw [heq] at hdir ⊢
    have hfile : entryAt (Jos.held m d (some n)) j ∈ files m :=
      .entry hd.1 hd.2 (by omega) (hdt.full d hd n hn') hj
    rw [h.type _ hfile] at hdir
    exact ⟨hfile, hdir⟩

theorem Synced.lookupIn (ht : Tree m) (hd : d ∈ dirs m)
    (hname : name.length < maxnamelen) : Jos.lookupIn D d name = Jos.lookupIn m d name := by
  have hlen : dirLen D d = dirLen m d := by
    unfold dirLen
    rw [h.size d hd]
  have hmax := (ht.size d hd.1 hd.2).2
  unfold Jos.lookupIn
  rw [hlen]
  refine firstInDir_congr _ (fun i _ hi => h.held d hd (some i) (show i < _ by omega))
    fun i _ hi j hj => nameEq_congr fun k hk => ?_
  have hfile : entryAt (Jos.held m d (some i)) j ∈ files m :=
    .entry hd.1 hd.2 (by omega) (ht.full d hd.1 hd.2 i (by omega)) hj
  exact h.names _ hfile _ (Nat.le_add_right _ _) (by omega)

theorem Synced.resolve (ht : Tree m) (cs : List (List Byte))
    (dir : Option Nat) (hf : f ∈ files m) : Jos.resolve D cs dir f = Jos.resolve m cs dir f := by
  induction cs generalizing dir f with
  | nil => rfl
  | cons c cs ih =>
    unfold Jos.resolve
    rw [h.type f hf]
    split
    · rfl
    · rename_i hlong
      split
      · rfl
      · rename_i hdir
        have hd : f ∈ dirs m := ⟨hf, not_not.mp hdir⟩
        rw [h.lookupIn ht hd (Nat.lt_of_not_le hlong)]
        rcases lookupIn_cases m f c with ⟨i, hi, j, hj, h1, _⟩ | ⟨h1, _⟩
        · have hmax := (ht.size f hf hd.2).2
          rw [h1]
          exact ih _ (.entry hf hd.2 (by omega) (ht.full f hf hd.2 i hi) hj)
        · rw [h1]

end

/-- The part of a flushed file that is on the disk: its size, its slots and its bytes. -/
theorem Durable.flushed (h : Durable N E st) (hl : LaidOut F st.mem)
    (ht : Tight F st.mem) (hf : f ∈ F)
    (hsmall : (fSize st.mem f).toNat + (blksize - 1) < 2 ^ 31) :
    fSize (st.flushAll (flushList st.mem f)).disk f = fSize st.mem f ∧
      (∀ x, ValidSlot x → held (st.flushAll (flushList st.mem f)).disk f x = held st.mem f x) ∧
      ∀ p < maxfilesize,
        fileByte (st.flushAll (flushList st.mem f)).disk f p = fileByte st.mem f p := by
  have hsynced : Synced ∅ {f} st.mem (onBlocks (flushList st.mem f) st.mem st.disk) :=
    h.synced.write hl.toShape (fun _ hg => hg.elim) (fun d hd => hd ▸ hf) (fun _ hg => hg.elim)
      fun d hd => .inr (hd ▸ ⟨flushList_home, flushList_indirect⟩)
  rw [h.coherent.flushAll_disk]
  refine ⟨hsynced.size f rfl, hsynced.held f rfl, fun p hp => ?_⟩
  have hn := div_lt_maxblocks hp
  unfold fileByte
  rw [hsynced.held f rfl (some (p / blksize)) hn]
  split
  · rfl
  · rename_i h0
    have hblock : (held st.mem f (some (p / blksize)) * blksize + p % blksize) / blksize =
        held st.mem f (some (p / blksize)) := by
      unfold blksize
      omega
    rw [onBlocks_of_mem]
    rw [hblock]
    exact ht.flushList_held hf hsmall hn h0

def TreeStep (s s' : Fs) : Prop := ∃ op : TreeOp, op.Ok s.mem ∧ ∃ r, op.run s = .ret r s'

theorem TreeStep.durable (hstep : TreeStep s s')
    (h : Tree s.mem ∧ Durable (files s.mem) (dirs s.mem) s.seen) :
    Tree s'.mem ∧ Durable (files s'.mem) (dirs s'.mem) s'.seen := by
  obtain ⟨op, hok, r, hrun⟩ := hstep
  obtain ⟨r', s'', hret, htree⟩ := TreeOp.run_tree h.1 hok
  rw [hrun] at hret
  cases hret
  exact ⟨htree, TreeOp.durable h.1 h.2 hok hrun⟩

theorem durable_start (m : Image) : Durable (files m) (dirs m) (Fs.start m).seen where
  coherent := Fs.start_coherent m
  synced := ⟨rfl, fun _ _ => rfl, .refl m, fun _ _ => rfl, fun _ _ _ _ => rfl⟩
  marked _ hb := hb

theorem treeRun_durable (h : Tree m) (hrun : Relation.ReflTransGen TreeStep (Fs.start m) s) :
    Tree s.mem ∧ Durable (files s.mem) (dirs s.mem) s.seen := by
  induction hrun with
  | refl => exact ⟨h, durable_start m⟩
  | tail _ hstep ih => exact hstep.durable ih

/-- A file that `file_flush` has just flushed: a server that has nothing but the disk finds it
by its path, with the same size and the same bytes, and its blocks are marked in use. -/
theorem flushed_durable (h : Tree m) (hrun : Relation.ReflTransGen TreeStep (Fs.start m) s)
    (hpath : walkPath path s = .ret (.found dir f) s1)
    (hsmall : (fSize s.mem f).toNat + (blksize - 1) < 2 ^ 31) :
    ∃ s', fileFlush f s = .ret () s' ∧
      ∃ s2, walkPath path (Fs.start s'.disk) = .ret (.found dir f) s2 ∧
        fSize s2.mem f = fSize s'.mem f ∧
        (∀ p < maxfilesize, fileByte s2.mem f p = fileByte s'.mem f p) ∧
        ∀ x, ValidSlot x → held s2.mem f x ≠ 0 → freeIn s2.mem (held s2.mem f x) = false := by
  obtain ⟨ht, hd⟩ := treeRun_durable h hrun
  have hseen : Tree s.seen.mem := ht
  have hwalk : .found dir f = walkIn s.mem path :=
    ((walkPath_runs hseen.dirTree path).eq_of_ret rfl hpath).1
  have hf : f ∈ files s.mem := ht.walk_found hwalk.symm
  obtain ⟨s', hret, heq⟩ := fileFlush_runs hseen.layout hf s rfl
  have hmem : s'.mem = s.mem := by
    have := congrArg Store.mem heq
    rw [flushAll_mem] at this
    exact this
  have hdisk : s'.disk = (s.seen.flushAll (flushList s.seen.mem f)).disk := congrArg Store.disk heq
  have hd' : Durable (files s.mem) (dirs s.mem) (s.seen.flushAll (flushList s.seen.mem f)) :=
    hd.flushAll hseen.layout.toShape (fun _ hg => hg) (fun _ he => he.1) (fun _ hg => .inl hg)
      fun _ he => .inl he
  have hsynced : Synced (files s.mem) (dirs s.mem) s.mem s'.disk := by
    have := hd'.synced
    rw [flushAll_mem, ← hdisk] at this
    exact this
  have hmarked : Marked s.mem s'.disk := by
    have := hd'.marked
    rw [flushAll_mem, ← hdisk] at this
    exact this
  obtain ⟨hsize, hheld, hbytes⟩ := hd.flushed hseen.layout hseen.tight hf hsmall
  rw [← hdisk] at hsize hheld hbytes
  -- The same walk on the disk.
  have hstart := hsynced.dirTree hmarked ht
  obtain ⟨s2, hret2, heq2⟩ := walkPath_runs hstart path (Fs.start s'.disk) rfl
  have hmem2 : s2.mem = s'.disk := congrArg Store.mem heq2
  have hfound : walkIn (Fs.start s'.disk).seen.mem path = .found dir f := by
    rw [hwalk, walkIn_eq_resolve, walkIn_eq_resolve]
    exact hsynced.resolve ht _ none .root
  rw [hfound] at hret2
  refine ⟨s', hret, s2, hret2, ?_, fun p hp => ?_, fun x hx h0 => ?_⟩
  · rw [hmem2, hmem]
    exact hsize
  · rw [hmem2, hmem]
    exact hbytes p hp
  · rw [hmem2] at h0 ⊢
    rw [hheld x hx] at h0 ⊢
    by_contra hfree
    have hused : freeIn s.mem (held s.mem f x) = false := ht.layout.used f hf x hx h0
    rw [Bool.not_eq_false] at hfree
    exact Bool.false_ne_true (hused.symm.trans (hmarked _ hfree))

@[irreducible] def xCreated : Fs :=
  ((TreeOp.create [slash, 120]).run (Fs.start smallImage)).after (Fs.start smallImage)

/-- The first byte of the new file is written. -/
def writeX : TreeOp := .file (.write (3 * blksize) (fun _ => 7) 1 0)

@[irreducible] def xWritten : Fs := (writeX.run xCreated).after xCreated

theorem xCreated_step : TreeStep (Fs.start smallImage) xCreated := by
  have hwalk : walkIn smallImage [slash, 120] = .missing sRoot [120] := by decide +kernel
  have hfree : freeEntry smallImage sRoot ≠ none := by decide +kernel
  have hret : ((TreeOp.create [slash, 120]).run (Fs.start smallImage)).returns fun _ => true := by
    decide +kernel
  obtain ⟨r, hrun, -⟩ := Outcome.ret_of_returns hret (Fs.start smallImage)
  refine ⟨.create [slash, 120], fun d name hw hnone => ?_, r, by unfold xCreated; exact hrun⟩
  cases hwalk.symm.trans hw
  exact absurd hnone hfree

theorem xWritten_run : Relation.ReflTransGen TreeStep (Fs.start smallImage) xWritten := by
  have hmem : 3 * blksize ∈ files xCreated.mem :=
    mem_files_of_root (j := 0) (by decide +kernel) (by decide +kernel) (by decide)
  have hroom : Room xCreated.mem (3 * blksize) 0 (0 + 1) := by
    unfold Room
    decide +kernel
  have hret : (writeX.run xCreated).returns fun _ => true := by decide +kernel
  obtain ⟨r, hrun, -⟩ := Outcome.ret_of_returns hret xCreated
  have hok : writeX.Ok xCreated.mem := ⟨hmem, by decide +kernel, by decide, hroom⟩
  exact (Relation.ReflTransGen.single xCreated_step).tail
    ⟨writeX, hok, r, by unfold xWritten; exact hrun⟩

/-- A file is created, written and flushed. -/
theorem flushed_durable_created : ∃ s', fileFlush (3 * blksize) xWritten = .ret () s' ∧
    ∃ s2, walkPath [slash, 120] (Fs.start s'.disk) = .ret (.found (some sRoot) (3 * blksize)) s2 ∧
      fSize s2.mem (3 * blksize) = fSize s'.mem (3 * blksize) ∧
      fileByte s2.mem (3 * blksize) 0 = fileByte s'.mem (3 * blksize) 0 := by
  have htree : Tree smallImage := smallImage_tree
  have hpath : walkPath [slash, 120] xWritten = .ret (.found (some sRoot) (3 * blksize)) _ :=
    Outcome.eq_ret xWritten (by decide +kernel)
  obtain ⟨s', hflush, s2, hret2, hsize, hbytes, -⟩ :=
    flushed_durable htree xWritten_run hpath (by decide +kernel)
  exact ⟨s', hflush, s2, hret2, hsize, hbytes 0 (by decide)⟩

/-- The small image with a name in every entry of the root. -/
def fullImage : Image := fun a =>
  if 12288 ≤ a ∧ a < 16384 ∧ a % 256 = 0 then 97 else smallImage a

theorem fullImage_word {a : Nat} (ha : a % 4 = 0) (h : a % 256 ≠ 0 ∨ a < 12288) :
    word fullImage a = word smallImage a :=
  word_congr fun i hi => if_neg (by omega)

theorem fullImage_tree : Tree fullImage := by
  have htree : Tree smallImage := smallImage_tree
  have hfield : ∀ f ∈ smallFiles, ∀ k, k % 4 = 0 → 128 ≤ k → k < 256 →
      word fullImage (f + k) = word smallImage (f + k) := by
    rintro f (rfl | ⟨j, hj, rfl⟩) k hk h1 h2
    · apply fullImage_word <;> unfold sRoot superAddr blksize <;> omega
    · apply fullImage_word <;> unfold blksize sizeofFile <;> omega
  have hnblocks : nblocksIn fullImage = nblocksIn smallImage :=
    congrArg BitVec.toNat (fullImage_word (by decide) (.inr (by decide)))
  have hn : nblocksIn smallImage = 8 := by decide
  refine htree.agree ?_
  rw [smallImage_files]
  refine ⟨hnblocks, fun b => ?_, fun f hf => hfield f hf 128 (by decide) (by decide) (by decide),
    fun f hf => hfield f hf 132 (by decide) (by decide) (by decide), fun f hf x hx => ?_⟩
  · show freeIn fullImage b = freeIn smallImage b
    by_cases hb : b < 8
    · unfold freeIn
      rw [hnblocks, fullImage_word] <;> unfold bitmapAt bitmapAddr blksize <;> omega
    · unfold freeIn
      rw [hnblocks, hn, decide_eq_false hb]
      rfl
  · show held fullImage f x = held smallImage f x
    have hind : fIndirect fullImage f = fIndirect smallImage f :=
      congrArg BitVec.toNat (hfield f hf 176 (by decide) (by decide) (by decide))
    cases x with
    | none => exact hind
    | some n =>
      have hzero : fIndirect smallImage f = 0 := by
        rw [← held_none, smallImage_held hf]
        simp
      rw [held_some, held_some, hind, if_pos hzero, if_pos hzero]
      split
      · rename_i hn
        rw [fDirectAt_eq, hfield f hf] <;> unfold ndirect at hn <;> omega
      · rfl

/-- 137 bytes are written to the first file, which is then truncated; a file is created, for which
the root has to grow, and flushed. -/
def growIntoUsed : FsM Unit := do
  let _ ← fileWrite (3 * blksize) (.bytes fun i => if i = 136 then 6 else 0) 137 0
  let _ ← fileSetSize (3 * blksize) 0
  let _ ← fileCreate [slash, 113]
  fileFlush (4 * blksize)

/-- The new file has what the first file had written as its own block, and that block is free. -/
theorem created_file_has_free_block : Tree fullImage ∧
    ∃ s', growIntoUsed (Fs.start fullImage) = .ret () s' ∧
      ∃ s2, walkPath [slash, 113] (Fs.start s'.disk) = .ret (.found (some sRoot) (4 * blksize)) s2 ∧
        held s2.mem (4 * blksize) (some 0) = 6 ∧ freeIn s2.mem 6 = true := by
  have hrun : growIntoUsed (Fs.start fullImage) = .ret () _ :=
    Outcome.eq_ret (Fs.start fullImage) (by decide +kernel)
  exact ⟨fullImage_tree, _, hrun, _, Outcome.eq_ret (Fs.start fullImage) (by decide +kernel),
    by decide +kernel, by decide +kernel⟩

end Jos
