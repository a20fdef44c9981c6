import Jos.Fs.Serv
import Jos.Files.Disk

/-!
# The request page

Which part of the request region the handlers access, and whether they report as many bytes as they
have copied. This holds of every request that is answered, in any state of the file system.
-/

namespace Jos

open Logic BitVec List

variable {s s' : Serv} {t t' : Fs} {f i j n k o : Nat} {count offset endPos pos : Word}
  {L : List (Nat × Nat)} {Q : Unit → Serv → Prop} {a : Nat} {base : Nat} {body : Nat → ServM Int}
  {r : Int}

theorem touch_keeps (b : Nat) : (touch b).Keeps Fs.seen := by
  refine ⟨fun t => wp_bind.mpr (wp_get.mpr (wp_ite.mpr ⟨fun hb => ?_, fun _ => ?_⟩))⟩
  · unfold bcPgfault
    rw [Nat.mul_div_cancel _ (by decide : 0 < blksize)]
    refine wp_ite.mpr ⟨fun _ => wp_panic, fun _ => wp_bind.mpr (wp_pure.mpr ?_)⟩
    refine wp_bind.mpr (wp_get.mpr (wp_ite.mpr ⟨fun _ => wp_panic, fun _ => ?_⟩))
    refine wp_bind.mpr (wp_modify.mpr (wp_ite.mpr ⟨fun _ => wp_panic, fun _ => ?_⟩))
    refine wp_bind.mpr (wp_pure.mpr (wp_bind.mpr (wp_pure.mpr (wp_bind.mpr (wp_get.mpr ?_)))))
    exact wp_ite.mpr ⟨fun _ => wp_panic, fun _ => wp_pure.mpr (t.load_seen hb)⟩
  · exact wp_pure.mpr rfl

theorem touchRange_keeps (a n : Nat) : (touchRange a n).Keeps Fs.seen :=
  .times fun _ => touch_keeps _

theorem loadWord_wp {Q : Word → Fs → Prop} (h : ∀ t', t'.seen = t.seen → Q (word t.mem a) t') :
    wp (loadWord a) Q (fun _ => True) t := by
  refine (touch_keeps _).seq fun _ t' ht' => wp_bind.mpr (wp_get.mpr ?_)
  rw [show t'.mem = t.mem from congrArg Store.mem ht']
  exact wp_pure.mpr (h t' ht')

theorem load8_wp {Q : Byte → Fs → Prop} (h : ∀ t', t'.seen = t.seen → Q (t.mem a) t') :
    wp (load8 a) Q (fun _ => True) t := by
  refine (touch_keeps _).seq fun _ t' ht' => wp_bind.mpr (wp_get.mpr ?_)
  rw [show t'.mem = t.mem from congrArg Store.mem ht']
  exact wp_pure.mpr (h t' ht')

theorem loadWord_keeps (a : Nat) : (loadWord a).Keeps Fs.moves :=
  ⟨fun _ => loadWord_wp fun _ h => congrArg Store.moves h⟩

theorem loadBytes_keeps (a n : Nat) : (loadBytes a n).Keeps Fs.moves :=
  ((touchRange_keeps a n).comp Store.moves).bind fun _ => .bind .get fun _ => .pure _

theorem storeBytes_keeps (a n : Nat) (w : Nat → Byte) : (storeBytes a n w).Keeps Fs.moves :=
  ((touchRange_keeps a n).comp Store.moves).bind fun _ => .modify fun _ => rfl

theorem storeWord_keeps (a : Nat) (w : Word) : (storeWord a w).Keeps Fs.moves :=
  ((touch_keeps _).comp Store.moves).bind fun _ => .modify fun _ => rfl

theorem diskaddr_keeps (b : Word) : (diskaddr b).Keeps Fs.moves :=
  (loadWord_keeps _).bind fun _ => .ite (.panic _) (.pure _)

theorem flushBlock_keeps (a : Nat) : (flushBlock a).Keeps Fs.moves :=
  .ite (.panic _) (.bind .get fun _ => .ite (.modify fun _ => rfl) (.pure _))

theorem blockIsFree_keeps (b : Nat) : (blockIsFree b).Keeps Fs.moves :=
  (loadWord_keeps _).bind fun _ => .ite (.pure _) ((loadWord_keeps _).bind fun _ => .pure _)

theorem allocFrom_keeps (rounds b : Nat) : (allocFrom rounds b).Keeps Fs.moves := by
  induction rounds generalizing b with
  | zero => exact .pure _
  | succ rounds ih =>
    refine (blockIsFree_keeps b).bind fun _ => .ite ?_ (ih _)
    exact (loadWord_keeps _).bind fun _ => (storeWord_keeps _ _).bind fun _ =>
      (flushBlock_keeps _).bind fun _ => .pure _

theorem allocBlock_keeps : allocBlock.Keeps Fs.moves :=
  (loadWord_keeps _).bind fun _ => allocFrom_keeps _ _

theorem freeBlock_keeps (b : Word) : (freeBlock b).Keeps Fs.moves :=
  .ite (.panic _) ((loadWord_keeps _).bind fun _ => storeWord_keeps _ _)

/-- The result is not an error, or a negative one. -/
def Negative (r : Except Int Nat) : Prop := ∀ e, r = .error e → e < 0

theorem negative_ok (b : Nat) : Negative (.ok b) := fun _ h => by cases h

theorem negative_error {e : Int} (he : e < 0) : Negative (.error e) := by
  intro e' h
  cases h
  exact he

theorem fileBlockWalk_wp (f : Nat) (filebno : Word) (alloc : Bool) (t : Fs) :
    wp (fileBlockWalk f filebno alloc) (fun r t' => Negative r ∧ t'.moves = t.moves)
      (fun _ => True) t := by
  have htail : ∀ t1 : Fs, t1.moves = t.moves → wp (do
      let ind ← diskaddr (← loadWord (fIndirectAt f))
      return .ok (ind + 4 * (filebno.toNat - ndirect)) : FsM (Except Int Nat))
      (fun r t' => Negative r ∧ t'.moves = t.moves) (fun _ => True) t1 := by
    intro t1 h1
    exact (loadWord_keeps _).seq fun _ t2 h2 => (diskaddr_keeps _).seq fun _ t3 h3 =>
      wp_pure.mpr ⟨negative_ok _, h3.trans (h2.trans h1)⟩
  unfold fileBlockWalk
  refine wp_ite.mpr ⟨fun _ => wp_pure.mpr ⟨negative_error (by decide), rfl⟩, fun _ => ?_⟩
  refine wp_ite.mpr ⟨fun _ => wp_pure.mpr ⟨negative_ok _, rfl⟩, fun _ => ?_⟩
  refine (loadWord_keeps _).seq fun _ t1 h1 => wp_ite.mpr ⟨fun _ => ?_, fun _ => htail t1 h1⟩
  refine wp_ite.mpr ⟨fun _ => wp_pure.mpr ⟨negative_error (by decide), h1⟩, fun _ => ?_⟩
  refine allocBlock_keeps.seq fun _ t2 h2 => wp_ite.mpr ⟨fun _ => ?_, fun _ => ?_⟩
  · exact wp_pure.mpr ⟨negative_error (by decide), h2.trans h1⟩
  · refine (diskaddr_keeps _).seq fun _ t3 h3 => (storeBytes_keeps _ _ _).seq fun _ t4 h4 => ?_
    refine (storeWord_keeps _ _).seq fun _ t5 h5 => (flushBlock_keeps _).seq fun _ t6 h6 => ?_
    exact htail t6 (h6.trans (h5.trans (h4.trans (h3.trans (h2.trans h1)))))

theorem fileGetBlock_wp {Q : Except Int Nat → Fs → Prop} (f : Nat) (filebno : Word)
    (h : ∀ r t', Negative r → t'.moves = t.moves → Q r t') :
    wp (fileGetBlock f filebno) Q (fun _ => True) t := by
  have htail : ∀ p (t1 : Fs), t1.moves = t.moves →
      wp (do return .ok (← diskaddr (← loadWord p)) : FsM (Except Int Nat)) Q (fun _ => True)
        t1 := by
    intro p t1 h1
    exact (loadWord_keeps _).seq fun _ t2 h2 => (diskaddr_keeps _).seq fun _ t3 h3 =>
      wp_pure.mpr (h _ t3 (negative_ok _) (h3.trans (h2.trans h1)))
  refine wp_bind.mpr (wp_imp (fileBlockWalk_wp f filebno true t) fun r t1 ⟨hr, h1⟩ => ?_)
  cases r with
  | error e => exact wp_pure.mpr (h _ t1 hr h1)
  | ok p =>
    refine (loadWord_keeps p).seq fun _ t2 h2 => wp_ite.mpr ⟨fun _ => ?_, fun _ => ?_⟩
    · refine allocBlock_keeps.seq fun _ t3 h3 => (storeWord_keeps _ _).seq fun _ t4 h4 => ?_
      exact htail p t4 (h4.trans (h3.trans (h2.trans h1)))
    · exact htail p t2 (h2.trans h1)

theorem fileFreeBlock_keeps (f : Nat) (filebno : Word) :
    (fileFreeBlock f filebno).Keeps Fs.moves := by
  refine .bind ⟨fun t => wp_imp (fileBlockWalk_wp f filebno false t) fun _ _ h => h.2⟩ fun r => ?_
  cases r with
  | error e => exact .pure _
  | ok p =>
    refine (loadWord_keeps p).bind fun _ => .ite ?_ (.pure _)
    exact (freeBlock_keeps _).bind fun _ => (storeWord_keeps _ _).bind fun _ => .pure _

theorem fileTruncateBlocks_keeps (f : Nat) (newsize : Word) :
    (fileTruncateBlocks f newsize).Keeps Fs.moves := by
  refine (loadWord_keeps _).bind fun _ => .bind (.times fun _ => ?_) fun _ => .ite ?_ (.pure _)
  · exact (fileFreeBlock_keeps f _).bind fun _ => .pure _
  · exact (loadWord_keeps _).bind fun _ =>
      .ite ((freeBlock_keeps _).bind fun _ => storeWord_keeps _ _) (.pure _)

theorem fileSetSize_keeps (f : Nat) (newsize : Word) : (fileSetSize f newsize).Keeps Fs.moves := by
  have htail : (do
      storeWord (fSizeAt f) newsize
      flushBlock f
      return 0 : FsM Int).Keeps Fs.moves :=
    (storeWord_keeps _ _).bind fun _ => (flushBlock_keeps f).bind fun _ => .pure _
  exact (loadWord_keeps _).bind fun _ =>
    .ite ((fileTruncateBlocks_keeps f newsize).bind fun _ => htail) htail

theorem fetch_keeps (src : Source) (i n : Nat) : (src.fetch i n).Keeps Fs.moves := by
  cases src with
  | bytes data => exact .pure _
  | request page =>
    exact ((touchRange_keeps _ _).comp Store.moves).bind fun _ => .bind .get fun _ => .pure _

/-- The bytes of the buffer from `i` to `j` have been copied, one round after the other. -/
def Copied (t t' : Fs) (i j : Nat) : Prop := ∃ L, t'.moves = t.moves ++ L ∧ Copies L i j

theorem Copied.refl (h : t'.moves = t.moves) (i : Nat) : Copied t t' i i :=
  ⟨[], by rw [h, append_nil], .nil i⟩

theorem Copied.round {t1 : Fs} (h : t1.moves = t.moves ++ [(i, n)])
    (hrest : Copied t1 t' (i + n) j) : Copied t t' i j := by
  obtain ⟨L, hL, hcopies⟩ := hrest
  refine ⟨(i, n) :: L, ?_, .cons n hcopies⟩
  rw [hL, h, List.append_assoc]
  rfl

theorem Copied.of_moves {t1 : Fs} (hrest : Copied t1 t' i j) (h : t1.moves = t.moves) :
    Copied t t' i j := by
  obtain ⟨L, hL, hcopies⟩ := hrest
  exact ⟨L, by rw [hL, h], hcopies⟩

theorem srem_blksize_ne (pos : Word) :
    (pos.srem (toWord blksize)).toNat ≠ (toWord blksize).toNat := by
  intro h
  have hint := congrArg BitVec.toInt (eq_of_toNat_eq h)
  rw [toInt_srem, show (toWord blksize).toInt = 4096 from by decide] at hint
  have := Int.tmod_lt_of_pos pos.toInt (show (0 : Int) < 4096 by decide)
  omega

theorem roundLen_bounds (h : pos.toNat < endPos.toNat) : 0 < (roundLen pos endPos).toNat ∧
    (pos + roundLen pos endPos).toNat = pos.toNat + (roundLen pos endPos).toNat ∧
    pos.toNat + (roundLen pos endPos).toNat ≤ endPos.toNat := by
  have hsub : (endPos - pos).toNat = endPos.toNat - pos.toNat :=
    toNat_sub_of_le (by rw [le_def]; omega)
  have hpos : 0 < (toWord blksize - pos.srem (toWord blksize)).toNat := by
    have hne := srem_blksize_ne pos
    rw [toNat_blksize] at hne
    rw [toNat_sub, toNat_blksize]
    unfold blksize at *
    omega
  have hbounds : 0 < (roundLen pos endPos).toNat ∧
      pos.toNat + (roundLen pos endPos).toNat ≤ endPos.toNat := by
    unfold roundLen
    dsimp only
    split <;> omega
  refine ⟨hbounds.1, ?_, hbounds.2⟩
  rw [toNat_add]
  omega

theorem fileReadLoop_wp (f : Nat) (endPos : Word) (rounds : Nat) :
    ∀ pos buf t, endPos.toNat - pos.toNat ≤ rounds →
      wp (fileReadLoop f endPos rounds pos buf) (fun r t' => r.1 ≤ 0 ∧
        Copied t t' buf.length r.2.length ∧
        r.2.length ≤ buf.length + (endPos.toNat - pos.toNat) ∧
        (0 ≤ r.1 → r.2.length = buf.length + (endPos.toNat - pos.toNat))) (fun _ => True) t := by
  induction rounds with
  | zero =>
    intro pos buf t hrounds
    exact wp_pure.mpr ⟨Int.le_refl 0, .refl rfl _, Nat.le_add_right _ _,
      fun _ => by dsimp only; omega⟩
  | succ rounds ih =>
    intro pos buf t hrounds
    refine wp_ite.mpr ⟨fun hlt => ?_, fun hge => ?_⟩
    · refine wp_bind.mpr (fileGetBlock_wp f _ fun r t1 hneg ht1 => ?_)
      cases r with
      | error e =>
        have he := hneg e rfl
        exact wp_pure.mpr ⟨by omega, .refl ht1 _, Nat.le_add_right _ _, fun h => by omega⟩
      | ok blk =>
        obtain ⟨h0, hadd, hle⟩ := roundLen_bounds hlt
        refine (loadBytes_keeps _ _).seq fun bytes t2 ht2 => ?_
        refine wp_bind.mpr (wp_modify.mpr (wp_imp (ih _ _ _ (by omega)) ?_))
        rintro ⟨r, buf'⟩ t' ⟨hr, hcopied, hlen, hdone⟩
        rw [List.length_append, List.length_map, List.length_range] at hcopied hlen hdone
        refine ⟨hr, hcopied.round ?_, by omega, fun h => ?_⟩
        · rw [← ht1, ← ht2]
        · have := hdone h
          omega
    · exact wp_pure.mpr ⟨Int.le_refl 0, .refl rfl _, Nat.le_add_right _ _,
        fun _ => by dsimp only; omega⟩

theorem fileWriteLoop_wp (f : Nat) (src : Source) (endPos : Word) (rounds : Nat) :
    ∀ pos i t, endPos.toNat - pos.toNat ≤ rounds →
      wp (fileWriteLoop f src endPos rounds pos i) (fun r t' => r ≤ 0 ∧
        ∃ j, Copied t t' i j ∧ j ≤ i + (endPos.toNat - pos.toNat) ∧
          (0 ≤ r → j = i + (endPos.toNat - pos.toNat))) (fun _ => True) t := by
  induction rounds with
  | zero =>
    intro pos i t hrounds
    exact wp_pure.mpr ⟨Int.le_refl 0, i, .refl rfl _, by omega, by omega⟩
  | succ rounds ih =>
    intro pos i t hrounds
    refine wp_ite.mpr ⟨fun hlt => ?_, fun hge => ?_⟩
    · refine wp_bind.mpr (fileGetBlock_wp f _ fun r t1 hneg ht1 => ?_)
      cases r with
      | error e =>
        have he := hneg e rfl
        exact wp_pure.mpr ⟨by omega, i, .refl ht1 _, by omega, fun h => by omega⟩
      | ok blk =>
        obtain ⟨h0, hadd, hle⟩ := roundLen_bounds hlt
        refine (fetch_keeps src _ _).seq fun bytes t2 ht2 => ?_
        refine (storeBytes_keeps _ _ _).seq fun _ t3 ht3 => ?_
        refine wp_bind.mpr (wp_modify.mpr (wp_imp (ih _ _ _ (by omega)) ?_))
        rintro r t' ⟨hr, j, hcopied, hlen, hdone⟩
        refine ⟨hr, j, hcopied.round ?_, by omega, fun h => ?_⟩
        · rw [← ht1, ← ht2, ← ht3]
        · have := hdone h
          omega
    · exact wp_pure.mpr ⟨Int.le_refl 0, i, .refl rfl _, by omega, by omega⟩

/-- The offset is not so negative that `file_read` reports bytes which it does not copy: the
end of the copy, computed modulo `2 ^ 32`, would lie before its start. -/
def ReadFits (size count offset : Word) : Prop :=
  ¬(0 ≤ size.toInt ∧ offset.toInt < 0 ∧ 0 < count.toNat ∧ -offset.toInt ≤ count.toNat)

/-- The same for `file_write`, which compares unsigned numbers only. -/
def NoWrap (count offset : Word) : Prop :=
  count.toNat = 0 ∨ offset.toNat + count.toNat < 2 ^ 32

theorem add_sub_self (count offset : Word) :
    ((offset + count).toNat - offset.toNat = count.toNat ↔ NoWrap count offset) ∧
      (offset + count).toNat - offset.toNat ≤ count.toNat := by
  have hc := count.isLt
  have ho := offset.isLt
  unfold NoWrap
  rw [toNat_add]
  omega

theorem clip_noWrap {size c : Word} (hcount : count.toNat ≤ pgsize)
    (hlt : offset.toInt < size.toInt)
    (hc : c = if count.toNat ≤ (size - offset).toNat then count else size - offset) :
    c.toNat ≤ count.toNat ∧ (NoWrap c offset ↔ ReadFits size count offset) := by
  have hsize := size.isLt
  have hoff := offset.isLt
  have hcnat : c.toNat = min count.toNat (size - offset).toNat := by
    rw [hc]
    split <;> omega
  rw [toNat_sub] at hcnat
  unfold NoWrap ReadFits
  rw [toInt_eq_toNat_cond, toInt_eq_toNat_cond] at hlt
  rw [toInt_eq_toNat_cond, toInt_eq_toNat_cond]
  unfold pgsize at hcount
  split at hlt <;> split at hlt <;> omega

theorem fileRead_wp (hcount : count.toNat ≤ pgsize) (t : Fs) :
    wp (fileRead f count offset) (fun r t' => Copied t t' 0 r.2.length ∧ r.2.length ≤ count.toNat ∧
      (0 ≤ r.1 → (r.1 = r.2.length ↔ ReadFits (fSize t.mem f) count offset)))
      (fun _ => True) t := by
  refine wp_bind.mpr (loadWord_wp fun t1 ht1 => ?_)
  have hmoves : t1.moves = t.moves := congrArg Store.moves ht1
  refine wp_ite.mpr ⟨fun hle => ?_, fun hlt => ?_⟩
  · refine wp_pure.mpr ⟨.refl hmoves 0, Nat.zero_le _, fun _ => ⟨fun _ hbad => ?_, fun _ => rfl⟩⟩
    have : (fSize t.mem f).toInt ≤ offset.toInt := hle
    omega
  · obtain ⟨c, hc⟩ : ∃ c, c = if count.toNat ≤ (word t.mem (fSizeAt f) - offset).toNat then count
      else word t.mem (fSizeAt f) - offset := ⟨_, rfl⟩
    obtain ⟨hle, hfits⟩ := clip_noWrap hcount (by omega) hc
    obtain ⟨hself, hself'⟩ := add_sub_self c offset
    rw [← hc]
    refine wp_bind.mpr (wp_imp (fileReadLoop_wp f _ _ _ _ _ hself') ?_)
    rintro ⟨r, buf⟩ t' ⟨hr, hcopied, hlen, hdone⟩
    have hcopied := hcopied.of_moves hmoves
    rw [length_nil, Nat.zero_add] at hlen hdone
    refine wp_ite.mpr ⟨fun hneg => ?_, fun hneg => ?_⟩
    · exact wp_pure.mpr ⟨hcopied, hlen.trans (hself'.trans hle),
        fun h => absurd hneg (Int.not_lt.mpr h)⟩
    · have hbuf : buf.length = _ := hdone (Int.not_lt.mp hneg)
      have hint : c.toInt = c.toNat := by
        apply toInt_of_small
        unfold pgsize at hcount
        omega
      refine wp_pure.mpr ⟨hcopied, hlen.trans (hself'.trans hle), fun _ => ?_⟩
      show c.toInt = (buf.length : Int) ↔ _
      rw [hint, hbuf, Int.natCast_inj, eq_comm, hself]
      exact hfits

theorem fileWrite_wp (src : Source) (t : Fs) :
    wp (fileWrite f src count offset) (fun r t' => ∃ j, Copied t t' 0 j ∧ j ≤ count.toNat ∧
      (0 ≤ r → r = count.toNat ∧ (j = count.toNat ↔ NoWrap count offset))) (fun _ => True) t := by
  obtain ⟨hself, hself'⟩ := add_sub_self count offset
  have hloop : ∀ t1 : Fs, t1.moves = t.moves → wp (do
      let r ← fileWriteLoop f src (offset + count) count.toNat offset 0
      if r < 0 then return r else return count.toInt : FsM Int)
      (fun r t' => ∃ j, Copied t t' 0 j ∧ j ≤ count.toNat ∧
        (0 ≤ r → r = count.toNat ∧ (j = count.toNat ↔ NoWrap count offset)))
          (fun _ => True) t1 := by
    intro t1 hmoves
    refine wp_bind.mpr (wp_imp (fileWriteLoop_wp f src _ _ _ _ _ hself') ?_)
    rintro r t' ⟨hr, j, hcopied, hlen, hdone⟩
    have hcopied := hcopied.of_moves hmoves
    rw [Nat.zero_add] at hlen hdone
    refine wp_ite.mpr ⟨fun hneg => ?_, fun hneg => ?_⟩
    · exact wp_pure.mpr ⟨j, hcopied, by omega, fun h => absurd hneg (Int.not_lt.mpr h)⟩
    · refine wp_pure.mpr ⟨j, hcopied, by omega, fun h => ⟨?_, ?_⟩⟩
      · rw [toInt_eq_toNat_cond] at h ⊢
        have := count.isLt
        split at h <;> omega
      · rw [hdone (Int.not_lt.mp hneg)]
        exact hself
  refine (loadWord_keeps _).seq fun _ t1 ht1 => wp_ite.mpr ⟨fun _ => ?_, fun _ => hloop t1 ht1⟩
  refine (fileSetSize_keeps f _).seq fun r t2 ht2 => ?_
  refine wp_ite.mpr ⟨fun hneg => ?_, fun _ => hloop t2 (ht2.trans ht1)⟩
  exact wp_pure.mpr ⟨0, .refl (ht2.trans ht1) 0, Nat.zero_le _,
    fun h => absurd hneg (Int.not_lt.mpr h)⟩

/-- Every part of the request region that has been accessed is in the request page. -/
def Within (s s' : Serv) : Prop :=
  ∃ A, s'.accesses = s.accesses ++ A ∧ ∀ a ∈ A, a.1 + a.2 ≤ pgsize

/-- So many bytes have been copied between files and the request region. -/
def Transferred (s s' : Serv) (n : Nat) : Prop :=
  ∃ L, s'.fs.moves = s.fs.moves ++ L ∧ (L.map Prod.snd).sum = n

theorem Within.refl (s : Serv) : Within s s := ⟨[], (append_nil _).symm, fun _ h => by cases h⟩

theorem Within.trans {s1 : Serv} (h : Within s s1) (h' : Within s1 s') : Within s s' := by
  obtain ⟨A, hA, hin⟩ := h
  obtain ⟨A', hA', hin'⟩ := h'
  refine ⟨A ++ A', by rw [hA', hA, List.append_assoc], fun a ha => ?_⟩
  rcases List.mem_append.mp ha with h | h
  · exact hin a h
  · exact hin' a h

def Serv.touched (s : Serv) (a n : Nat) : Serv := { s with accesses := s.accesses ++ [(a, n)] }

theorem Within.access {a n : Nat} (h : Within s s') (ha : a + n ≤ pgsize) :
    Within s (s'.touched a n) := by
  refine h.trans ⟨[(a, n)], rfl, fun x hx => ?_⟩
  rw [mem_singleton.mp hx]
  exact ha

theorem Within.congr {s1 : Serv} (h : Within s s') (heq : s1.accesses = s'.accesses) :
    Within s s1 := by
  obtain ⟨A, hA, hin⟩ := h
  exact ⟨A, heq.trans hA, hin⟩

section

variable (h : Copies L i j)

include h

theorem Copies.total : i + (L.map Prod.snd).sum = j := by
  induction h with
  | nil i => rfl
  | cons n _ ih =>
    rw [map_cons, sum_cons, ← add_assoc]
    exact ih

theorem Copies.le : i ≤ j := by
  have := h.total
  omega

theorem Copies.mem_le : ∀ p ∈ L, p.1 + p.2 ≤ j := by
  induction h with
  | nil i => exact fun p hp => by cases hp
  | cons n h ih =>
    intro p hp
    rcases mem_cons.mp hp with rfl | hp
    · exact h.le
    · exact ih p hp

theorem Copies.last (hlt : i < j) : ∃ p ∈ L, p.1 + p.2 = j := by
  induction h with
  | nil i => exact absurd hlt (lt_irrefl i)
  | @cons i j L n h ih =>
    by_cases hlast : i + n = j
    · exact ⟨(i, n), mem_cons_self, hlast⟩
    · obtain ⟨p, hp, heq⟩ := ih (by have := h.le; omega)
      exact ⟨p, mem_cons_of_mem _ hp, heq⟩

end

/-- A copy of `j` bytes to or from the request region from `base` on. -/
structure Buffered (base j : Nat) (s s' : Serv) : Prop where
  transferred : Transferred s s' j
  accesses : ∃ L, Copies L 0 j ∧
    s'.accesses = s.accesses ++ L.map fun p => (base + p.1, p.2)

theorem Buffered.within (h : Buffered base j s s') (hj : base + j ≤ pgsize) : Within s s' := by
  obtain ⟨L, hcopies, hacc⟩ := h.accesses
  refine ⟨_, hacc, fun a ha => ?_⟩
  obtain ⟨p, hp, rfl⟩ := mem_map.mp ha
  have := hcopies.mem_le p hp
  show base + p.1 + p.2 ≤ pgsize
  omega

theorem Buffered.le {s0 : Serv} {B : List (Nat × Nat)} (h : Buffered base j s s')
    (hpre : s.accesses = s0.accesses ++ B) (hin : Within s0 s') (hj : 0 < j) :
    base + j ≤ pgsize := by
  obtain ⟨L, hcopies, hacc⟩ := h.accesses
  obtain ⟨A, hA, hin⟩ := hin
  obtain ⟨p, hp, heq⟩ := hcopies.last hj
  rw [hacc, hpre, List.append_assoc] at hA
  have := hin (base + p.1, p.2) (by
    rw [← List.append_cancel_left hA]
    exact List.mem_append_right _ (List.mem_map.mpr ⟨p, hp, rfl⟩))
  dsimp only at this
  omega

theorem onBuffer_wp {α : Type} {m : FsM α} {Q : α → Serv → Prop} {P : α → Nat → Prop}
    (hm : wp m (fun a t' => ∃ j, Copied s.fs t' 0 j ∧ P a j) (fun _ => True) s.fs)
    (h : ∀ a j s', P a j → Buffered base j s s' → s'.fsreq = s.fsreq → s'.fd = s.fd → Q a s') :
    wp (onBuffer base m) Q (fun _ => True) s := by
  refine wp_bind.mpr (wp_get.mpr (wp_bind.mpr (wp_zoom.mpr ?_)))
  refine wp_imp hm ?_
  rintro a t' ⟨j, ⟨L, hL, hcopies⟩, hP⟩
  refine wp_bind.mpr (wp_modify.mpr (wp_pure.mpr (h a j _ hP ⟨?_, L, hcopies, ?_⟩ rfl rfl)))
  · refine ⟨L, hL, ?_⟩
    have := hcopies.total
    omega
  · show s.accesses ++ _ = _
    rw [hL, drop_left]

/-- The server, without what tells which blocks are in the cache. -/
structure View where
  store : Store
  opentab : Nat → OpenFile
  fd : Nat → Fd
  fdRef : Nat → Nat
  noMem : Bool
  fsreq : Image
  accesses : List (Nat × Nat)

def Serv.view (s : Serv) : View where
  store := s.fs.seen
  opentab := s.opentab
  fd := s.fd
  fdRef := s.fdRef
  noMem := s.noMem
  fsreq := s.fsreq
  accesses := s.accesses

/-- The open file that the request names, by `openfile_lookup`. -/
def View.reqEntry (v : View) : Option Nat :=
  let fileid := word v.fsreq reqFileidAt
  if v.fdRef (fileid.toNat % maxopen) ≤ 1 ∨ (v.opentab (fileid.toNat % maxopen)).oFileid ≠ fileid
  then none else some (fileid.toNat % maxopen)

def Serv.reqEntry (s : Serv) : Option Nat := s.view.reqEntry

theorem reqWord_wp {Q : Word → Serv → Prop} (h : Q (word s.fsreq a) (s.touched a 4)) :
    wp (reqWord a) Q (fun _ => True) s :=
  wp_bind.mpr (wp_modify.mpr (wp_bind.mpr (wp_get.mpr (wp_pure.mpr h))))

theorem within_fileid (s : Serv) : Within s (s.touched reqFileidAt 4) :=
  (Within.refl s).access (by decide)

theorem withOpenFile_wp {Q : Int → Serv → Prop} (herr : Q (-eInval) (s.touched reqFileidAt 4))
    (hok : ∀ o, s.reqEntry = some o → wp (body o) Q (fun _ => True) (s.touched reqFileidAt 4)) :
    wp (withOpenFile body) Q (fun _ => True) s := by
  refine wp_bind.mpr (reqWord_wp (wp_bind.mpr ?_))
  refine wp_bind.mpr (wp_get.mpr (wp_ite.mpr ⟨fun _ => ?_, fun hfound => ?_⟩))
  · exact wp_pure.mpr (wp_pure.mpr herr)
  · exact wp_pure.mpr (hok _ (if_neg hfound))

theorem openFile_wp {Q : Nat → Serv → Prop} (h : ∀ f, (s.opentab o).oFile = some f → Q f s) :
    wp (openFile o) Q (fun _ => True) s := by
  refine wp_bind.mpr (wp_get.mpr ?_)
  cases hf : (s.opentab o).oFile with
  | none => exact wp_panic
  | some f => exact wp_pure.mpr (h f hf)

/-- The number of bytes that `serve_read` asks for. -/
def View.readCount (v : View) : Word :=
  if (word v.fsreq reqNAt).toNat ≤ pgsize then word v.fsreq reqNAt else toWord pgsize

def readCount (s : Serv) : Word := s.view.readCount

theorem readCount_le (s : Serv) : (readCount s).toNat ≤ pgsize := by
  unfold readCount View.readCount
  split
  · assumption
  · decide

theorem serveRead_wp (s : Serv) : wp serveRead (fun r s' => Within s s' ∧
    (0 ≤ r → ∃ o f n, s.reqEntry = some o ∧ (s.opentab o).oFile = some f ∧ Transferred s s' n ∧
      (r = n ↔ ReadFits (fSize s.fs.mem f) (readCount s) (s.fd o).fdOffset)))
    (fun _ => True) s := by
  have hin1 := within_fileid s
  refine withOpenFile_wp ⟨hin1, fun h => absurd h (by decide)⟩ fun o ho => ?_
  refine wp_bind.mpr (reqWord_wp ?_)
  have hin2 := hin1.access (a := reqNAt) (n := 4) (by decide)
  refine wp_bind.mpr (openFile_wp fun f hf => wp_bind.mpr (wp_get.mpr ?_))
  refine wp_bind.mpr (onBuffer_wp (P := fun r j => j = r.2.length ∧
    r.2.length ≤ (readCount s).toNat ∧ (0 ≤ r.1 → (r.1 = r.2.length ↔
      ReadFits (fSize s.fs.mem f) (readCount s) (s.fd o).fdOffset))) ?_ ?_)
  · exact wp_imp (fileRead_wp (readCount_le s) s.fs) fun r t' h => ⟨_, h.1, rfl, h.2⟩
  rintro ⟨r, buf⟩ j s3 ⟨hj, hlen, hcount⟩ hbuf - -
  have hle := readCount_le s
  have hin3 : Within s s3 := hin2.trans (hbuf.within (by rw [hj]; omega))
  have hmoved : Transferred s s3 j := hbuf.transferred
  have hpost : 0 ≤ r → ∃ o f n, s.reqEntry = some o ∧ (s.opentab o).oFile = some f ∧
      Transferred s s3 n ∧ (r = n ↔ ReadFits (fSize s.fs.mem f) (readCount s) (s.fd o).fdOffset) :=
    fun h => ⟨o, f, j, ho, hf, hmoved, by rw [hj]; exact hcount h⟩
  refine wp_bind.mpr (wp_modify.mpr (wp_ite.mpr ⟨fun _ => ?_, fun _ => ?_⟩))
  · exact wp_pure.mpr ⟨hin3.congr rfl, hpost⟩
  · exact wp_bind.mpr (wp_modify.mpr (wp_pure.mpr ⟨hin3.congr rfl, hpost⟩))

/-- The bytes that a request to write has room for, and no wrap of the end of the copy. -/
def WriteFits (count offset : Word) : Prop :=
  count.toNat ≤ pgsize - reqBufAt ∧ NoWrap count offset

theorem serveWrite_wp (s : Serv) : wp serveWrite (fun r s' => r < 0 ∧ Within s s' ∨
    ∃ o f, s.reqEntry = some o ∧ (s.opentab o).oFile = some f ∧
      ((word s.fsreq reqNAt).toNat ≤ pgsize - reqBufAt → Within s s') ∧
      (0 ≤ r → ∃ n, Transferred s s' n ∧
        (Within s s' ∧ r = n ↔ WriteFits (word s.fsreq reqNAt) (s.fd o).fdOffset)))
    (fun _ => True) s := by
  have hin1 := within_fileid s
  refine withOpenFile_wp (.inl ⟨by decide, hin1⟩) fun o ho => ?_
  refine wp_bind.mpr (openFile_wp fun f hf => wp_bind.mpr (reqWord_wp ?_))
  have hin2 := hin1.access (a := reqNAt) (n := 4) (by decide)
  refine wp_bind.mpr (wp_get.mpr (wp_bind.mpr ?_))
  refine onBuffer_wp (P := fun r j => j ≤ (word s.fsreq reqNAt).toNat ∧
    (0 ≤ r → r = (word s.fsreq reqNAt).toNat ∧ (j = (word s.fsreq reqNAt).toNat ↔
      NoWrap (word s.fsreq reqNAt) (s.fd o).fdOffset))) ?_ ?_
  · exact wp_imp (fileWrite_wp _ s.fs) fun r t' ⟨j, hj⟩ => ⟨j, hj⟩
  rintro r j s3 ⟨hj, hcount⟩ hbuf - -
  have hin3 : (word s.fsreq reqNAt).toNat ≤ pgsize - reqBufAt → Within s s3 := by
    intro hn
    have hbase : reqBufAt ≤ pgsize := by decide
    exact hin2.trans (hbuf.within (by omega))
  have hmoved : Transferred s s3 j := hbuf.transferred
  have hpost : 0 ≤ r → (Within s s3 ∧ r = j ↔
      WriteFits (word s.fsreq reqNAt) (s.fd o).fdOffset) := by
    intro hr
    obtain ⟨hcount, hwrap⟩ := hcount hr
    refine ⟨fun ⟨hin, heq⟩ => ?_, fun hfits => ⟨hin3 hfits.1, ?_⟩⟩
    · have hall : j = (word s.fsreq reqNAt).toNat := by omega
      refine ⟨?_, hwrap.mp hall⟩
      by_cases h0 : 0 < j
      · have := hbuf.le (append_assoc ..) hin h0
        omega
      · omega
    · rw [hcount, hwrap.mpr hfits.2]
  refine wp_ite.mpr ⟨fun _ => ?_, fun _ => ?_⟩
  · exact wp_pure.mpr (.inr ⟨o, f, ho, hf, hin3, fun hr => ⟨j, hmoved, hpost hr⟩⟩)
  · exact wp_bind.mpr (wp_modify.mpr (wp_pure.mpr (.inr ⟨o, f, ho, hf,
      fun hn => (hin3 hn).congr rfl, fun hr => ⟨j, hmoved, hpost hr⟩⟩)))

theorem storeNameByte_wp {c : Byte} (h : i < pgsize)
    (hQ : ∀ s', s'.fs = s.fs → s'.accesses = s.accesses ++ [(i, 1)] → Q () s') :
    wp (storeNameByte i c) Q (fun _ => True) s := by
  refine wp_ite.mpr ⟨fun _ => ?_, fun hc => absurd h hc⟩
  exact wp_bind.mpr (wp_modify.mpr (wp_modify.mpr (hQ _ rfl rfl)))

theorem storeNameByte_access {c : Byte}
    (hQ : ∀ s', s'.accesses = s.accesses ++ [(i, 1)] → Q () s') :
    wp (storeNameByte i c) Q (fun _ => True) s := by
  refine wp_ite.mpr ⟨fun _ => ?_, fun _ => ?_⟩
  · exact wp_bind.mpr (wp_modify.mpr (wp_modify.mpr (hQ _ rfl)))
  · refine wp_bind.mpr (wp_modify.mpr (wp_zoom.mpr ?_))
    exact (storeBytes_keeps _ _ _).wp fun _ _ _ => hQ _ rfl

theorem copyName_access (f rounds : Nat) : ∀ i s, wp (copyName f rounds i)
    (fun _ s' => ∃ A, s'.accesses = s.accesses ++ A) (fun _ => True) s := by
  induction rounds with
  | zero => exact fun i s => wp_pure.mpr ⟨[], (List.append_nil _).symm⟩
  | succ rounds ih =>
    intro i s
    refine wp_bind.mpr (wp_zoom.mpr (load8_wp fun t1 _ => ?_))
    refine wp_bind.mpr (storeNameByte_access fun s2 hacc => ?_)
    refine wp_ite.mpr ⟨fun _ => ?_, fun _ => wp_pure.mpr ⟨_, hacc⟩⟩
    refine wp_imp (ih (i + 1) s2) fun _ s' ⟨A, hA⟩ => ⟨(i, 1) :: A, ?_⟩
    rw [hA, hacc, List.append_assoc]
    rfl

theorem copyName_wp (f rounds : Nat) : ∀ i s, i ≤ pgsize → pgsize < i + rounds →
    wp (copyName f rounds i) (fun _ s' =>
      (∃ k, i ≤ k ∧ k < pgsize ∧ s.fs.mem (f + k) = 0) ∧ s'.fs.seen = s.fs.seen ∧ Within s s' ∨
      (∀ k, i ≤ k → k < pgsize → s.fs.mem (f + k) ≠ 0) ∧
        ∃ A, s'.accesses = s.accesses ++ A ∧ (pgsize, 1) ∈ A) (fun _ => True) s := by
  induction rounds with
  | zero => exact fun i s h h' => by omega
  | succ rounds ih =>
    intro i s hi hrounds
    refine wp_bind.mpr (wp_zoom.mpr (load8_wp fun t1 ht1 => ?_))
    by_cases hlt : i < pgsize
    · refine wp_bind.mpr (storeNameByte_wp hlt fun s2 hfs hacc => ?_)
      have hseen : s2.fs.seen = s.fs.seen := by
        rw [hfs]
        exact ht1
      have hmem : s2.fs.mem = s.fs.mem := congrArg Store.mem hseen
      have hin : Within s s2 := ⟨[(i, 1)], hacc, fun a ha => by
        rw [List.mem_singleton.mp ha]
        exact hlt⟩
      refine wp_ite.mpr ⟨fun hc => ?_, fun hc => ?_⟩
      · refine wp_imp (ih (i + 1) s2 hlt (by omega)) fun _ s' h => ?_
        rw [hmem, hseen] at h
        rcases h with ⟨⟨k, hk, hk', h0⟩, hs, hw⟩ | ⟨hne, A, hA, hbad⟩
        · exact .inl ⟨⟨k, by omega, hk', h0⟩, hs, hin.trans hw⟩
        · refine .inr ⟨fun k hk hk' => ?_, (i, 1) :: A, ?_, List.mem_cons_of_mem _ hbad⟩
          · by_cases hki : k = i
            · rw [hki]
              exact hc
            · exact hne k (by omega) hk'
          · rw [hA, hacc, List.append_assoc]
            rfl
      · exact wp_pure.mpr (.inl ⟨⟨i, Nat.le_refl i, hlt, not_not.mp hc⟩, hseen, hin⟩)
    · obtain rfl : i = pgsize := by omega
      refine wp_bind.mpr (storeNameByte_access fun s2 hacc => ?_)
      have hnone : ∀ k, pgsize ≤ k → k < pgsize → s.fs.mem (f + k) ≠ 0 := fun k hk hk' => by omega
      refine wp_ite.mpr ⟨fun _ => ?_, fun _ => ?_⟩
      · refine wp_imp (copyName_access f rounds (pgsize + 1) s2) fun _ s' ⟨A, hA⟩ => ?_
        refine .inr ⟨hnone, (pgsize, 1) :: A, ?_, List.mem_cons_self⟩
        rw [hA, hacc, List.append_assoc]
        rfl
      · exact wp_pure.mpr (.inr ⟨hnone, _, hacc, List.mem_cons_self⟩)

theorem serveStat_wp (s : Serv) : wp serveStat (fun r s' => r < 0 ∧ Within s s' ∨
    ∃ o f, s.reqEntry = some o ∧ (s.opentab o).oFile = some f ∧
      (Within s s' ↔ ∃ i < pgsize, s.fs.mem (f + i) = 0)) (fun _ => True) s := by
  have hin1 := within_fileid s
  refine withOpenFile_wp (.inl ⟨by decide, hin1⟩) fun o ho => ?_
  refine wp_bind.mpr (openFile_wp fun f hf => wp_bind.mpr ?_)
  refine wp_imp (copyName_wp f disksize 0 _ (by decide) (by decide)) fun _ s2 hcopy => ?_
  refine wp_bind.mpr (wp_zoom.mpr (loadWord_wp fun t3 _ => ?_))
  refine wp_bind.mpr (wp_bind.mpr (wp_modify.mpr (wp_modify.mpr ?_)))
  refine wp_bind.mpr (wp_zoom.mpr (loadWord_wp fun t4 _ => ?_))
  refine wp_bind.mpr (wp_bind.mpr (wp_modify.mpr (wp_modify.mpr ?_)))
  refine wp_pure.mpr (.inr ⟨o, f, ho, hf, ?_⟩)
  rcases hcopy with ⟨⟨k, -, hk, h0⟩, -, hin2⟩ | ⟨hne, A, hA, hbad⟩
  · refine iff_of_true ?_ ⟨k, hk, h0⟩
    have hin := ((hin1.trans hin2).access (a := retSizeAt) (n := 4) (by decide)).access
      (a := retIsdirAt) (n := 4) (by decide)
    exact hin.congr rfl
  · refine iff_of_false ?_ ?_
    · rintro ⟨B, hB, hin⟩
      have haccess : s.accesses ++ ([(reqFileidAt, 4)] ++ A ++ [(retSizeAt, 4)] ++
          [(retIsdirAt, 4)]) = s.accesses ++ B := by
        rw [← hB]
        show _ = s2.accesses ++ [(retSizeAt, 4)] ++ [(retIsdirAt, 4)]
        rw [hA]
        simp [Serv.touched]
      have := hin (pgsize, 1) (by
        rw [← append_cancel_left haccess]
        simp [hbad])
      dsimp only at this
      omega
    · rintro ⟨k, hk, h0⟩
      exact hne k (Nat.zero_le k) hk h0

/-- Every run stays inside the request page. -/
def InRequest {α : Type} (m : ServM α) : Prop :=
  ∀ s, wp m (fun _ s' => Within s s') (fun _ => True) s

namespace InRequest

variable {α β : Type} {m m' : ServM α} {g : α → ServM β}

theorem bind (h : InRequest m) (hg : ∀ a, InRequest (g a)) : InRequest (m >>= g) := fun s =>
  wp_bind.mpr (wp_imp (h s) fun a s1 h1 =>
    wp_imp (hg a s1) fun _ _ h2 => h1.trans h2)

theorem of_keeps (h : m.Keeps Serv.accesses) : InRequest m := fun s =>
  h.wp fun _ _ heq => (Within.refl s).congr heq

theorem pure (a : α) : InRequest (Pure.pure a : ServM α) := .of_keeps (.pure a)

theorem ite {c : Prop} [Decidable c] (h : InRequest m) (h' : InRequest m') :
    InRequest (if c then m else m') := by
  split
  · exact h
  · exact h'

theorem reqWord (h : a + 4 ≤ pgsize) : InRequest (reqWord a) := fun s =>
  reqWord_wp ((Within.refl s).access h)

theorem onFs (m : FsM α) : InRequest (onFs m) := fun s =>
  wp_zoom.mpr (Code.wp_of_forall (fun _ _ => (Within.refl s).congr rfl) fun _ => trivial)

end InRequest

theorem openfileAllocFrom_keeps (rounds i : Nat) :
    (openfileAllocFrom rounds i).Keeps Serv.accesses := by
  induction rounds generalizing i with
  | zero => exact .pure _
  | succ rounds ih =>
    refine .bind .get fun s => .ite (.pure _) (.ite ?_ (ih _))
    exact .bind (.modify fun _ => rfl) fun _ => .bind (.modify fun _ => rfl) fun _ =>
      .bind (.modify fun _ => rfl) fun _ => .bind .get fun _ => .pure _

theorem openFile_inRequest (o : Nat) : InRequest (openFile o) := fun s =>
  openFile_wp fun _ _ => .refl s

theorem reqPath_inRequest : InRequest reqPath := fun s => by
  refine wp_bind.mpr (wp_modify.mpr (wp_bind.mpr (wp_get.mpr ?_)))
  exact wp_pure.mpr ((Within.refl s).access (by decide))

theorem createOrOpen_inRequest (path : List Byte) : InRequest (createOrOpen path) := by
  have hmode : InRequest (reqWord reqOmodeAt) := .reqWord (by decide)
  refine hmode.bind fun _ => .ite (.bind (.onFs _) fun r => ?_) (.onFs _)
  cases r with
  | ok f => exact .pure _
  | error e => exact hmode.bind fun _ => .ite (.onFs _) (.pure _)

theorem enterOpenFile_inRequest (path : List Byte) (o : Nat) :
    InRequest (enterOpenFile path o) := by
  have hmode : InRequest (reqWord reqOmodeAt) := .reqWord (by decide)
  have hset : ∀ i g, InRequest (setOpenFile i g) := fun _ _ => .of_keeps (.modify fun _ => rfl)
  have hfd : ∀ i g, InRequest (setFd i g) := fun _ _ => .of_keeps (.modify fun _ => rfl)
  refine .bind (.onFs _) fun r => ?_
  cases r with
  | error e => exact .pure _
  | ok f =>
    refine (hset _ _).bind fun _ => .bind (.of_keeps .get) fun _ => (hfd _ _).bind fun _ =>
      hmode.bind fun _ => (hfd _ _).bind fun _ => (hfd _ _).bind fun _ => hmode.bind fun _ => ?_
    exact (hset _ _).bind fun _ => .pure _

theorem serveOpen_inRequest : InRequest serveOpen := by
  have hmode : InRequest (reqWord reqOmodeAt) := .reqWord (by decide)
  have hlast := enterOpenFile_inRequest
  refine reqPath_inRequest.bind fun path => .bind (.of_keeps (openfileAllocFrom_keeps _ _)) ?_
  rintro ⟨r, o⟩
  refine .ite (.pure _) ((createOrOpen_inRequest path).bind fun r => ?_)
  cases r with
  | error e => exact .pure _
  | ok f =>
    exact hmode.bind fun _ => .ite (.bind (.onFs _) fun _ => .ite (.pure _) (hlast path o))
      (hlast path o)

theorem withOpenFile_inRequest (h : ∀ o, InRequest (body o)) :
    InRequest (withOpenFile body) := fun s => by
  have hin := within_fileid s
  exact withOpenFile_wp hin fun o _ => wp_imp (h o _) fun _ _ h' => hin.trans h'

theorem serveSetSize_inRequest : InRequest serveSetSize :=
  withOpenFile_inRequest fun o => (openFile_inRequest o).bind fun _ =>
    .bind (.reqWord (by decide)) fun _ => .onFs _

theorem serveFlush_inRequest : InRequest serveFlush :=
  withOpenFile_inRequest fun o => (openFile_inRequest o).bind fun _ => .bind (.onFs _)
    fun _ => .pure _

theorem serveSync_inRequest : InRequest serveSync := .bind (.onFs _) fun _ => .pure _

/-- What a request must be like: its numbers and those of the `struct Fd` fit each other, and the
name that `serve_stat` copies ends within a page. -/
def Fits (req : Word) (s : Serv) : Prop :=
  ∀ o f, s.reqEntry = some o → (s.opentab o).oFile = some f →
    (req = fsreqRead → ReadFits (fSize s.fs.mem f) (readCount s) (s.fd o).fdOffset) ∧
    (req = fsreqWrite → WriteFits (word s.fsreq reqNAt) (s.fd o).fdOffset) ∧
    (req = fsreqStat → ∃ i < pgsize, s.fs.mem (f + i) = 0)

/-- The handler has stayed inside the request page, and the number of bytes that it reports is
the number that it has copied. -/
def Honest (req : Word) (s : Serv) (r : Int) (s' : Serv) : Prop :=
  Within s s' ∧
    (req = fsreqRead ∨ req = fsreqWrite → 0 ≤ r → ∃ n, Transferred s s' n ∧ r = n)

theorem Transferred.unique (h : Transferred s s' n) (h' : Transferred s s' k) : n = k := by
  obtain ⟨L, hL, rfl⟩ := h
  obtain ⟨L', hL', rfl⟩ := h'
  rw [hL] at hL'
  rw [append_cancel_left hL']

theorem honest_of_inRequest {α : Type} {req : Word} {m : ServM α} {a : α} (hm : InRequest m)
    (hread : req ≠ fsreqRead) (hwrite : req ≠ fsreqWrite) (hstat : req ≠ fsreqStat)
    (h : m s = .ret a s') (r : Int) :
    (Fits req s → Honest req s r s') ∧ (0 ≤ r → Honest req s r s' → Fits req s) := by
  have hin : Within s s' := (wp_of_ret h).mp (hm s)
  refine ⟨fun _ => ⟨hin, fun hc => absurd hc (not_or.mpr ⟨hread, hwrite⟩)⟩, fun _ _ => ?_⟩
  exact fun _ _ _ _ => ⟨fun hc => absurd hc hread, fun hc => absurd hc hwrite,
    fun hc => absurd hc hstat⟩

theorem reply_inv {m : ServM Int} {pg : Option Nat}
    (h : (do return (← m, none) : ServM (Int × Option Nat)) s = .ret (r, pg) s') :
    m s = .ret r s' := by
  rw [bind_apply] at h
  cases hm : m s with
  | ret a s1 =>
    rw [hm] at h
    cases h
    rfl
  | exit s1 =>
    rw [hm] at h
    cases h
  | panic e =>
    rw [hm] at h
    cases h

theorem serveRead_honest (h : serveRead s = .ret r s') :
    (Fits fsreqRead s → Honest fsreqRead s r s') ∧
      (0 ≤ r → Honest fsreqRead s r s' → Fits fsreqRead s) := by
  obtain ⟨hin, hcount⟩ := ret_of_wp (serveRead_wp s) h
  refine ⟨fun hfits => ⟨hin, fun _ hr => ?_⟩, fun hr hhonest => ?_⟩
  · obtain ⟨o, f, n, ho, hf, hmoved, hiff⟩ := hcount hr
    exact ⟨n, hmoved, hiff.mpr ((hfits o f ho hf).1 rfl)⟩
  · obtain ⟨o, f, n, ho, hf, hmoved, hiff⟩ := hcount hr
    obtain ⟨n', hmoved', heq⟩ := hhonest.2 (.inl rfl) hr
    rw [hmoved'.unique hmoved] at heq
    intro o' f' ho' hf'
    cases ho.symm.trans ho'
    cases hf.symm.trans hf'
    exact ⟨fun _ => hiff.mp heq, fun hc => absurd hc (by decide), fun hc => absurd hc (by decide)⟩

theorem serveWrite_honest (h : serveWrite s = .ret r s') :
    (Fits fsreqWrite s → Honest fsreqWrite s r s') ∧
      (0 ≤ r → Honest fsreqWrite s r s' → Fits fsreqWrite s) := by
  rcases ret_of_wp (serveWrite_wp s) h with ⟨hneg, hin⟩ | ⟨o, f, ho, hf, hin, hcount⟩
  · exact ⟨fun _ => ⟨hin, fun _ hr => absurd hneg (Int.not_lt.mpr hr)⟩,
      fun hr => absurd hneg (Int.not_lt.mpr hr)⟩
  · refine ⟨fun hfits => ?_, fun hr hhonest => ?_⟩
    · have hw := (hfits o f ho hf).2.1 rfl
      refine ⟨hin hw.1, fun _ hr => ?_⟩
      obtain ⟨n, hmoved, hiff⟩ := hcount hr
      exact ⟨n, hmoved, (hiff.mpr hw).2⟩
    · obtain ⟨n, hmoved, hiff⟩ := hcount hr
      obtain ⟨n', hmoved', heq⟩ := hhonest.2 (.inr rfl) hr
      rw [hmoved'.unique hmoved] at heq
      intro o' f' ho' hf'
      cases ho.symm.trans ho'
      exact ⟨fun hc => absurd hc (by decide), fun _ => hiff.mp ⟨hhonest.1, heq⟩,
        fun hc => absurd hc (by decide)⟩

theorem serveStat_honest (h : serveStat s = .ret r s') :
    (Fits fsreqStat s → Honest fsreqStat s r s') ∧
      (0 ≤ r → Honest fsreqStat s r s' → Fits fsreqStat s) := by
  have hcount : ∀ P : Prop, fsreqStat = fsreqRead ∨ fsreqStat = fsreqWrite → P :=
    fun P hc => absurd hc (by decide)
  rcases ret_of_wp (serveStat_wp s) h with ⟨hneg, hin⟩ | ⟨o, f, ho, hf, hiff⟩
  · exact ⟨fun _ => ⟨hin, hcount _⟩, fun hr => absurd hneg (Int.not_lt.mpr hr)⟩
  · refine ⟨fun hfits => ⟨hiff.mpr ((hfits o f ho hf).2.2 rfl), hcount _⟩, fun hr hhonest => ?_⟩
    intro o' f' ho' hf'
    cases ho.symm.trans ho'
    cases hf.symm.trans hf'
    exact ⟨fun hc => absurd hc (by decide), fun hc => absurd hc (by decide),
      fun _ => hiff.mp hhonest.1⟩

/-- A request that is answered: if it fits, its handler stays inside the request page and reports
what it has copied. If the answer is no error, this holds only of requests that fit. -/
theorem requests_honest {req : Word} {r : Int} {pg : Option Nat}
    (h : serveRequest req s = .ret (r, pg) s') :
    (Fits req s → Honest req s r s') ∧ (0 ≤ r → Honest req s r s' → Fits req s) := by
  unfold serveRequest at h
  by_cases hopen : req = fsreqOpen
  · rw [if_pos hopen] at h
    subst hopen
    exact honest_of_inRequest serveOpen_inRequest (by decide) (by decide) (by decide) h r
  rw [if_neg hopen] at h
  unfold handlers at h
  by_cases hread : req = fsreqRead
  · rw [if_pos hread] at h
    subst hread
    exact serveRead_honest (reply_inv h)
  by_cases hstat : req = fsreqStat
  · rw [if_neg hread, if_pos hstat] at h
    subst hstat
    exact serveStat_honest (reply_inv h)
  by_cases hflush : req = fsreqFlush
  · rw [if_neg hread, if_neg hstat, if_pos hflush] at h
    subst hflush
    exact honest_of_inRequest serveFlush_inRequest (by decide) (by decide) (by decide)
      (reply_inv h) r
  by_cases hwrite : req = fsreqWrite
  · rw [if_neg hread, if_neg hstat, if_neg hflush, if_pos hwrite] at h
    subst hwrite
    exact serveWrite_honest (reply_inv h)
  rw [if_neg hread, if_neg hstat, if_neg hflush, if_neg hwrite] at h
  by_cases hsize : req = fsreqSetSize
  · rw [if_pos hsize] at h
    exact honest_of_inRequest serveSetSize_inRequest hread hwrite hstat (reply_inv h) r
  by_cases hsync : req = fsreqSync
  · rw [if_neg hsize, if_pos hsync] at h
    exact honest_of_inRequest serveSync_inRequest hread hwrite hstat (reply_inv h) r
  · rw [if_neg hsize, if_neg hsync] at h
    exact honest_of_inRequest (.pure _) hread hwrite hstat h r

/-- The small image with its first file open, and a request to copy `n` bytes at `offset`. -/
def smallServ (n offset : Word) : Serv :=
  { Serv.init (Fs.start smallImage) with
    opentab := fun i => ⟨toWord i, some (3 * blksize), 0⟩
    fd := fun _ => ⟨devfileId, offset, 0, 0⟩
    fdRef := fun _ => 2
    fsreq := setWord (fun _ => 0) reqNAt n }

/-- Four bytes are written to the first file. -/
theorem requests_honest_write : ∃ s', serveRequest fsreqWrite (smallServ 4 0) = .ret (4, none) s' ∧
      Honest fsreqWrite (smallServ 4 0) 4 s' := by
  have hrun : serveRequest fsreqWrite (smallServ 4 0) = .ret (4, none) _ :=
    Outcome.eq_ret (smallServ 4 0) (by decide +kernel)
  have hentry : (smallServ 4 0).reqEntry = some 0 := by decide
  have hfits : Fits fsreqWrite (smallServ 4 0) := by
    intro o f ho hf
    cases hentry.symm.trans ho
    refine ⟨fun hc => absurd hc (by decide), fun _ => ⟨by decide, .inr (by decide)⟩,
      fun hc => absurd hc (by decide)⟩
  exact ⟨_, hrun, (requests_honest hrun).1 hfits⟩

/-- A request to write 4089 bytes takes the last one from behind the request page, and a
request to read one byte at the offset `-1` reports a byte that it has not copied. -/
theorem requests_dishonest :
    (∃ s', serveRequest fsreqWrite (smallServ 4089 0) = .ret (4089, none) s' ∧
      ¬Within (smallServ 4089 0) s') ∧
    ∃ s', serveRequest fsreqRead (smallServ 1 (-1)) = .ret (1, none) s' ∧
      Transferred (smallServ 1 (-1)) s' 0 := by
  have hrun : serveRequest fsreqWrite (smallServ 4089 0) = .ret (4089, none) _ :=
    Outcome.eq_ret (smallServ 4089 0) (by decide +kernel)
  have hrun' : serveRequest fsreqRead (smallServ 1 (-1)) = .ret (1, none) _ :=
    Outcome.eq_ret (smallServ 1 (-1)) (by decide +kernel)
  have haccesses : ((serveRequest fsreqWrite (smallServ 4089 0)).after
      (smallServ 4089 0)).accesses = [(0, 4), (4, 4), (8, 4089)] := by decide +kernel
  have hmoves : ((serveRequest fsreqRead (smallServ 1 (-1))).after
      (smallServ 1 (-1))).fs.moves = [] := by decide +kernel
  refine ⟨⟨_, hrun, ?_⟩, _, hrun', [], hmoves, rfl⟩
  rintro ⟨A, hA, hin⟩
  rw [haccesses] at hA
  have hlast := hin (8, 4089) (by
    rw [show A = _ from hA.symm]
    decide)
  exact absurd hlast (by decide)

end Jos
