import Jos.Fs.Serv
import Jos.Files.Disk
import Jos.Logic.Runs
import Mathlib.Data.Nat.Find

/-!
# The ids of open files

`openfile_alloc` advances the id of the entry that it finds by `MAXOPEN` and returns it as an `int`:
after 2097151 uses the next id is negative, which the caller takes for an error. Clients map and
unmap the pages as they like; the server sees the number of references, which has 16 bits.
-/

namespace Jos

open Function

open Logic Relation

variable {s : Serv} {i j rounds : Nat} {noMem : Bool}

def Serv.allocated (s : Serv) (i : Nat) : Serv :=
  { s with
    fdRef := update s.fdRef i 1
    opentab := update s.opentab i
      { s.opentab i with oFileid := (s.opentab i).oFileid + toWord maxopen }
    fd := update s.fd i ⟨0, 0, 0, 0⟩ }

theorem Serv.allocated_oFileid :
    ((s.allocated i).opentab i).oFileid = (s.opentab i).oFileid + toWord maxopen := by
  simp [Serv.allocated]

theorem Serv.allocated_fdRef : (s.allocated i).fdRef i = 1 := by
  simp [Serv.allocated]

/-- The first entry with at most one reference. -/
structure Serv.NextSlot (s : Serv) (i : Nat) : Prop where
  lt : i < maxopen
  free : s.fdRef i ≤ 1
  first : ∀ j < i, 1 < s.fdRef j

theorem Serv.NextSlot.exists (h : ∃ i < maxopen, s.fdRef i ≤ 1) : ∃ i, s.NextSlot i := by
  have hf := Nat.find_spec h
  refine ⟨Nat.find h, hf.1, hf.2, fun j hj => ?_⟩
  have := Nat.find_min h hj
  rw [not_and, not_le] at this
  exact this (by omega)

theorem openfileAllocFrom_busy (h : 1 < s.fdRef i) :
    openfileAllocFrom (rounds + 1) i s = openfileAllocFrom rounds (i + 1) s := by
  rw [openfileAllocFrom]
  refine bind_run (get_apply s) ?_
  rw [if_neg (by omega), if_neg (by omega)]

theorem openfileAllocFrom_free (h : s.fdRef i ≤ 1) (hmem : s.fdRef i = 0 → s.noMem = false) :
    openfileAllocFrom (rounds + 1) i s =
      .ret (((s.opentab i).oFileid + toWord maxopen).toInt, i) (s.allocated i) := by
  rw [openfileAllocFrom]
  refine bind_run (get_apply s) ?_
  rw [if_neg (fun hc => by rw [hmem hc.1] at hc; exact absurd hc.2 (by decide)), if_pos h]
  rw [← Serv.allocated_oFileid]
  rfl

theorem openfileAllocFrom_noMem (h : s.fdRef i = 0) (hmem : s.noMem = true) :
    openfileAllocFrom (rounds + 1) i s = .ret (-eNoMem, i) s := by
  rw [openfileAllocFrom]
  refine bind_run (get_apply s) ?_
  rw [if_pos ⟨h, hmem⟩]
  rfl

theorem openfileAllocFrom_skip (hfirst : ∀ x, i ≤ x → x < i + j → 1 < s.fdRef x) :
    openfileAllocFrom (rounds + j) i s = openfileAllocFrom rounds (i + j) s := by
  induction j generalizing i with
  | zero => rfl
  | succ j ih =>
    rw [← add_assoc, openfileAllocFrom_busy (hfirst i le_rfl (by omega)),
      ih fun x hx hx' => hfirst x (by omega) (by omega), Nat.add_right_comm i 1 j]
    rfl

theorem Serv.NextSlot.openfileAlloc (h : s.NextSlot i) :
    ∃ rounds, openfileAlloc s = openfileAllocFrom (rounds + 1) i s := by
  have hlt := h.lt
  refine ⟨maxopen - i - 1, ?_⟩
  unfold Jos.openfileAlloc
  have hskip : openfileAllocFrom (maxopen - i - 1 + 1 + i) 0 s =
      openfileAllocFrom (maxopen - i - 1 + 1) (0 + i) s :=
    openfileAllocFrom_skip fun x _ hx => h.first x (by omega)
  rw [Nat.zero_add, show maxopen - i - 1 + 1 + i = maxopen by omega] at hskip
  exact hskip

theorem openfileAlloc_full (h : ∀ i < maxopen, 1 < s.fdRef i) :
    openfileAlloc s = .ret (-eMaxOpen, maxopen) s := by
  unfold openfileAlloc
  have hskip : openfileAllocFrom (0 + maxopen) 0 s = openfileAllocFrom 0 (0 + maxopen) s :=
    openfileAllocFrom_skip fun x _ hx => h x (by omega)
  rw [Nat.zero_add] at hskip
  rw [hskip]
  rfl

/-- The server, the number of mappings that clients have of the page of each entry, and the ids
that have been returned for it. -/
structure OpenRun where
  serv : Serv
  clients : Nat → Nat
  issued : Nat → List Word

/-- `openfile_alloc` is called, with memory for a page or without, or a client maps or unmaps
the page of an entry. -/
inductive OpenMove where
  | alloc (noMem : Bool)
  | map (i : Nat)
  | unmap (i : Nat)

namespace OpenRun

def start (fs : Fs) : OpenRun := ⟨.init fs, fun _ => 0, fun _ => []⟩

/-- The server in the state in which `openfile_alloc` is called. -/
def called (s : OpenRun) (noMem : Bool) : Serv := { s.serv with noMem := noMem }

/-- What a call has made of the server; an id that it has advanced is one that it returns, and a
page that was not there before is mapped by no client. -/
def allocTo (s : OpenRun) (serv : Serv) : OpenRun where
  serv := serv
  clients i := if s.serv.fdRef i = 0 ∧ serv.fdRef i ≠ 0 then 0 else s.clients i
  issued i :=
    if (serv.opentab i).oFileid = (s.serv.opentab i).oFileid then s.issued i
    else s.issued i ++ [(serv.opentab i).oFileid]

/-- The page of the entry has `n` mappings in clients and the one of the server. -/
def setClients (s : OpenRun) (i n : Nat) : OpenRun :=
  { s with
    clients := update s.clients i n
    serv := { s.serv with fdRef := update s.serv.fdRef i ((1 + n) % 65536) } }

def move (s : OpenRun) : OpenMove → OpenRun
  | .alloc noMem => s.allocTo ((openfileAlloc (s.called noMem)).after (s.called noMem))
  | .map i =>
    if i < maxopen ∧ s.issued i ≠ [] then s.setClients i (s.clients i + 1) else s
  | .unmap i => if i < maxopen ∧ s.clients i ≠ 0 then s.setClients i (s.clients i - 1) else s

/-- The entry that is about to be used has an id that can be advanced once more as an `int`, and
a page that is about to be mapped has fewer than 65535 references. -/
def Small (s : OpenRun) : OpenMove → Prop
  | .alloc _ => ∀ i, s.serv.NextSlot i → (s.serv.opentab i).oFileid.toNat + maxopen < 2 ^ 31
  | .map i => s.clients i + 2 < 65536
  | .unmap _ => True

end OpenRun

def SmallRun (s s' : OpenRun) : Prop :=
  ReflTransGen (fun s s' => ∃ m, s.Small m ∧ s.move m = s') s s'

/-- What the server's table says of an entry: its last id, which is the largest, and the
references to its page. -/
structure EntryOk (s : OpenRun) (i : Nat) : Prop where
  last : s.issued i ≠ [] → (s.issued i).getLast? = some (s.serv.opentab i).oFileid
  le : ∀ w ∈ s.issued i, w.toNat ≤ (s.serv.opentab i).oFileid.toNat
  fresh : s.issued i = [] → s.serv.fdRef i = 0 ∧ s.clients i = 0
  refs : s.issued i ≠ [] → s.serv.fdRef i = 1 + s.clients i
  few : 1 + s.clients i < 65536

variable {r r' : OpenRun}

theorem EntryOk.start (fs : Fs) (i : Nat) : EntryOk (.start fs) i where
  last h := absurd rfl h
  le _ h := absurd h List.not_mem_nil
  fresh _ := ⟨rfl, rfl⟩
  refs h := absurd rfl h
  few := by
    show 1 + 0 < 65536
    decide

theorem EntryOk.congr (h : EntryOk r i) (htab : r'.serv.opentab i = r.serv.opentab i)
    (href : r'.serv.fdRef i = r.serv.fdRef i) (hcl : r'.clients i = r.clients i)
    (hiss : r'.issued i = r.issued i) : EntryOk r' i := by
  constructor
  · rw [htab, hiss]
    exact h.last
  · rw [htab, hiss]
    exact h.le
  · rw [href, hcl, hiss]
    exact h.fresh
  · rw [href, hcl, hiss]
    exact h.refs
  · rw [hcl]
    exact h.few

theorem advanced_toNat {w : Word} (h : w.toNat + maxopen < 2 ^ 31) :
    (w + toWord maxopen).toNat = w.toNat + maxopen := by
  unfold maxopen at *
  rw [BitVec.toNat_add, BitVec.toNat_ofNat]
  omega

theorem EntryOk.allocated (h : EntryOk r i)
    (hsmall : (r.serv.opentab j).oFileid.toNat + maxopen < 2 ^ 31) (hfree : r.serv.fdRef j ≤ 1) :
    EntryOk (r.allocTo ((r.called noMem).allocated j)) i := by
  by_cases hij : i = j
  · subst hij
    have htoNat := advanced_toNat hsmall
    have hmax : maxopen = 1024 := rfl
    have hid : (((r.called noMem).allocated i).opentab i).oFileid =
        (r.serv.opentab i).oFileid + toWord maxopen := Serv.allocated_oFileid
    have hne : (((r.called noMem).allocated i).opentab i).oFileid ≠ (r.serv.opentab i).oFileid := by
      rw [hid]
      intro hc
      rw [hc] at htoNat
      omega
    have hissued : (r.allocTo ((r.called noMem).allocated i)).issued i =
        r.issued i ++ [(((r.called noMem).allocated i).opentab i).oFileid] := if_neg hne
    have href : ((r.called noMem).allocated i).fdRef i = 1 := Serv.allocated_fdRef
    have hclients : (r.allocTo ((r.called noMem).allocated i)).clients i = 0 := by
      show (if r.serv.fdRef i = 0 ∧ _ then 0 else r.clients i) = 0
      split
      · rfl
      · next hc =>
        rw [href] at hc
        by_cases hiss : r.issued i = []
        · exact (h.fresh hiss).2
        · have := h.refs hiss
          omega
    constructor
    · intro _
      rw [hissued]
      exact List.getLast?_concat
    · intro w hw
      rw [hissued, List.mem_append, List.mem_singleton] at hw
      show w.toNat ≤ (((r.called noMem).allocated i).opentab i).oFileid.toNat
      rcases hw with hw | rfl
      · have := h.le w hw
        rw [hid, htoNat]
        omega
      · exact le_rfl
    · intro hnil
      rw [hissued] at hnil
      exact absurd hnil (by simp)
    · intro _
      rw [hclients]
      exact href
    · rw [hclients]
      decide
  · have htab : ((r.called noMem).allocated j).opentab i = r.serv.opentab i := by
      simp [Serv.allocated, OpenRun.called, hij]
    have href : ((r.called noMem).allocated j).fdRef i = r.serv.fdRef i := by
      simp [Serv.allocated, OpenRun.called, hij]
    refine h.congr htab href ?_ ?_
    · show (if r.serv.fdRef i = 0 ∧ ((r.called noMem).allocated j).fdRef i ≠ 0 then 0
        else r.clients i) = r.clients i
      rw [href]
      exact if_neg fun hc => hc.2 hc.1
    · exact if_pos (congrArg OpenFile.oFileid htab)

theorem EntryOk.unchanged (h : EntryOk r i) : EntryOk (r.allocTo (r.called noMem)) i := by
  refine h.congr rfl rfl ?_ (if_pos rfl)
  exact if_neg fun hc => hc.2 hc.1

theorem EntryOk.setClients {n : Nat} (h : EntryOk r i) (hj : r.issued j ≠ []) (hn : 1 + n < 65536) :
    EntryOk (r.setClients j n) i := by
  by_cases hij : i = j
  · subst hij
    have hclients : (r.setClients i n).clients i = n := update_self ..
    refine ⟨h.last, h.le, fun hc => absurd hc hj, fun _ => ?_, ?_⟩
    · simp [OpenRun.setClients, Nat.mod_eq_of_lt hn]
    · rw [hclients]
      exact hn
  · refine h.congr rfl ?_ ?_ rfl
    · simp [OpenRun.setClients, hij]
    · simp [OpenRun.setClients, hij]

theorem EntryOk.alloc (h : EntryOk r i) (hm : r.Small (.alloc noMem)) :
    EntryOk (r.move (.alloc noMem)) i := by
  show EntryOk (r.allocTo ((openfileAlloc (r.called noMem)).after (r.called noMem))) i
  by_cases hslot : ∃ j < maxopen, r.serv.fdRef j ≤ 1
  · obtain ⟨j, hj⟩ := Serv.NextSlot.exists hslot
    have hj' : (r.called noMem).NextSlot j := ⟨hj.lt, hj.free, hj.first⟩
    obtain ⟨rounds, hrun⟩ := hj'.openfileAlloc
    rw [hrun]
    by_cases hmem : (r.called noMem).fdRef j = 0 → (r.called noMem).noMem = false
    · rw [openfileAllocFrom_free hj'.free hmem]
      exact h.allocated (hm j hj) hj.free
    · rw [Classical.not_imp, Bool.not_eq_false] at hmem
      rw [openfileAllocFrom_noMem hmem.1 hmem.2]
      exact h.unchanged
  · have hfull : ∀ j < maxopen, 1 < (r.called noMem).fdRef j := by
      intro j hj
      by_contra hle
      exact hslot ⟨j, hj, Nat.le_of_not_lt hle⟩
    rw [openfileAlloc_full hfull]
    exact h.unchanged

theorem EntryOk.move {m : OpenMove} (hall : ∀ j < maxopen, EntryOk r j) (hm : r.Small m)
    (hi : i < maxopen) : EntryOk (r.move m) i := by
  have h := hall i hi
  cases m with
  | alloc noMem => exact h.alloc hm
  | map j =>
    show EntryOk (if j < maxopen ∧ r.issued j ≠ [] then r.setClients j (r.clients j + 1) else r) i
    split
    · next hj =>
      have hfew : r.clients j + 2 < 65536 := hm
      exact h.setClients hj.2 (by omega)
    · exact h
  | unmap j =>
    show EntryOk (if j < maxopen ∧ r.clients j ≠ 0 then r.setClients j (r.clients j - 1) else r) i
    split
    · next hj =>
      have hfew := (hall j hj.1).few
      refine h.setClients (fun hnil => hj.2 ?_) (by omega)
      exact ((hall j hj.1).fresh hnil).2
    · exact h

theorem EntryOk.next (h : EntryOk r i) (hslot : r.serv.NextSlot i)
    (hsmall : (r.serv.opentab i).oFileid.toNat + maxopen < 2 ^ 31)
    (hmem : r.serv.fdRef i = 0 → noMem = false) :
    ∃ id serv, openfileAlloc (r.called noMem) = .ret (id, i) serv ∧ 0 ≤ id ∧
      BitVec.ofInt 32 id ∉ r.issued i := by
  have hslot' : (r.called noMem).NextSlot i := ⟨hslot.lt, hslot.free, hslot.first⟩
  obtain ⟨rounds, hrun⟩ := hslot'.openfileAlloc
  rw [openfileAllocFrom_free hslot'.free hmem] at hrun
  have htoNat := advanced_toNat hsmall
  refine ⟨_, _, hrun, ?_, ?_⟩
  · show 0 ≤ ((r.serv.opentab i).oFileid + toWord maxopen).toInt
    rw [BitVec.toInt_eq_toNat_of_lt (by omega)]
    exact Int.natCast_nonneg _
  · show BitVec.ofInt 32 ((r.serv.opentab i).oFileid + toWord maxopen).toInt ∉ _
    rw [BitVec.ofInt_toInt]
    intro hmem'
    have hle := h.le _ hmem'
    have hmax : maxopen = 1024 := rfl
    omega

theorem EntryOk.lookup {id : Word} (h : EntryOk r (id.toNat % maxopen)) :
    openfileLookup id r.serv = .ret (.ok (id.toNat % maxopen)) r.serv ↔
      (r.issued (id.toNat % maxopen)).getLast? = some id ∧ 0 < r.clients (id.toNat % maxopen) := by
  generalize hi : id.toNat % maxopen = i at *
  have hlookup : openfileLookup id r.serv =
      if r.serv.fdRef i ≤ 1 ∨ (r.serv.opentab i).oFileid ≠ id then .ret (.error (-eInval)) r.serv
      else .ret (.ok i) r.serv := by
    unfold openfileLookup
    refine bind_run (get_apply r.serv) ?_
    rw [hi]
    split <;> rfl
  rw [hlookup]
  by_cases hnil : r.issued i = []
  · rw [if_pos (Or.inl (by rw [(h.fresh hnil).1]; decide)), hnil]
    refine iff_of_false nofun ?_
    rintro ⟨hc, _⟩
    cases hc
  · rw [h.last hnil, h.refs hnil]
    split
    · next hc =>
      refine iff_of_false nofun ?_
      rintro ⟨hid, hpos⟩
      rcases hc with hc | hc
      · omega
      · exact hc (Option.some.inj hid)
    · next hc =>
      rw [not_or, not_not] at hc
      exact iff_of_true rfl ⟨congrArg some hc.2, by omega⟩

/-- As long as the ids stay positive and no page has 65536 references, a call that finds an entry
and memory returns a new id, and an id is found exactly if it is the last one of its entry and a
client has the page. -/
theorem open_ids (fs : Fs) (hrun : SmallRun (.start fs) r) :
    ((∃ i < maxopen, r.serv.fdRef i ≤ 1) → r.Small (.alloc false) →
      ∃ id i serv, openfileAlloc (r.called false) = .ret (id, i) serv ∧ 0 ≤ id ∧
        BitVec.ofInt 32 id ∉ r.issued i) ∧
      ∀ id : Word, openfileLookup id r.serv = .ret (.ok (id.toNat % maxopen)) r.serv ↔
        (r.issued (id.toNat % maxopen)).getLast? = some id ∧
          0 < r.clients (id.toNat % maxopen) := by
  have hall : ∀ i < maxopen, EntryOk r i := by
    refine run_invariant (I := fun r => ∀ i < maxopen, EntryOk r i) hrun
      (fun i _ => EntryOk.start fs i) ?_
    rintro r1 r2 h1 ⟨m, hm, rfl⟩ i hi
    exact EntryOk.move h1 hm hi
  refine ⟨fun hslot hsmall => ?_, fun id => ?_⟩
  · obtain ⟨i, hi⟩ := Serv.NextSlot.exists hslot
    obtain ⟨id, serv, h⟩ := (hall i hi.lt).next hi (hsmall i hi) fun _ => rfl
    exact ⟨id, i, serv, h⟩
  · exact (hall _ (Nat.mod_lt _ (by decide))).lookup

/-- The state after `n` calls with no client. -/
def OpenRun.used (fs : Fs) : Nat → OpenRun
  | 0 => .start fs
  | n + 1 => (OpenRun.used fs n).move (.alloc false)

theorem used_run (fs : Fs) (n : Nat) :
    ReflTransGen (fun s s' => ∃ m, OpenRun.move s m = s') (.start fs) (.used fs n) := by
  induction n with
  | zero => exact .refl
  | succ n ih => exact ih.tail ⟨.alloc false, rfl⟩

theorem used_entry (fs : Fs) (n : Nat) : (OpenRun.used fs n).serv.fdRef 0 ≤ 1 ∧
      ((OpenRun.used fs n).serv.opentab 0).oFileid = toWord (n * maxopen) := by
  induction n with
  | zero => exact ⟨Nat.zero_le 1, rfl⟩
  | succ n ih =>
    have hslot : ((OpenRun.used fs n).called false).NextSlot 0 :=
      ⟨by decide, ih.1, fun j hj => absurd hj (Nat.not_lt_zero j)⟩
    obtain ⟨rounds, hrun⟩ := hslot.openfileAlloc
    rw [openfileAllocFrom_free hslot.free fun _ => rfl] at hrun
    have hserv :
        (OpenRun.used fs (n + 1)).serv = ((OpenRun.used fs n).called false).allocated 0 := by
      show (openfileAlloc ((OpenRun.used fs n).called false)).after _ = _
      rw [hrun]
      rfl
    rw [hserv]
    refine ⟨Serv.allocated_fdRef.le, ?_⟩
    rw [Serv.allocated_oFileid, show ((OpenRun.used fs n).called false).opentab 0 =
      (OpenRun.used fs n).serv.opentab 0 from rfl, ih.2, ← toWord_add, Nat.add_mul,
      Nat.one_mul]

def freshServer : OpenRun := .start (.start fun _ => 0)

theorem used_small (fs : Fs) {n : Nat} (hn : n < 1000) :
    (OpenRun.used fs n).Small (.alloc false) := by
  obtain ⟨href, hid⟩ := used_entry fs n
  intro i hi
  obtain rfl : i = 0 := by
    by_contra hne
    exact absurd href (Nat.not_le.mpr (hi.first 0 (Nat.pos_of_ne_zero hne)))
  rw [hid]
  unfold maxopen
  rw [BitVec.toNat_ofNat]
  omega

/-- The first entry is used twice, and a client maps its page. -/
def mappedTwice : OpenRun := (OpenRun.used (.start fun _ => 0) 2).move (.map 0)

theorem mappedTwice_run : SmallRun freshServer mappedTwice := by
  have hstart : SmallRun freshServer freshServer := .refl
  have h1 := hstart.tail ⟨_, used_small (.start fun _ => 0) (n := 0) (by decide), rfl⟩
  have h2 := h1.tail ⟨_, used_small (.start fun _ => 0) (n := 1) (by decide), rfl⟩
  exact h2.tail ⟨.map 0, show _ < 65536 by decide +kernel, rfl⟩

/-- The last id of the entry is found, the one before is not, and the next call finds an entry. -/
theorem open_ids_twice : mappedTwice.issued 0 = [1024, 2048] ∧
    openfileLookup 2048 mappedTwice.serv = .ret (.ok 0) mappedTwice.serv ∧
    openfileLookup 1024 mappedTwice.serv ≠ .ret (.ok 0) mappedTwice.serv ∧
    ∃ id i serv, openfileAlloc (mappedTwice.called false) = .ret (id, i) serv ∧ 0 ≤ id ∧
      BitVec.ofInt 32 id ∉ mappedTwice.issued i := by
  obtain ⟨hnext, hlookup⟩ := open_ids (.start fun _ => 0) mappedTwice_run
  have hids : mappedTwice.issued 0 = [1024, 2048] := by decide +kernel
  refine ⟨hids, (hlookup 2048).mpr ⟨?_, by decide +kernel⟩, fun hc => ?_,
    hnext ⟨1, by decide, by decide +kernel⟩ fun i hi => ?_⟩
  · exact congrArg List.getLast? hids
  · have hlast := ((hlookup 1024).mp hc).1
    rw [show (1024 : Word).toNat % maxopen = 0 from rfl, hids] at hlast
    cases hlast
  · obtain rfl : i = 1 := by
      have hfree := hi.free
      rcases Nat.lt_trichotomy i 1 with hlt | rfl | hgt
      · obtain rfl := Nat.lt_one_iff.mp hlt
        exact absurd hfree (by decide +kernel)
      · rfl
      · exact absurd (hi.first 1 hgt) (by decide +kernel)
    decide +kernel

/-- After 2097151 uses of the first entry the next id is negative, though the entry has one
reference. -/
theorem open_id_negative : ∃ r serv,
    ReflTransGen (fun s s' => ∃ m, OpenRun.move s m = s') freshServer r ∧ r.serv.fdRef 0 ≤ 1 ∧
      openfileAlloc (r.called false) = .ret (-2147483648, 0) serv := by
  -- the number is a variable, so that nothing unfolds the run
  obtain ⟨n, hn⟩ : ∃ n, n = 2097151 := ⟨_, rfl⟩
  obtain ⟨href, hid⟩ := used_entry (.start fun _ => 0) n
  have hslot : ((OpenRun.used (.start fun _ => 0) n).called false).NextSlot 0 :=
    ⟨by decide, href, fun j hj => absurd hj (Nat.not_lt_zero j)⟩
  obtain ⟨rounds, hrun⟩ := hslot.openfileAlloc
  rw [openfileAllocFrom_free hslot.free fun _ => rfl, show
    ((OpenRun.used (.start fun _ => 0) n).called false).opentab 0 =
      (OpenRun.used (.start fun _ => 0) n).serv.opentab 0 from rfl, hid] at hrun
  have hval : (toWord (n * maxopen) + toWord maxopen).toInt = -2147483648 := by
    rw [hn]
    decide
  rw [hval] at hrun
  exact ⟨_, _, used_run _ n, href, hrun⟩

end Jos
