import Jos.Net.Serv
import Jos.Logic.Runs
import Mathlib.Data.List.Perm.Basic
import Mathlib.Data.List.Nodup

/-!
# The request buffers of the network server

A buffer is lent to `serve`, and then to the thread that serves the request. `buse` marks the lent
buffers as long as every message that is not from the timer carries a page and gets its thread:
`serve` forgets the buffer of a message without a page.
-/

namespace Jos

open Function List

open Logic Relation

variable {s s' : NetServ} {buse : Nat → Bool} {lent lent' : List Nat} {va i : Nat}
  {timerEnvid : Word}

def bufVa (i : Nat) : Nat := reqva + i * pgsize

theorem bufVa_index (i : Nat) : (bufVa i - reqva) / pgsize = i := by
  unfold bufVa pgsize
  omega

theorem bufVa_inj {j : Nat} (h : bufVa i = bufVa j) : i = j := by
  rw [← bufVa_index i, h, bufVa_index]

/-- `buse` marks the buffers in the list, which has each of them once. -/
structure Lent (buse : Nat → Bool) (lent : List Nat) : Prop where
  nodup : lent.Nodup
  place : ∀ va ∈ lent, ∃ i < queueSize, va = bufVa i
  marked : ∀ i < queueSize, buse i = true ↔ bufVa i ∈ lent

theorem Lent.nil : Lent (fun _ => false) [] :=
  ⟨nodup_nil, fun _ h => absurd h not_mem_nil, fun _ _ => by simp⟩

theorem Lent.perm (h : Lent buse lent) (hp : lent.Perm lent') : Lent buse lent' :=
  ⟨hp.nodup_iff.mp h.nodup, fun va hva => h.place va (hp.mem_iff.mpr hva),
    fun i hi => (h.marked i hi).trans hp.mem_iff⟩

theorem Lent.take (h : Lent buse lent) (hi : i < queueSize) (hfree : buse i = false) :
    Lent (update buse i true) (bufVa i :: lent) where
  nodup := by
    refine nodup_cons.mpr ⟨fun hm => ?_, h.nodup⟩
    rw [(h.marked i hi).mpr hm] at hfree
    cases hfree
  place va hva := by
    rcases mem_cons.mp hva with rfl | hva
    · exact ⟨i, hi, rfl⟩
    · exact h.place va hva
  marked j hj := by
    rw [mem_cons]
    by_cases hji : j = i
    · simp [hji]
    · rw [update_of_ne hji, h.marked j hj]
      exact ⟨Or.inr, fun hm => hm.resolve_left fun hc => hji (bufVa_inj hc)⟩

theorem Lent.give (h : Lent buse (va :: lent)) : Lent (putBuffer va buse) lent := by
  obtain ⟨hnot, hnodup⟩ := nodup_cons.mp h.nodup
  refine ⟨hnodup, fun x hx => h.place x (mem_cons_of_mem _ hx), fun j hj => ?_⟩
  obtain ⟨i, _, rfl⟩ := h.place va mem_cons_self
  unfold putBuffer
  rw [bufVa_index]
  by_cases hji : j = i
  · simp [hji, hnot]
  · rw [update_of_ne hji, h.marked j hj, mem_cons]
    exact ⟨fun hm => hm.resolve_left fun hc => hji (bufVa_inj hc), Or.inr⟩

def usedBuffers (buse : Nat → Bool) : Nat := ((List.range queueSize).filter buse).length

theorem Lent.usedBuffers_eq (h : Lent buse lent) : usedBuffers buse = lent.length := by
  have hp : (((List.range queueSize).filter buse).map bufVa).Perm lent := by
    refine (perm_ext_iff_of_nodup ?_ h.nodup).mpr fun va => ?_
    · exact (nodup_range.filter _).map fun _ _ => bufVa_inj
    · simp only [mem_map, mem_filter, mem_range]
      constructor
      · rintro ⟨i, ⟨hi, hb⟩, rfl⟩
        exact (h.marked i hi).mp hb
      · intro hva
        obtain ⟨i, hi, rfl⟩ := h.place va hva
        exact ⟨i, ⟨hi, (h.marked i hi).mpr hva⟩, rfl⟩
  unfold usedBuffers
  rw [← hp.length_eq, length_map]

theorem getBuffer_none (h : getBuffer buse = none) : usedBuffers buse = queueSize := by
  unfold getBuffer at h
  rw [Option.map_eq_none_iff, List.find?_eq_none] at h
  unfold usedBuffers
  rw [filter_eq_self.mpr, length_range]
  intro i hi
  simpa using h i hi

theorem getBuffer_some {buse' : Nat → Bool} (h : getBuffer buse = some (va, buse')) :
    ∃ i < queueSize, buse i = false ∧ va = bufVa i ∧ buse' = update buse i true := by
  unfold getBuffer at h
  rw [Option.map_eq_some_iff] at h
  obtain ⟨i, hfind, hi⟩ := h
  cases hi
  have hmem := mem_range.mp (mem_of_find?_eq_some hfind)
  have hfree := List.find?_some hfind
  exact ⟨i, hmem, by simpa using hfree, rfl, rfl⟩

/-- The buffer that `serve` has got and has not handed on: it waits in `ipc_recv` for the message
or waits for `process_timer`. -/
def NetServ.held (s : NetServ) : List Nat :=
  match s.pc with
  | .ipcRecv va => [va]
  | .processTimer va => [va]
  | .loop => []
  | .panicked => []

def NetServ.Books (s : NetServ) : Prop :=
  s.pc ≠ .panicked → Lent s.buse (s.held ++ s.threads.map StArgs.req)

/-- A message is a timer message, or it carries a page and a thread is created for it. -/
def NsMessage.Served (m : NsMessage) : Prop :=
  Nsreq.ofWord m.reqno = some .timer ∨ (present m.perm = true ∧ m.threadOk = true)

def NetMove.Served : NetMove → Prop
  | .message m => m.Served
  | _ => True

theorem NetServ.Books.receive (h : s.Books) (hpc : s.pc = .loop) : s.receive.Books := by
  have hl : Lent s.buse (s.threads.map StArgs.req) := by
    have := h (by rw [hpc]; nofun)
    unfold NetServ.held at this
    rw [hpc] at this
    exact this
  unfold NetServ.receive
  cases hg : getBuffer s.buse with
  | none => exact fun hp => absurd rfl hp
  | some p =>
    obtain ⟨va, buse'⟩ := p
    obtain ⟨i, hi, hfree, rfl, rfl⟩ := getBuffer_some hg
    exact fun _ => hl.take hi hfree

theorem NetServ.Books.handle {m : NsMessage} (h : s.Books) (hpc : s.pc = .ipcRecv va)
    (hm : m.Served) : (s.handle va m).Books := by
  have hl : Lent s.buse (va :: s.threads.map StArgs.req) := by
    have := h (by rw [hpc]; nofun)
    unfold NetServ.held at this
    rw [hpc] at this
    exact this
  unfold NetServ.handle
  split
  · split
    · exact fun _ => hl.give
    · exact fun _ => hl
  · next htimer =>
    obtain ⟨hpage, hthread⟩ := hm.resolve_left htimer
    rw [if_neg (by rw [hpage]; decide)]
    split
    · exact fun hp => absurd rfl hp
    · rw [if_neg (by rw [hthread]; decide)]
      intro _
      refine hl.perm ?_
      show (va :: s.threads.map StArgs.req).Perm
        ([] ++ (s.threads ++ [StArgs.mk m.reqno va]).map StArgs.req)
      rw [nil_append, map_append]
      exact @perm_append_comm _ [va] _

theorem NetServ.Books.finish {args : StArgs} (h : s.Books) (hpc : s.pc ≠ .panicked)
    (ha : args ∈ s.threads) : (s.finish args).Books := by
  intro _
  refine Lent.give (show Lent s.buse (args.req :: _) from (h hpc).perm ?_)
  have hp := perm_cons_erase ha
  exact ((hp.map StArgs.req).append_left s.held).trans perm_middle

theorem NetServ.Books.move {mv : NetMove} (h : s.Books) (hmv : mv.Served)
    (hs : s.move mv = some s') : s'.Books := by
  unfold NetServ.move at hs
  split at hs
  · next hpc =>
    cases hs
    exact h.receive hpc
  · next m va hpc =>
    cases hs
    exact h.handle hpc hmv
  · next va hpc =>
    cases hs
    intro _
    have hl := h (by rw [hpc]; nofun)
    unfold NetServ.held at hl
    rw [hpc] at hl
    exact Lent.give hl
  · next args hpc =>
    split at hs
    · next ha =>
      cases hs
      exact h.finish (by rw [hpc]; nofun) ha
    · cases hs
  · next args va hpc =>
    split at hs
    · next ha =>
      cases hs
      exact h.finish (by rw [hpc]; nofun) ha
    · cases hs
  · cases hs

/-- Runs of the server in which every message is served. -/
def ServedRun (s s' : NetServ) : Prop :=
  ReflTransGen (fun s s' => ∃ mv : NetMove, mv.Served ∧ s.move mv = some s') s s'

/-- Every buffer in use belongs to a request whose thread has not finished, or to the waiting
`serve`, and `get_buffer` panics only when all belong to such requests. -/
theorem buffers_accounted (hrun : ServedRun (.start timerEnvid) s) (hpc : s.pc ≠ .panicked) :
    usedBuffers s.buse = s.threads.length + s.held.length ∧
      (s.pc = .loop → getBuffer s.buse = none → s.threads.length = queueSize) := by
  have h : s.Books := by
    refine run_invariant hrun (fun _ => Lent.nil) ?_
    rintro s1 s2 h1 ⟨mv, hmv, hs⟩
    exact h1.move hmv hs
  have hused : usedBuffers s.buse = s.threads.length + s.held.length := by
    rw [(h hpc).usedBuffers_eq, length_append, length_map, Nat.add_comm]
  refine ⟨hused, fun hloop hnone => ?_⟩
  have hheld : s.held = [] := by
    unfold NetServ.held
    rw [hloop]
  rw [getBuffer_none hnone, hheld, length_nil] at hused
  exact hused.symm

def socketMessage : NsMessage := ⟨9, 0x1002, 7, true, true⟩

def bareMessage : NsMessage := ⟨9, 0x1002, 0, true, true⟩

def NetServ.moves (s : NetServ) : List NetMove → Option NetServ
  | [] => some s
  | mv :: mvs => (s.move mv).bind fun s' => s'.moves mvs

theorem ServedRun.of_moves {mvs : List NetMove} (hserved : ∀ mv ∈ mvs, mv.Served)
    (h : s.moves mvs = some s') : ServedRun s s' := by
  induction mvs generalizing s with
  | nil =>
    cases h
    exact .refl
  | cons mv mvs ih =>
    obtain ⟨s1, h1, h2⟩ := Option.bind_eq_some_iff.mp h
    exact ReflTransGen.head ⟨mv, hserved mv mem_cons_self, h1⟩
      (ih (fun m hm => hserved m (mem_cons_of_mem _ hm)) h2)

theorem socketMessage_served : socketMessage.Served := Or.inr ⟨by decide, rfl⟩

/-- A request is being served, and `serve` waits for the next message. -/
theorem buffers_accounted_socket : ∃ s, (NetServ.start 0x1001).moves
      [.receive, .message socketMessage, .receive] = some s ∧
    s.threads.length = 1 ∧ s.held.length = 1 ∧ usedBuffers s.buse = 1 + 1 := by
  have h : ((NetServ.start 0x1001).moves [.receive, .message socketMessage, .receive]).any
      fun s => s.threads.length = 1 ∧ s.held.length = 1 ∧ s.pc ≠ .panicked := by decide
  obtain ⟨s, hs, hp⟩ := (Option.any_eq_true _ _).mp h
  obtain ⟨hthreads, hheld, hpc⟩ := of_decide_eq_true hp
  have hserved : ∀ mv ∈ [NetMove.receive, .message socketMessage, .receive], mv.Served := by
    simp [NetMove.Served, socketMessage_served]
  refine ⟨s, hs, hthreads, hheld, ?_⟩
  rw [(buffers_accounted (ServedRun.of_moves hserved hs) hpc).1, hthreads, hheld]

/-- Twenty requests without a page: all buffers are in use, there is no request to be served,
and `get_buffer` is about to panic. -/
theorem buffers_lost : ∃ s, (NetServ.start 0x1001).moves
      (List.replicate queueSize [NetMove.receive, .message bareMessage]).flatten = some s ∧
    s.pc = .loop ∧ s.threads = [] ∧ usedBuffers s.buse = queueSize ∧ s.receive.pc = .panicked := by
  have h : ((NetServ.start 0x1001).moves
      (List.replicate queueSize [NetMove.receive, .message bareMessage]).flatten).any
      fun s => s.pc = .loop ∧ s.threads = [] ∧ usedBuffers s.buse = queueSize ∧
        s.receive.pc = .panicked := by decide
  obtain ⟨s, hs, hp⟩ := (Option.any_eq_true _ _).mp h
  exact ⟨s, hs, of_decide_eq_true hp⟩

/-- The requests that are being served and `serve` itself have different buffers, all of them in the
region for requests, and `buse` marks these and no others. -/
theorem buffers_separate (hrun : ServedRun (.start timerEnvid) s) (hpc : s.pc ≠ .panicked) :
    Lent s.buse (s.held ++ s.threads.map StArgs.req) := by
  have h : s.Books := by
    refine run_invariant hrun (fun _ => Lent.nil) ?_
    rintro s1 s2 h1 ⟨mv, hmv, hs⟩
    exact h1.move hmv hs
  exact h hpc

/-- Two requests are being served while `serve` waits. -/
theorem buffers_separate_two : ∃ s, (NetServ.start 0x1001).moves
      [.receive, .message socketMessage, .receive, .message socketMessage, .receive] = some s ∧
    s.held ++ s.threads.map StArgs.req = [bufVa 2, bufVa 0, bufVa 1] ∧
    Lent s.buse (s.held ++ s.threads.map StArgs.req) := by
  have h : ((NetServ.start 0x1001).moves
      [.receive, .message socketMessage, .receive, .message socketMessage, .receive]).any fun s =>
        s.held ++ s.threads.map StArgs.req = [bufVa 2, bufVa 0, bufVa 1] ∧ s.pc ≠ .panicked := by
    decide
  obtain ⟨s, hs, hp⟩ := (Option.any_eq_true _ _).mp h
  obtain ⟨hbufs, hpc⟩ := of_decide_eq_true hp
  refine ⟨s, hs, hbufs, buffers_separate (ServedRun.of_moves ?_ hs) hpc⟩
  simp [NetMove.Served, socketMessage_served]

end Jos
