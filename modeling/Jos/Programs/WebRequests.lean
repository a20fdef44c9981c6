import Jos.User.Httpd

/-!
# What the web server reads of a request

The parser stops at a separator or at a zero byte. It stays inside the request if this differs from
`"GET "` at a received byte, or has a space and a newline where expected; it goes on behind a zero
byte.
-/

namespace Jos

open Logic

variable {p : Image} {c : Byte} {malloc1 malloc2 : Bool} {fuel i j k n : Nat}

/-- The first `c` from index `i` on is at `j`. -/
def FirstAt (c : Byte) (p : Image) (i j : Nat) : Prop :=
  i ≤ j ∧ p j = c ∧ ∀ l, i ≤ l → l < j → p l ≠ c

def Parsed.reads : Parsed → Nat
  | .badReq reads => reads
  | .fault reads => reads
  | .ok reads _ _ => reads

/-- The url is what lies between the first space and the second, the version what follows up to the
end of the line. -/
def Parsed.Exact (p : Image) : Parsed → Prop
  | .badReq _ => True
  | .fault _ => False
  | .ok _ url version => ∃ i j, FirstAt space p 4 i ∧ FirstAt newline p (i + 1) j ∧
    url = reqBytes p 4 i ∧ version = reqBytes p (i + 1) j

/-- The request differs from `"GET "`, for the first time at index `k`. -/
def Differs (p : Image) (k : Nat) : Prop :=
  k < 4 ∧ p k ≠ get k ∧ ∀ l < k, p l = get l

/-- No zero byte comes before the first `c`. -/
def ClearTo (c : Byte) (p : Image) (i j : Nat) : Prop :=
  FirstAt c p i j ∧ ∀ l, i ≤ l → l < j → p l ≠ 0

theorem get_ne_zero : ∀ i < 4, get i ≠ 0 := by
  decide

/-- The comparison, `n` bytes before its end: it comes to the end, or stops at a difference. -/
theorem strncmp_get (hn : i + n = 4) (heq : ∀ l < i, p l = get l) :
    (strncmp p get n i = (true, 4) ∧ ∀ l < 4, p l = get l) ∨
      ∃ k, Differs p k ∧ strncmp p get n i = (false, k + 1) := by
  induction n generalizing i with
  | zero =>
    obtain rfl : i = 4 := hn
    exact Or.inl ⟨rfl, heq⟩
  | succ n ih =>
    by_cases hi : p i = get i
    · have hne : p i ≠ 0 := hi ▸ get_ne_zero i (by omega)
      have hstep : strncmp p get (n + 1) i = strncmp p get n (i + 1) := if_pos ⟨hne, hi⟩
      rw [hstep]
      refine ih (by omega) fun l hl => ?_
      rcases Nat.lt_succ_iff_lt_or_eq.mp hl with hl | rfl
      · exact heq l hl
      · exact hi
    · refine Or.inr ⟨i, ⟨by omega, hi, heq⟩, ?_⟩
      simp [strncmp, hi]

theorem skipTo_eq_some (h : skipTo c p fuel i = some j) :
    i ≤ j ∧ ∀ l, i ≤ l → l < j → p l ≠ 0 := by
  induction fuel generalizing i with
  | zero => cases h
  | succ fuel ih =>
    unfold skipTo at h
    split at h
    · next hi =>
      obtain ⟨hle, hskip⟩ := ih h
      refine ⟨Nat.le_of_lt hle, fun l hl hlt => ?_⟩
      rcases Nat.eq_or_lt_of_le hl with rfl | hl
      · exact hi.1
      · exact hskip l hl hlt
    · obtain rfl : i = j := Option.some.inj h
      exact ⟨Nat.le_refl _, fun l hl hlt => absurd hl (Nat.not_le_of_lt hlt)⟩

theorem ClearTo.skipTo (h : ClearTo c p i j) (hfuel : j - i < fuel) :
    skipTo c p fuel i = some j := by
  obtain ⟨⟨hle, hj, hne⟩, hclear⟩ := h
  induction fuel generalizing i with
  | zero => cases hfuel
  | succ fuel ih =>
    unfold Jos.skipTo
    rcases Nat.eq_or_lt_of_le hle with rfl | hlt
    · rw [if_neg fun h => h.2 hj]
    · rw [if_pos ⟨hclear i (Nat.le_refl _) hlt, hne i (Nat.le_refl _) hlt⟩]
      exact ih (by omega) (fun l hl => hclear l (Nat.le_of_lt hl)) hlt
        fun l hl => hne l (Nat.le_of_lt hl)

theorem eq_of_reqBytes (hi : k ≤ i) (hj : k ≤ j) (h : reqBytes p k i = reqBytes p k j) :
    i = j := by
  have := congrArg List.length h
  simp only [reqBytes, List.length_map, List.length_range'] at this
  omega

/-- A parse that ends well has found both separators, and no zero byte before them. -/
theorem Parsed.Exact.clear {o : Parsed} (hget : strncmp p get 4 0 = (true, 4))
    (h : httpRequestParse p malloc1 malloc2 fuel = some o) (ho : o.Exact p) :
    malloc1 = true ∧ malloc2 = true ∧
      ∃ i j, ClearTo space p 4 i ∧ ClearTo newline p (i + 1) j ∧ o.reads = j + 1 := by
  simp only [httpRequestParse, hget, Option.bind_eq_bind, Option.bind_eq_some_iff] at h
  obtain ⟨i, hi, h⟩ := h
  cases malloc1
  · cases h
    exact ho.elim
  obtain ⟨j, hj, h⟩ := Option.bind_eq_some_iff.mp h
  cases malloc2
  · cases h
    exact ho.elim
  cases h
  obtain ⟨i', j', hi', hj', hurl, hversion⟩ := ho
  obtain ⟨hi0, hi⟩ := skipTo_eq_some hi
  obtain ⟨hj0, hj⟩ := skipTo_eq_some hj
  obtain rfl := eq_of_reqBytes hi0 hi'.1 hurl
  obtain rfl := eq_of_reqBytes hj0 hj'.1 hversion
  exact ⟨rfl, rfl, i, j, ⟨hi', hi⟩, ⟨hj', hj⟩, rfl⟩

/-- Of `n` bytes received, the parser reads received bytes only and stores what it should exactly if
one of them differs from `"GET "`, or if there are a space and a newline with no zero byte before
them, and memory for the two strings. -/
theorem httpRequestParse_iff (p : Image) (n : Nat) (malloc1 malloc2 : Bool) :
    (∃ fuel o, httpRequestParse p malloc1 malloc2 fuel = some o ∧ o.reads ≤ n ∧ o.Exact p) ↔
      (∃ k < n, Differs p k) ∨ (∀ l < 4, p l = get l) ∧ malloc1 = true ∧ malloc2 = true ∧
        ∃ i, ∃ j < n, ClearTo space p 4 i ∧ ClearTo newline p (i + 1) j := by
  rcases strncmp_get (p := p) (i := 0) (n := 4) rfl (by simp) with ⟨hget, heq⟩ | ⟨k, hk, hget⟩
  · constructor
    · rintro ⟨fuel, o, h, hn, ho⟩
      obtain ⟨h1, h2, i, j, hi, hj, hreads⟩ := ho.clear hget h
      exact Or.inr ⟨heq, h1, h2, i, j, by omega, hi, hj⟩
    · rintro (⟨k, _, hk⟩ | ⟨_, rfl, rfl, i, j, hlt, hi, hj⟩)
      · exact absurd (heq k hk.1) hk.2.1
      · refine ⟨j + 1, .ok (j + 1) (reqBytes p 4 i) (reqBytes p (i + 1) j), ?_, hlt,
          i, j, hi.1, hj.1, rfl, rfl⟩
        have hle := hj.1.1
        have h1 := hi.skipTo (show _ < j + 1 by omega)
        have h2 := hj.skipTo (show _ < j + 1 by omega)
        simp [httpRequestParse, hget, h1, h2]
  · constructor
    · rintro ⟨fuel, o, h, hn, ho⟩
      rw [httpRequestParse, hget] at h
      cases h
      exact Or.inl ⟨k, hn, hk⟩
    · rintro (⟨k', hlt, hk'⟩ | ⟨heq, _⟩)
      · have : k ≤ k' := Nat.le_of_not_lt fun hlt => hk'.2.1 (hk.2.2 k' hlt)
        exact ⟨0, .badReq (k + 1), by rw [httpRequestParse, hget],
          Nat.lt_of_le_of_lt this hlt, trivial⟩
      · exact absurd (heq k hk.1) hk.2.1

/-- The request `GET` and a space, with nothing else received. -/
theorem httpRequestParse_reads_behind :
    ∃ o, httpRequestParse get true true 8 = some o ∧ 4 < o.reads :=
  ⟨.ok 6 [] [], by decide, by decide⟩

/-- `handle_client` closes what it has opened, unless the file is a directory. -/
theorem handleClient_closes_iff {fds : Finset Nat} {sock : Nat} {parsed : Parsed}
    (calls : Calls fds) (hsock : sock ∈ fds)
    (hparse : httpRequestParse p malloc1 malloc2 fuel = some parsed)
    (hparsed : ∀ n, parsed ≠ .fault n) :
    handleClient sock p malloc1 malloc2 fuel fds calls = some (fds.erase sock) ↔
      ∀ n url version fd, parsed = .ok n url version → calls.openFd = some fd →
        calls.fstat ≠ .ok true := by
  unfold handleClient
  rw [hparse]
  cases parsed with
  | badReq n => simp
  | fault n => exact absurd rfl (hparsed n)
  | ok n url version =>
    simp only [Option.bind_eq_bind, Option.bind_some, sendFile, Option.pure_def, Option.some.injEq]
    cases hopen : calls.openFd with
    | none => simp
    | some fd =>
      have hfd := calls.unused fd hopen
      cases calls.fstat with
      | error r => simp [Finset.erase_insert hfd]
      | ok isdir =>
        cases isdir with
        | false => simp [Finset.erase_insert hfd]
        | true =>
          have hne : fd ≠ sock := fun heq => hfd (heq ▸ hsock)
          have hleft : fd ∈ (insert fd fds).erase sock := by simp [hne]
          refine iff_of_false (fun heq => ?_) (by simp)
          rw [heq] at hleft
          exact hfd (Finset.mem_of_mem_erase hleft)

def directoryCalls : Calls {0} where
  openFd := some 1
  fstat := .ok true
  sendHeader := 0
  sendSize := 0
  sendContentType := 0
  sendHeaderFin := 0
  sendData := 0
  unused := by simp

theorem handleClient_closes_iff_file :
    handleClient 0 get true true 8 {0} { directoryCalls with fstat := .ok false } =
      some (Finset.erase {0} 0) := by
  have hparse : httpRequestParse get true true 8 = some (.ok 6 [] []) := by decide
  exact (handleClient_closes_iff _ (by simp) hparse (by simp)).mpr (by simp)

/-- The descriptor of a directory stays open. -/
theorem handleClient_leaks :
    handleClient 0 get true true 8 {0} directoryCalls = some {1} := by decide

end Jos
