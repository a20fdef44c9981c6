import Jos.Files.Trees

/-!
# Paths

What `walk_path` returns, by the components of the path. Where the slashes are makes no
difference.
-/

namespace Jos

open Logic List

/-- The components lead from the root, through entries of directories, to the file `f` of the
directory `dir`. -/
inductive Follows (m : Image) : List (List Byte) → Option Nat → Nat → Prop
  | root : Follows m [] none sRoot
  | entry {cs dir d c f} (h : Follows m cs dir d) (hdir : fType m d = ftypeDir)
      (hentry : lookupIn m d c = some f) : Follows m (cs ++ [c]) (some d) f

variable {F : Set Nat} {m : Image} {s : Fs} {f : Nat} {dir : Option Nat} {c : List Byte}
  {cs pre : List (List Byte)}

def Short (cs : List (List Byte)) : Prop := ∀ c ∈ cs, c.length < maxnamelen

theorem short_append : Short (pre ++ cs) ↔ Short pre ∧ Short cs := forall_mem_append

theorem short_cons : Short (c :: cs) ↔ c.length < maxnamelen ∧ Short cs := forall_mem_cons

theorem Follows.resolve_append (h : Follows m pre dir f) (hpre : Short pre)
    (cs : List (List Byte)) : resolve m (pre ++ cs) none sRoot = resolve m cs dir f := by
  induction h generalizing cs with
  | root => rfl
  | @entry pre dir d c f h hdir hentry ih =>
    obtain ⟨hpre, hc⟩ := short_append.mp hpre
    rw [append_assoc, ih hpre, singleton_append, resolve,
      if_neg (Nat.not_le.mpr (short_cons.mp hc).1), if_neg (not_not.mpr hdir), hentry]

theorem Follows.of_resolve {dir' : Option Nat} {f' : Nat} (h : Follows m pre dir f)
    (hw : resolve m cs dir f = .found dir' f') : Follows m (pre ++ cs) dir' f' := by
  induction cs generalizing pre dir f with
  | nil =>
    cases hw
    rw [append_nil]
    exact h
  | cons c cs ih =>
    unfold resolve at hw
    split at hw
    · cases hw
    · split at hw
      · cases hw
      · rename_i hdir
        cases hentry : lookupIn m f c with
        | some g =>
          rw [hentry] at hw
          rw [append_cons]
          exact ih (h.entry (not_not.mp hdir) hentry) hw
        | none =>
          rw [hentry] at hw
          dsimp only at hw
          split at hw <;> cases hw

/-- The result of `walk_path` for a path with the components `cs`. -/
structure Resolved (m : Image) (cs : List (List Byte)) (w : Walk) : Prop where
  found : Short cs → ∀ dir f, w = .found dir f ↔ Follows m cs dir f
  missing : ∀ pre c dir d, cs = pre ++ [c] → Short cs → Follows m pre dir d →
    fType m d = ftypeDir → lookupIn m d c = none → w = .missing d c
  notFound : ∀ pre c post dir d, cs = pre ++ c :: post → Short (pre ++ [c]) →
    Follows m pre dir d → fType m d ≠ ftypeDir ∨ lookupIn m d c = none ∧ post ≠ [] →
    w = .failed (-eNotFound)
  tooLong : ∀ pre c post dir d, cs = pre ++ c :: post → Short pre → Follows m pre dir d →
    maxnamelen ≤ c.length → w = .failed (-eBadPath)

theorem resolved_resolve (m : Image) (cs : List (List Byte)) :
    Resolved m cs (resolve m cs none sRoot) := by
  refine ⟨fun hshort dir f => ⟨fun hw => ?_, fun h => ?_⟩, ?_, ?_, ?_⟩
  · exact Follows.root.of_resolve hw
  · rw [← append_nil cs, h.resolve_append hshort]
    rfl
  · rintro pre c dir d rfl hshort h hdir hnone
    obtain ⟨hpre, hc⟩ := short_append.mp hshort
    rw [h.resolve_append hpre, resolve, if_neg (Nat.not_le.mpr (short_cons.mp hc).1),
      if_neg (not_not.mpr hdir), hnone]
    rfl
  · rintro pre c post dir d rfl hshort h hwhy
    obtain ⟨hpre, hc⟩ := short_append.mp hshort
    rw [h.resolve_append hpre, resolve, if_neg (Nat.not_le.mpr (short_cons.mp hc).1)]
    rcases hwhy with hdir | ⟨hnone, hpost⟩
    · rw [if_pos hdir]
    · rw [hnone]
      dsimp only
      rw [if_neg hpost, ite_self]
  · rintro pre c post dir d rfl hpre h hlong
    rw [h.resolve_append hpre, resolve, if_pos hlong]

/-- `walk_path` resolves every path, and paths with the same components alike. -/
theorem walkPath_resolved (h : DirTree F s.mem) (path : List Byte) :
    ∃ w s', walkPath path s = .ret w s' ∧ s'.seen = s.seen ∧ Resolved s.mem (components path) w ∧
      ∀ path', components path' = components path → ∃ s'', walkPath path' s = .ret w s'' := by
  have hw : ∀ path', ∃ s'',
      walkPath path' s = .ret (resolve s.mem (components path') none sRoot) s'' ∧
        s''.seen = s.seen := by
    intro path'
    rw [← walkIn_eq_resolve]
    exact walkPath_runs (show DirTree F s.seen.mem from h) path' s rfl
  obtain ⟨s', hrun, hseen⟩ := hw path
  refine ⟨_, s', hrun, hseen, resolved_resolve .., fun path' hsame => ?_⟩
  obtain ⟨s'', hrun', -⟩ := hw path'
  rw [hsame] at hrun'
  exact ⟨s'', hrun'⟩

/-- The path `//x/` on a disk without a file of this name. -/
theorem walkPath_resolved_slashes : ∃ s', walkPath [slash, slash, 120, slash] smallFs =
    .ret (.missing sRoot [120]) s' := by
  obtain ⟨w, s', hrun, -, hres, -⟩ := walkPath_resolved smallImage_tree.dirTree
    [slash, slash, 120, slash]
  have hw : w = .missing sRoot [120] := hres.missing [] [120] none sRoot (by decide) ?_ .root ?_ ?_
  · exact ⟨s', hw ▸ hrun⟩
  · intro c hc
    rw [show components _ = [[120]] by decide, mem_singleton] at hc
    rw [hc]
    decide
  · decide
  · decide +kernel

end Jos
