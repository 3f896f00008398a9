import SuiteRunner.Toml.Reader

/-!
# No key comes twice

A statement that would give a name a second value is refused, so the fields of a document have
different names, and a name has one value.

* `Keeps`: a change of a table that leaves its names different; going down a path is one
  (`keeps_descend`), whatever is changed at its end;
* **`distinct_of_ofText?`**: the fields of a document have different names.
-/

namespace SuiteRunner.Toml

/-- The names of the fields are different. -/
def Fields.Distinct (fs : Fields) : Prop := (fs.map Prod.fst).Nodup

variable {fs fs' : Fields} {k : Key} {v : Value}

theorem distinct_extend (hfs : fs.Distinct) (h : fs.lookup k = none) :
    (fs.extend k v).Distinct := by
  unfold Fields.Distinct Fields.extend
  rw [List.map_append, List.nodup_append]
  refine ⟨hfs, by simp, ?_⟩
  intro a ha b hb hab
  obtain ⟨f, hf, rfl⟩ := List.mem_map.mp ha
  have hfk : f.1 = k := hab.trans (List.mem_singleton.mp hb)
  have hne := List.lookup_eq_none_iff.mp h f hf
  rw [hfk, bne_self_eq_false] at hne
  cases hne

theorem distinct_replace (hfs : fs.Distinct) (k : Key) (v : Value) : (fs.replace k v).Distinct := by
  have hkeys : (fs.replace k v).map Prod.fst = fs.map Prod.fst := by
    unfold Fields.replace
    rw [List.map_map]
    refine List.map_congr_left fun f _ => ?_
    by_cases hf : f.1 = k <;> simp [hf]
  unfold Fields.Distinct
  rw [hkeys]
  exact hfs

/-- A change leaves different names different. -/
def Keeps (change : Origin → Fields → Option Fields) : Prop :=
  ∀ o fs fs', fs.Distinct → change o fs = some fs' → fs'.Distinct

theorem keeps_put (viaDots : Bool) (k : Key) (v : Value) : Keeps (put viaDots k v) := by
  intro o fs fs' hfs h
  unfold put at h
  split at h
  · cases h
  · split at h
    · cases h
    · rename_i hk
      cases h
      exact distinct_extend hfs (Option.not_isSome_iff_eq_none.mp hk)

theorem keeps_openTable (k : Key) : Keeps (openTable k) := by
  intro o fs fs' hfs h
  unfold openTable at h
  split at h
  · rename_i hk
    cases h
    exact distinct_extend hfs hk
  · cases h
    exact distinct_replace hfs k _
  · cases h

theorem keeps_openRow (k : Key) : Keeps (openRow k) := by
  intro o fs fs' hfs h
  unfold openRow at h
  split at h
  · rename_i hk
    cases h
    exact distinct_extend hfs hk
  · cases h
    exact distinct_replace hfs k _
  · cases h

/-- **A change further down leaves the names on top as they are**, or adds one that is new. -/
theorem keeps_descend {dotted : Bool} {change : Origin → Fields → Option Fields}
    (hchange : Keeps change) (path : List Key) : Keeps (descend dotted change path) := by
  intro o fs fs' hfs h
  cases path with
  | nil => exact hchange o fs fs' hfs h
  | cons k ks =>
    unfold descend at h
    split at h
    · rename_i hk
      obtain ⟨sub, -, rfl⟩ := Option.map_eq_some_iff.mp h
      exact distinct_extend hfs hk
    · split at h
      · cases h
      · obtain ⟨sub, -, rfl⟩ := Option.map_eq_some_iff.mp h
        exact distinct_replace hfs k _
    · split at h
      · cases h
      · obtain ⟨row, -, rfl⟩ := Option.map_eq_some_iff.mp h
        exact distinct_replace hfs k _
    · cases h

/-- **No statement gives a name a second value.** -/
theorem distinct_step {p p' : Progress} {s : Statement} (hp : p.fields.Distinct)
    (h : p.step s = some p') : p'.fields.Distinct := by
  cases s with
  | assign path k v =>
    obtain ⟨fs, hfs, rfl⟩ := Option.map_eq_some_iff.mp h
    exact keeps_descend (keeps_descend (keeps_put _ k v) path) _ _ _ fs hp hfs
  | header path k =>
    obtain ⟨fs, hfs, rfl⟩ := Option.map_eq_some_iff.mp h
    exact keeps_descend (keeps_openTable k) _ _ _ fs hp hfs
  | arrayHeader path k =>
    obtain ⟨fs, hfs, rfl⟩ := Option.map_eq_some_iff.mp h
    exact keeps_descend (keeps_openRow k) _ _ _ fs hp hfs

theorem distinct_steps {ss : List Statement} {p p' : Progress} (hp : p.fields.Distinct)
    (h : ss.foldlM Progress.step p = some p') : p'.fields.Distinct := by
  induction ss generalizing p with
  | nil =>
    cases h
    exact hp
  | cons s ss ih =>
    rw [List.foldlM_cons] at h
    obtain ⟨q, hq, hrest⟩ := Option.bind_eq_some_iff.mp h
    exact ih (distinct_step hp hq) hrest

/-- **The fields of a document have different names.** -/
theorem distinct_of_ofText? {cs : List Char} (h : ofText? cs = some fs) : fs.Distinct := by
  obtain ⟨ss, -, hss⟩ := Option.bind_eq_some_iff.mp h
  obtain ⟨p, hp, rfl⟩ := Option.map_eq_some_iff.mp hss
  have hnil : Fields.Distinct [] := List.nodup_nil
  exact distinct_steps (p := ⟨[], []⟩) hnil hp

end SuiteRunner.Toml
