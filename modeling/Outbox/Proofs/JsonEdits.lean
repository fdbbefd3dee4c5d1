import Outbox.Proofs.JsonRecords
import Mathlib.Logic.Function.Basic

/-!
Edits of a record whose fields all have defaults, and what they do to the value that is read
(`Edits.read`): nothing, but for the fields whose keys are removed, which get their defaults.
-/

namespace Outbox.Json

variable {α : Type} {names : List String} {reset : String → α → α}
  {within : String → Json → Json → (α → α) → Prop} {ms : List (Option String × Json)}

/-- One edit of a record with fields of these names, and what it does to the value that is read:
`reset` puts the default in the place of a field, and `within` are the edits of the values of fields
that are records themselves. -/
inductive Edit (names : List String) (reset : String → α → α)
    (within : String → Json → Json → (α → α) → Prop) : Json → Json → (α → α) → Prop
  | permute {ms ms' : List (Option String × Json)} (same : ms.Perm ms') :
    Edit names reset within (.object ms) (.object ms') id
  | add (before after : List (Option String × Json)) {k : String} (v : Json) (unknown : k ∉ names) :
    Edit names reset within (.object (before ++ after)) (.object (before ++ (some k, v) :: after)) id
  /-- What stands under an unknown key may be edited in any way. -/
  | replace (before after : List (Option String × Json)) {k : String} (v w : Json)
    (unknown : k ∉ names) :
    Edit names reset within (.object (before ++ (some k, v) :: after))
      (.object (before ++ (some k, w) :: after)) id
  | remove (ms : List (Option String × Json)) (k : String) :
    Edit names reset within (.object ms) (.object (ms.filter (·.1 ≠ some k))) (reset k)
  | member (before after : List (Option String × Json)) {k : String} {v w : Json} {g : α → α}
    (inside : within k v w g) :
    Edit names reset within (.object (before ++ (some k, v) :: after))
      (.object (before ++ (some k, w) :: after)) g
  /-- The value of a field in a record of fields in order. -/
  | element {vs : List Json} {i : Nat} {k : String} {v w : Json} {g : α → α} (named : names[i]? = some k)
    (here : vs[i]? = some v) (inside : within k v w g) :
    Edit names reset within (.array vs) (.array (vs.set i w)) g

/-- No field is a record itself. -/
inductive Flat : String → Json → Json → (α → α) → Prop

inductive Edits (names : List String) (reset : String → α → α)
    (within : String → Json → Json → (α → α) → Prop) : Json → Json → (α → α) → Prop
  | none (j : Json) : Edits names reset within j j id
  | more {j j' j'' : Json} {f g : α → α} (first : Edits names reset within j j' f)
    (last : Edit names reset within j' j'' g) : Edits names reset within j j'' (g ∘ f)

/-! ### What an edit does to the fields that are found -/

def fieldKeys (names : List String) (keys : List (Option String)) : List String :=
  keys.filterMap (Option.filter (· ∈ names))

theorem keys_known (names : List String) (ms : List (Option String × Json)) :
    (known names ms).map (·.1) = fieldKeys names (ms.map (·.1)) := by
  unfold known fieldKeys
  rw [List.map_filterMap, List.filterMap_map]
  refine List.filterMap_congr fun (key, v) _ => ?_
  cases key with
  | none => rfl
  | some k =>
    by_cases named : k ∈ names
    · simp [Option.filter, named]
    · simp [Option.filter, named]

/-- The keys of an object that can be read as a record: all have a text, and no field stands twice. -/
def Acceptable (names : List String) (keys : List (Option String)) : Prop :=
  (∀ key ∈ keys, key.isSome) ∧ (fieldKeys names keys).Nodup

theorem exists_fields?_object :
    (∃ f, (Json.object ms).fields? names = some f) ↔ Acceptable names (ms.map (·.1)) := by
  constructor
  · rintro ⟨f, fields⟩
    obtain ⟨texts, unique, -⟩ := fields?_object_eq_some.mp fields
    exact ⟨by simpa using texts, keys_known names ms ▸ unique⟩
  · rintro ⟨texts, unique⟩
    exact ⟨_, fields?_object_eq_some.mpr ⟨by simpa using texts, keys_known names ms ▸ unique, rfl⟩⟩

namespace Acceptable

variable {keys keys' before after : List (Option String)}

theorem perm (ok : Acceptable names keys) (same : keys.Perm keys') : Acceptable names keys' :=
  ⟨fun key member => ok.1 key (same.mem_iff.mpr member), (same.filterMap _).nodup ok.2⟩

theorem sublist (ok : Acceptable names keys) (fewer : keys'.Sublist keys) : Acceptable names keys' :=
  ⟨fun key member => ok.1 key (fewer.subset member), (fewer.filterMap _).nodup ok.2⟩

theorem insert (ok : Acceptable names (before ++ after)) {k : String} (unknown : k ∉ names) :
    Acceptable names (before ++ some k :: after) := by
  refine ⟨fun key member => ?_, ?_⟩
  · rcases List.mem_append.mp member with early | late
    · exact ok.1 key (List.mem_append_left _ early)
    · rcases List.mem_cons.mp late with rfl | late
      · rfl
      · exact ok.1 key (List.mem_append_right _ late)
  · have skipped : fieldKeys names (before ++ some k :: after) = fieldKeys names (before ++ after) := by
      simp [fieldKeys, Option.filter, unknown]
    exact skipped ▸ ok.2

end Acceptable

variable {f : Fields} {before after : List (Option String × Json)} {k : String} {v w : Json}

/-- Members with acceptable keys can be read, and a field is found as before if the members under its
name are the same as before. -/
theorem exists_fields?_of_same {ms' : List (Option String × Json)}
    (fields : (Json.object ms).fields? names = some f) (keys : Acceptable names (ms'.map (·.1))) :
    ∃ f', (Json.object ms').fields? names = some f' ∧
      ∀ n, (n ∈ names → ∀ v, (some n, v) ∈ ms' ↔ (some n, v) ∈ ms) → f'.find? n = f.find? n := by
  obtain ⟨f', fields'⟩ := exists_fields?_object.mpr keys
  refine ⟨f', fields', fun n same => Option.ext fun v => ?_⟩
  rw [find?_object fields', find?_object fields]
  exact and_congr_right fun named => same named v

theorem fields?_permute {ms' : List (Option String × Json)}
    (fields : (Json.object ms).fields? names = some f) (same : ms.Perm ms') :
    ∃ f', (Json.object ms').fields? names = some f' ∧ f'.find? = f.find? := by
  have keys := exists_fields?_object.mp ⟨f, fields⟩
  obtain ⟨f', fields', found⟩ := exists_fields?_of_same fields (keys.perm (same.map (·.1)))
  exact ⟨f', fields', funext fun n => found n fun _ v => same.symm.mem_iff⟩

theorem fields?_add (fields : (Json.object (before ++ after)).fields? names = some f)
    (unknown : k ∉ names) :
    ∃ f', (Json.object (before ++ (some k, v) :: after)).fields? names = some f' ∧ f'.find? = f.find? := by
  have keys := exists_fields?_object.mp ⟨f, fields⟩
  rw [List.map_append] at keys
  have inserted : Acceptable names ((before ++ (some k, v) :: after).map (·.1)) := by
    simpa using keys.insert unknown
  obtain ⟨f', fields', found⟩ := exists_fields?_of_same fields inserted
  refine ⟨f', fields', funext fun n => found n fun named w => ?_⟩
  have other : n ≠ k := fun same => unknown (same ▸ named)
  simp [other]

theorem find?_of_mem (fields : (Json.object ms).fields? names = some f) (member : (some k, v) ∈ ms) :
    f.find? k = if k ∈ names then some v else none := by
  split
  · next named => exact (find?_object fields).mpr ⟨named, member⟩
  · next unknown =>
    refine Option.eq_none_iff_forall_ne_some.mpr fun w found => ?_
    exact unknown ((find?_object fields).mp found).1

theorem fields?_replace (fields : (Json.object (before ++ (some k, v) :: after)).fields? names = some f) :
    ∃ f', (Json.object (before ++ (some k, w) :: after)).fields? names = some f' ∧
      f'.find? = Function.update f.find? k (if k ∈ names then some w else none) := by
  have keys := exists_fields?_object.mp ⟨f, fields⟩
  have replaced : Acceptable names ((before ++ (some k, w) :: after).map (·.1)) := by simpa using keys
  obtain ⟨f', fields', found⟩ := exists_fields?_of_same fields replaced
  refine ⟨f', fields', funext fun n => ?_⟩
  by_cases same : n = k
  · rw [same, Function.update_self]
    exact find?_of_mem fields' (by simp)
  · rw [Function.update_of_ne same]
    exact found n fun _ u => by simp [same]

theorem fields?_remove (fields : (Json.object ms).fields? names = some f) (k : String) :
    ∃ f', (Json.object (ms.filter (·.1 ≠ some k))).fields? names = some f' ∧
      f'.find? = Function.update f.find? k none := by
  have keys := exists_fields?_object.mp ⟨f, fields⟩
  have fewer : (ms.filter (·.1 ≠ some k)).Sublist ms := List.filter_sublist
  obtain ⟨f', fields', found⟩ := exists_fields?_of_same fields (keys.sublist (fewer.map (·.1)))
  refine ⟨f', fields', funext fun n => ?_⟩
  by_cases same : n = k
  · rw [same, Function.update_self]
    refine Option.eq_none_iff_forall_ne_some.mpr fun u there => ?_
    simpa using ((find?_object fields').mp there).2
  · rw [Function.update_of_ne same]
    exact found n fun _ u => by simp [same]

theorem fields?_element (distinct : names.Nodup) {vs : List Json} {i : Nat}
    (fields : (Json.array vs).fields? names = some f) (named : names[i]? = some k)
    (here : vs[i]? = some v) :
    ∃ f', (Json.array (vs.set i w)).fields? names = some f' ∧ f.find? k = some v ∧
      f'.find? = Function.update f.find? k (some w) := by
  have fits := (fields?_array_eq_some.mp fields).1
  have inside : i < vs.length := (List.getElem?_eq_some_iff.mp here).1
  have fields' : (Json.array (vs.set i w)).fields? names = some ⟨true, names.zip (vs.set i w)⟩ :=
    fields?_array_eq_some.mpr ⟨by simpa using fits, rfl⟩
  refine ⟨_, fields', (find?_array distinct fields).mpr ⟨i, named, here⟩, funext fun n => ?_⟩
  by_cases same : n = k
  · rw [same, Function.update_self]
    exact (find?_array distinct fields').mpr ⟨i, named, by simp [inside]⟩
  · rw [Function.update_of_ne same]
    refine Option.ext fun u => ?_
    rw [find?_array distinct fields', find?_array distinct fields]
    refine exists_congr fun i' => and_congr_right fun named' => ?_
    have other : i ≠ i' := fun h => same (by simpa [h, named'] using named)
    rw [List.getElem?_set_ne other]

/-- A reader of records: what it reads is decided by what is found under the names of the fields.
`given` says which value is read from what is found. -/
structure ReadsFields (names : List String) (read? : Json → Option α) (reset : String → α → α)
    (within : String → Json → Json → (α → α) → Prop)
    (given : (String → Option Json) → α → Prop) : Prop where
  distinct : names.Nodup
  named {k : String} {x y : Json} {g : α → α} : within k x y g → k ∈ names
  read_iff {j : Json} {v : α} : read? j = some v ↔ ∃ f, j.fields? names = some f ∧ given f.find? v
  removed {find : String → Option Json} {v : α} (k : String) :
    given find v → given (Function.update find k none) (reset k v)
  inside {find : String → Option Json} {v : α} {k : String} {x y : Json} {g : α → α} :
    within k x y g → find k = some x → given find v → given (Function.update find k (some y)) (g v)

variable {read? : Json → Option α} {given : (String → Option Json) → α → Prop}

theorem Edit.read {j j' : Json} {g : α → α} {v : α} (reads : ReadsFields names read? reset within given)
    (edit : Edit names reset within j j' g) (read : read? j = some v) : read? j' = some (g v) := by
  obtain ⟨f, fields, found⟩ := reads.read_iff.mp read
  suffices ∃ f', j'.fields? names = some f' ∧ given f'.find? (g v) from reads.read_iff.mpr this
  cases edit with
  | permute same =>
    obtain ⟨f', fields', kept⟩ := fields?_permute fields same
    exact ⟨f', fields', kept ▸ found⟩
  | add before after v unknown =>
    obtain ⟨f', fields', kept⟩ := fields?_add fields unknown
    exact ⟨f', fields', kept ▸ found⟩
  | replace before after v w unknown =>
    obtain ⟨f', fields', changed⟩ := fields?_replace fields
    have absent := find?_of_mem fields (List.mem_append_right _ List.mem_cons_self)
    rw [if_neg unknown] at absent changed
    rw [← absent, Function.update_eq_self] at changed
    exact ⟨f', fields', changed ▸ found⟩
  | remove ms k =>
    obtain ⟨f', fields', gone⟩ := fields?_remove fields k
    exact ⟨f', fields', gone ▸ reads.removed k found⟩
  | member before after inside =>
    obtain ⟨f', fields', changed⟩ := fields?_replace fields
    have held := find?_of_mem fields (List.mem_append_right _ List.mem_cons_self)
    rw [if_pos (reads.named inside)] at held changed
    exact ⟨f', fields', changed ▸ reads.inside inside held found⟩
  | element named here inside =>
    obtain ⟨f', fields', held, changed⟩ := fields?_element reads.distinct fields named here
    exact ⟨f', fields', changed ▸ reads.inside inside held found⟩

theorem Edits.read {j j' : Json} {g : α → α} {v : α} (reads : ReadsFields names read? reset within given)
    (edits : Edits names reset within j j' g) (read : read? j = some v) : read? j' = some (g v) := by
  induction edits with
  | none => exact read
  | more first last ih =>
    rw [Function.comp_apply]
    exact last.read reads ih

end Outbox.Json
