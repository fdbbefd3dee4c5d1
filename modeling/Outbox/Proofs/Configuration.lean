import Mathlib
import Outbox.Item.Json
import Outbox.Sql.Mapping
import Outbox.Proofs.InstantText
import Outbox.Proofs.SettingsTexts

/-!
All that is configured or stored as JSON text survives it (`texts_roundtrip`): settings, mappings and
the status of rows.
-/

namespace Outbox

open Json

/-! ### Mappings -/

namespace Sql.Mapping

def fieldNames : List String :=
  ["schema", "table", "id", "status", "retry_count", "retry_after", "priority"]

def reset (name : String) (m : Mapping) : Mapping :=
  let default : Mapping := {}
  { schema := if "schema" = name then default.schema else m.schema
    table := if "table" = name then default.table else m.table
    id := if "id" = name then default.id else m.id
    status := if "status" = name then default.status else m.status
    retryCount := if "retry_count" = name then default.retryCount else m.retryCount
    retryAfter := if "retry_after" = name then default.retryAfter else m.retryAfter
    priority := if "priority" = name then default.priority else m.priority }

def Edits : Json → Json → (Mapping → Mapping) → Prop := Json.Edits fieldNames reset Flat

structure Given (find : String → Option Json) (m : Mapping) : Prop where
  schema : valueOr (find "schema") (Json.option? Json.string?) ({} : Mapping).schema = some m.schema
  table : valueOr (find "table") Json.string? ({} : Mapping).table = some m.table
  id : valueOr (find "id") Json.string? ({} : Mapping).id = some m.id
  status : valueOr (find "status") Json.string? ({} : Mapping).status = some m.status
  retryCount : valueOr (find "retry_count") Json.string? ({} : Mapping).retryCount = some m.retryCount
  retryAfter : valueOr (find "retry_after") Json.string? ({} : Mapping).retryAfter = some m.retryAfter
  priority : valueOr (find "priority") Json.string? ({} : Mapping).priority = some m.priority

theorem ofJson?_eq_some {j : Json} {m : Mapping} :
    ofJson? j = some m ↔ ∃ f, j.fields? fieldNames = some f ∧ Given f.find? m := by
  simp only [ofJson?, Option.bind_eq_bind, Option.bind_eq_some_iff, Option.some.injEq]
  constructor
  · rintro ⟨f, fields, _, schema, _, table, _, id, _, status, _, count, _, after, _, priority, rfl⟩
    exact ⟨f, fields, schema, table, id, status, count, after, priority⟩
  · rintro ⟨f, fields, given⟩
    exact ⟨f, fields, _, given.schema, _, given.table, _, given.id, _, given.status, _,
      given.retryCount, _, given.retryAfter, _, given.priority, rfl⟩

theorem readsFields : ReadsFields fieldNames ofJson? reset Flat Given where
  distinct := by decide
  named := nofun
  read_iff := ofJson?_eq_some
  removed k given :=
    { schema := valueOr_removed given.schema k
      table := valueOr_removed given.table k
      id := valueOr_removed given.id k
      status := valueOr_removed given.status k
      retryCount := valueOr_removed given.retryCount k
      retryAfter := valueOr_removed given.retryAfter k
      priority := valueOr_removed given.priority k }
  inside := nofun

theorem ofJson?_json (m : Mapping) : ofJson? m.json = some m := by
  have schema : option? Json.string? (ofOption Json.ofString m.schema) = some m.schema :=
    option?_ofOption string?_ofString (by simp [ofString]) m.schema
  refine ofJson?_eq_some.mpr ⟨_, fields?_record (by decide) rfl, ?_⟩
  constructor <;> simp [Fields.find?, List.lookup_cons, valueOr, schema]

theorem written_json (m : Mapping) : Written m.json := by
  refine .record fun e member => ?_
  simp only [List.mem_cons, List.not_mem_nil, or_false] at member
  rcases member with rfl | rfl | rfl | rfl | rfl | rfl | rfl
  · exact .option .string _
  all_goals exact .string _

end Sql.Mapping

/-! ### Status -/

theorem Status.ofJson?_json (s : Status) : ofJson? s.json = some s :=
  named?_ofString (by cases s <;> decide) (by decide)

theorem Instant.ofJson?_json (t : Instant) : ofJson? t.json = some t := by
  rw [ofJson?, Instant.json, string?_ofString, Option.bind_some, ofText?_text]

namespace StatusFields

theorem ofJson?_json (f : StatusFields) : ofJson? f.json = some f := by
  have count : option? Json.int32? (ofOption (fun n => ofInt n.toInt) f.retryCount) = some f.retryCount :=
    option?_ofOption int32?_ofInt (by simp [ofInt]) f.retryCount
  have after : option? Instant.ofJson? (ofOption Instant.json f.retryAfter) = some f.retryAfter :=
    option?_ofOption Instant.ofJson?_json (by simp [Instant.json, ofString]) f.retryAfter
  have fields : f.json.fields? fieldNames = some _ := fields?_record (by decide) rfl
  simp [ofJson?, fields, Fields.required?, Fields.nullable?, Fields.find?, List.lookup_cons,
    Status.ofJson?_json, count, after]

theorem written_json (f : StatusFields) : Written f.json := by
  refine .record fun e member => ?_
  simp only [List.mem_cons, List.not_mem_nil, or_false] at member
  rcases member with rfl | rfl | rfl
  · exact .string _
  · exact .option (fun n : Int32 => .int n.toInt) _
  · exact .option (fun t : Instant => .string t.text) _

end StatusFields

/-! ### Texts -/

/-- How the values of a type are kept as JSON. -/
structure Format (α : Type) where
  json : α → Json
  ofJson? : Json → Option α

namespace Format

variable {α : Type}

def write (F : Format α) (v : α) : String := (F.json v).text

def read? (F : Format α) (s : String) : Option α := (parse? s).bind F.ofJson?

/-- The values that fit are read back from what is written for them, and what is read from any text
is read again from what is written for it. -/
def RoundTrips (F : Format α) (fits : α → Prop) : Prop :=
  (∀ v, fits v → F.read? (F.write v) = some v) ∧
    ∀ s v, F.read? s = some v → F.read? (F.write v) = some v

/-- Where one text is read and another has the same JSON but for edits, that is read too, and the
values differ by what the edits do. -/
def Follows (F : Format α) (edits : Json → Json → (α → α) → Prop) : Prop :=
  ∀ s s' j j' g v, F.read? s = some v → parse? s = some j → edits j j' g → parse? s' = some j' →
    F.read? s' = some (g v)

theorem roundTrips {F : Format α} {fits : α → Prop} (written : ∀ v, Written (F.json v))
    (back : ∀ {v}, fits v → F.ofJson? (F.json v) = some v) (read : ∀ {j v}, F.ofJson? j = some v → fits v) :
    F.RoundTrips fits := by
  have all : ∀ v, fits v → F.read? (F.write v) = some v := fun v ok => by
    rw [read?, write, parse?_text (written v), Option.bind_some, back ok]
  refine ⟨all, fun s v held => all v ?_⟩
  obtain ⟨j, -, held⟩ := Option.bind_eq_some_iff.mp held
  exact read held

theorem follows {F : Format α} {names : List String} {reset : String → α → α}
    {within : String → Json → Json → (α → α) → Prop} {given : (String → Option Json) → α → Prop}
    (reads : ReadsFields names F.ofJson? reset within given) :
    F.Follows (Json.Edits names reset within) := by
  intro s s' j j' g v held parsed edits parsed'
  rw [read?, parsed, Option.bind_some] at held
  rw [read?, parsed', Option.bind_some, edits.read reads held]

end Format

def RetrySettings.format : Format RetrySettings := ⟨json, ofJson?⟩

def PartitionSettings.format : Format PartitionSettings := ⟨json, ofJson?⟩

def Options.format : Format Options := ⟨json, ofJson?⟩

def Sql.Mapping.format : Format Sql.Mapping := ⟨json, ofJson?⟩

def StatusFields.format : Format StatusFields := ⟨json, ofJson?⟩

/-- Durations have to be whole milliseconds to be read back from their text; everything else always
is. A text is read as the same value wherever its keys stand and whatever stands under unknown ones,
in the options and in the settings inside them, and a key that is removed leaves a default. An object
that spells a named value by its only key is no record: there is nothing in it to leave out or move. -/
theorem texts_roundtrip :
    Options.format.RoundTrips Options.InMillis ∧
    RetrySettings.format.RoundTrips RetrySettings.InMillis ∧
    PartitionSettings.format.RoundTrips PartitionSettings.InMillis ∧
    Sql.Mapping.format.RoundTrips (fun _ => True) ∧
    StatusFields.format.RoundTrips (fun _ => True) ∧
    Options.format.Follows Options.Edits ∧
    RetrySettings.format.Follows RetrySettings.Edits ∧
    PartitionSettings.format.Follows PartitionSettings.Edits ∧
    Sql.Mapping.format.Follows Sql.Mapping.Edits :=
  ⟨Format.roundTrips Options.written_json Options.ofJson?_json Options.inMillis_of_read,
    Format.roundTrips RetrySettings.written_json RetrySettings.ofJson?_json RetrySettings.inMillis_of_read,
    Format.roundTrips PartitionSettings.written_json PartitionSettings.ofJson?_json
      PartitionSettings.inMillis_of_read,
    Format.roundTrips Sql.Mapping.written_json (fun _ => Sql.Mapping.ofJson?_json _) (fun _ => trivial),
    Format.roundTrips StatusFields.written_json (fun _ => StatusFields.ofJson?_json _) (fun _ => trivial),
    Format.follows Options.readsFields, Format.follows RetrySettings.readsFields,
    Format.follows PartitionSettings.readsFields, Format.follows Sql.Mapping.readsFields⟩

/-- A text of options that gives a worker type and two fields of the retry settings. -/
def strictText : String :=
  "\x7b\"retry\":\x7b\"retry_delay\":7,\"is_enabled\":false\x7d, \"worker_type\":\"StrictOrdering\"\x7d"

/-- The same text with its members moved, an unknown key more and one field of the retry settings less. -/
def strictTextEdited : String :=
  "\x7b\"note\":[null],\"worker_type\":\"StrictOrdering\",\"retry\":\x7b\"is_enabled\":false\x7d\x7d"

def strictOptions : Options :=
  { workerType := .strictOrdering, retry := { isEnabled := false, delay := .ofMillis 7 } }

theorem parse?_strictText : parse? strictText = some (.object
    [(some "retry", .object [(some "retry_delay", .number ['7']), (some "is_enabled", .bool false)]),
      (some "worker_type", .string (some "StrictOrdering"))]) := by cbv

theorem parse?_strictTextEdited : parse? strictTextEdited = some (.object
    [(some "note", .array [.null]), (some "worker_type", .string (some "StrictOrdering")),
      (some "retry", .object [(some "is_enabled", .bool false)])]) := by cbv

theorem texts_roundtrip_strict :
    Options.format.read? (Options.format.write strictOptions) = some strictOptions ∧
      Options.format.read? strictTextEdited =
        some { strictOptions with retry := { isEnabled := false, delay := .ofMillis 3000 } } := by
  have whole : strictOptions.InMillis := ⟨⟨_, rfl⟩, ⟨⟨_, rfl⟩, ⟨_, rfl⟩⟩, ⟨_, rfl⟩⟩
  have held : Options.format.read? strictText = some strictOptions := by
    rw [Format.read?, parse?_strictText]
    decide +kernel
  have delay : RetrySettings.Edits
      (.object [(some "retry_delay", .number ['7']), (some "is_enabled", .bool false)])
      (.object [(some "is_enabled", .bool false)]) _ := .more (.none _) (.remove _ "retry_delay")
  have inside : Edit Options.fieldNames Options.reset Options.Within _ _ _ :=
    .member [] [(some "worker_type", .string (some "StrictOrdering"))] (.retry delay)
  have unknown : "note" ∉ Options.fieldNames := by decide
  have edits := Edits.more (.more (.more (.none _) inside) (.permute (.swap ..)))
    (.add [] _ (.array [.null]) unknown)
  exact ⟨texts_roundtrip.1.1 _ whole,
    texts_roundtrip.2.2.2.2.2.1 _ _ _ _ _ _ held parse?_strictText edits parse?_strictTextEdited⟩

end Outbox
