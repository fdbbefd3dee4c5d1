import Outbox.Proofs.Lexing

/-!
The texts of the statements as a database reads them. Each has the tokens of its form, with a quoted name
for each name of the mapping, and places for the values that are sent beside it (`statements_read`).
-/

namespace Outbox.Sql

/-- What the form of a statement leaves open: names, and the bounds of a partition. -/
inductive Site where
  | schema | table | id | status | retryCount | retryAfter | priority | partition | low | high
  deriving DecidableEq

inductive Slot where
  | fixed (token : Token)
  | site (site : Site)
  deriving DecidableEq

namespace Slot

def fixed? : Slot → Option Token
  | .fixed token => some token
  | .site _ => none

def site? : Slot → Option Site
  | .fixed _ => none
  | .site own => some own

def token (fill : Site → Token) : Slot → Token
  | .fixed token => token
  | .site own => fill own

def words (texts : List String) : List Slot := texts.map fun text => .fixed (.word text)

def symbol (text : String) : Slot := .fixed (.symbol text)

def place (n : Nat) : Slot := .fixed (.place n)

/-- A table or a partition, with its schema or without. -/
def relation (qualified : Bool) (own : Site) : List Slot :=
  if qualified then [.site .schema, symbol ".", .site own] else [.site own]

def listed (parts : List (List Slot)) : List Slot := List.intercalate [symbol ","] parts

def bracketed (slots : List Slot) : List Slot := symbol "(" :: slots ++ [symbol ")"]

/-- The rows whose ids are sent as the first value. -/
def sentIds : List Slot := [.site .id, symbol "="] ++ words ["ANY"] ++ bracketed [place 1]

/-- A column's new value, from the column of the rows that were sent. -/
def taken (own : Site) (column : String) : List Slot :=
  [.site own, symbol "="] ++ words ["u"] ++ symbol "." :: words [column]

def array (n : Nat) (type : String) : List Slot :=
  [place n, symbol "::"] ++ words [type] ++ [symbol "[", symbol "]"]

end Slot

namespace Statement

def partition? : Statement → Option String
  | createPartition range => some range.name
  | detachPartition partition | dropPartition partition => some partition
  | _ => none

def bounds? : Statement → Option (ItemId × ItemId)
  | createPartition range => some (range.low, range.high)
  | _ => none

def fill (m : Mapping) (s : Statement) : Site → Token
  | .schema => .name (m.schema.getD "")
  | .table => .name m.table
  | .id => .name m.id
  | .status => .name m.status
  | .retryCount => .name m.retryCount
  | .retryAfter => .name m.retryAfter
  | .priority => .name m.priority
  | .partition => .name (s.partition?.getD "")
  | .low => .literal ((s.bounds?.map (·.1.uuid)).getD "")
  | .high => .literal ((s.bounds?.map (·.2.uuid)).getD "")

open Slot

def fetchForm (qualified : Bool) (features : Features) (mode : Mode) : List Slot :=
  words ["SELECT"] ++ symbol "*" :: words ["FROM"] ++ relation qualified .table
    ++ (if features.status then
        words ["WHERE"]
          ++ bracketed (.site .retryAfter :: words ["IS", "NULL", "OR"]
            ++ [.site .retryAfter, symbol "<=", place 1])
          ++ if mode.partitioned then words ["AND"] ++ [.site .status, symbol "<>"] ++ words ["3"] else []
      else [])
    ++ words ["ORDER", "BY"]
    ++ listed ((if features.priority then [.site .priority :: words ["DESC"]] else [])
      ++ [.site .id :: words ["ASC"]]
      ++ if features.status then [.site .retryAfter :: words ["ASC"]] else [])
    ++ words ["LIMIT"] ++ [place (if features.status then 2 else 1)] ++ words ["FOR", "UPDATE"]
    ++ words (match mode.lock with
      | .skipLocked => ["SKIP", "LOCKED"]
      | .noWait => ["NOWAIT"])

def writeForm (qualified : Bool) : List Slot :=
  words ["UPDATE"] ++ relation qualified .table ++ words ["AS", "t", "SET"]
    ++ listed [taken .status "status", taken .retryCount "retry_count", taken .retryAfter "retry_after"]
    ++ words ["FROM", "UNNEST"]
    ++ bracketed (listed [array 1 "uuid", array 2 "int4", array 3 "int4", array 4 "timestamptz"])
    ++ words ["AS", "u"]
    ++ bracketed (listed [words ["id"], words ["status"], words ["retry_count"], words ["retry_after"]])
    ++ words ["WHERE", "t"] ++ symbol "." :: taken .id "id"

/-- The form of a statement: all of its tokens, but for the names and bounds. -/
def form (qualified : Bool) : Statement → List Slot
  | fetch features mode _ _ => fetchForm qualified features mode
  | delete _ => words ["DELETE", "FROM"] ++ relation qualified .table ++ words ["WHERE"] ++ sentIds
  | complete _ =>
    words ["UPDATE"] ++ relation qualified .table ++ words ["SET"]
      ++ [.site .status, symbol "="] ++ words ["3", "WHERE"] ++ sentIds
  | writeStatus _ => writeForm qualified
  | chunk _ _ =>
    words ["SELECT"] ++ symbol "*" :: words ["FROM"] ++ relation qualified .table
      ++ words ["ORDER", "BY"] ++ .site .id :: words ["ASC", "LIMIT"]
      ++ place 1 :: words ["OFFSET"] ++ [place 2]
  | clear => words ["TRUNCATE"] ++ relation qualified .table
  | restart _ =>
    words ["UPDATE"] ++ relation qualified .table ++ words ["SET"]
      ++ listed [[.site .status, symbol "="] ++ words ["0"],
        [.site .retryAfter, symbol "="] ++ words ["NULL"]]
      ++ words ["WHERE"] ++ sentIds
  | createPartition _ =>
    words ["CREATE", "TABLE", "IF", "NOT", "EXISTS"] ++ relation qualified .partition
      ++ words ["PARTITION", "OF"] ++ relation qualified .table
      ++ words ["FOR", "VALUES", "FROM"] ++ bracketed [.site .low] ++ words ["TO"] ++ bracketed [.site .high]
  | detachPartition _ =>
    words ["ALTER", "TABLE"] ++ relation qualified .table ++ words ["DETACH", "PARTITION"]
      ++ relation qualified .partition ++ words ["CONCURRENTLY"]
  | dropPartition _ => words ["DROP", "TABLE"] ++ relation qualified .partition

/-- The statement without what is put into it. -/
def bare : Statement → Statement
  | fetch features mode _ _ => fetch features mode .epoch 0
  | delete _ => delete []
  | complete _ => complete []
  | writeStatus _ => writeStatus []
  | chunk _ _ => chunk 0 0
  | clear => clear
  | restart _ => restart []
  | createPartition _ => createPartition ⟨"", .ofNat 0, .ofNat 0⟩
  | detachPartition _ => detachPartition ""
  | dropPartition _ => dropPartition ""

/-- The tokens of a statement: those of its form, which is that of the bare statement, with a name or bound
at each site. -/
def read (m : Mapping) (s : Statement) : List Token :=
  (s.bare.form m.schema.isSome).map (Slot.token (s.fill m))

end Statement

/-!
### Names apart from the rest

Where a quotation starts and ends does not depend on what it quotes. So whether the fragments of a statement
run into one another, and what stands between its names, is seen from the bare statements, and these are few
(`bare_checked`).
-/

namespace Fragment

/-- The tokens of a fragment; a quotation is left open. -/
def slots : Fragment → List (Option Token)
  | .plain text => (Fragment.plain text).tokens.map some
  | .name _ | .literal _ => [none]

def quotation? : Fragment → Option Token
  | .plain _ => none
  | .name identifier => some (.name identifier)
  | .literal text => some (.literal text)

def bare : Fragment → Fragment
  | .plain text => .plain text
  | .name _ => .name ""
  | .literal _ => .literal ""

theorem slots_bare (f : Fragment) : f.bare.slots = f.slots := by cases f <;> rfl

/-- Where a quotation ends does not depend on what it quotes. -/
theorem apart_bare (f g : Fragment) : f.bare.apart g.bare = f.apart g := by
  have first : g.bare.first? = g.first? := by cases g <;> rfl
  unfold apart
  rw [first]
  cases f with
  | plain text => rfl
  | name _ | literal _ => cases g.first? <;> rfl

end Fragment

theorem apart_map_bare (fragments : List Fragment) :
    apart (fragments.map Fragment.bare) = apart fragments := by
  induction fragments with
  | nil => rfl
  | cons f rest ih =>
    cases rest with
    | nil => cases f <;> rfl
    | cons g rest =>
      simp only [List.map_cons, apart, Fragment.apart_bare] at ih ⊢
      rw [ih]

theorem flatMap_slots_bare (fragments : List Fragment) :
    (fragments.map Fragment.bare).flatMap Fragment.slots = fragments.flatMap Fragment.slots := by
  simp only [List.flatMap_map, Fragment.slots_bare]

/-- Puts quotations in order into the places left open for them. -/
def interleave : List (Option Token) → List Token → List Token
  | some t :: rest, quotations => t :: interleave rest quotations
  | none :: rest, q :: quotations => q :: interleave rest quotations
  | _, _ => []

theorem interleave_append (tokens : List Token) (rest : List (Option Token)) (quotations : List Token) :
    interleave (tokens.map some ++ rest) quotations = tokens ++ interleave rest quotations := by
  induction tokens with
  | nil => rfl
  | cons t tokens ih => simp [interleave, ih]

theorem flatMap_tokens (fragments : List Fragment) :
    fragments.flatMap Fragment.tokens =
      interleave (fragments.flatMap Fragment.slots) (fragments.filterMap Fragment.quotation?) := by
  induction fragments with
  | nil => rfl
  | cons f rest ih =>
    cases f with
    | plain text => rw [List.flatMap_cons, ih, List.flatMap_cons, Fragment.slots, interleave_append]; rfl
    | name _ | literal _ => rw [List.flatMap_cons, ih]; rfl

namespace Statement

theorem form_bare (qualified : Bool) (s : Statement) : s.bare.form qualified = s.form qualified := by
  cases s <;> rfl

theorem read_eq_interleave (m : Mapping) (s : Statement) :
    s.read m = interleave ((s.form m.schema.isSome).map Slot.fixed?)
      (((s.form m.schema.isSome).filterMap Slot.site?).map (s.fill m)) := by
  unfold read
  rw [form_bare]
  induction s.form m.schema.isSome with
  | nil => rfl
  | cons slot rest ih =>
    cases slot with
    | fixed token => exact congrArg (token :: ·) ih
    | site own => exact congrArg (s.fill m own :: ·) ih

def bareFetches : List Statement :=
  [true, false].flatMap fun status => [true, false].flatMap fun priority =>
    [.skipLocked, .noWait].flatMap fun lock => [true, false].map fun partitioned =>
      fetch { status, priority } { lock, partitioned } .epoch 0

def bareStatements : List Statement :=
  [delete [], complete [], writeStatus [], chunk 0 0, clear, restart [],
    createPartition ⟨"", .ofNat 0, .ofNat 0⟩, detachPartition "", dropPartition ""] ++ bareFetches

theorem bare_mem (s : Statement) : s.bare ∈ bareStatements := by
  cases s with
  | fetch features mode now limit =>
    obtain ⟨tracked, prioritised⟩ := features
    obtain ⟨lock, partitioned⟩ := mode
    cases tracked <;> cases prioritised <;> cases lock <;> cases partitioned <;>
      simp [bare, bareStatements, bareFetches]
  | _ => simp [bare, bareStatements]

def bareMapping (schema : Option String) : Mapping := ⟨schema, "", "", "", "", "", ""⟩

theorem bare_checked : ∀ schema ∈ [none, some ""], ∀ s ∈ bareStatements,
    apart (s.fragments (bareMapping schema)) ∧
    (s.fragments (bareMapping schema)).flatMap Fragment.slots = (s.form schema.isSome).map Slot.fixed? := by
  decide +kernel

theorem map_bare_fragments (m : Mapping) (s : Statement) :
    (s.fragments m).map Fragment.bare =
      (s.bare.fragments (bareMapping (m.schema.map fun _ => ""))).map Fragment.bare := by
  obtain ⟨schema, table, id, status, retryCount, retryAfter, priority⟩ := m
  cases s with
  | fetch features mode now limit =>
    obtain ⟨tracked, prioritised⟩ := features
    obtain ⟨lock, partitioned⟩ := mode
    cases schema <;> cases tracked <;> cases prioritised <;> cases partitioned <;> rfl
  | createPartition range =>
    cases schema <;>
      simp [fragments, bare, Fragment.bare, Mapping.own, Mapping.relation, bareMapping]
  | _ => cases schema <;> rfl

end Statement

/-! ### Names in order -/

theorem filterMap_intercalate {α β : Type} {f : α → Option β} {separator : List α}
    (silent : separator.filterMap f = []) (parts : List (List α)) :
    (separator.intercalate parts).filterMap f = parts.flatMap (List.filterMap f) := by
  induction parts with
  | nil => rfl
  | cons part rest ih =>
    cases rest with
    | nil => simp [List.intercalate]
    | cons next rest =>
      rw [List.intercalate_cons_cons, List.filterMap_append, List.filterMap_append, ih, silent,
        List.append_nil]
      rfl

theorem quotations_relation (m : Mapping) (name : String) :
    (m.relation name).filterMap Fragment.quotation? =
      (if m.schema.isSome then [.name (m.schema.getD "")] else []) ++ [.name name] := by
  unfold Mapping.relation
  cases m.schema <;> rfl

namespace Slot

@[simp] theorem site?_fixed (token : Token) : site? (.fixed token) = none := rfl

@[simp] theorem site?_site (own : Site) : site? (.site own) = some own := rfl

@[simp] theorem site?_symbol (text : String) : site? (symbol text) = none := rfl

@[simp] theorem site?_place (n : Nat) : site? (place n) = none := rfl

@[simp] theorem sites_words (texts : List String) : (words texts).filterMap site? = [] := by
  simp [words]

@[simp] theorem sites_listed (parts : List (List Slot)) :
    (listed parts).filterMap site? = parts.flatMap (List.filterMap site?) :=
  filterMap_intercalate rfl parts

@[simp] theorem sites_bracketed (slots : List Slot) :
    (bracketed slots).filterMap site? = slots.filterMap site? := by
  simp [bracketed, List.filterMap_cons]

end Slot

namespace Statement

open Slot

theorem fill_relation (m : Mapping) (s : Statement) (own : Site) :
    ((relation m.schema.isSome own).filterMap site?).map (s.fill m) =
      (if m.schema.isSome then [.name (m.schema.getD "")] else []) ++ [s.fill m own] := by
  cases m.schema.isSome <;> rfl

theorem quotations_fragments (m : Mapping) (s : Statement) :
    (s.fragments m).filterMap Fragment.quotation? =
      ((s.form m.schema.isSome).filterMap Slot.site?).map (s.fill m) := by
  cases s with
  | fetch features mode now limit =>
    obtain ⟨tracked, prioritised⟩ := features
    obtain ⟨lock, partitioned⟩ := mode
    cases tracked <;> cases prioritised <;> cases partitioned <;>
      simp [fragments, form, fetchForm, Mapping.own, Mapping.condition, Mapping.orderKeys,
        quotations_relation, fill_relation, Fragment.quotation?, List.filterMap_cons, fill]
  | _ =>
    simp [fragments, form, writeForm, sentIds, taken, array, Mapping.own, quotations_relation, fill_relation,
      Fragment.quotation?, List.filterMap_cons, fill, partition?, bounds?]

/-! ### Whole texts -/

theorem tokens?_text (m : Mapping) (s : Statement) : tokens? (s.text m).toList = some (s.read m) := by
  have schema : m.schema.map (fun _ => "") ∈ [none, some ""] := by cases m.schema <;> simp
  obtain ⟨separate, slots⟩ := bare_checked _ schema s.bare s.bare_mem
  have separate : apart (s.fragments m) := by
    rwa [← apart_map_bare, map_bare_fragments, apart_map_bare]
  have slots : (s.fragments m).flatMap Fragment.slots = (s.form m.schema.isSome).map Slot.fixed? := by
    rw [← flatMap_slots_bare, map_bare_fragments, flatMap_slots_bare, slots, form_bare, Option.isSome_map]
  rw [text, String.toList_ofList, tokens?_fragments separate, flatMap_tokens, slots, quotations_fragments,
    ← read_eq_interleave]

theorem place?_fill (m : Mapping) (s : Statement) (own : Site) : (s.fill m own).place? = none := by
  cases own <;> rfl

/-- The places of a statement are those of its values. -/
theorem places_read (m : Mapping) (s : Statement) :
    (s.read m).filterMap Token.place? = List.range' 1 s.values.length := by
  have places : (s.read m).filterMap Token.place? =
      (s.form m.schema.isSome).filterMap fun slot => slot.fixed?.bind Token.place? := by
    rw [read, form_bare, List.filterMap_map]
    congr 1
    funext slot
    cases slot with
    | fixed token => rfl
    | site own => exact s.place?_fill m own
  rw [places]
  cases s with
  | fetch features mode now limit =>
    obtain ⟨tracked, prioritised⟩ := features
    obtain ⟨lock, partitioned⟩ := mode
    cases m.schema <;> cases tracked <;> cases prioritised <;> cases partitioned <;> cases lock <;> rfl
  | _ => cases m.schema <;> rfl

theorem limit_infix (m : Mapping) (features : Features) (mode : Mode) (now : Instant) (limit : Nat) :
    [.word "LIMIT", .place (fetch features mode now limit).values.length] <:+:
      (fetch features mode now limit).read m := by
  have values : (fetch features mode now limit).values.length = if features.status then 2 else 1 := by
    cases status : features.status <;> simp [Statement.values, status]
  have form : words ["LIMIT"] ++ [place (fetch features mode now limit).values.length] <:+:
      (fetch features mode now limit).bare.form m.schema.isSome := by
    rw [values, bare, Statement.form, fetchForm, List.append_assoc _ (words ["FOR", "UPDATE"]),
      List.append_assoc _ (words ["LIMIT"])]
    exact List.infix_append _ _ _
  exact form.map (Slot.token _)

end Statement

/-- What a quotation stands for. -/
def unquote? (mark : Char) : List Char → Option String
  | [] => none
  | c :: rest =>
    if c = mark ∧ rest.getLast? = some mark then (unescape? mark rest.dropLast).map .ofList else none

theorem unquote?_quoted (mark : Char) (text : String) : unquote? mark (quoted mark text) = some text := by
  simp [quoted, unquote?, unescape?_escape]

theorem statements_read (m : Mapping) :
    (∀ s : Statement, tokens? (s.text m).toList = some (s.read m)) ∧
    (∀ s : Statement, (s.read m).filterMap Token.place? = List.range' 1 s.values.length) ∧
    (∀ features mode now limit, let fetch := Statement.fetch features mode now limit
      fetch.values.getLast? = some (Statement.count limit) ∧
      [.word "LIMIT", .place fetch.values.length] <:+: fetch.read m) ∧
    ∀ name, unquote? '"' (quoted '"' name) = some name := by
  refine ⟨Statement.tokens?_text m, Statement.places_read m, fun features mode now limit => ⟨?_, ?_⟩,
    unquote?_quoted '"'⟩
  · cases status : features.status <;> simp [Statement.values, status]
  · exact Statement.limit_infix m features mode now limit

example : tokens? (Statement.clear.text { table := "a\"; DROP TABLE b --" }).toList =
    some [.word "TRUNCATE", .name "a\"; DROP TABLE b --"] := by decide +kernel

end Outbox.Sql
