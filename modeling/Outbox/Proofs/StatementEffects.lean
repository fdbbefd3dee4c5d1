import Outbox.Proofs.Saving
import Outbox.Sql.Repository

/-!
What the statements of a save do to a table in a database. Statements are carried out from the values
sent with them: `= ANY` is membership in an array, and `UNNEST` reads arrays place by place. A save in
a database leaves the table that a save in memory leaves (`saves_alike`), where done rows stay only in
tables of types that track status.
-/

namespace Outbox

namespace Keyed

variable {α κ : Type} [Ord κ] {key : α → κ} [Std.LawfulEqOrd κ] [Std.TransOrd κ]

/-- A collection is known by what became of each entry of another one. -/
theorem toList_eq_filterMap {s t : Keyed key} {f : α → Option α}
    (keeps : ∀ a b, f a = some b → key b = key a) (h : ∀ k, t.find? k = (s.find? k).bind f) :
    t.toList = s.toList.filterMap f := by
  let changed : Keyed key := ⟨s.toList.filterMap f, by
    refine List.pairwise_filterMap.mpr (s.ascending.imp fun {a b} below c hc d hd => ?_)
    rw [keeps a c hc, keeps b d hd]
    exact below⟩
  have same : t = changed := by
    refine ext_find? fun k => ?_
    rw [h]
    refine Option.ext fun b => ?_
    rw [find?_eq_some_iff, Option.bind_eq_some_iff]
    simp only [find?_eq_some_iff, changed, List.mem_filterMap]
    constructor
    · rintro ⟨a, ⟨member, rfl⟩, became⟩
      exact ⟨⟨a, member, became⟩, keeps a b became⟩
    · rintro ⟨⟨a, member, became⟩, rfl⟩
      exact ⟨a, ⟨member, (keeps a b became).symm⟩, became⟩
  rw [same]

end Keyed

namespace Sql

structure Tracking where
  status : Option Int32
  retryCount : Option Int32
  retryAfter : Option Instant
  deriving DecidableEq

/-- A row in its columns; those of a capability are there if the type has it. -/
structure Tuple where
  id : ItemId
  payload : String
  priority : Option Int32
  tracking : Option Tracking
  deriving DecidableEq

/-- The columns of a row in a database that keeps `keep t` of an instant `t`. -/
def Tuple.ofRow (keep : Instant → Instant) (features : Features) (row : Row) : Tuple where
  id := row.id
  payload := row.payload
  priority := if features.priority then some row.priority else none
  tracking := (row.status? features).map fun f =>
    ⟨some f.status.code, f.retryCount, f.retryAfter.map keep⟩

def Tuple.set (change : Tracking → Tracking) (row : Tuple) : Tuple :=
  { row with tracking := row.tracking.map change }

/-! ### The meaning of statements -/

/-- `DELETE … WHERE id = ANY(ids)`. -/
def deleteAny (ids : List ItemId) (rows : List Tuple) : List Tuple := rows.filter (·.id ∉ ids)

/-- `UPDATE … SET … WHERE id = ANY(ids)`. -/
def updateAny (change : Tracking → Tracking) (ids : List ItemId) (rows : List Tuple) : List Tuple :=
  rows.map fun row => if row.id ∈ ids then row.set change else row

/-- A row of `UNNEST` over four arrays: what they have at one place, null where one has ended. -/
structure Unnested where
  id : Option ItemId
  tracking : Tracking

def unnest (ids : List ItemId) (statuses counts : List (Option Int32))
    (afters : List (Option Instant)) : List Unnested :=
  (List.range (max (max ids.length statuses.length) (max counts.length afters.length))).map fun i =>
    ⟨ids[i]?, statuses[i]?.join, counts[i]?.join, afters[i]?.join⟩

/-- `UPDATE … SET … FROM UNNEST(…) WHERE t.id = u.id`; a row that several sources fit takes the first. -/
def updateFrom (source : List Unnested) (rows : List Tuple) : List Tuple :=
  rows.map fun row =>
    match source.find? (·.id = some row.id) with
    | some u => row.set fun _ => u.tracking
    | none => row

def ifTracked (features : Features) (result : Nat × List Tuple) : Except DatabaseError (Nat × List Tuple) :=
  if features.status then .ok result else .error (.server "42703" "column does not exist")

/-- The rows after a statement that writes, and how many it affected, from the values sent with it. -/
def Statement.effect (keep : Instant → Instant) (features : Features) (s : Statement)
    (rows : List Tuple) : Except DatabaseError (Nat × List Tuple) :=
  match s, s.values with
  | delete _, [.ids ids] => .ok (rows.countP (·.id ∈ ids), deleteAny ids rows)
  | complete _, [.ids ids] =>
    ifTracked features
      (rows.countP (·.id ∈ ids), updateAny (fun c => { c with status := some 3 }) ids rows)
  | restart _, [.ids ids] =>
    ifTracked features
      (rows.countP (·.id ∈ ids),
        updateAny (fun c => { c with status := some 0, retryAfter := none }) ids rows)
  | writeStatus _, [.ids ids, .integers statuses, .integers counts, .instants afters] =>
    let source := unnest ids statuses counts (afters.map (·.map keep))
    ifTracked features
      (rows.countP fun row => source.any (·.id = some row.id), updateFrom source rows)
  | clear, _ => .ok (0, [])
  | _, _ => .error (.server "0A000" "not a statement that writes rows")

/-- A table in a database, and its rows as the open transaction sees them. -/
structure Store where
  committed : List Tuple
  working : Option (List Tuple) := none
  deriving DecidableEq

/-- A database that carries out the statements of a transaction and keeps what was committed. -/
def engine (keep : Instant → Instant) (features : Features) : Database Store := fun command store =>
  match command, store.working with
  | .begin, none => (.ok (.affected 0), { store with working := some store.committed })
  | .commit, some rows => (.ok (.affected 0), { committed := rows })
  | .rollback, some _ => (.ok (.affected 0), { store with working := none })
  | .run s, some rows =>
    match s.effect keep features rows with
    | .ok (count, rows) => (.ok (.affected count), { store with working := some rows })
    | .error e => (.error e, store)
  | _, _ => (.error (.server "25000" "invalid transaction state"), store)

/-! ### The writes of a save -/

variable {keep : Instant → Instant} {features : Features} {mode : Mode} {t : Table}
  {completed : List ItemId} {retried : List Row}

def relation (keep : Instant → Instant) (features : Features) (t : Table) : List Tuple :=
  t.rows.toList.map (Tuple.ofRow keep features)

/-- The rows after statements that follow one another, up to the first that fails. -/
def carryOut (keep : Instant → Instant) (features : Features) (rows : List Tuple)
    (statements : List Statement) : Except DatabaseError (List Tuple) :=
  statements.foldlM (fun rows s => (s.effect keep features rows).map (·.2)) rows

theorem unnest_map (rows : List (ItemId × StatusFields)) :
    unnest (rows.map (·.1)) (rows.map fun r => some r.2.status.code) (rows.map (·.2.retryCount))
        ((rows.map (·.2.retryAfter)).map (·.map keep)) =
      rows.map fun r => ⟨some r.1, some r.2.status.code, r.2.retryCount, r.2.retryAfter.map keep⟩ := by
  refine List.ext_getElem (by simp [unnest]) fun i inUnnest inRows => ?_
  have below : i < rows.length := by simpa using inRows
  simp [unnest, below]

theorem ofRow_markCompleted (tracked : features.status) (row : Row) :
    Tuple.ofRow keep features (row.modifyStatus features .markCompleted) =
      (Tuple.ofRow keep features row).set fun c => { c with status := some 3 } := by
  simp [Tuple.ofRow, Tuple.set, Row.modifyStatus, Row.status?, tracked, StatusFields.markCompleted,
    Status.code]

theorem ofRow_withFields (tracked : features.status) (fields : StatusFields) (row : Row) :
    Tuple.ofRow keep features (row.modifyStatus features fun _ => fields) =
      (Tuple.ofRow keep features row).set fun _ =>
        ⟨some fields.status.code, fields.retryCount, fields.retryAfter.map keep⟩ := by
  simp [Tuple.ofRow, Tuple.set, Row.modifyStatus, Row.status?, tracked]

def finished (features : Features) (partitioned : Bool) (completed : List ItemId) (row : Row) :
    Option Row :=
  if row.id ∈ completed then Table.leftover features partitioned row else some row

def retaken (features : Features) (retried : List Row) (row : Row) : Row :=
  match retried.find? (·.id = row.id) with
  | some r => row.modifyStatus features fun _ => r.fields
  | none => row

theorem rows_foldl_complete {partitioned : Bool} :
    (completed.foldl (·.complete features partitioned) t).rows.toList =
      t.rows.toList.filterMap (finished features partitioned completed) := by
  refine Keyed.toList_eq_filterMap (fun row after became => ?_) fun id => ?_
  · unfold finished Table.leftover at became
    split at became
    · split at became <;> cases became
      exact Row.id_modifyStatus ..
    · cases became
      rfl
  · rw [Table.find?_foldl_complete]
    cases found : t.rows.find? id with
    | none => simp
    | some row => simp only [Option.bind_some, finished, Keyed.key_of_find? found]

theorem rows_foldl_writeStatus (unique : (retried.map (·.id)).Nodup) :
    (retried.foldl (·.writeStatus features) t).rows.toList =
      t.rows.toList.map (retaken features retried) := by
  rw [← List.filterMap_eq_map]
  refine Keyed.toList_eq_filterMap (fun row after became => ?_) fun id => ?_
  · cases became
    simp only [retaken]
    split
    · exact Row.id_modifyStatus ..
    · rfl
  · cases source : retried.find? (·.id = id) with
    | none =>
      have absent : ∀ r ∈ retried, r.id ≠ id := by simpa using source
      rw [Table.find?_foldl_writeStatus_of_ne absent]
      cases found : t.rows.find? id with
      | none => rfl
      | some row => simp [retaken, Keyed.key_of_find? found, source]
    | some r =>
      have same : r.id = id := by simpa using List.find?_some source
      subst same
      rw [Table.find?_foldl_writeStatus_of_mem unique (List.mem_of_find?_eq_some source)]
      cases found : t.rows.find? r.id with
      | none => rfl
      | some row => simp [retaken, Keyed.key_of_find? found, source]

theorem relation_complete {partitioned : Bool} (stays : partitioned → features.status ∨ completed = []) :
    relation keep features (completed.foldl (·.complete features partitioned) t) =
      if partitioned then
        updateAny (fun c => { c with status := some 3 }) completed (relation keep features t)
      else deleteAny completed (relation keep features t) := by
  unfold relation
  rw [rows_foldl_complete]
  cases partitioned with
  | false =>
    simp only [deleteAny, List.filter_map, ← List.filterMap_eq_filter, Bool.false_eq_true, if_false]
    congr 1
    refine List.filterMap_congr fun row _ => ?_
    by_cases done : row.id ∈ completed <;>
      simp [finished, Table.leftover, done, Option.guard, Tuple.ofRow]
  | true =>
    simp only [updateAny, List.map_filterMap, ← List.filterMap_eq_map, if_true]
    refine List.filterMap_congr fun row _ => ?_
    by_cases done : row.id ∈ completed
    · -- there is a row to stamp, so the type has a status to stamp
      have tracked : features.status := (stays rfl).resolve_right (List.ne_nil_of_mem done)
      simp only [finished, Table.leftover, if_pos done, if_true, Option.map_some,
        ofRow_markCompleted tracked]
      exact congrArg some (if_pos done).symm
    · simp only [finished, if_neg done, Option.map_some]
      exact congrArg some (if_neg done).symm

theorem relation_writeStatus (tracked : features.status) (unique : (retried.map (·.id)).Nodup) :
    relation keep features (retried.foldl (·.writeStatus features) t) =
      updateFrom (retried.map fun r =>
          ⟨some r.id, some r.fields.status.code, r.fields.retryCount, r.fields.retryAfter.map keep⟩)
        (relation keep features t) := by
  unfold relation
  rw [rows_foldl_writeStatus unique, updateFrom, List.map_map, List.map_map]
  refine List.map_congr_left fun row _ => ?_
  have source : (retried.map fun r => (⟨some r.id, some r.fields.status.code, r.fields.retryCount,
      r.fields.retryAfter.map keep⟩ : Unnested)).find? (·.id = some row.id) =
      (retried.find? (·.id = row.id)).map fun r =>
        ⟨some r.id, some r.fields.status.code, r.fields.retryCount, r.fields.retryAfter.map keep⟩ := by
    simp only [List.find?_map, Function.comp_def, Option.some.injEq]
  simp only [Function.comp_apply, retaken]
  rw [show (Tuple.ofRow keep features row).id = row.id from rfl, source]
  cases retried.find? (·.id = row.id) with
  | none => rfl
  | some r => exact ofRow_withFields tracked r.fields row

theorem relation_writeStatus_untracked (untracked : features.status = false)
    (unique : (retried.map (·.id)).Nodup) :
    relation keep features (retried.foldl (·.writeStatus features) t) = relation keep features t := by
  have same : ∀ row, retaken features retried row = row := by
    intro row
    unfold retaken Row.modifyStatus
    split
    · rw [if_neg (by simp [untracked])]
    · rfl
  unfold relation
  rw [rows_foldl_writeStatus unique, List.map_congr_left fun row _ => same row, List.map_id']

theorem carryOut_append (rows : List Tuple) (first second : List Statement) :
    carryOut keep features rows (first ++ second) =
      (carryOut keep features rows first).bind fun rows => carryOut keep features rows second :=
  List.foldlM_append

theorem carryOut_completed (stays : mode.partitioned → features.status ∨ completed = []) :
    carryOut keep features (relation keep features t)
        (if completed = [] then []
          else if mode.partitioned ∧ features.status then [.complete completed]
          else [.delete completed]) =
      .ok (relation keep features (completed.foldl (·.complete features mode.partitioned) t)) := by
  rw [relation_complete stays]
  split
  · rename_i none
    subst none
    simp [carryOut, updateAny, deleteAny, pure, Except.pure]
  · rename_i some
    have same : mode.partitioned = true ∧ features.status = true ↔ mode.partitioned = true :=
      ⟨fun both => both.1, fun partitioned => ⟨partitioned, (stays partitioned).resolve_right some⟩⟩
    simp only [same]
    split
    · rename_i partitioned
      simp only [carryOut, List.foldlM_cons, List.foldlM_nil, Statement.effect, Statement.values,
        ifTracked, if_pos (same.mpr partitioned).2]
      rfl
    · rfl

theorem carryOut_retried (unique : (retried.map (·.id)).Nodup) :
    carryOut keep features (relation keep features t)
        (if features.status ∧ retried ≠ [] then
          [.writeStatus (retried.map fun r => (r.id, r.fields))] else []) =
      .ok (relation keep features (retried.foldl (·.writeStatus features) t)) := by
  split
  · rename_i some
    rw [relation_writeStatus some.1 unique]
    simp only [carryOut, List.foldlM_cons, List.foldlM_nil, Statement.effect, Statement.values,
      ifTracked, if_pos some.1]
    rw [unnest_map, List.map_map]
    rfl
  · rename_i none
    by_cases tracked : features.status
    · have nothing : retried = [] := by simpa [tracked] using none
      subst nothing
      rfl
    · rw [relation_writeStatus_untracked (by simpa using tracked) unique]
      rfl

theorem carryOut_writes (unique : (retried.map (·.id)).Nodup)
    (stays : mode.partitioned → features.status ∨ completed = []) :
    carryOut keep features (relation keep features t)
        (Repository.writes features mode completed retried) =
      .ok (relation keep features (t.write features mode.partitioned completed retried)) := by
  rw [Repository.writes, carryOut_append, carryOut_completed stays]
  exact carryOut_retried unique

theorem sendAll_engine {committed rows rows' : List Tuple} {statements : List Statement}
    (carried : carryOut keep features rows statements = .ok rows') :
    Repository.sendAll (engine keep features) ⟨committed, some rows⟩ statements =
      (.ok (), ⟨committed, some rows'⟩) := by
  induction statements generalizing rows with
  | nil =>
    cases carried
    rfl
  | cons s rest ih =>
    simp only [carryOut, List.foldlM_cons] at carried
    cases effect : s.effect keep features rows with
    | error e =>
      rw [effect] at carried
      cases carried
    | ok after =>
      rw [effect] at carried
      simp only [Repository.sendAll, engine, effect]
      exact ih carried

/-- A save in a database leaves the rows that a save in memory leaves. -/
theorem saves_alike (keep : Instant → Instant) (features : Features) (mode : Mode)
    (txn : TransactionId) (t : Table) (completed : List ItemId) (retried : List Row)
    (unique : (retried.map (·.id)).Nodup) (supported : retried = [] ∨ mode.lock.supportsRetry)
    (stays : mode.partitioned → features.status ∨ completed = []) :
    ∃ t', Outbox.Repository.save features completed retried ⟨mode, some txn⟩ t =
        (.ok (), ⟨mode, none⟩, t') ∧
      Repository.save (engine keep features) features completed retried ⟨mode, true⟩
          ⟨relation keep features t, some (relation keep features t)⟩ =
        (.ok (), ⟨mode, false⟩, ⟨relation keep features t', none⟩) := by
  have accepted : ¬ (retried ≠ [] ∧ !mode.lock.supportsRetry) := by
    rintro ⟨some, unsupported⟩
    rcases supported with none | supported
    · exact some none
    · simp [supported] at unsupported
  refine ⟨(t.write features mode.partitioned completed retried).release txn, ?_, ?_⟩
  · simp only [Outbox.Repository.save, if_neg accepted, Table.write]
  · have carried : carryOut keep features (relation keep features t)
        (Repository.writes features mode completed retried) =
        .ok (relation keep features (t.write features mode.partitioned completed retried)) :=
      carryOut_writes unique stays
    have sent : Repository.sendAll (engine keep features)
        ⟨relation keep features t, some (relation keep features t)⟩
        (Repository.writes features mode completed retried) = (.ok (), ⟨relation keep features t,
          some (relation keep features (t.write features mode.partitioned completed retried))⟩) :=
      sendAll_engine carried
    simp only [Repository.save, if_neg accepted, Repository.commit, sent, engine]
    rfl

section Instances

def letter : Row := { id := .ofNat 1, payload := "letter" }

def parcel : Row := { id := .ofNat 2, payload := "parcel", fields := { retryCount := some 4 } }

def postcard : Row := { id := .ofNat 3, payload := "postcard" }

/-- The letter is done, the parcel is done as well as put off, and the postcard is left alone. -/
def putOff : List Row := [{ parcel with fields := parcel.fields.scheduleRetry .last }]

theorem saves_alike_stamped :
    (putOff.map (·.id)).Nodup ∧
    ∃ t', Outbox.Repository.save { status := true } [letter.id, parcel.id] putOff
        ⟨⟨.skipLocked, true⟩, some 1⟩ (Table.insert [letter, parcel, postcard] {}) =
        (.ok (), ⟨⟨.skipLocked, true⟩, none⟩, t') ∧
      Repository.save (engine id { status := true }) { status := true } [letter.id, parcel.id] putOff
          ⟨⟨.skipLocked, true⟩, true⟩
          ⟨relation id { status := true } (Table.insert [letter, parcel, postcard] {}),
            some (relation id { status := true } (Table.insert [letter, parcel, postcard] {}))⟩ =
        (.ok (), ⟨⟨.skipLocked, true⟩, false⟩, ⟨relation id { status := true } t', none⟩) ∧
      (relation id { status := true } t').map (·.tracking) =
        [some ⟨some 3, none, none⟩, some ⟨some 2, some 5, some .last⟩, some ⟨some 0, none, none⟩] := by
  have unique : (putOff.map (·.id)).Nodup := by decide
  obtain ⟨t', memory, database⟩ := saves_alike id { status := true } ⟨.skipLocked, true⟩ 1
    (Table.insert [letter, parcel, postcard] {}) [letter.id, parcel.id] putOff unique (.inr rfl)
    fun _ => .inl rfl
  refine ⟨unique, t', memory, database, ?_⟩
  cases memory
  decide

/-- Where done rows stay and the type has no status, a row that is done stays as it is in memory and is
deleted from a database. -/
theorem saves_differ :
    (Outbox.Repository.save {} [letter.id] [] ⟨⟨.skipLocked, true⟩, some 1⟩ (Table.insert [letter] {})).1 =
        .ok () ∧
    relation id {} (Outbox.Repository.save {} [letter.id] [] ⟨⟨.skipLocked, true⟩, some 1⟩
        (Table.insert [letter] {})).2.2 = [Tuple.ofRow id {} letter] ∧
    Repository.save (engine id {}) {} [letter.id] [] ⟨⟨.skipLocked, true⟩, true⟩
        ⟨relation id {} (Table.insert [letter] {}), some (relation id {} (Table.insert [letter] {}))⟩ =
      (.ok (), ⟨⟨.skipLocked, true⟩, false⟩, ⟨[], none⟩) := by
  decide

end Instances

end Sql

end Outbox
