import Mathlib.Data.List.Dedup
import Outbox.Proofs.StatementEffects
import Outbox.Proofs.UnitsOfWork
import Outbox.Sql.Maintenance

/-!
What an operator deletes and puts back, and how much of it is counted. The rows depend only on which ids
are listed, in memory as in a database, and a deletion counts each row once. To put rows back counts in
memory how often they are listed, and so counts the rows only where none is listed again
(`operators_alike`).
-/

namespace Outbox

namespace Keyed

variable {α κ : Type} [Ord κ] {key : α → κ} [Std.LawfulEqOrd κ]

theorem contains_modify [Std.TransOrd κ] (s : Keyed key) (j : κ) {f : α → α}
    (keeps : ∀ a, key (f a) = key a) : (s.modify j f).contains = s.contains := by
  funext k
  unfold contains
  rw [find?_modify _ _ _ _ keeps]
  split
  · exact Option.isSome_map
  · rfl

variable [DecidableEq κ]

theorem countP_key (s : Keyed key) (k : κ) :
    s.toList.countP (key · = k) = if s.contains k then 1 else 0 := by
  have counted : s.toList.countP (key · = k) = (s.toList.map key).count k := by
    rw [List.count, List.countP_map]
    exact List.countP_congr fun a _ => by simp
  rw [counted, List.Nodup.count (nodup_keys s)]
  simp only [contains_iff, List.mem_map]

/-- The entries under some keys: the one under the first, and those under the rest once it is gone. -/
theorem countP_mem_cons (s : Keyed key) (k : κ) (rest : List κ) :
    s.toList.countP (key · ∈ k :: rest) =
      (s.erase k).toList.countP (key · ∈ rest) + if s.contains k then 1 else 0 := by
  have others : (s.erase k).toList = s.toList.filter (key · ≠ k) := by
    refine List.filter_congr fun a _ => ?_
    rw [Bool.eq_iff_iff]
    simp [Std.LawfulEqCmp.compare_eq_iff_eq]
  rw [List.countP_eq_countP_filter_add _ _ (key · ≠ k), others, ← countP_key]
  congr 1
  · refine List.countP_congr fun a member => ?_
    have other : key a ≠ k := by simpa using (List.mem_filter.mp member).2
    simp [other]
  · rw [List.countP_filter]
    refine List.countP_congr fun a _ => ?_
    by_cases same : key a = k <;> simp [same]

theorem countP_mem (s : Keyed key) (keys : List κ) :
    s.toList.countP (key · ∈ keys) = (keys.filter s.contains).dedup.length := by
  have perm : ((s.toList.filter (key · ∈ keys)).map key).Perm (keys.filter s.contains).dedup := by
    refine (List.perm_ext_iff_of_nodup ?_ (List.nodup_dedup _)).mpr fun k => ?_
    · exact ((List.filter_sublist ..).map key).nodup (nodup_keys s)
    · simp only [List.mem_map, List.mem_filter, List.mem_dedup, contains_iff, decide_eq_true_eq]
      constructor
      · rintro ⟨a, ⟨member, listed⟩, rfl⟩
        exact ⟨listed, a, member, rfl⟩
      · rintro ⟨listed, a, member, rfl⟩
        exact ⟨a, ⟨member, listed⟩, rfl⟩
  rw [List.countP_eq_length_filter, ← perm.length_eq, List.length_map]

end Keyed

namespace Table

variable {features : Features} {t : Table} {ids ids' : List ItemId}

theorem delete_eq_foldl (features : Features) (t : Table) (ids : List ItemId) :
    (t.delete ids).2 = ids.foldl (·.complete features false) t := by
  induction ids generalizing t with
  | nil => rfl
  | cons id rest ih => exact @ih { t with rows := t.rows.erase id }

theorem delete_count (t : Table) (ids : List ItemId) :
    (t.delete ids).1 = t.rows.toList.countP (·.id ∈ ids) := by
  induction ids generalizing t with
  | nil => simp [delete]
  | cons id rest ih =>
    simp only [delete, ih, Keyed.countP_mem_cons]
    split <;> rfl

theorem ext {s t : Table} (rows : s.rows = t.rows) (locks : s.locks = t.locks)
    (nextTransaction : s.nextTransaction = t.nextTransaction) : s = t := by
  cases s; cases t; cases rows; cases locks; cases nextTransaction; rfl

theorem delete_rows (t : Table) (ids : List ItemId) :
    (t.delete ids).2.rows = t.rows.filter (·.id ∉ ids) := by
  refine Keyed.ext ?_
  rw [delete_eq_foldl {}, Sql.rows_foldl_complete]
  show _ = t.rows.toList.filter _
  rw [← List.filterMap_eq_filter]
  refine List.filterMap_congr fun row _ => ?_
  by_cases gone : row.id ∈ ids <;> simp [Sql.finished, leftover, gone, Option.guard]

theorem delete_eq (t : Table) (ids : List ItemId) :
    (t.delete ids).2 = { t with rows := t.rows.filter (·.id ∉ ids) } :=
  ext (t.delete_rows ids) (delete_locks ids).1 (delete_locks ids).2

theorem delete_congr (same : ∀ id, id ∈ ids' ↔ id ∈ ids) : t.delete ids' = t.delete ids := by
  refine Prod.ext ?_ ?_
  · simp only [delete_count, same]
  · simp only [delete_eq, same]

theorem find?_restart (t : Table) (ids : List ItemId) (k : ItemId) :
    (t.restart features ids).2.rows.find? k =
      if k ∈ ids then (t.rows.find? k).map (·.modifyStatus features .restart) else t.rows.find? k := by
  induction ids generalizing t with
  | nil => simp [restart]
  | cons id rest ih =>
    refine (ih { t with rows := t.rows.modify id (·.modifyStatus features .restart) }).trans ?_
    simp only [Keyed.find?_modify _ _ _ _ (Row.id_modifyStatus features _),
      Std.LawfulEqCmp.compare_eq_iff_eq]
    by_cases same : id = k
    · -- to put a row back again changes nothing
      have twice (row : Row) : (row.modifyStatus features .restart).modifyStatus features .restart =
          row.modifyStatus features .restart := by
        unfold Row.modifyStatus
        split <;> rfl
      subst same
      simp [twice, Function.comp_def]
    · simp [same, Ne.symm same]

def putBack (features : Features) (ids : List ItemId) (row : Row) : Row :=
  if row.id ∈ ids then row.modifyStatus features .restart else row

theorem restart_rows (t : Table) (ids : List ItemId) :
    (t.restart features ids).2.rows.toList = t.rows.toList.map (putBack features ids) := by
  rw [← List.filterMap_eq_map]
  refine Keyed.toList_eq_filterMap (fun row after became => ?_) fun id => ?_
  · cases became
    unfold putBack
    split
    · exact Row.id_modifyStatus ..
    · rfl
  · rw [find?_restart]
    cases found : t.rows.find? id with
    | none => simp
    | some row =>
      by_cases listed : id ∈ ids <;> simp [putBack, Keyed.key_of_find? found, listed]

theorem restart_congr (same : ∀ id, id ∈ ids' ↔ id ∈ ids) :
    (t.restart features ids').2 = (t.restart features ids).2 := by
  refine ext (Keyed.ext_find? fun id => ?_) ?_ ?_
  · simp only [find?_restart, same]
  · rw [(restart_locks ids').1, (restart_locks ids).1]
  · rw [(restart_locks ids').2, (restart_locks ids).2]

theorem restart_count (t : Table) (ids : List ItemId) :
    (t.restart features ids).1 = if features.status then ids.countP t.rows.contains else 0 := by
  induction ids generalizing t with
  | nil => simp [restart]
  | cons id rest ih =>
    have same := Keyed.contains_modify t.rows id (Row.id_modifyStatus features .restart)
    simp only [restart, ih, same, List.countP_cons]
    cases features.status with
    | false => simp
    | true => simp only [Bool.true_and, if_true]; split <;> rfl

end Table

namespace Sql

/-- A database in which every statement is a transaction of its own. -/
def autocommit (keep : Instant → Instant) (features : Features) : Database (List Tuple) :=
  fun command rows =>
    match command with
    | .run s =>
      match s.effect keep features rows with
      | .ok (count, rows) => (.ok (.affected count), rows)
      | .error e => (.error e, rows)
    | _ => (.ok (.affected 0), rows)

theorem countP_relation (keep : Instant → Instant) (features : Features) (t : Table) (ids : List ItemId) :
    (relation keep features t).countP (·.id ∈ ids) = t.rows.toList.countP (·.id ∈ ids) := by
  rw [relation, List.countP_map]
  rfl

variable {keep : Instant → Instant} {features : Features} {t : Table}

theorem relation_delete (t : Table) (ids : List ItemId) :
    relation keep features (t.delete ids).2 = deleteAny ids (relation keep features t) := by
  rw [Table.delete_eq_foldl features, relation_complete (by simp)]
  rfl

theorem relation_restart (tracked : features.status) (t : Table) (ids : List ItemId) :
    relation keep features (t.restart features ids).2 =
      updateAny (fun c => { c with status := some 0, retryAfter := none }) ids
        (relation keep features t) := by
  simp only [relation, Table.restart_rows, updateAny, List.map_map]
  refine List.map_congr_left fun row _ => ?_
  have id : (Tuple.ofRow keep features row).id = row.id := rfl
  simp only [Function.comp_apply, Table.putBack, id]
  by_cases listed : row.id ∈ ids
  · rw [if_pos listed, if_pos listed]
    simp [Tuple.ofRow, Tuple.set, Row.modifyStatus, Row.status?, tracked, StatusFields.restart, Status.code]
  · rw [if_neg listed, if_neg listed]

theorem relation_restart_untracked (untracked : features.status = false) (t : Table) (ids : List ItemId) :
    relation keep features (t.restart features ids).2 = relation keep features t := by
  have same (row : Row) : Table.putBack features ids row = row := by
    simp [Table.putBack, Row.modifyStatus, untracked]
  simp [relation, Table.restart_rows, same]

theorem delete_autocommit (t : Table) (ids : List ItemId) :
    Maintenance.delete (autocommit keep features) ids (relation keep features t) =
      (.ok (t.delete ids).1, relation keep features (t.delete ids).2) := by
  by_cases none : ids = []
  · subst none
    rfl
  · rw [relation_delete, Table.delete_count, ← countP_relation keep features]
    simp only [Maintenance.delete, if_neg none]
    rfl

theorem restart_autocommit (t : Table) (ids : List ItemId) :
    Maintenance.restart (autocommit keep features) features ids (relation keep features t) =
      (.ok (if features.status then t.rows.toList.countP (·.id ∈ ids) else 0),
        relation keep features (t.restart features ids).2) := by
  cases tracked : features.status with
  | false => simp [Maintenance.restart, tracked, relation_restart_untracked tracked]
  | true =>
    by_cases none : ids = []
    · subst none
      simp [Maintenance.restart, Table.restart]
    · rw [relation_restart tracked, ← countP_relation keep features]
      have sent : ¬ ((!features.status) = true ∨ ids = []) := by simp [tracked, none]
      simp only [Maintenance.restart, if_neg sent, autocommit, Statement.effect, Statement.values, ifTracked,
        if_pos tracked]
      rfl

/-- A deletion takes out the listed rows and counts each once, and the listed rows of a type that tracks
status are put back with the count of their attempts; both leave the rows that they leave in a database,
which depend only on which ids are listed. In memory what was put back is counted as often as it was listed,
which is the number of rows, as a database counts them, only where no row is listed again. -/
theorem operators_alike (keep : Instant → Instant) (features : Features) (t : Table) (ids : List ItemId) :
    (t.delete ids).1 = t.rows.toList.countP (·.id ∈ ids) ∧
    (t.delete ids).2 = { t with rows := t.rows.filter (·.id ∉ ids) } ∧
    (t.restart features ids).1 = (if features.status then ids.countP t.rows.contains else 0) ∧
    ((t.restart features ids).1 =
        (if features.status then t.rows.toList.countP (·.id ∈ ids) else 0) ↔
      features.status → (ids.filter t.rows.contains).Nodup) ∧
    ((t.restart features ids).2.rows.toList = t.rows.toList.map fun row =>
        if features.status ∧ row.id ∈ ids then
          { row with fields := { row.fields with status := .ready, retryAfter := none } }
        else row) ∧
    (t.restart features ids).2.locks = t.locks ∧
    (∀ ids', (∀ id, id ∈ ids' ↔ id ∈ ids) →
      t.delete ids' = t.delete ids ∧ (t.restart features ids').2 = (t.restart features ids).2) ∧
    Maintenance.delete (autocommit keep features) ids (relation keep features t) =
      (.ok (t.delete ids).1, relation keep features (t.delete ids).2) ∧
    Maintenance.restart (autocommit keep features) features ids (relation keep features t) =
      (.ok (if features.status then t.rows.toList.countP (·.id ∈ ids) else 0),
        relation keep features (t.restart features ids).2) := by
  refine ⟨t.delete_count ids, t.delete_eq ids, t.restart_count ids, ?_, ?_, (Table.restart_locks ids).1,
    fun ids' same => ⟨Table.delete_congr same, Table.restart_congr same⟩, delete_autocommit t ids,
    restart_autocommit t ids⟩
  · rw [Table.restart_count]
    cases features.status with
    | false => simp
    | true =>
      simp only [if_true, forall_const]
      rw [List.countP_eq_length_filter, Keyed.countP_mem]
      constructor
      · intro equal
        exact List.dedup_eq_self.mp ((List.dedup_sublist _).eq_of_length equal.symm)
      · intro unique
        rw [unique.dedup]
  · rw [Table.restart_rows]
    refine List.map_congr_left fun row _ => ?_
    unfold Table.putBack Row.modifyStatus
    by_cases listed : row.id ∈ ids <;> cases tracked : features.status <;>
      simp [listed, StatusFields.restart]

/-- Two of three rows, one of them listed twice, and an id that no row has. -/
def unordered : List ItemId := [parcel.id, .ofNat 9, letter.id, parcel.id]

theorem operators_alike_unordered :
    (∀ id, id ∈ [.ofNat 9, letter.id, parcel.id] ↔ id ∈ unordered) ∧
    (Table.insert [letter, parcel, postcard] {}).delete [.ofNat 9, letter.id, parcel.id] =
      (Table.insert [letter, parcel, postcard] {}).delete unordered ∧
    ((Table.insert [letter, parcel, postcard] {}).delete unordered).1 = 2 ∧
    (Table.restart { status := true } (Table.insert [letter, parcel, postcard] {})
        [.ofNat 9, letter.id, parcel.id]).1 = 2 ∧
    Maintenance.restart (autocommit id { status := true }) { status := true } [.ofNat 9, letter.id, parcel.id]
        (relation id { status := true } (Table.insert [letter, parcel, postcard] {})) =
      (.ok 2, relation id { status := true } (Table.restart { status := true }
        (Table.insert [letter, parcel, postcard] {}) [.ofNat 9, letter.id, parcel.id]).2) := by
  have same : ∀ id, id ∈ [.ofNat 9, letter.id, parcel.id] ↔ id ∈ unordered := by
    intro id
    simp only [unordered, List.mem_cons, List.not_mem_nil, or_false]
    tauto
  obtain ⟨deleted, -, -, -, -, -, listed, -, -⟩ :=
    operators_alike id { status := true } (Table.insert [letter, parcel, postcard] {}) unordered
  obtain ⟨-, -, -, counted, -, -, -, -, database⟩ := operators_alike id { status := true }
    (Table.insert [letter, parcel, postcard] {}) [.ofNat 9, letter.id, parcel.id]
  have once : (Table.restart { status := true } (Table.insert [letter, parcel, postcard] {})
      [.ofNat 9, letter.id, parcel.id]).1 = 2 := (counted.mpr fun _ => by decide).trans (by decide)
  exact ⟨same, (listed _ same).1, deleted.trans (by decide), once, database.trans (by decide)⟩

/-- One row, listed twice, is counted twice where it is put back in memory, and once in a database. -/
theorem restart_counted_again :
    (Table.restart { status := true } (Table.insert [letter] {}) [letter.id, letter.id]).1 = 2 ∧
    (Table.insert [letter] {}).rows.toList.countP (·.id ∈ [letter.id, letter.id]) = 1 ∧
    ((Table.insert [letter] {}).delete [letter.id, letter.id]).1 = 1 ∧
    (Maintenance.restart (autocommit id { status := true }) { status := true } [letter.id, letter.id]
      (relation id { status := true } (Table.insert [letter] {}))).1 = .ok 1 := by
  decide

end Sql

end Outbox
