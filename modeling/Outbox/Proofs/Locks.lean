import Mathlib.Data.List.Perm.Basic
import Outbox.Proofs.Window

/-!
Which transaction holds which rows. `LocksExact` says that the locks of a table are those that others
hold and, for every open unit of work, exactly those of the rows it fetched. Opening and closing a
unit keep it so (`LocksExact.lock`, `LocksExact.release`), whatever else is open.
-/

namespace Outbox

/-- A unit of work as the locks see it: its transaction, if it is open, and the rows it fetched. -/
structure Holding where
  transaction : Option TransactionId := none
  ids : List ItemId := []

/-- The locks of a unit; once it is closed there are none. -/
def Holding.locks (u : Holding) : List Lock :=
  match u.transaction with
  | some txn => u.ids.map (⟨·, txn⟩)
  | none => []

theorem Holding.mem_locks {u : Holding} {lock : Lock} :
    lock ∈ u.locks ↔ u.transaction = some lock.owner ∧ lock.id ∈ u.ids := by
  obtain ⟨id, owner⟩ := lock
  unfold Holding.locks
  split
  · rename_i txn opened
    simp [opened, eq_comm, and_comm]
  · rename_i closed
    simp [closed]

namespace Table

theorem ext_find? {t t' : Table} (rows : ∀ id, t.rows.find? id = t'.rows.find? id)
    (locks : ∀ id, t.locks.find? id = t'.locks.find? id)
    (next : t.nextTransaction = t'.nextTransaction) : t = t' := by
  cases t
  cases t'
  cases Keyed.ext_find? rows
  cases Keyed.ext_find? locks
  cases next
  rfl

def begin (t : Table) : Table := { t with nextTransaction := t.nextTransaction + 1 }

/-- Whoever holds a row has begun a transaction. -/
def Begun (t : Table) : Prop := ∀ lock ∈ t.locks.toList, lock.owner < t.nextTransaction

namespace Begun

variable {t : Table}

theorem begin (h : t.Begun) : t.begin.Begun :=
  fun lock member => (h lock member).trans (Nat.lt_succ_self _)

/-- A row that a new transaction may lock is locked by nobody. -/
theorem unlocked {id : ItemId} (h : t.Begun) (free : t.lockedByOther t.nextTransaction id = false) :
    t.locks.find? id = none := by
  refine Keyed.find?_eq_none_iff.mpr ?_
  rintro lock member rfl
  have found := Keyed.find?_of_mem member
  simp only [lockedByOther, found, bne_eq_false_iff_eq] at free
  exact absurd free (Nat.ne_of_lt (h lock member))

end Begun

theorem find?_lockAll {txn : TransactionId} {rows : List Row} {t : Table}
    (unique : (rows.map (·.id)).Nodup) (id : ItemId) :
    (t.lockAll txn rows).locks.find? id =
      if id ∈ rows.map (·.id) then some ⟨id, txn⟩ else t.locks.find? id := by
  have locks : (t.lockAll txn rows).locks =
      (rows.map fun r => (⟨r.id, txn⟩ : Lock)).foldl Keyed.insert t.locks := by
    rw [lockAll, List.foldl_map]
  rw [locks]
  split
  · rename_i member
    obtain ⟨r, hr, rfl⟩ := List.mem_map.mp member
    have unique : ((rows.map fun r => (⟨r.id, txn⟩ : Lock)).map Lock.id).Nodup := by
      simpa [List.map_map, Function.comp_def] using unique
    exact Keyed.find?_foldl_insert_of_mem unique (List.mem_map.mpr ⟨r, hr, rfl⟩)
  · rename_i other
    refine Keyed.find?_foldl_insert_of_ne fun lock member same => other ?_
    obtain ⟨r, hr, rfl⟩ := List.mem_map.mp member
    exact List.mem_map.mpr ⟨r, hr, same⟩

theorem find?_release {txn : TransactionId} {t : Table} (id : ItemId) :
    (t.release txn).locks.find? id = (t.locks.find? id).filter (·.owner != txn) :=
  Keyed.find?_filter ..

/-- Giving back what was locked leaves no trace but a used number. -/
theorem release_lockAll {rows : List Row} {t : Table} (begun : t.Begun)
    (unique : (rows.map (·.id)).Nodup)
    (free : ∀ r ∈ rows, t.lockedByOther t.nextTransaction r.id = false) :
    (t.begin.lockAll t.nextTransaction rows).release t.nextTransaction = t.begin := by
  refine ext_find? (fun _ => rfl) (fun id => ?_) rfl
  rw [find?_release, find?_lockAll unique]
  split
  · rename_i member
    obtain ⟨r, hr, rfl⟩ := List.mem_map.mp member
    rw [show t.begin.locks.find? r.id = none from begun.unlocked (free r hr)]
    simp [Option.filter]
  · cases found : t.begin.locks.find? id with
    | none => rfl
    | some lock =>
      have old : lock.owner ≠ t.nextTransaction := Nat.ne_of_lt (begun lock (Keyed.mem_of_find? found))
      simp [Option.filter, old]

theorem Begun.lockAll {rows : List Row} {t : Table} (h : t.Begun) (unique : (rows.map (·.id)).Nodup) :
    (t.begin.lockAll t.nextTransaction rows).Begun := by
  intro lock member
  have found := Keyed.find?_of_mem member
  rw [find?_lockAll unique] at found
  split at found
  · have own : t.nextTransaction = lock.owner := congrArg Lock.owner (Option.some.inj found)
    exact own ▸ Nat.lt_succ_self _
  · exact h.begin lock (Keyed.mem_of_find? found)

theorem Begun.release {t : Table} (h : t.Begun) (txn : TransactionId) : (t.release txn).Begun :=
  fun lock member => h lock (List.mem_filter.mp member).1

/-- The locks are `others`, held elsewhere, and those of `units`. -/
structure LocksExact (others : List Lock) (units : List Holding) (t : Table) : Prop where
  locks : t.locks.toList.Perm (others ++ units.flatMap Holding.locks)
  begun : ∀ lock ∈ others, lock.owner < t.nextTransaction
  opened : ∀ txn ∈ units.filterMap (·.transaction), txn < t.nextTransaction
  apart : (others.map (·.owner)).Disjoint (units.filterMap (·.transaction))
  distinct : (units.filterMap (·.transaction)).Nodup

namespace LocksExact

variable {others : List Lock} {units rest : List Holding} {u : Holding} {t t' : Table}

theorem before (begun : t.Begun) : LocksExact t.locks.toList [] t where
  locks := by simp
  begun
  opened := nofun
  apart := by simp
  distinct := .nil

theorem empty : LocksExact [] [] {} :=
  before (t := {}) fun _ member => absurd member List.not_mem_nil

theorem congr (h : LocksExact others units t) (locks : t'.locks = t.locks)
    (next : t'.nextTransaction = t.nextTransaction) : LocksExact others units t' where
  locks := locks ▸ h.locks
  begun := next ▸ h.begun
  opened := next ▸ h.opened
  apart := h.apart
  distinct := h.distinct

theorem perm (h : LocksExact others units t) (same : units.Perm rest) : LocksExact others rest t where
  locks := h.locks.trans ((same.flatMap_right _).append_left _)
  begun := h.begun
  opened txn member := h.opened txn ((same.filterMap _).mem_iff.mpr member)
  apart := fun _ other member => h.apart other ((same.filterMap _).mem_iff.mpr member)
  distinct := (same.filterMap _).nodup_iff.mp h.distinct

section Focus

variable {α : Type} {l : List α} {f : α → Holding} {i : Nat} {a : α}

theorem focus (at_i : l[i]? = some a) :
    LocksExact others (l.map f) t ↔ LocksExact others (f a :: (l.eraseIdx i).map f) t := by
  obtain ⟨below, rfl⟩ := List.getElem?_eq_some_iff.mp at_i
  have same := (List.getElem_cons_eraseIdx_perm below).map f
  exact ⟨fun h => h.perm same.symm, fun h => h.perm same⟩

theorem focus_set (at_i : l[i]? = some a) (b : α) :
    LocksExact others ((l.set i b).map f) t ↔ LocksExact others (f b :: (l.eraseIdx i).map f) t := by
  obtain ⟨below, -⟩ := List.getElem?_eq_some_iff.mp at_i
  have same := (List.set_perm_cons_eraseIdx below b).map f
  exact ⟨fun h => h.perm same, fun h => h.perm same.symm⟩

end Focus

theorem allBegun (h : LocksExact others units t) : t.Begun := by
  intro lock member
  rcases List.mem_append.mp (h.locks.mem_iff.mp member) with other | own
  · exact h.begun lock other
  · obtain ⟨u, hu, held⟩ := List.mem_flatMap.mp own
    exact h.opened _ (List.mem_filterMap.mpr ⟨u, hu, (Holding.mem_locks.mp held).1⟩)

theorem cons_closed (closed : u.transaction = none) :
    LocksExact others (u :: rest) t ↔ LocksExact others rest t := by
  have none : u.locks = [] := by simp [Holding.locks, closed]
  constructor <;> intro h
  · exact ⟨by simpa [none] using h.locks, h.begun, by simpa [closed] using h.opened,
      by simpa [closed] using h.apart, by simpa [closed] using h.distinct⟩
  · exact ⟨by simpa [none] using h.locks, h.begun, by simpa [closed] using h.opened,
      by simpa [closed] using h.apart, by simpa [closed] using h.distinct⟩

/-- What a transaction has locked are the rows of its unit. -/
theorem find?_eq_iff {txn : TransactionId} (h : LocksExact others (u :: rest) t)
    (opened : u.transaction = some txn) (id : ItemId) :
    t.locks.find? id = some ⟨id, txn⟩ ↔ id ∈ u.ids := by
  have distinct := h.distinct
  rw [List.filterMap_cons_some opened] at distinct
  have apart : txn ∉ others.map (·.owner) := fun other =>
    h.apart other (List.mem_filterMap.mpr ⟨u, List.mem_cons_self, opened⟩)
  rw [Keyed.find?_eq_some_iff, h.locks.mem_iff, List.mem_append, List.flatMap_cons, List.mem_append]
  constructor
  · rintro ⟨other | own | elsewhere, -⟩
    · exact absurd (List.mem_map.mpr ⟨_, other, rfl⟩) apart
    · exact (Holding.mem_locks.mp own).2
    · obtain ⟨v, hv, held⟩ := List.mem_flatMap.mp elsewhere
      have second := List.mem_filterMap.mpr ⟨v, hv, (Holding.mem_locks.mp held).1⟩
      exact absurd second (List.nodup_cons.mp distinct).1
  · exact fun member => ⟨.inr (.inl (Holding.mem_locks.mpr ⟨opened, member⟩)), rfl⟩

/-- Units that are open at once hold no row in common. -/
theorem disjoint {v : Holding} {a b : TransactionId} (h : LocksExact others (u :: rest) t)
    (member : v ∈ rest) (hu : u.transaction = some a) (hv : v.transaction = some b) :
    u.ids.Disjoint v.ids := by
  intro id inU inV
  have left := (h.find?_eq_iff hu id).mpr inU
  have right : ⟨id, b⟩ ∈ t.locks.toList := h.locks.mem_iff.mpr <| List.mem_append_right _ <|
    List.mem_flatMap.mpr ⟨v, List.mem_cons_of_mem _ member, Holding.mem_locks.mpr ⟨hv, inV⟩⟩
  -- an id has one lock, so the transactions would be the same
  cases Keyed.eq_of_key (Keyed.mem_of_find? left) right rfl
  have distinct := h.distinct
  rw [List.filterMap_cons_some hu] at distinct
  exact (List.nodup_cons.mp distinct).1 (List.mem_filterMap.mpr ⟨v, member, hv⟩)

theorem begin (h : LocksExact others units t) : LocksExact others units t.begin where
  locks := h.locks
  begun lock member := (h.begun lock member).trans (Nat.lt_succ_self _)
  opened txn member := (h.opened txn member).trans (Nat.lt_succ_self _)
  apart := h.apart
  distinct := h.distinct

theorem lock {rows : List Row} (h : LocksExact others units t) (unique : (rows.map (·.id)).Nodup)
    (free : ∀ r ∈ rows, t.lockedByOther t.nextTransaction r.id = false) :
    LocksExact others (⟨some t.nextTransaction, rows.map (·.id)⟩ :: units)
      (t.begin.lockAll t.nextTransaction rows) where
  locks := by
    have added : (t.begin.lockAll t.nextTransaction rows).locks.toList.Perm
        (rows.map (⟨·.id, t.nextTransaction⟩) ++ t.locks.toList) := by
      simp only [lockAll, ← List.foldl_map (f := fun r : Row => (⟨r.id, t.nextTransaction⟩ : Lock))]
      apply Keyed.foldl_insert_perm
      · simpa [List.map_map, Function.comp_def] using unique
      · intro lock member other old same
        obtain ⟨r, hr, rfl⟩ := List.mem_map.mp member
        exact Keyed.find?_eq_none_iff.mp (h.allBegun.unlocked (free r hr)) other old same
    refine (added.trans (h.locks.append_left _)).trans ?_
    simp only [List.flatMap_cons, Holding.locks, List.map_map, Function.comp_def]
    exact List.perm_append_comm_assoc _ _ _
  begun := h.begin.begun
  opened txn member := by
    rcases List.mem_cons.mp member with rfl | member
    · exact Nat.lt_succ_self _
    · exact h.begin.opened txn member
  apart := by
    refine List.disjoint_cons_right.mpr ⟨fun member => ?_, h.apart⟩
    obtain ⟨lock, other, same⟩ := List.mem_map.mp member
    exact absurd same (Nat.ne_of_lt (h.begun lock other))
  distinct := List.nodup_cons.mpr ⟨fun member => Nat.lt_irrefl _ (h.opened _ member), h.distinct⟩

theorem release {txn : TransactionId} (h : LocksExact others (u :: rest) t)
    (opened : u.transaction = some txn) : LocksExact others rest (t.release txn) := by
  obtain ⟨fresh, distinct⟩ := List.nodup_cons.mp
    (show (txn :: rest.filterMap (·.transaction)).Nodup by simpa [opened] using h.distinct)
  have apart : txn ∉ others.map (·.owner) ∧
      (others.map (·.owner)).Disjoint (rest.filterMap (·.transaction)) := by
    simpa [opened] using h.apart
  refine ⟨?_, h.begun, fun txn member => ?_, apart.2, distinct⟩
  · have kept := h.locks.filter (·.owner != txn)
    have own : u.locks.filter (·.owner != txn) = [] := by
      simp [Holding.locks, opened]
    have elsewhere : others.filter (·.owner != txn) = others := by
      refine List.filter_eq_self.mpr fun lock member => bne_iff_ne.mpr fun same => ?_
      exact apart.1 (List.mem_map.mpr ⟨lock, member, same⟩)
    have remaining : (rest.flatMap Holding.locks).filter (·.owner != txn) = rest.flatMap Holding.locks := by
      refine List.filter_eq_self.mpr fun lock member => bne_iff_ne.mpr ?_
      rintro rfl
      obtain ⟨v, hv, held⟩ := List.mem_flatMap.mp member
      exact fresh (List.mem_filterMap.mpr ⟨v, hv, (Holding.mem_locks.mp held).1⟩)
    simpa [Table.release, Keyed.filter, own, elsewhere, remaining] using kept
  · exact h.opened txn (by simp [opened, member])

end LocksExact

end Table

end Outbox
