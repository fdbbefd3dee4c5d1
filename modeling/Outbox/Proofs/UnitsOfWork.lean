import Mathlib.Algebra.GroupWithZero.Nat
import Outbox.Proofs.Repository
import Outbox.Table.Maintenance

/-!
Any number of units of work on one table, with inserts and maintenance between their steps. Row locks
are exclusive and exact in every state such a system can reach, and a unit that was saved or dropped
leaves none behind (`locks_exclusive`).
-/

namespace Outbox

namespace Repository

theorem fetch_transaction (features : Features) (now : Instant) (limit : Nat) (r : Repository)
    (t : Table) :
    t.nextTransaction ≤ (r.fetch features now limit t).2.2.nextTransaction ∧
      ∀ txn, (r.fetch features now limit t).2.1.transaction = some txn →
        r.transaction = some txn ∨ txn = t.nextTransaction := by
  rcases r.fetch_cases features now limit t with
    ⟨_, _, result⟩ | ⟨_, _, result⟩ | ⟨_, _, _, result⟩ <;> rw [result]
  · exact ⟨Nat.le_refl _, fun txn opened => .inl opened⟩
  · exact ⟨Nat.le_succ _, fun txn opened => .inl opened⟩
  · exact ⟨Nat.le_succ _, fun txn opened => .inr (Option.some.inj opened).symm⟩

theorem save_transaction (features : Features) (completed : List ItemId) (retried : List Row)
    (r : Repository) (t : Table) :
    (r.save features completed retried t).2.2.nextTransaction = t.nextTransaction ∧
      ∀ txn, (r.save features completed retried t).2.1.transaction = some txn →
        r.transaction = some txn := by
  rcases r.save_cases features completed retried t with
    ⟨_, result⟩ | ⟨_, _, _, _, result⟩ | ⟨_, _, _, result⟩ <;> rw [result]
  · exact ⟨rfl, fun txn opened => opened⟩
  · exact ⟨rfl, fun txn opened => opened⟩
  · exact ⟨Table.write_nextTransaction .., fun txn opened => nomatch opened⟩

theorem save_closed {features : Features} {completed : List ItemId} {retried : List Row}
    {r : Repository} {t : Table}
    (saved : (r.save features completed retried t).1 = .ok ()) :
    (r.save features completed retried t).2.1.transaction = none := by
  rcases r.save_cases features completed retried t with
    ⟨_, result⟩ | ⟨_, _, _, _, result⟩ | ⟨_, _, _, result⟩ <;> rw [result] at saved ⊢
  · cases saved
  · cases saved

theorem drop_nextTransaction (r : Repository) (t : Table) : (r.drop t).nextTransaction = t.nextTransaction := by
  unfold drop; split <;> rfl

end Repository

namespace Table

variable {features : Features} {t : Table}

theorem delete_locks (ids : List ItemId) :
    (t.delete ids).2.locks = t.locks ∧ (t.delete ids).2.nextTransaction = t.nextTransaction := by
  induction ids generalizing t with
  | nil => exact ⟨rfl, rfl⟩
  | cons id rest ih => exact ih (t := { t with rows := t.rows.erase id })

theorem restart_locks (ids : List ItemId) : (t.restart features ids).2.locks = t.locks ∧
    (t.restart features ids).2.nextTransaction = t.nextTransaction := by
  induction ids generalizing t with
  | nil => exact ⟨rfl, rfl⟩
  | cons id rest ih =>
    exact ih (t := { t with rows := t.rows.modify id (·.modifyStatus features .restart) })

end Table

namespace UnitsOfWork

/-- A unit of work and the rows its last fetch returned. -/
structure Holder where
  repository : Repository
  fetched : List Row := []

structure State where
  now : Instant
  table : Table := {}
  holders : List Holder := []

inductive Event where
  | openUnit (mode : Mode)
  | fetch (unit limit : Nat)
  | save (unit : Nat) (completed : List ItemId) (retried : List Row)
  | drop (unit : Nat)
  | insert (rows : List Row)
  | clear
  | delete (ids : List ItemId)
  | restart (ids : List ItemId)
  | clock (now : Instant)

/-- One step of the system. A step of a unit that does not exist changes nothing. -/
def step (features : Features) (s : State) : Event → State
  | .openUnit mode => { s with holders := s.holders ++ [{ repository := { mode } }] }
  | .fetch i limit =>
    match s.holders[i]? with
    | some u =>
      let (result, repository, table) := u.repository.fetch features s.now limit s.table
      let fetched := result.toOption.getD u.fetched
      { s with table, holders := s.holders.set i { repository, fetched } }
    | none => s
  | .save i completed retried =>
    match s.holders[i]? with
    | some u =>
      let (_, repository, table) := u.repository.save features completed retried s.table
      { s with table, holders := s.holders.set i { u with repository } }
    | none => s
  | .drop i =>
    match s.holders[i]? with
    | some u => { s with table := u.repository.drop s.table, holders := s.holders.eraseIdx i }
    | none => s
  | .insert rows => { s with table := s.table.insert rows }
  | .clear => { s with table := s.table.clear }
  | .delete ids => { s with table := (s.table.delete ids).2 }
  | .restart ids => { s with table := (s.table.restart features ids).2 }
  | .clock now => { s with now }

def run (features : Features) (s : State) (events : List Event) : State :=
  events.foldl (step features) s

/-- The event ends the transaction: a save of its unit that goes well, or the drop of its unit. -/
def Closes (features : Features) (s : State) (txn : TransactionId) : Event → Prop
  | .save i completed retried => ∃ u, s.holders[i]? = some u ∧
      u.repository.transaction = some txn ∧
      (u.repository.save features completed retried s.table).1 = .ok ()
  | .drop i => ∃ u, s.holders[i]? = some u ∧ u.repository.transaction = some txn
  | _ => False

namespace Holder

def isOpen (u : Holder) : Bool := u.repository.transaction.isSome

def ids (u : Holder) : List ItemId := u.fetched.map (·.id)

def holding (u : Holder) : Holding := ⟨u.repository.transaction, u.ids⟩

end Holder

/-- Row locks are exclusive and exact. -/
structure LocksExclusive (s : State) : Prop where
  /-- Every lock belongs to exactly one unit that is still open with its transaction. -/
  owned : ∀ lock ∈ s.table.locks.toList,
    ∃! i : Nat, ∃ u, s.holders[i]? = some u ∧ u.repository.transaction = some lock.owner
  /-- An open unit holds what it fetched, and nothing else. -/
  held : ∀ u ∈ s.holders, ∀ txn, u.repository.transaction = some txn →
    ∀ id, s.table.locks.find? id = some ⟨id, txn⟩ ↔ id ∈ u.ids
  apart : ∀ (i j : Nat) u v, s.holders[i]? = some u → s.holders[j]? = some v → i ≠ j →
    u.isOpen → v.isOpen → u.ids.Disjoint v.ids
  counted : s.table.locks.size = ((s.holders.filter (·.isOpen)).map (·.fetched.length)).sum

/-! ### One step -/

variable {features : Features} {s : State} {e : Event} {txn : TransactionId}

/-- The invariant from which exclusion follows: no locks but those of the units. -/
def Exact (s : State) : Prop := s.table.LocksExact [] (s.holders.map (·.holding))

theorem step_exact (h : Exact s) : Exact (step features s e) := by
  unfold Exact at h ⊢
  cases e with
  | openUnit mode =>
    have grown := (Table.LocksExact.cons_closed (u := Holder.holding { repository := { mode } }) rfl).mpr h
    simp only [step, List.map_append, List.map_cons, List.map_nil]
    exact grown.perm (List.perm_append_singleton _ _).symm
  | fetch i limit =>
    simp only [step]
    split
    · rename_i u at_i
      exact (Table.LocksExact.focus_set at_i _).mpr (((Table.LocksExact.focus at_i).mp h).fetch s.now limit)
    · exact h
  | save i completed retried =>
    simp only [step]
    split
    · rename_i u at_i
      exact (Table.LocksExact.focus_set at_i _).mpr
        (((Table.LocksExact.focus at_i).mp h).save completed retried)
    · exact h
  | drop i =>
    simp only [step]
    split
    · rename_i u at_i
      exact ((Table.LocksExact.focus at_i).mp h).drop
    · exact h
  | insert rows => exact h.congr rfl rfl
  | clear => exact h.congr rfl rfl
  | delete ids => exact h.congr (Table.delete_locks ids).1 (Table.delete_locks ids).2
  | restart ids => exact h.congr (Table.restart_locks ids).1 (Table.restart_locks ids).2
  | clock now => exact h

/-- The transaction was begun and no unit has it. -/
structure Retired (txn : TransactionId) (s : State) : Prop where
  begun : txn < s.table.nextTransaction
  gone : ∀ u ∈ s.holders, u.repository.transaction ≠ some txn

/-- A transaction that no unit has is never opened again. -/
theorem step_retired (h : Retired txn s) : Retired txn (step features s e) := by
  cases e with
  | openUnit mode =>
    refine ⟨h.begun, fun u member => ?_⟩
    rcases List.mem_append.mp member with old | new
    · exact h.gone u old
    · rw [List.mem_singleton.mp new]
      exact nofun
  | fetch i limit =>
    simp only [step]
    split
    · rename_i u at_i
      obtain ⟨grows, opens⟩ := u.repository.fetch_transaction features s.now limit s.table
      refine ⟨Nat.lt_of_lt_of_le h.begun grows, fun v member => ?_⟩
      rcases List.mem_or_eq_of_mem_set member with old | rfl
      · exact h.gone v old
      · intro opened
        rcases opens txn opened with before | next
        · exact h.gone u (List.mem_of_getElem? at_i) before
        · exact Nat.ne_of_lt h.begun next
    · exact h
  | save i completed retried =>
    simp only [step]
    split
    · rename_i u at_i
      obtain ⟨same, opens⟩ := u.repository.save_transaction features completed retried s.table
      refine ⟨same ▸ h.begun, fun v member => ?_⟩
      rcases List.mem_or_eq_of_mem_set member with old | rfl
      · exact h.gone v old
      · exact fun opened => h.gone u (List.mem_of_getElem? at_i) (opens txn opened)
    · exact h
  | drop i =>
    simp only [step]
    split
    · rename_i u at_i
      refine ⟨?_, fun v member => h.gone v (List.mem_of_mem_eraseIdx member)⟩
      rw [u.repository.drop_nextTransaction]
      exact h.begun
    · exact h
  | insert rows => exact ⟨h.begun, h.gone⟩
  | clear => exact ⟨h.begun, h.gone⟩
  | delete ids => exact ⟨h.begun.trans_eq (Table.delete_locks ids).2.symm, h.gone⟩
  | restart ids => exact ⟨h.begun.trans_eq (Table.restart_locks ids).2.symm, h.gone⟩
  | clock now => exact ⟨h.begun, h.gone⟩

theorem Exact.unique (h : Exact s) {i j : Nat} {u v : Holder} (at_i : s.holders[i]? = some u)
    (at_j : s.holders[j]? = some v) (hu : u.repository.transaction = some txn)
    (hv : v.repository.transaction = some txn) : i = j := by
  by_contra apart
  have distinct := ((Table.LocksExact.focus at_i).mp h).distinct
  rw [List.filterMap_cons_some (show u.holding.transaction = some txn from hu)] at distinct
  refine (List.nodup_cons.mp distinct).1 (List.mem_filterMap.mpr ⟨v.holding, List.mem_map_of_mem ?_, hv⟩)
  exact List.mem_eraseIdx_iff_getElem?.mpr ⟨j, Ne.symm apart, at_j⟩

theorem closes_retired (h : Exact s) (closes : Closes features s txn e) :
    Retired txn (step features s e) := by
  have begun : ∀ u ∈ s.holders, u.repository.transaction = some txn → txn < s.table.nextTransaction :=
    fun u member opened => h.opened txn
      (List.mem_filterMap.mpr ⟨u.holding, List.mem_map_of_mem member, opened⟩)
  cases e with
  | save i completed retried =>
    obtain ⟨u, at_i, opened, saved⟩ := closes
    have same := (u.repository.save_transaction features completed retried s.table).1
    simp only [step, at_i]
    refine ⟨same ▸ begun u (List.mem_of_getElem? at_i) opened, fun v member hv => ?_⟩
    obtain ⟨j, at_j⟩ := List.getElem?_of_mem member
    by_cases here : i = j
    · subst here
      rw [List.getElem?_set_self (List.getElem?_eq_some_iff.mp at_i).1] at at_j
      cases at_j
      rw [u.repository.save_closed saved] at hv
      cases hv
    · rw [List.getElem?_set_ne here] at at_j
      exact here (h.unique at_i at_j opened hv)
  | drop i =>
    obtain ⟨u, at_i, opened⟩ := closes
    simp only [step, at_i]
    refine ⟨?_, fun v member hv => ?_⟩
    · rw [u.repository.drop_nextTransaction]
      exact begun u (List.mem_of_getElem? at_i) opened
    · obtain ⟨j, apart, at_j⟩ := List.mem_eraseIdx_iff_getElem?.mp member
      exact apart (h.unique at_i at_j opened hv).symm
  | openUnit _ | fetch _ _ | insert _ | clear | delete _ | restart _ | clock _ => cases closes

/-! ### A whole run -/

theorem run_exact (features : Features) (h : Exact s) (events : List Event) :
    Exact (run features s events) := by
  induction events generalizing s with
  | nil => exact h
  | cons e rest ih => exact ih (step_exact h)

theorem run_retired (features : Features) (h : Retired txn s) (events : List Event) :
    Retired txn (run features s events) := by
  induction events generalizing s with
  | nil => exact h
  | cons e rest ih => exact ih (step_retired h)

theorem start_exact (now : Instant) : Exact { now } := .empty

/-- The locks of a system without others are those of its open units. -/
theorem Exact.mem_locks (h : Exact s) {lock : Lock} : lock ∈ s.table.locks.toList ↔
    ∃ u ∈ s.holders, u.repository.transaction = some lock.owner ∧ lock.id ∈ u.ids := by
  rw [h.locks.mem_iff, List.nil_append, List.mem_flatMap]
  simp [Holding.mem_locks, Holder.holding]

theorem Exact.exclusive (h : Exact s) : LocksExclusive s where
  owned lock member := by
    obtain ⟨u, hu, opened, -⟩ := h.mem_locks.mp member
    obtain ⟨i, at_i⟩ := List.getElem?_of_mem hu
    refine ⟨i, ⟨u, at_i, opened⟩, ?_⟩
    rintro j ⟨v, at_j, hv⟩
    exact h.unique at_j at_i hv opened
  held u hu txn opened id := by
    obtain ⟨i, at_i⟩ := List.getElem?_of_mem hu
    exact ((Table.LocksExact.focus at_i).mp h).find?_eq_iff opened id
  apart i j u v at_i at_j apart hu hv := by
    obtain ⟨a, ha⟩ := Option.isSome_iff_exists.mp hu
    obtain ⟨b, hb⟩ := Option.isSome_iff_exists.mp hv
    have other : v ∈ s.holders.eraseIdx i :=
      List.mem_eraseIdx_iff_getElem?.mpr ⟨j, Ne.symm apart, at_j⟩
    exact ((Table.LocksExact.focus at_i).mp h).disjoint (List.mem_map_of_mem other) ha hb
  counted := by
    have total := h.locks.length_eq
    rw [List.nil_append, List.length_flatMap, List.map_map] at total
    refine total.trans ?_
    induction s.holders with
    | nil => rfl
    | cons u rest ih =>
      cases opened : u.repository.transaction <;>
        simp_all [Holder.isOpen, Holder.holding, Holding.locks, Holder.ids]

/-- In every state that units of work, inserts and maintenance can reach, row locks are exclusive and
exact, and once a transaction was closed nothing is ever locked in its name. -/
theorem locks_exclusive (features : Features) (now : Instant) (events later : List Event) (e : Event)
    (txn : TransactionId) :
    LocksExclusive (run features { now } events) ∧
      (Closes features (run features { now } events) txn e →
        ∀ lock ∈ (run features { now } (events ++ e :: later)).table.locks.toList,
          lock.owner ≠ txn) := by
  have exact := run_exact features (start_exact now) events
  refine ⟨exact.exclusive, ?_⟩
  rintro closes lock member rfl
  have retired := run_retired features (closes_retired exact closes) later
  have whole := run_exact features (start_exact now) (events ++ e :: later)
  obtain ⟨u, hu, opened, -⟩ := whole.mem_locks.mp member
  simp only [run, List.foldl_append, List.foldl_cons] at hu
  exact retired.gone u hu opened

def twoUnits : List Event :=
  [.insert [{ id := .ofNat 1, payload := "first" }, { id := .ofNat 2, payload := "second" }],
    .openUnit ⟨.skipLocked, false⟩, .openUnit ⟨.skipLocked, false⟩, .fetch 0 1, .fetch 1 1]

/-- The save of the first unit ends its transaction; the second keeps its lock. -/
theorem locks_exclusive_saved :
    Closes {} (run {} { now := .epoch } twoUnits) 1 (.save 0 [.ofNat 1] []) ∧
      (∀ lock ∈ (run {} { now := .epoch } (twoUnits ++ [.save 0 [.ofNat 1] []])).table.locks.toList,
        lock.owner ≠ 1) ∧
      (run {} { now := .epoch } (twoUnits ++ [.save 0 [.ofNat 1] []])).table.locks.toList =
        [⟨.ofNat 2, 2⟩] := by
  have closes : Closes {} (run {} { now := .epoch } twoUnits) 1 (.save 0 [.ofNat 1] []) :=
    ⟨_, rfl, rfl, rfl⟩
  exact ⟨closes, (locks_exclusive {} .epoch twoUnits [] _ 1).2 closes, by decide⟩

end UnitsOfWork

end Outbox
