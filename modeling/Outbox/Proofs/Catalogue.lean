import Outbox.Proofs.Keyed
import Outbox.Proofs.PartitionRanges
import Outbox.Rehearsal.Upkeep

/-!
All that a call on a store of partitions can do (`Catalogue.Move`), also where calls are made to fail.
Whatever is called, the attached ranges never overlap (`Apart.move`, `never_overlaps`).
-/

namespace Outbox

theorem PartitionRange.overlaps_comm (a b : PartitionRange) : a.overlaps b = b.overlaps a :=
  Bool.and_comm _ _

namespace Catalogue

variable {c c' : Catalogue} {call : StoreCall} {answer : Except PartitionError Unit} {name : String}
  {r : PartitionRange} {table : String}

def Taken (c : Catalogue) (name : String) : Prop :=
  c.attached.contains name ∨ c.detached.contains name

theorem mem_insert_of_free {x : PartitionRange} (free : ¬ c.Taken r.name) :
    x ∈ (c.attached.insert r).toList ↔ x = r ∨ x ∈ c.attached.toList := by
  have absent : ∀ x ∈ c.attached.toList, x.name ≠ r.name := fun x member same =>
    free (.inl (Keyed.contains_iff.mpr ⟨x, member, same⟩))
  exact (Keyed.insert_perm absent).mem_iff.trans List.mem_cons

/-- What a call that may be made to fail can do. -/
inductive Move (c : Catalogue) : StoreCall → Except PartitionError Unit → Catalogue → Prop where
  | failed {call : StoreCall} (e : PartitionError) : Move c call (.error e) c
  | kept {r : PartitionRange} (taken : c.Taken r.name) : Move c (.create r) (.ok ()) c
  | created {r : PartitionRange} (free : ¬ c.Taken r.name)
      (apart : ∀ other ∈ c.attached.toList, r.overlaps other = false) :
      Move c (.create r) (.ok ()) { c with attached := c.attached.insert r }
  | detached {r : PartitionRange} (found : c.attached.find? r.name = some r) :
      Move c (.detach r.name) (.ok ())
        { c with attached := c.attached.erase r.name, detached := c.detached.insert r.name }
  | dropped {name : String} (taken : c.Taken name) :
      Move c (.drop name) (.ok ())
        { c with attached := c.attached.erase name, detached := c.detached.erase name }

theorem create_moves (c : Catalogue) (r : PartitionRange) :
    Move c (.create r) (c.create r).1 (c.create r).2 := by
  unfold create
  split
  · rename_i taken
    exact .kept (Bool.or_eq_true_iff.mp taken)
  · rename_i free
    split
    · exact .failed _
    · rename_i apart
      refine .created (fun taken => free (Bool.or_eq_true_iff.mpr taken)) fun other member => ?_
      simpa using List.find?_eq_none.mp apart other member

theorem perform_moves (c : Catalogue) (call : StoreCall) :
    Move c call (c.perform call).1 (c.perform call).2 := by
  cases call with
  | create r =>
    simp only [perform]
    split
    · exact create_moves c r
    · exact .failed _
  | detach name =>
    simp only [perform, detach]
    split
    · split
      · rename_i there
        obtain ⟨r, found⟩ := Option.isSome_iff_exists.mp there
        obtain rfl := Keyed.key_of_find? found
        exact .detached found
      · exact .failed _
    · exact .failed _
  | drop name =>
    simp only [perform, drop]
    split
    · rename_i taken
      exact .dropped (Bool.or_eq_true_iff.mp taken)
    · exact .failed _

theorem store_moves (s : Rehearsal.Store) (call : StoreCall) :
    Move s.catalogue call (s.perform call).1 (s.perform call).2.catalogue := by
  unfold Rehearsal.Store.perform
  simp only
  split
  · exact .failed _
  · exact perform_moves s.catalogue call

namespace Move

theorem table_eq (h : Move c call answer c') : c'.table = c.table := by
  cases h <;> rfl

theorem attached (h : Move c call answer c') (member : r ∈ c'.attached.toList) :
    r ∈ c.attached.toList ∨ call = .create r ∧ ¬ c.Taken r.name ∧
      ∀ other ∈ c.attached.toList, r.overlaps other = false := by
  cases h with
  | failed | kept => exact .inl member
  | @created new free apart =>
    rcases Keyed.mem_place member with rfl | old
    · exact .inr ⟨rfl, free, apart⟩
    · exact .inl old
  | detached | dropped => exact .inl (List.mem_of_mem_filter member)

/-- A creation takes nothing away, and one that succeeds leaves its name taken. -/
theorem create (h : Move c (.create r) answer c') :
    (∀ x ∈ c.attached.toList, x ∈ c'.attached.toList) ∧ c'.detached = c.detached ∧
      (answer = .ok () → c'.Taken r.name) := by
  cases h with
  | failed => exact ⟨fun x member => member, rfl, nofun⟩
  | kept taken => exact ⟨fun x member => member, rfl, fun _ => taken⟩
  | created free =>
    refine ⟨fun x member => (mem_insert_of_free free).mpr (.inr member), rfl, fun _ => .inl ?_⟩
    exact Keyed.contains_iff.mpr ⟨r, (mem_insert_of_free free).mpr (.inl rfl), rfl⟩

theorem create_taken {name : String} (h : Move c (.create r) answer c') (taken : c.Taken name) :
    c'.Taken name := by
  obtain ⟨grows, same, -⟩ := h.create
  unfold Taken at taken ⊢
  rw [same]
  refine taken.imp_left fun attached => ?_
  obtain ⟨x, member, named⟩ := Keyed.contains_iff.mp attached
  exact Keyed.contains_iff.mpr ⟨x, grows x member, named⟩

theorem eq_of_error {e : PartitionError} (h : Move c call (.error e) c') : c' = c := by
  cases h
  rfl

theorem takes {name : String} (h : Move c call (.ok ()) c')
    (asked : call = .detach name ∨ call = .drop name) :
    c.Taken name ∧ c'.attached = c.attached.erase name ∧
      ∀ n ∈ c'.detached.toList, n ∈ c.detached.toList ∨ n = name := by
  rcases asked with rfl | rfl
  · cases h with
    | detached found =>
      refine ⟨.inl (Option.isSome_of_eq_some found), rfl, fun n member => ?_⟩
      exact (Keyed.mem_place member).symm
  · cases h with
    | dropped taken => exact ⟨taken, rfl, fun n member => .inl (Keyed.mem_erase.mp member).1⟩

end Move

/-! ### One name at a time -/

theorem taken_iff : c.Taken name ↔ c.attached.find? name ≠ none ∨ c.detached.find? name ≠ none := by
  simp only [Taken, Keyed.contains, Option.isSome_iff_ne_none]

theorem taken_congr (attached : c'.attached.find? name = c.attached.find? name)
    (detached : c'.detached.find? name = c.detached.find? name) : c'.Taken name ↔ c.Taken name := by
  rw [taken_iff, taken_iff, attached, detached]

theorem Move.elsewhere (h : Move c call answer c') (other : call.partition ≠ name) :
    c'.attached.find? name = c.attached.find? name ∧ c'.detached.find? name = c.detached.find? name := by
  have erased {α : Type} {key : α → String} (s : Keyed key) (gone : String) (h : gone ≠ name) :
      (s.erase gone).find? name = s.find? name := by
    rw [Keyed.find?_erase, if_neg (mt Std.LawfulEqOrd.compare_eq_iff_eq.mp h)]
  cases h with
  | failed | kept => exact ⟨rfl, rfl⟩
  | created => exact ⟨Keyed.find?_insert_of_ne other, rfl⟩
  | detached => exact ⟨erased _ _ other, Keyed.find?_insert_of_ne other⟩
  | dropped => exact ⟨erased _ _ other, erased _ _ other⟩

theorem Move.taken_elsewhere (h : Move c call answer c') (other : call.partition ≠ name) :
    c'.Taken name ↔ c.Taken name := by
  obtain ⟨attached, detached⟩ := h.elsewhere other
  exact taken_congr attached detached

def Apart (c : Catalogue) : Prop :=
  ∀ r ∈ c.attached.toList, ∀ other ∈ c.attached.toList, r.overlaps other → r = other

namespace Apart

theorem empty (table : String) : Apart { table } := fun _ member => absurd member List.not_mem_nil

theorem move (h : c.Apart) (moves : Move c call answer c') : c'.Apart := by
  intro r member other member' overlaps
  rcases moves.attached member with old | ⟨new, -, apart⟩ <;>
    rcases moves.attached member' with old' | ⟨new', -, apart'⟩
  · exact h r old other old' overlaps
  · cases (PartitionRange.overlaps_comm r other ▸ overlaps).symm.trans (apart' r old)
  · cases overlaps.symm.trans (apart other old')
  · cases new.symm.trans new'
    rfl

theorem eq_of_contains (h : c.Apart) {other : PartitionRange} {id : ItemId}
    (member : r ∈ c.attached.toList) (member' : other ∈ c.attached.toList) (holds : r.Contains id)
    (holds' : other.Contains id) : r = other := by
  refine h r member other member' (Bool.and_eq_true_iff.mpr ⟨?_, ?_⟩)
  · exact decide_eq_true (Nat.lt_of_le_of_lt holds.1 holds'.2)
  · exact decide_eq_true (Nat.lt_of_le_of_lt holds'.1 holds.2)

end Apart

/-- Ranges of days are attached, no two of which overlap. -/
structure Tidy (table : String) (c : Catalogue) : Prop where
  spans : ∀ r ∈ c.attached.toList, ∃ first stop, r.Spans table first stop
  apart : c.Apart

theorem Tidy.move (h : Tidy table c) (moves : Move c call answer c')
    (days : ∀ r, call = .create r → ∃ first stop, r.Spans table first stop) : Tidy table c' where
  spans r member := by
    rcases moves.attached member with old | ⟨new, -⟩
    · exact h.spans r old
    · exact days r new
  apart := h.apart.move moves

theorem Tidy.empty (table : String) : Tidy table { table } :=
  ⟨fun _ member => absurd member List.not_mem_nil, .empty table⟩

/-- Nothing else has the name of the range. -/
def Clear (c : Catalogue) (r : PartitionRange) : Prop := c.Taken r.name → r ∈ c.attached.toList

namespace Clear

theorem attached (h : c.Clear r) (moves : Move c (.create r) (.ok ()) c') : r ∈ c'.attached.toList := by
  cases moves with
  | kept taken => exact h taken
  | created free => exact (mem_insert_of_free free).mpr (.inl rfl)

theorem create {x : PartitionRange} (h : c.Clear x) (moves : Move c (.create r) answer c')
    (distinct : x.name = r.name → x = r) : c'.Clear x := by
  cases moves with
  | failed | kept => exact h
  | created free =>
    intro taken
    refine (mem_insert_of_free free).mpr ?_
    rcases taken with attached | detached
    · obtain ⟨y, member, same⟩ := Keyed.contains_iff.mp attached
      rcases (mem_insert_of_free free).mp member with rfl | old
      · exact .inl (distinct same.symm)
      · exact .inr (h (.inl (Keyed.contains_iff.mpr ⟨y, old, same⟩)))
    · exact .inr (h (.inr detached))

end Clear

/-! ### Any calls -/

/-- No name is attached and detached at once. -/
def Exclusive (c : Catalogue) : Prop := ∀ name, ¬ (c.attached.contains name ∧ c.detached.contains name)

namespace Exclusive

theorem iff_find? : c.Exclusive ↔ ∀ name, c.attached.find? name = none ∨ c.detached.find? name = none := by
  simp only [Exclusive, Keyed.contains, Option.isSome_iff_ne_none, not_and_or, not_not]

theorem empty (table : String) : Exclusive { table } := iff_find?.mpr fun _ => .inl rfl

/-- A call moves the name it is about from one place to the other, and no other name. -/
theorem move (h : c.Exclusive) (moves : Move c call answer c') : c'.Exclusive := by
  rw [iff_find?] at h ⊢
  intro name
  by_cases other : call.partition = name
  · subst other
    cases moves with
    | failed | kept => exact h _
    | @created r free =>
      right
      exact Decidable.byContradiction fun there => free (taken_iff.mpr (.inr there))
    | @detached r =>
      left
      simp only [StoreCall.partition, Keyed.find?_erase, Std.ReflOrd.compare_self, if_true]
    | @dropped gone =>
      left
      simp only [StoreCall.partition, Keyed.find?_erase, Std.ReflOrd.compare_self, if_true]
  · obtain ⟨attached, detached⟩ := moves.elsewhere other
    rw [attached, detached]
    exact h name

end Exclusive

def performAll (c : Catalogue) (calls : List StoreCall) : Catalogue :=
  calls.foldl (fun c call => (c.perform call).2) c

theorem performAll_keeps {Inv : Catalogue → Prop}
    (keeps : ∀ c call answer c', Move c call answer c' → Inv c → Inv c') (start : Inv c) (calls : List StoreCall) :
    Inv (c.performAll calls) := by
  induction calls generalizing c with
  | nil => exact start
  | cons call rest ih => exact ih (keeps _ _ _ _ (perform_moves c call) start)

/-- Whatever a store is asked for, also with bounds that hold no id, its attached partitions stand under
their own names and share no id, none of them is detached as well, and what it refuses changes nothing. -/
theorem never_overlaps (table : String) (calls : List StoreCall) :
    let c := performAll { table } calls
    (∀ name r, c.attached.find? name = some r ↔ r ∈ c.attached.toList ∧ r.name = name) ∧
    (∀ r ∈ c.attached.toList, ∀ other ∈ c.attached.toList, ∀ id, r.Contains id → other.Contains id → r = other) ∧
    c.Exclusive ∧
    ∀ call e, (c.perform call).1 = .error e → (c.perform call).2 = c := by
  intro c
  have apart : c.Apart := performAll_keeps (fun _ _ _ _ moves h => h.move moves) (.empty table) calls
  have exclusive : c.Exclusive := performAll_keeps (fun _ _ _ _ moves h => h.move moves) (.empty table) calls
  refine ⟨fun name r => Keyed.find?_eq_some_iff, ?_, exclusive, fun call e refused => ?_⟩
  · intro r member other member' id holds holds'
    exact apart.eq_of_contains member member' holds holds'
  · have moves := perform_moves c call
    rw [refused] at moves
    exact moves.eq_of_error

/-- Bounds the wrong way round are accepted, a range that overlaps is refused until the other is detached. -/
example :
    let made : StoreCall := .create ⟨"c", .ofNat 8, .ofNat 14⟩
    let c := performAll { table := "t" }
      [.create ⟨"a", .ofNat 0, .ofNat 10⟩, .create ⟨"b", .ofNat 12, .ofNat 4⟩, made, .detach "a", made]
    c.attached.toList.map (·.name) = ["b", "c"] ∧ c.detached.toList = ["a"] := by decide

end Catalogue

end Outbox
