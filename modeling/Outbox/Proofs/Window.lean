import Outbox.Proofs.Instants
import Outbox.Proofs.Keyed
import Outbox.Table

/-!
The order in which rows are fetched and what a fetch may return. `eligible_pairwise` says that the
rows on offer stand in fetch order, so they are known by their members alone (`eq_of_precedes`).
-/

namespace Outbox

/-- Comes before `b` in the order of fetches: by priority where the type has one, then by id. -/
def Row.precedes (features : Features) (a b : Row) : Prop :=
  if features.priority then
    b.priority.toInt < a.priority.toInt ∨ a.priority.toInt = b.priority.toInt ∧ a.id < b.id
  else a.id < b.id

namespace ItemId

theorem lt_iff_compare {a b : ItemId} : a < b ↔ compare a b = .lt :=
  (Nat.compare_eq_lt (a := a.toNat) (b := b.toNat)).symm

theorem lt_iff_toNat {a b : ItemId} : a < b ↔ a.toNat < b.toNat := .rfl

end ItemId

theorem placeByPriority_perm (row : Row) (rows : List Row) :
    (placeByPriority row rows).Perm (row :: rows) := by
  induction rows with
  | nil => exact .refl _
  | cons r rest ih =>
    unfold placeByPriority
    split
    · exact .refl _
    · exact (ih.cons r).trans (.swap row r rest)

theorem byPriority_perm (rows : List Row) : (byPriority rows).Perm rows := by
  induction rows with
  | nil => exact .refl _
  | cons row rest ih => exact (placeByPriority_perm row _).trans (ih.cons row)

/-- A row older than all others goes after those of higher priority and before those of its own. -/
theorem placeByPriority_pairwise {features : Features} {row : Row} {rows : List Row}
    (priority : features.priority) (oldest : ∀ r ∈ rows, row.id < r.id)
    (sorted : rows.Pairwise (Row.precedes features)) :
    (placeByPriority row rows).Pairwise (Row.precedes features) := by
  have order : ∀ a b, Row.precedes features a b ↔ b.priority.toInt < a.priority.toInt ∨
      a.priority.toInt = b.priority.toInt ∧ a.id.toNat < b.id.toNat := by
    simp [Row.precedes, priority, ItemId.lt_iff_toNat]
  induction rows with
  | nil => simp [placeByPriority]
  | cons r rest ih =>
    obtain ⟨first, tail⟩ := List.pairwise_cons.mp sorted
    unfold placeByPriority
    split
    · rename_i below
      rw [Int32.le_iff_toInt_le] at below
      refine List.pairwise_cons.mpr ⟨fun x hx => (order row x).mpr ?_, sorted⟩
      have older := ItemId.lt_iff_toNat.mp (oldest x hx)
      rcases List.mem_cons.mp hx with rfl | hx
      · omega
      · have := (order r x).mp (first x hx)
        omega
    · rename_i above
      rw [Int32.le_iff_toInt_le] at above
      refine List.pairwise_cons.mpr ⟨fun x hx => ?_, ih (fun x hx => oldest x (List.mem_cons_of_mem _ hx)) tail⟩
      rcases List.mem_cons.mp ((placeByPriority_perm row rest).mem_iff.mp hx) with rfl | hx
      · exact (order r x).mpr (by omega)
      · exact first x hx

theorem byPriority_pairwise {features : Features} {rows : List Row} (priority : features.priority)
    (sorted : rows.Pairwise fun a b => a.id < b.id) :
    (byPriority rows).Pairwise (Row.precedes features) := by
  induction rows with
  | nil => exact .nil
  | cons row rest ih =>
    obtain ⟨first, tail⟩ := List.pairwise_cons.mp sorted
    exact placeByPriority_pairwise priority
      (fun r hr => first r ((byPriority_perm rest).mem_iff.mp hr)) (ih tail)

theorem Row.precedes_asymm {features : Features} {a b : Row} (forth : a.precedes features b) :
    ¬ b.precedes features a := by
  intro back
  simp only [Row.precedes, ItemId.lt_iff_toNat] at forth back
  split at forth <;> simp_all <;> omega

/-- Rows in fetch order are known by their members. -/
theorem eq_of_precedes {features : Features} {l m : List Row}
    (hl : l.Pairwise (Row.precedes features)) (hm : m.Pairwise (Row.precedes features))
    (members : ∀ r, r ∈ l ↔ r ∈ m) : l = m := by
  have : Std.Irrefl (Row.precedes features) := ⟨fun a h => Row.precedes_asymm h h⟩
  have : Std.Antisymm (Row.precedes features) :=
    ⟨fun a b forth back => (Row.precedes_asymm forth back).elim⟩
  exact hl.eq_of_mem_iff hm members

/-- Rows with all that comes before any of them are the first ones. -/
theorem prefix_of_precedes {features : Features} {b l : List Row}
    (hb : b.Pairwise (Row.precedes features)) (hl : l.Pairwise (Row.precedes features))
    (sub : ∀ x ∈ b, x ∈ l) (closed : ∀ x ∈ l, ∀ y ∈ b, x.precedes features y → x ∈ b) : b <+: l := by
  induction b generalizing l with
  | nil => exact List.nil_prefix
  | cons y ys ih =>
    cases l with
    | nil => exact absurd (sub y List.mem_cons_self) List.not_mem_nil
    | cons x xs =>
      obtain ⟨before, tail⟩ := List.pairwise_cons.mp hb
      obtain ⟨least, hl⟩ := List.pairwise_cons.mp hl
      have same : x = y := by
        rcases List.mem_cons.mp (sub y List.mem_cons_self) with rfl | later
        · rfl
        · rcases List.mem_cons.mp (closed x List.mem_cons_self y List.mem_cons_self (least y later)) with
            same | member
          · exact same
          · exact absurd (before x member) (Row.precedes_asymm (least y later))
      subst same
      refine List.cons_prefix_cons.mpr ⟨rfl, ih tail hl (fun z hz => ?_) fun z hz w hw below => ?_⟩
      · rcases List.mem_cons.mp (sub z (List.mem_cons_of_mem _ hz)) with rfl | member
        · exact absurd (before z hz) (Row.precedes_asymm (before z hz))
        · exact member
      · rcases List.mem_cons.mp (closed z (List.mem_cons_of_mem _ hz) w (List.mem_cons_of_mem _ hw) below) with
          rfl | member
        · exact absurd (least z hz) (Row.precedes_asymm (least z hz))
        · exact member

theorem Row.isEligible_later {features : Features} {partitioned : Bool} {row : Row} {now now' : Instant}
    (later : now ≤ now') (eligible : row.isEligible features now partitioned) :
    row.isEligible features now' partitioned := by
  unfold isEligible at eligible ⊢
  split at eligible
  · rfl
  · simp only [Bool.and_eq_true] at eligible ⊢
    refine ⟨?_, eligible.2⟩
    have due := eligible.1
    unfold StatusFields.isDue at due ⊢
    split at due
    · rfl
    · exact decide_eq_true (Instant.le_trans (of_decide_eq_true due) later)

namespace Table

variable {features : Features} {now : Instant} {partitioned : Bool} {t : Table}

theorem mem_eligible {row : Row} : row ∈ t.eligible features now partitioned ↔
    t.rows.find? row.id = some row ∧ row.isEligible features now partitioned := by
  have inTable := Keyed.find?_eq_some_iff (s := t.rows) (k := row.id) (a := row)
  simp only [and_true] at inTable
  unfold eligible
  split
  · rw [(byPriority_perm _).mem_iff, List.mem_filter, inTable]
  · rw [List.mem_filter, inTable]

theorem eligible_pairwise :
    (t.eligible features now partitioned).Pairwise (Row.precedes features) := by
  have ascending : (t.rows.toList.filter (·.isEligible features now partitioned)).Pairwise
      fun a b => a.id < b.id :=
    (t.rows.ascending.filter _).imp ItemId.lt_iff_compare.mpr
  unfold eligible
  split
  · rename_i priority
    exact byPriority_pairwise priority ascending
  · rename_i plain
    exact ascending.imp fun below => by simpa [Row.precedes, plain] using below

theorem eligible_nodup : ((t.eligible features now partitioned).map (·.id)).Nodup := by
  have plain : ((t.rows.toList.filter (·.isEligible features now partitioned)).map (·.id)).Nodup :=
    (t.rows.nodup_keys).sublist (List.filter_sublist.map _)
  unfold eligible
  split
  · exact ((byPriority_perm _).map _).nodup_iff.mpr plain
  · exact plain

/-- What a fetch returns are rows on offer, in their order, no more than asked for, none of them held
by another transaction. -/
theorem window?_some {mode : Mode} {limit : Nat} {txn : TransactionId} {rows : List Row}
    (h : t.window? features now mode limit txn = some rows) :
    rows.Sublist (t.eligible features now mode.partitioned) ∧ rows.length ≤ limit ∧
      ∀ r ∈ rows, t.lockedByOther txn r.id = false := by
  unfold window? at h
  split at h
  · cases h
    refine ⟨(List.take_sublist _ _).trans List.filter_sublist, List.length_take_le _ _, fun r hr => ?_⟩
    simpa using (List.mem_filter.mp (List.mem_of_mem_take hr)).2
  · simp only at h
    split at h
    · cases h
    · rename_i free
      cases h
      refine ⟨List.take_sublist _ _, List.length_take_le _ _, fun r hr => ?_⟩
      simpa using fun held => free (List.any_eq_true.mpr ⟨r, hr, held⟩)

theorem eligible_congr {t' : Table} (rows : t'.rows = t.rows) :
    t'.eligible features now partitioned = t.eligible features now partitioned := by
  unfold eligible
  rw [rows]

theorem mem_eligible_insert {row : Row} {rows : List Row} (new : ∀ r ∈ rows, t.rows.find? r.id = none)
    (offered : row ∈ t.eligible features now partitioned) :
    row ∈ (t.insert rows).eligible features now partitioned := by
  obtain ⟨found, eligible⟩ := mem_eligible.mp offered
  refine mem_eligible.mpr ⟨?_, eligible⟩
  rw [← found]
  refine Keyed.find?_foldl_insert_of_ne fun r member same => ?_
  have absent := new r member
  rw [same, found] at absent
  cases absent

/-- A fetch that gives up at a locked row returns the very first rows on offer. -/
theorem window?_noWait {limit : Nat} {txn : TransactionId} {rows : List Row}
    (h : t.window? features now ⟨.noWait, partitioned⟩ limit txn = some rows) :
    rows = (t.eligible features now partitioned).take limit := by
  simp only [window?] at h
  split at h
  · cases h
  · exact (Option.some.inj h).symm

end Table

end Outbox
