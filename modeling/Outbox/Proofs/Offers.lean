import Outbox.Proofs.Rescheduling
import Outbox.Proofs.Sessions

/-!
What a table has on offer for a fetch that leaves out locked rows. A fetch takes the first rows of it
(`onOffer_lockAll`). A commit that settled its whole batch changes nothing about it: its rows were
locked before and are not eligible afterwards (`onOffer_commit`).
-/

namespace Outbox

namespace Table

/-- The rows that a fetch may return and nobody holds, in the order of fetches. -/
def onOffer (features : Features) (now : Instant) (partitioned : Bool) (t : Table) : List Row :=
  (t.eligible features now partitioned).filter fun r => !t.locks.contains r.id

variable {features : Features} {now : Instant} {partitioned : Bool} {t t' : Table} {row : Row}

theorem mem_onOffer : row ∈ t.onOffer features now partitioned ↔
    t.rows.find? row.id = some row ∧ row.isEligible features now partitioned ∧
      t.locks.find? row.id = none := by
  rw [onOffer, List.mem_filter, mem_eligible, and_assoc]
  simp [Keyed.contains]

theorem onOffer_pairwise : (t.onOffer features now partitioned).Pairwise (Row.precedes features) :=
  eligible_pairwise.filter _

theorem onOffer_nodup : ((t.onOffer features now partitioned).map (·.id)).Nodup :=
  eligible_nodup.sublist (List.filter_sublist.map _)

theorem onOffer_congr (rows : ∀ r, r ∈ t.onOffer features now partitioned ↔
    r ∈ t'.onOffer features now partitioned) :
    t.onOffer features now partitioned = t'.onOffer features now partitioned :=
  eq_of_precedes onOffer_pairwise onOffer_pairwise rows

theorem window?_skipLocked (begun : t.Begun) (limit : Nat) :
    t.window? features now ⟨.skipLocked, partitioned⟩ limit t.nextTransaction =
      some ((t.onOffer features now partitioned).take limit) := by
  have same : ∀ id, t.lockedByOther t.nextTransaction id = t.locks.contains id := by
    intro id
    unfold lockedByOther Keyed.contains
    split
    · rename_i lock found
      have old : lock.owner ≠ t.nextTransaction := Nat.ne_of_lt (begun lock (Keyed.mem_of_find? found))
      simp [found, old]
    · rename_i free
      simp [free]
  simp only [window?, same, onOffer]

/-- What a fetch took is no longer on offer, and the rest is. -/
theorem onOffer_lockAll (limit : Nat) :
    (t.begin.lockAll t.nextTransaction ((t.onOffer features now partitioned).take limit)).onOffer
      features now partitioned = (t.onOffer features now partitioned).drop limit := by
  have unique : ((t.onOffer features now partitioned).map (·.id)).Nodup := onOffer_nodup
  generalize offer : t.onOffer features now partitioned = rows at unique ⊢
  have whole : (rows.take limit).map (·.id) ++ (rows.drop limit).map (·.id) = rows.map (·.id) := by
    rw [← List.map_append, List.take_append_drop]
  rw [← whole] at unique
  obtain ⟨first, -, apart⟩ := List.nodup_append.mp unique
  refine eq_of_precedes onOffer_pairwise
    (offer ▸ onOffer_pairwise.sublist (List.drop_sublist ..)) fun r => ?_
  rw [mem_onOffer, find?_lockAll first]
  constructor
  · rintro ⟨found, eligible, free⟩
    split at free
    · cases free
    · rename_i outside
      have offered : r ∈ rows := offer ▸ mem_onOffer.mpr ⟨found, eligible, free⟩
      rw [← List.take_append_drop limit rows] at offered
      rcases List.mem_append.mp offered with taken | left
      · exact absurd (List.mem_map_of_mem taken) outside
      · exact left
  · intro left
    have offered : r ∈ t.onOffer features now partitioned := offer ▸ List.mem_of_mem_drop left
    obtain ⟨found, eligible, free⟩ := mem_onOffer.mp offered
    have outside : r.id ∉ (rows.take limit).map (·.id) := fun taken =>
      apart r.id taken r.id (List.mem_map_of_mem left) rfl
    rw [if_neg outside]
    exact ⟨found, eligible, free⟩

end Table

namespace Session

variable {s s₁ s₂ : Session} {t : Table} {now : Instant} {approved approved₁ approved₂ : Row → Prop}
  {batch batch₁ batch₂ done later rows : List Row} {d d₁ d₂ : Decision} {txn txn₁ txn₂ : TransactionId}
  {others : List Lock} {rest : List Holding}

theorem not_eligible_of_commit {r : Row} (tracked : s.job.features.status)
    (sorts : d.Sorts s.job approved batch done later []) (unique : (batch.map (·.id)).Nodup)
    (late : d.Later now) (settled : r.id ∈ batch.map (·.id))
    (found : (s.commit txn d t).rows.find? r.id = some r) :
    r.isEligible s.job.features now s.job.mode.partitioned = false := by
  obtain ⟨b, hb, same⟩ := List.mem_map.mp settled
  have placed := sorts.all.mem_iff.mpr hb
  rw [List.append_nil] at placed
  rcases List.mem_append.mp placed with finished | off
  · have written := find?_commit_done txn t sorts unique finished
    rw [same, found] at written
    obtain ⟨x, -, rest⟩ := Option.bind_eq_some_iff.mp written.symm
    unfold Table.leftover at rest
    split at rest
    · rename_i partitioned
      cases rest
      simp [Row.isEligible, Row.status?, Row.modifyStatus, tracked, partitioned, StatusFields.markCompleted]
    · cases rest
  · obtain ⟨after, retried, -, written⟩ := find?_commit_later txn t sorts unique off
    rw [same, found] at written
    obtain ⟨x, -, rfl⟩ := Option.map_eq_some_iff.mp written.symm
    simp [Row.isEligible, Row.status?, tracked, late after retried]

/-- A commit that settled its whole batch leaves what is on offer as it is. -/
theorem onOffer_commit (tracked : s.job.features.status)
    (locks : t.LocksExact others (⟨some txn, batch.map (·.id)⟩ :: rest))
    (sorts : d.Sorts s.job approved batch done later []) (unique : (batch.map (·.id)).Nodup)
    (late : d.Later now) : (s.commit txn d t).onOffer s.job.features now s.job.mode.partitioned =
      t.onOffer s.job.features now s.job.mode.partitioned := by
  refine Table.onOffer_congr fun r => ?_
  rw [Table.mem_onOffer, Table.mem_onOffer]
  by_cases settled : r.id ∈ batch.map (·.id)
  · constructor
    · rintro ⟨found, eligible, -⟩
      rw [not_eligible_of_commit tracked sorts unique late settled found] at eligible
      cases eligible
    · rintro ⟨-, -, free⟩
      cases free.symm.trans ((locks.find?_eq_iff rfl r.id).mpr settled)
  · rw [find?_commit_outside ⟨_, _, _, sorts⟩ settled, commit_locks, Table.find?_release]
    cases held : t.locks.find? r.id with
    | none => rfl
    | some lock =>
      have other : lock.owner ≠ txn := by
        rintro rfl
        have own : t.locks.find? r.id = some ⟨r.id, lock.owner⟩ := by
          rw [held, ← Keyed.key_of_find? held]
        exact settled ((locks.find?_eq_iff rfl r.id).mp own)
      simp [Option.filter, other]

/-- Commits of different batches can change places. -/
theorem commit_comm (sorted₁ : d₁.Sorted s₁.job approved₁ batch₁)
    (sorted₂ : d₂.Sorted s₂.job approved₂ batch₂)
    (apart : (batch₁.map (·.id)).Disjoint (batch₂.map (·.id))) :
    s₁.commit txn₁ d₁ (s₂.commit txn₂ d₂ t) = s₂.commit txn₂ d₂ (s₁.commit txn₁ d₁ t) := by
  refine Table.ext_find? (fun id => ?_) (fun id => ?_) ?_
  · by_cases first : id ∈ batch₁.map (·.id)
    · have second : id ∉ batch₂.map (·.id) := apart first
      rw [find?_commit_outside sorted₂ second]
      exact Table.find?_write_congr _ _ (find?_commit_outside sorted₂ second)
    · rw [find?_commit_outside sorted₁ first]
      exact (Table.find?_write_congr _ _ (find?_commit_outside sorted₁ first)).symm
  · simp only [commit_locks, Table.find?_release, Option.filter_filter, Bool.and_comm]
  · simp only [commit_nextTransaction]

/-- A commit can change places with a fetch of rows that stay as they are. -/
theorem commit_lockAll (unique : (rows.map (·.id)).Nodup) (old : txn < t.nextTransaction) :
    (s.commit txn d t).begin.lockAll t.nextTransaction rows =
      s.commit txn d (t.begin.lockAll t.nextTransaction rows) := by
  refine Table.ext_find? (fun id => ?_) (fun id => ?_) ?_
  · exact Table.find?_write_congr _ _ rfl
  · rw [commit_locks, Table.find?_release, Table.find?_lockAll unique, Table.find?_lockAll unique]
    split
    · simp [Option.filter, Nat.ne_of_gt old]
    · show (s.commit txn d t).locks.find? id = _
      rw [commit_locks, Table.find?_release]
      rfl
  · simp only [commit_nextTransaction]
    show (s.commit txn d t).nextTransaction + 1 = _
    rw [commit_nextTransaction]
    rfl

end Session

end Outbox
