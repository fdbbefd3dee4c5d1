import Outbox.Registration
import Outbox.Tick

/-!
What building an outbox promises to its ticks, and which options may be published afterwards.
-/

namespace Outbox

theorem exists_of_bind_ok {α β ε : Type} {x : Except ε α} {f : α → Except ε β} {b : β}
    (h : x >>= f = .ok b) : ∃ a, x = .ok a ∧ f a = .ok b := by
  cases x with
  | error e => cases h
  | ok a => exact ⟨a, rfl, h⟩

theorem Options.fault?_of_validate {o : Options} {outbox : String} {u : Unit}
    (valid : o.validate outbox = .ok u) : o.fault? = none := by
  unfold validate at valid
  split at valid
  · assumption
  · cases valid

/-- Building succeeds only within the limits and with an item type that has what the worker and the
partitioning need. -/
theorem Plan.build_ok {features : Features} {p : Plan} {r : Registration}
    (built : p.build features = .ok r) :
    p.options.fault? = none ∧
      (p.options.workerType.requiresStatus ∨ p.options.partitions.enabled → features.status) := by
  obtain ⟨_, valid, built⟩ := exists_of_bind_ok built
  obtain ⟨_, supported, -⟩ := exists_of_bind_ok built
  refine ⟨Options.fault?_of_validate valid, fun needed => ?_⟩
  unfold checkFeatures at supported
  split at supported
  · cases supported
  · rename_i fits
    cases tracked : features.status with
    | true => rfl
    | false => exact absurd ⟨by simp [tracked], needed⟩ fits

theorem Plan.build_options {features : Features} {p : Plan} {r : Registration}
    (built : p.build features = .ok r) : r.options.current = p.options := by
  obtain ⟨_, _, built⟩ := exists_of_bind_ok built
  obtain ⟨_, _, built⟩ := exists_of_bind_ok built
  dsimp only at built
  split at built
  · cases built
  · split at built
    · obtain ⟨_, _, built⟩ := exists_of_bind_ok built
      split at built
      · cases built
      · obtain ⟨_, _, built⟩ := exists_of_bind_ok built
        cases built
        rfl
    · cases built

/-- Partitions are looked after where partitioning is on, and there is a store for them. -/
theorem Plan.build_managed {features : Features} {p : Plan} {r : Registration}
    (built : p.build features = .ok r) (managed : r.managed) : p.options.partitions.enabled ∧ p.hasStore := by
  obtain ⟨_, _, built⟩ := exists_of_bind_ok built
  obtain ⟨_, _, built⟩ := exists_of_bind_ok built
  dsimp only at built
  split at built
  · cases built
  · split at built
    · obtain ⟨_, _, built⟩ := exists_of_bind_ok built
      split at built
      · cases built
      · rename_i storeless
        obtain ⟨_, _, built⟩ := exists_of_bind_ok built
        cases built
        refine ⟨managed, ?_⟩
        cases there : p.hasStore with
        | true => rfl
        | false => exact absurd ⟨managed, by simp [there]⟩ storeless
    · cases built

/-- A tick of an outbox that was built. -/
structure Job.Accepted (features : Features) (job : Job) : Prop where
  itemType : job.features = features
  worker : job.worker = job.options.workerType
  built : ∃ plan : Plan, plan.options = job.options ∧ ∃ r, plan.build features = .ok r

namespace Job.Accepted

variable {features : Features} {job : Job}

theorem tracked (h : job.Accepted features) (partitioned : job.options.partitions.enabled) :
    job.features.status := by
  obtain ⟨plan, same, r, built⟩ := h.built
  rw [h.itemType]
  exact (Plan.build_ok built).2 (.inr (same ▸ partitioned))

end Job.Accepted

namespace LiveOptions

variable {live : LiveOptions} {o : Options}

/-- The options that may take the place of the current ones. -/
structure Admits (live : LiveOptions) (o : Options) : Prop where
  faultless : o.fault? = none
  worker : o.workerType = live.current.workerType
  partitions : o.partitions.enabled = live.current.partitions.enabled

/-- Other options in force; whoever has seen the version before has something new to see. -/
def publish (live : LiveOptions) (o : Options) : LiveOptions :=
  { live with current := o, version := live.version + 1 }

theorem update_of_admits (h : live.Admits o) : live.update o = .ok (live.publish o) := by
  have valid : o.validate live.outbox = .ok () := by
    unfold Options.validate
    rw [h.faultless]
  unfold update
  rw [valid, if_neg (not_not_intro h.worker), if_neg (not_not_intro h.partitions)]
  rfl

theorem admits_of_update {live' : LiveOptions} (accepted : live.update o = .ok live') : live.Admits o := by
  obtain ⟨_, valid, accepted⟩ := exists_of_bind_ok accepted
  have faultless := Options.fault?_of_validate valid
  dsimp only at accepted
  split at accepted
  · cases accepted
  · rename_i worker
    split at accepted
    · cases accepted
    · rename_i partitions
      exact ⟨faultless, Decidable.not_not.mp worker, Decidable.not_not.mp partitions⟩

theorem update_of_not_admits (h : ¬ live.Admits o) : ∃ e, live.update o = .error e := by
  cases answer : live.update o with
  | error e => exact ⟨e, rfl⟩
  | ok live' => exact absurd (admits_of_update answer) h

end LiveOptions

end Outbox
