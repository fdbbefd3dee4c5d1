import Outbox.Proofs.Registration
import Outbox.Rehearsal.Schedule

/-!
What one lane does at a time, whichever of the things that are ready it takes. Handlers that leave the token
alone never make a lane cancel it (`Lane.Orderly.perform`), and whatever a lane does leaves it less to do up
to any given time (`Lane.Orderly.work_perform`).
-/

namespace Outbox

theorem PartitionSettings.period_pos {s : PartitionSettings} (enabled : s.enabled) (valid : s.fault? = none) :
    0 < s.precreatePeriod.nanos := by
  have timed : s.precreatePeriod.isZero = false := by grind [fault?]
  simp only [Duration.isZero, beq_eq_false_iff_ne] at timed
  omega

theorem PartitionLoop.cycle_cases {σ : Type} {table : String}
    {perform : σ → StoreCall → Except PartitionError Unit × σ} {s : PartitionSettings} {now : Instant}
    {time : Nat} {store : σ} :
    (cycle table perform s now time store).1 = .ended ∨
      (cycle table perform s now time store).1 = .resting (time + s.precreatePeriod.nanos) := by
  have after (result : Except OutboxError Nat) :
      afterCycle s time result = .ended ∨ afterCycle s time result = .resting (time + s.precreatePeriod.nanos) := by
    unfold afterCycle
    split
    · exact .inr rfl
    · split
      · exact .inl rfl
      · exact .inr rfl
  unfold cycle
  dsimp only
  split
  · exact after (.error _)
  · exact after _

/-- A timer that fires when it is due is late by less than before, or no more than it may be. -/
theorem Timer.late_fire {r : Timer} {now : Nat} (period : 0 < r.period) (due : r.due ≤ now) :
    max (r.due + 5000000) now < max ((r.fire now).due + 5000000) now := by
  obtain ⟨period, due⟩ := r
  unfold Timer.fire
  dsimp only at *
  split
  · omega
  · omega

namespace Rehearsal

/-! ### Handlers that leave the token alone -/

/-- Neither the token of the tick nor one around it is cancelled. -/
structure Play.Free (p : Play) : Prop where
  cancelled : p.cancelled = false
  abandoned : p.abandoned = false

/-- The handlers never cancel the token, and none stays away for good because of a token. -/
def Handling.Gentle (h : Handling) : Prop :=
  ∀ awake row (p : Play) b, p.Free →
    (h awake row p b).cancels = false ∧ ∀ why, (h awake row p b).turn ≠ .halted why

structure Calm (r : Stop × Play × Bench) : Prop where
  free : r.2.1.Free
  came : ∀ why, r.1 ≠ .halted why

/-- The token is cancelled afterwards only if it was cancelled before. -/
def Played.Calm (token : Bool) : Played → Prop
  | .ended _ cancelled => cancelled = true → token = true
  | .swept => False
  | .paused _ _ p => p.Free

section Plays

variable {h : Handling} {p : Play} {b : Bench} {rows : List Row} {awake token : Bool}

theorem Play.Free.act (free : p.Free) (a : Act) (b : Bench) : (p.act a b).1.Free := ⟨free.1, free.2⟩

theorem Handling.Gentle.heed (gentle : h.Gentle) (free : p.Free) (row : Row) :
    p.heed (h awake row p b) = p := by
  simp only [Play.heed, (gentle awake row p b free).1, Bool.or_false]

theorem Handling.Gentle.items (gentle : h.Gentle) (free : p.Free) : Calm (Play.items h awake rows p b) := by
  induction rows generalizing awake p b with
  | nil => exact ⟨free, nofun⟩
  | cons row rest ih =>
    unfold Play.items
    dsimp only
    rw [gentle.heed free]
    split
    · rename_i why halts
      exact absurd halts ((gentle _ _ _ _ free).2 why)
    · exact ⟨free, nofun⟩
    · split
      · exact ih (free.act _ _)
      · refine ⟨?_, nofun⟩
        dsimp only
        exact free.act _ _

theorem Handling.Gentle.batch (gentle : h.Gentle) (free : p.Free) (notes : Notes) :
    Calm (Play.batch h awake rows notes p b) := by
  induction rows generalizing awake p b notes with
  | nil => exact ⟨free.act (.answer (.outcome notes.outcome?)) b, nofun⟩
  | cons row rest ih =>
    unfold Play.batch
    dsimp only
    rw [gentle.heed free]
    split
    · rename_i why halts
      exact absurd halts ((gentle _ _ _ _ free).2 why)
    · exact ⟨free, nofun⟩
    · exact ih free _

theorem Calm.finish {r : Stop × Play × Bench} (calm : Calm r) : (Played.finish r).1.Calm token := by
  unfold Played.finish
  split
  · intro cancelled
    dsimp only at cancelled
    split at cancelled
    · cases (calm.free.act _ _).cancelled.symm.trans cancelled
    · cases calm.free.cancelled.symm.trans cancelled
  · exact absurd rfl (calm.came _)
  · exact absurd rfl (calm.came _)
  · exact calm.free

theorem Handling.Gentle.handle (gentle : h.Gentle) (free : p.Free) : Calm (p.handle h b) := by
  unfold Play.handle
  split
  · exact gentle.items free
  · exact gentle.batch free _
  · exact ⟨free, nofun⟩

theorem Handling.Gentle.start (gentle : h.Gentle) (free : p.Free) : (Played.start h p b).1.Calm token := by
  unfold Played.start
  dsimp only
  split
  · exact (gentle.handle (free.act _ _)).finish
  · exact (gentle.handle free).finish

theorem Handling.Gentle.resume (gentle : h.Gentle) (free : p.Free) (left : Remainder) :
    (Played.resume h left p b).1.Calm token := by
  unfold Played.resume
  cases left with
  | items row rest => exact (gentle.items free).finish
  | batch row rest notes => exact (gentle.batch free notes).finish

theorem Played.start_ended {report : TickReport} (ended : p.session.tick = .ended report) :
    Played.start h p b = (.ended report p.cancelled, b) := by
  simp only [Played.start, Play.handle, Played.finish, ended, Tick.report?, Option.getD_some]

/-- A tick that begins with its token cancelled does not cancel it. -/
theorem Handling.Gentle.begin (gentle : h.Gentle) (w : Worker) (features : Features) (key : WorkerKey)
    (o : Options) (draws : Option (ItemId → Fin RetrySettings.maxJitter)) :
    (Played.start h (w.play features key o token false draws) b).1.Calm token := by
  cases token with
  | false =>
    have free : (w.play features key o false false draws).Free := ⟨rfl, rfl⟩
    exact gentle.start free
  | true =>
    have ended : (w.play features key o true false draws).session.tick = .ended { status := .cancelled } := rfl
    rw [Played.start_ended ended]
    exact fun _ => rfl

end Plays

namespace Lane

/-- What a lane may do at a time. -/
inductive Ready (l : Lane) (time : Nat) : Event → Prop
  | maintain {due : Nat} (resting : l.partitions = some (.resting due)) (past : due ≤ time) :
    Ready l time .maintain
  | close {due : Nat} (resting : l.partitions = some (.resting due)) : Ready l time .close
  | notice (stage : l.worker.stage = .waiting) (news : l.seen ≠ l.options.version) : Ready l time .notice
  | fire (stage : l.worker.stage = .waiting) (past : l.worker.timer.due ≤ time) : Ready l time .fire
  | resume {w : Waiting} (stage : l.worker.stage = .ticking) (waits : l.waiting = some w)
      (past : w.due ≤ time) : Ready l time .resume
  | stop (stage : l.worker.stage = .waiting) : Ready l time .stop
  | giveUp {w : Waiting} (stage : l.worker.stage = .ticking) (waits : l.waiting = some w) :
    Ready l time .stop
  | wait (free : l.held = false) : Ready l time .wait

variable {l : Lane} {d e t target : Nat} {ev : Event} {now : Instant} {played : Played}

theorem ready_of_mem (member : (d, ev) ∈ l.events) (past : d ≤ t) : l.Ready t ev := by
  rcases List.mem_append.mp member with upkeep | worker
  · unfold upkeepEvents at upkeep
    split at upkeep
    · simp only [List.mem_append, List.mem_ite_nil_right, List.mem_singleton, Prod.mk.injEq] at upkeep
      rcases upkeep with ⟨-, -, rfl⟩ | ⟨rfl, rfl⟩
      · exact .close ‹_›
      · exact .maintain ‹_› past
    · cases upkeep
  · unfold workerEvents at worker
    split at worker
    · simp only [List.mem_append, List.mem_ite_nil_right, List.mem_singleton, Prod.mk.injEq] at worker
      rcases worker with (⟨-, -, rfl⟩ | ⟨news, -, rfl⟩) | ⟨rfl, rfl⟩
      · exact .stop ‹_›
      · exact .notice ‹_› news
      · exact .fire ‹_› past
    · split at worker
      · cases List.mem_singleton.mp worker
        exact .giveUp ‹_› ‹_›
      · cases List.mem_singleton.mp worker
        exact .resume ‹_› ‹_› past
    · cases worker

/-- What a lane keeps to, whatever its table, its store and its handlers do. -/
structure Orderly (l : Lane) : Prop where
  gentle : l.handling.Gentle
  free : ∀ w, l.waiting = some w → w.play.Free
  /-- No tick is put aside while the worker loop waits. -/
  atRest : l.worker.stage = .waiting → l.waiting = none
  period : 0 < l.worker.timer.period
  legal : l.options.current.fault? = none
  kept : l.partitions ≠ none → l.store ≠ none ∧ l.options.current.partitions.enabled

theorem Orderly.period_pos (h : l.Orderly) (kept : l.partitions ≠ none) :
    0 < l.options.current.partitions.precreatePeriod.nanos := by
  have valid : l.options.current.partitions.fault? = none := by
    have legal := h.legal
    unfold Options.fault? at legal
    grind
  exact PartitionSettings.period_pos (h.kept kept).2 valid

/-! ### What a lane does -/

/-- Another tick is at work, or none; all else but the table and the counts is the same. -/
structure Beside (l l' : Lane) : Prop where
  handling : l'.handling = l.handling
  held : l'.held = l.held
  timer : l'.worker.timer = l.worker.timer
  options : l'.options = l.options
  seen : l'.seen = l.seen
  partitions : l'.partitions = l.partitions
  store : l'.store = l.store

theorem Orderly.beside {l' : Lane} (h : l.Orderly) (same : Beside l l')
    (free : ∀ w, l'.waiting = some w → w.play.Free) (atRest : l'.worker.stage = .waiting → l'.waiting = none) :
    l'.Orderly := by
  refine ⟨same.handling ▸ h.gentle, free, atRest, same.timer ▸ h.period, same.options ▸ h.legal, ?_⟩
  rw [same.partitions, same.store, same.options]
  exact h.kept

/-- What comes of a lane that went on with a tick as far as it could. -/
structure Ticked (l : Lane) (time : Nat) (r : Lane × Done) : Prop where
  beside : Beside l r.1
  orderly : r.1.Orderly
  later : ∀ w, r.1.waiting = some w → time + 1000000 ≤ w.due
  calm : r.2.cancelled = false

theorem Orderly.afterTick (h : l.Orderly) (calm : played.Calm l.cancelled)
    (ticking : l.worker.stage = .ticking) (b : Bench) :
    Ticked l t ({ l with bench := b }.afterTick t played) := by
  have same : Beside l ({ l with bench := b }.afterTick t played).1 := by
    cases played <;> exact ⟨rfl, rfl, rfl, rfl, rfl, rfl, rfl⟩
  cases played with
  | ended report cancelled =>
    have rests : ({ l with bench := b }.afterTick t (.ended report cancelled)).1.waiting = none := rfl
    refine ⟨same, h.beside same (fun w waits => ?_) fun _ => rests, fun w waits => ?_, ?_⟩
    · cases rests.symm.trans waits
    · cases rests.symm.trans waits
    · show (cancelled && !l.cancelled) = false
      cases cancelled with
      | false => rfl
      | true => simp only [calm rfl, Bool.not_true, Bool.and_false]
  | swept => exact calm.elim
  | paused ms left play =>
    refine ⟨same, h.beside same (fun w waits => ?_) fun stage => ?_, fun w waits => ?_, rfl⟩
    · cases waits
      exact calm
    · cases ticking.symm.trans stage
    · cases waits
      dsimp only
      omega

theorem timer_ring : (l.ring t).worker.timer = l.worker.timer.fire t := by
  simp only [ring, record, WorkerLoop.fire]

theorem Orderly.ring (h : l.Orderly) (stage : l.worker.stage = .waiting) : (l.ring t).Orderly := by
  have period : 0 < (l.ring t).worker.timer.period := by
    rw [timer_ring, Timer.fire]
    exact h.period
  exact ⟨h.gentle, h.free, fun _ => h.atRest stage, period, h.legal, h.kept⟩

theorem Orderly.fire (h : l.Orderly) (stage : l.worker.stage = .waiting) : Ticked (l.ring t) t (l.fire t) := by
  have rung : (l.ring t).Orderly := h.ring stage
  have rests : (l.ring t).waiting = none := h.atRest stage
  unfold Lane.fire
  generalize l.ring t = l at rung rests ⊢
  dsimp only
  split
  · rename_i w ticking _
    exact rung.afterTick (rung.gentle.begin w ..) ticking _
  · refine ⟨⟨rfl, rfl, rfl, rfl, rfl, rfl, rfl⟩, rung, fun w waits => ?_, rfl⟩
    cases rests.symm.trans waits

theorem Orderly.resume {w : Waiting} (h : l.Orderly) (stage : l.worker.stage = .ticking)
    (waits : l.waiting = some w) : Ticked l t (l.resume t) := by
  unfold Lane.resume
  split
  · rename_i v there
    cases waits.symm.trans there
    exact h.afterTick (h.gentle.resume (h.free w waits) w.left) stage _
  · rename_i rests
    cases waits.symm.trans rests

theorem beside_stop : Beside l l.stop.1 := by
  have timer : l.worker.cancel.timer = l.worker.timer := by
    unfold WorkerLoop.cancel
    split <;> rfl
  unfold stop
  split
  · exact ⟨rfl, rfl, rfl, rfl, rfl, rfl, rfl⟩
  · exact ⟨rfl, rfl, timer, rfl, rfl, rfl, rfl⟩

theorem waiting_stop : l.stop.1.waiting = none := by
  unfold stop
  split
  · rfl
  · assumption

/-- Stopping ends a loop that waits, and with a tick that was put aside its loop. -/
theorem stage_stop (going : l.worker.stage = .waiting ∨ ∃ w, l.waiting = some w) :
    l.stop.1.worker.stage = .ended := by
  unfold stop
  split
  · rfl
  · rename_i rests
    rcases going with stage | ⟨w, waits⟩
    · simp only [WorkerLoop.cancel, stage]
    · cases rests.symm.trans waits

theorem Orderly.stop (h : l.Orderly) : Ticked l t l.stop := by
  have gone {w : Waiting} (waits : l.stop.1.waiting = some w) : False := nomatch waiting_stop.symm.trans waits
  have calm : l.stop.2.cancelled = false := by
    unfold Lane.stop
    split <;> rfl
  refine ⟨beside_stop, ?_, fun w waits => (gone waits).elim, calm⟩
  exact h.beside beside_stop (fun w waits => (gone waits).elim) fun _ => waiting_stop

theorem Orderly.close (h : l.Orderly) : l.close.Orderly := by
  refine ⟨h.gentle, h.free, h.atRest, h.period, h.legal, fun stopped => h.kept fun unmanaged => stopped ?_⟩
  rw [Lane.close, unmanaged, Option.map_none]

theorem maintain_partitions (h : l.Orderly) (resting : l.partitions ≠ none) :
    (l.maintain t now).partitions = some .ended ∨
      (l.maintain t now).partitions = some (.resting (t + l.options.current.partitions.precreatePeriod.nanos)) := by
  obtain ⟨store, there⟩ := Option.ne_none_iff_exists'.mp (h.kept resting).1
  simp only [maintain, there, Option.some.injEq]
  exact PartitionLoop.cycle_cases

theorem Orderly.maintain (h : l.Orderly) (resting : l.partitions ≠ none) : (l.maintain t now).Orderly := by
  have kept := h.kept resting
  unfold Lane.maintain
  split
  · exact h
  · exact ⟨h.gentle, h.free, h.atRest, h.period, h.legal, fun _ => ⟨nofun, kept.2⟩⟩

theorem Orderly.notice (h : l.Orderly) : (l.notice t).Orderly := by
  have started (delay : Duration) : 0 < (Timer.start t delay).period := by
    simp only [Timer.start]
    omega
  have stage : (l.worker.notice t l.options.current).stage = l.worker.stage := by
    rw [WorkerLoop.notice, apply_ite WorkerLoop.stage, ite_self]
  have period : 0 < (l.worker.notice t l.options.current).timer.period := by
    unfold WorkerLoop.notice
    split
    · exact h.period
    · exact started _
  exact ⟨h.gentle, h.free, fun waits => h.atRest (stage.symm.trans waits), period, h.legal, h.kept⟩

theorem Orderly.enter (h : l.Orderly) : (l.enter t now).Orderly :=
  ⟨h.gentle, h.free, h.atRest, h.period, h.legal, h.kept⟩

theorem Orderly.hold (h : l.Orderly) : l.hold.Orderly :=
  ⟨h.gentle, h.free, h.atRest, h.period, h.legal, h.kept⟩

/-- A lane goes on in order, and the token is none of its business. -/
theorem Orderly.perform (h : l.Orderly) (ready : l.Ready t ev) :
    (l.perform t now ev).1.Orderly ∧ (l.perform t now ev).2.cancelled = false := by
  have entered : (l.enter t now).Orderly := h.enter
  cases ready with
  | maintain resting =>
    refine ⟨entered.maintain fun unmanaged => ?_, rfl⟩
    cases resting.symm.trans unmanaged
  | close => exact ⟨entered.close, rfl⟩
  | notice => exact ⟨entered.notice, rfl⟩
  | fire stage =>
    have ticked := entered.fire (t := t) stage
    exact ⟨ticked.orderly, ticked.calm⟩
  | resume stage waits =>
    have ticked := entered.resume (t := t) stage waits
    exact ⟨ticked.orderly, ticked.calm⟩
  | stop | giveUp =>
    have ticked := entered.stop (t := t)
    exact ⟨ticked.orderly, ticked.calm⟩
  | wait => exact ⟨entered.hold, rfl⟩

theorem Orderly.cancel (h : l.Orderly) : l.cancel.Orderly :=
  ⟨h.gentle, h.free, h.atRest, h.period, h.legal, h.kept⟩

theorem Orderly.release (h : l.Orderly) : l.release.Orderly :=
  ⟨h.gentle, h.free, h.atRest, h.period, h.legal, h.kept⟩

/-! ### What is left to do -/

theorem upkeepsLeft_antitone (later : e ≤ t) : l.upkeepsLeft target t ≤ l.upkeepsLeft target e := by
  unfold upkeepsLeft
  split
  · omega
  · exact Nat.le_refl _

theorem firingsLeft_antitone (later : e ≤ t) : l.firingsLeft target t ≤ l.firingsLeft target e := by
  unfold firingsLeft
  omega

theorem noticesLeft_antitone (later : e ≤ t) : l.noticesLeft target t ≤ l.noticesLeft target e := by
  unfold noticesLeft
  split
  · omega
  · exact Nat.le_refl _

theorem resumesLeft_antitone (later : e ≤ t) : l.resumesLeft target t ≤ l.resumesLeft target e := by
  unfold resumesLeft
  split
  · exact Nat.le_refl _
  · omega

theorem turnsLeft_antitone (later : e ≤ t) : l.turnsLeft target t ≤ l.turnsLeft target e := by
  have firings : l.firingsLeft target t ≤ l.firingsLeft target e := firingsLeft_antitone later
  have notices : l.noticesLeft target t ≤ l.noticesLeft target e := noticesLeft_antitone later
  have resumes : l.resumesLeft target t ≤ l.resumesLeft target e := resumesLeft_antitone later
  unfold turnsLeft
  split
  · exact Nat.le_refl _
  · omega

theorem work_antitone (later : e ≤ t) : l.work target t ≤ l.work target e :=
  Nat.add_le_add_right (Nat.add_le_add (upkeepsLeft_antitone later) (turnsLeft_antitone later)) _

section Less

variable {l' : Lane}

theorem turnsLeft_going (going : l.worker.stage ≠ .ended) : l.turnsLeft target e =
    1 + l.firingsLeft target e + l.noticesLeft target e + l.resumesLeft target e := by
  unfold turnsLeft
  split
  · exact absurd ‹_› going
  · rfl

theorem turnsLeft_ended (ended : l.worker.stage = .ended) : l.turnsLeft target e = 0 := by
  rw [turnsLeft, ended]

theorem turnsLeft_lt (going : l.worker.stage ≠ .ended)
    (less : l'.firingsLeft target t + l'.noticesLeft target t + l'.resumesLeft target t <
      l.firingsLeft target e + l.noticesLeft target e + l.resumesLeft target e) :
    l'.turnsLeft target t < l.turnsLeft target e := by
  rw [turnsLeft_going going]
  by_cases ended : l'.worker.stage = .ended
  · rw [turnsLeft_ended ended]
    omega
  · rw [turnsLeft_going ended]
    omega

theorem turnsLeft_lt_of_ended (going : l.worker.stage ≠ .ended) (ended : l'.worker.stage = .ended) :
    l'.turnsLeft target t < l.turnsLeft target e := by
  rw [turnsLeft_going going, turnsLeft_ended ended]
  omega

theorem work_lt_of_turns (later : e ≤ t) (partitions : l'.partitions = l.partitions) (held : l'.held = l.held)
    (turns : l'.turnsLeft target t < l.turnsLeft target e) : l'.work target t < l.work target e := by
  have upkeeps : l'.upkeepsLeft target t ≤ l.upkeepsLeft target e := by
    rw [upkeepsLeft, partitions]
    exact upkeepsLeft_antitone later
  rw [work, work, held]
  omega

theorem work_lt_of_upkeeps (turns : l'.turnsLeft target t ≤ l.turnsLeft target e) (held : l'.held = l.held)
    (upkeeps : l'.upkeepsLeft target t < l.upkeepsLeft target e) : l'.work target t < l.work target e := by
  rw [work, work, held]
  omega

theorem firingsLeft_beside (same : Beside l l') : l'.firingsLeft target t = l.firingsLeft target t := by
  simp only [firingsLeft, same.timer]

theorem noticesLeft_beside (same : Beside l l') : l'.noticesLeft target t = l.noticesLeft target t := by
  simp only [noticesLeft, same.seen, same.options]

theorem Ticked.resumesLeft {r : Lane × Done} (h : Ticked l t r) : r.1.resumesLeft target t ≤ target + 1 - t := by
  unfold Lane.resumesLeft
  split
  · have later := h.later _ ‹_›
    omega
  · exact Nat.le_refl _

end Less

theorem upkeepsLeft_maintain (h : l.Orderly) (resting : l.partitions = some (.resting d)) (due : d ≤ t)
    (later : e ≤ t) (within : t ≤ target) : (l.maintain t now).upkeepsLeft target t < l.upkeepsLeft target e := by
  have there : l.partitions ≠ none := fun unmanaged => nomatch resting.symm.trans unmanaged
  have period := h.period_pos there
  have after : (l.maintain t now).partitions = some .ended ∨ _ := maintain_partitions h there
  unfold upkeepsLeft
  rcases after with ended | rested
  · simp only [ended, resting]
    omega
  · simp only [rested, resting]
    omega

theorem Orderly.work_maintain (h : l.Orderly) (resting : l.partitions = some (.resting d)) (due : d ≤ t)
    (later : e ≤ t) (within : t ≤ target) : (l.maintain t now).work target t < l.work target e := by
  have upkeeps : (l.maintain t now).upkeepsLeft target t < l.upkeepsLeft target e :=
    upkeepsLeft_maintain h resting due later within
  have turns : (l.maintain t now).turnsLeft target t = l.turnsLeft target t := by
    unfold Lane.maintain
    split <;> rfl
  have held : (l.maintain t now).held = l.held := by
    unfold Lane.maintain
    split <;> rfl
  exact work_lt_of_upkeeps (turns ▸ turnsLeft_antitone later) held upkeeps

theorem work_close (resting : l.partitions = some (.resting d)) (later : e ≤ t) :
    l.close.work target t < l.work target e := by
  have upkeeps : l.close.upkeepsLeft target t < l.upkeepsLeft target e := by
    simp only [upkeepsLeft, close, resting, Option.map_some, PartitionLoop.cancel]
    omega
  have turns : l.close.turnsLeft target t ≤ l.turnsLeft target e := turnsLeft_antitone later
  exact work_lt_of_upkeeps turns rfl upkeeps

/-- The timer that is set anew fires less often than has been allowed for. -/
theorem work_notice (stage : l.worker.stage = .waiting) (news : l.seen ≠ l.options.version) (later : e ≤ t)
    (within : t ≤ target) : (l.notice t).work target t < l.work target e := by
  have firings : (l.notice t).firingsLeft target t + (l.notice t).noticesLeft target t < l.noticesLeft target e := by
    simp only [firingsLeft, noticesLeft, notice, news, ne_eq, not_true_eq_false, not_false_eq_true, if_true,
      if_false]
    omega
  have resumes : (l.notice t).resumesLeft target t ≤ l.resumesLeft target e := resumesLeft_antitone later
  have going : l.worker.stage ≠ .ended := fun ended => nomatch stage.symm.trans ended
  exact work_lt_of_turns later rfl rfl (turnsLeft_lt going (by omega))

theorem firingsLeft_ring (h : l.Orderly) (due : l.worker.timer.due ≤ t) (later : e ≤ t) (within : t ≤ target) :
    (l.ring t).firingsLeft target t < l.firingsLeft target e := by
  have fired := Timer.late_fire h.period due
  simp only [firingsLeft, timer_ring]
  generalize l.worker.timer.fire t = timer at fired
  unfold lateness
  omega

theorem Orderly.work_fire (h : l.Orderly) (stage : l.worker.stage = .waiting) (due : l.worker.timer.due ≤ t)
    (later : e ≤ t) (within : t ≤ target) : (l.fire t).1.work target t < l.work target e := by
  have ticked := h.fire (t := t) stage
  have firings : (l.fire t).1.firingsLeft target t < l.firingsLeft target e := by
    rw [firingsLeft_beside ticked.beside]
    exact firingsLeft_ring h due later within
  have notices : (l.fire t).1.noticesLeft target t ≤ l.noticesLeft target e := by
    rw [noticesLeft_beside ticked.beside]
    exact noticesLeft_antitone later
  have resumes : (l.fire t).1.resumesLeft target t ≤ l.resumesLeft target e := by
    have before : l.resumesLeft target e = target + 1 - e := by
      simp only [resumesLeft, h.atRest stage]
    have after : (l.fire t).1.resumesLeft target t ≤ target + 1 - t := ticked.resumesLeft
    omega
  have going : l.worker.stage ≠ .ended := fun ended => nomatch stage.symm.trans ended
  exact work_lt_of_turns later ticked.beside.partitions ticked.beside.held (turnsLeft_lt going (by omega))

theorem Orderly.work_resume {w : Waiting} (h : l.Orderly) (stage : l.worker.stage = .ticking)
    (waits : l.waiting = some w) (due : w.due ≤ t) (later : e ≤ t) (within : t ≤ target) :
    (l.resume t).1.work target t < l.work target e := by
  have ticked := h.resume (t := t) stage waits
  have firings : (l.resume t).1.firingsLeft target t ≤ l.firingsLeft target e := by
    rw [firingsLeft_beside ticked.beside]
    exact firingsLeft_antitone later
  have notices : (l.resume t).1.noticesLeft target t ≤ l.noticesLeft target e := by
    rw [noticesLeft_beside ticked.beside]
    exact noticesLeft_antitone later
  have resumes : (l.resume t).1.resumesLeft target t < l.resumesLeft target e := by
    have before : l.resumesLeft target e = target + 2 - w.due := by
      simp only [resumesLeft, waits]
    have after : (l.resume t).1.resumesLeft target t ≤ target + 1 - t := ticked.resumesLeft
    omega
  have going : l.worker.stage ≠ .ended := fun ended => nomatch stage.symm.trans ended
  exact work_lt_of_turns later ticked.beside.partitions ticked.beside.held (turnsLeft_lt going (by omega))

theorem work_stop (going : l.worker.stage ≠ .ended)
    (idle : l.worker.stage = .waiting ∨ ∃ w, l.waiting = some w) (later : e ≤ t) :
    l.stop.1.work target t < l.work target e :=
  work_lt_of_turns later beside_stop.partitions beside_stop.held (turnsLeft_lt_of_ended going (stage_stop idle))

theorem work_hold (free : l.held = false) (later : e ≤ t) : l.hold.work target t < l.work target e := by
  have upkeeps : l.hold.upkeepsLeft target t ≤ l.upkeepsLeft target e := upkeepsLeft_antitone later
  have turns : l.hold.turnsLeft target t ≤ l.turnsLeft target e := turnsLeft_antitone later
  have held : l.hold.held = true := rfl
  simp only [work, free, held, if_true, Bool.false_eq_true, if_false]
  omega

/-- Whatever a lane does, it has less to do afterwards. -/
theorem Orderly.work_perform (h : l.Orderly) (ready : l.Ready t ev) (later : e ≤ t) (within : t ≤ target) :
    (l.perform t now ev).1.work target t < l.work target e := by
  have entered : (l.enter t now).Orderly := h.enter
  have same : (l.enter t now).work target e = l.work target e := rfl
  rw [← same]
  cases ready with
  | maintain resting past => exact entered.work_maintain resting past later within
  | close resting => exact work_close resting later
  | notice stage news => exact work_notice stage news later within
  | fire stage past => exact entered.work_fire stage past later within
  | resume stage waits past => exact entered.work_resume stage waits past later within
  | stop stage => exact work_stop (fun ended => nomatch stage.symm.trans ended) (.inl stage) later
  | giveUp stage waits =>
    exact work_stop (fun ended => nomatch stage.symm.trans ended) (.inr ⟨_, waits⟩) later
  | wait free => exact work_hold free later

/-! ### Starting a lane, and changing it from outside -/

/-- Set up from a plan, with any handlers, draws and choices. -/
def Built (l : Lane) : Prop :=
  ∃ features now plan catalogue rows allProcessed built,
    ofPlan features now plan catalogue rows allProcessed = .ok built ∧
      l = { built with handling := l.handling, draws := l.draws, choices := l.choices }

theorem Orderly.of_built (built : l.Built) (gentle : l.handling.Gentle) : l.Orderly := by
  obtain ⟨features, now, plan, catalogue, rows, allProcessed, first, planned, same⟩ := built
  obtain ⟨registration, registered, planned⟩ := exists_of_bind_ok planned
  have current := Plan.build_options registered
  have legal := (Plan.build_ok registered).1
  have managed := Plan.build_managed registered
  cases planned
  have rests : l.waiting = none := by rw [same]
  have timer : l.worker.timer = .start 0 plan.options.workerDelay := by
    rw [same]
    simp only [WorkerLoop.start]
  have options : l.options = registration.options := by rw [same]
  have partitions : l.partitions = if registration.managed then some (.resting 0) else none := by rw [same]
  have store : l.store = catalogue.map fun catalogue => { catalogue } := by rw [same]
  refine ⟨gentle, fun w waits => ?_, fun _ => rests, ?_, ?_, fun kept => ?_⟩
  · cases rests.symm.trans waits
  · rw [timer, Timer.start]
    dsimp only
    omega
  · rw [options, current]
    exact legal
  · have looked : registration.managed := by
      cases answer : registration.managed with
      | true => rfl
      | false =>
        rw [answer] at partitions
        exact absurd partitions kept
    rw [options, current, store]
    refine ⟨fun storeless => ?_, (managed looked).1⟩
    have there := (managed looked).2
    rw [Option.map_eq_none_iff.mp storeless] at there
    cases there

theorem Orderly.update (h : l.Orderly) (o : Options) : (l.update o).2.Orderly := by
  unfold Lane.update
  split
  · exact h
  · rename_i live accepted
    have admits := LiveOptions.admits_of_update accepted
    cases (LiveOptions.update_of_admits admits).symm.trans accepted
    refine ⟨h.gentle, h.free, h.atRest, h.period, admits.faultless, fun managed => ?_⟩
    exact ⟨(h.kept managed).1, admits.partitions.trans (h.kept managed).2⟩

theorem Orderly.modify (h : l.Orderly) (patch : Json) : (l.modify patch).2.Orderly := by
  unfold Lane.modify
  split
  · exact h
  · exact h.update _

theorem Orderly.inject (h : l.Orderly) (fault : StoreFault) :
    Orderly { l with store := l.store.map (Store.inject fault) } := by
  refine ⟨h.gentle, h.free, h.atRest, h.period, h.legal, fun managed => ⟨?_, (h.kept managed).2⟩⟩
  exact fun storeless => (h.kept managed).1 (Option.map_eq_none_iff.mp storeless)

theorem Orderly.withBench (h : l.Orderly) (b : Bench) : Orderly { l with bench := b } :=
  ⟨h.gentle, h.free, h.atRest, h.period, h.legal, h.kept⟩

end Lane

end Rehearsal

end Outbox
