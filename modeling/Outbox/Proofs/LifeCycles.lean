import Outbox.Proofs.Repository
import Outbox.Proofs.Transcripts
import Outbox.Rehearsal.Database

/-!
One unit of work on a table in memory and its twin on a database. When the database answers as the
table in memory would, the twins answer every call alike and hold a transaction at the same times, up
to a save that is refused because its rows cannot be retried: the one in memory keeps its transaction
then and the one on the database does not (`life_cycles_alike`).
-/

namespace Outbox.Sql

/-- Whether a database answered as a table in memory would: a fetch returns the table's window, or is
told of a lock if the table has a conflict, and nothing else fails. -/
def Exchange.fits (t : Table) (x : Exchange) : Bool :=
  match x.command, x.answer with
  | .run (.fetch features mode now limit), .ok answer =>
    match t.window? features now mode limit t.nextTransaction with
    | some rows => (answer.records.mapM (Record.item features)).toOption = some rows
    | none => false
  | .run (.fetch features mode now limit), .error e =>
    isLockConflict e && (t.window? features now mode limit t.nextTransaction).isNone
  | _, .ok _ => true
  | _, .error _ => false

/-- A unit of work in memory with the table it works on, and one with a database. -/
structure Twins (σ : Type) where
  memory : Outbox.Repository
  table : Table
  remote : Repository
  server : σ

namespace Twins

variable {σ : Type}

inductive Event (σ : Type) where
  | call (c : Call)
  | elsewhere (table : Table) (server : σ)

def start (mode : Mode) (table : Table) (server : σ) : Twins σ :=
  { memory := { mode }, table, remote := { mode }, server }

def inMemory (features : Features) (c : Call) (s : Twins σ) : Outcome × Outbox.Repository × Table :=
  match c with
  | .fetch now limit =>
    let (result, after) := s.memory.fetch features now limit s.table
    (.fetched result, after)
  | .save completed retried =>
    let (result, after) := s.memory.save features completed retried s.table
    (.saved result, after)

def onDatabase (db : Database σ) (features : Features) (c : Call) (s : Twins σ) : Turn × Repository × σ :=
  s.remote.turn db features c s.server

def step (db : Database σ) (features : Features) (s : Twins σ) : Event σ → Twins σ
  | .call c =>
    let (_, memory, table) := s.inMemory features c
    let (_, remote, server) := s.onDatabase db features c
    { memory, table, remote, server }
  | .elsewhere table server => { s with table, server }

/-- Whatever the call sends is answered as the table would. -/
def Faithful (db : Database σ) (features : Features) (s : Twins σ) : Event σ → Prop
  | .call c => (s.onDatabase db features c).1.sent.all (·.fits s.table)
  | .elsewhere _ _ => True

def Refused (s : Twins σ) : Event σ → Prop
  | .call (.save _ retried) =>
    retried ≠ [] ∧ s.memory.mode.lock.supportsRetry = false ∧ s.memory.transaction.isSome
  | _ => False

instance decidableFaithful (db : Database σ) (features : Features) (s : Twins σ) :
    (e : Event σ) → Decidable (s.Faithful db features e)
  | .call _ => inferInstanceAs (Decidable (_ = true))
  | .elsewhere _ _ => .isTrue trivial

instance decidableRefused (s : Twins σ) : (e : Event σ) → Decidable (s.Refused e)
  | .call (.save _ _) => inferInstanceAs (Decidable (_ ∧ _ ∧ _))
  | .call (.fetch _ _) | .elsewhere _ _ => .isFalse id

/-- The same answer, and a transaction open in both or in neither. -/
def Alike (db : Database σ) (features : Features) (s : Twins σ) : Event σ → Prop
  | .call c =>
    (s.inMemory features c).1 = (s.onDatabase db features c).1.outcome ∧
      (s.inMemory features c).2.1.transaction.isSome = (s.onDatabase db features c).2.1.inTransaction
  | .elsewhere _ _ => True

structure Together (s : Twins σ) : Prop where
  mode : s.memory.mode = s.remote.mode
  inTransaction : s.memory.transaction.isSome = s.remote.inTransaction

/-- A unit of work on a database holds a transaction only while its twin in memory does. -/
structure Covered (s : Twins σ) : Prop where
  mode : s.memory.mode = s.remote.mode
  inTransaction : s.remote.inTransaction → s.memory.transaction.isSome

variable {db : Database σ} {features : Features} {s : Twins σ} {e : Event σ}

theorem Together.covered (h : s.Together) : s.Covered := ⟨h.mode, fun holds => h.inTransaction.trans holds⟩

end Twins

/-! ### Calls answered as in memory -/

section Fits

variable {features : Features} {mode : Mode} {t : Table}

theorem Fetches.of_fits {now : Instant} {limit : Nat} {result : Except OutboxError (List Row)}
    {opened : Bool} {l : List Exchange} (h : Fetches features mode now limit false result opened l)
    (fits : ∀ x ∈ l, x.fits t) :
    (t.window? features now mode limit t.nextTransaction = none ∧ result = .ok [] ∧ opened = false) ∨
    ∃ rows, t.window? features now mode limit t.nextTransaction = some rows ∧ result = .ok rows ∧
      opened = true := by
  cases h with
  | unreachable e => simp [Exchange.fits] at fits
  | conflict started e ended conflict =>
    refine .inl ⟨?_, rfl, rfl⟩
    simpa [Exchange.fits, conflict] using (List.forall_mem_cons.mp (List.forall_mem_cons.mp fits).2).1
  | failed started e ended other => simp [Exchange.fits, other] at fits
  | unreadable started answer e ended read =>
    have window := (List.forall_mem_cons.mp (List.forall_mem_cons.mp fits).2).1
    simp only [Exchange.fits, read] at window
    split at window <;> cases window
  | fetched started answer rows read =>
    have window := (List.forall_mem_cons.mp (List.forall_mem_cons.mp fits).2).1
    simp only [Exchange.fits, read] at window
    split at window
    · rename_i rows' inMemory
      have same : rows = rows' := Option.some.inj (of_decide_eq_true window)
      exact .inr ⟨rows, same ▸ inMemory, rfl, rfl⟩
    · cases window

theorem Saves.of_fits {completed : List ItemId} {retried : List Row} {result : Except OutboxError Unit}
    {l : List Exchange} (h : Saves features mode completed retried true result l)
    (fits : ∀ x ∈ l, x.fits t) :
    (retried ≠ [] ∧ mode.lock.supportsRetry = false ∧ result = .error .retryNotSupported) ∨
    ((retried = [] ∨ mode.lock.supportsRetry) ∧ result = .ok ()) := by
  cases h with
  | unsupported ended some unsupported => exact .inl ⟨some, unsupported, rfl⟩
  | failed e ended _ sends =>
    obtain ⟨s, asked, sent⟩ := sends.failure
    have answered := fits _ (List.mem_append_left _ sent)
    rcases mem_writes asked with rfl | rfl | rfl <;> cases answered
  | refused e ended _ sends =>
    cases fits ⟨.commit, .error e⟩ (List.mem_append_right _ List.mem_cons_self)
  | committed answer supported sends => exact .inr ⟨supported, rfl⟩

end Fits

/-! ### The twins -/

namespace Twins

variable {σ : Type} {db : Database σ} {features : Features} {s : Twins σ} {e : Event σ}

theorem mode_inMemory (features : Features) (c : Call) (s : Twins σ) :
    (s.inMemory features c).2.1.mode = s.memory.mode := by
  cases c with
  | fetch now limit =>
    rcases s.memory.fetch_cases features now limit s.table with
      ⟨_, _, eq⟩ | ⟨_, _, eq⟩ | ⟨_, _, _, eq⟩ <;> simp only [inMemory, eq]
  | save completed retried =>
    rcases s.memory.save_cases features completed retried s.table with
      ⟨_, eq⟩ | ⟨_, _, _, _, eq⟩ | ⟨_, _, _, eq⟩ <;> simp only [inMemory, eq]

theorem mode_onDatabase (db : Database σ) (features : Features) (c : Call) (s : Twins σ) :
    (s.onDatabase db features c).2.1.mode = s.remote.mode := by
  cases c with
  | fetch now limit =>
    obtain ⟨_, _, _, _, eq, _⟩ := s.remote.fetch_fetches db features now limit s.server
    simp only [onDatabase, Repository.turn, eq]
  | save completed retried =>
    obtain ⟨_, _, _, eq, _⟩ := s.remote.save_saves db features completed retried s.server
    simp only [onDatabase, Repository.turn, eq]

theorem Together.fetch (h : s.Together) {now : Instant} {limit : Nat}
    (faithful : s.Faithful db features (.call (.fetch now limit))) :
    s.Alike db features (.call (.fetch now limit)) := by
  obtain ⟨result, opened, server, l, eq, fetches⟩ := s.remote.fetch_fetches db features now limit s.server
  simp only [Faithful, Alike, inMemory, onDatabase, Repository.turn, eq, List.all_eq_true] at faithful ⊢
  rw [← h.mode, ← h.inTransaction] at fetches
  -- the outcome in memory says whether a transaction was open and what the window is
  rcases s.memory.fetch_cases features now limit s.table with
    ⟨txn, holds, memory⟩ | ⟨holds, window, memory⟩ | ⟨rows, holds, window, memory⟩ <;>
    rw [holds] at fetches <;> rw [memory]
  · cases fetches
    exact ⟨rfl, by rw [holds]; rfl⟩
  · rcases fetches.of_fits faithful with ⟨_, rfl, rfl⟩ | ⟨rows, same, _, _⟩
    · exact ⟨rfl, by rw [holds]; rfl⟩
    · rw [window] at same
      cases same
  · rcases fetches.of_fits faithful with ⟨same, _, _⟩ | ⟨rows', same, rfl, rfl⟩
    · rw [window] at same
      cases same
    · rw [window] at same
      cases same
      exact ⟨rfl, rfl⟩

theorem Together.save (h : s.Together) {completed : List ItemId} {retried : List Row}
    (faithful : s.Faithful db features (.call (.save completed retried)))
    (kept : ¬ s.Refused (.call (.save completed retried))) :
    s.Alike db features (.call (.save completed retried)) := by
  obtain ⟨result, server, l, eq, saves⟩ := s.remote.save_saves db features completed retried s.server
  simp only [Faithful, Alike, inMemory, onDatabase, Repository.turn, eq, List.all_eq_true] at faithful ⊢
  rw [← h.mode, ← h.inTransaction] at saves
  rcases s.memory.save_cases features completed retried s.table with
    ⟨holds, memory⟩ | ⟨txn, holds, some, unsupported, memory⟩ | ⟨txn, holds, supported, memory⟩ <;>
    rw [holds] at saves <;> rw [memory]
  · cases saves
    exact ⟨rfl, by rw [holds]; rfl⟩
  · exact absurd ⟨some, unsupported, by rw [holds]; rfl⟩ kept
  · rcases saves.of_fits faithful with ⟨some, unsupported, _⟩ | ⟨_, rfl⟩
    · rcases supported with none | supports
      · exact absurd none some
      · rw [unsupported] at supports
        cases supports
    · exact ⟨rfl, rfl⟩

theorem Together.alike (h : s.Together) (faithful : s.Faithful db features e) (kept : ¬ s.Refused e) :
    s.Alike db features e := by
  cases e with
  | call c =>
    cases c with
    | fetch now limit => exact h.fetch faithful
    | save completed retried => exact h.save faithful kept
  | elsewhere table server => trivial

theorem Together.step (h : s.Together) (faithful : s.Faithful db features e) (kept : ¬ s.Refused e) :
    (s.step db features e).Together := by
  have alike := h.alike faithful kept
  cases e with
  | call c =>
    exact ⟨(mode_inMemory features c s).trans (h.mode.trans (mode_onDatabase db features c s).symm), alike.2⟩
  | elsewhere table server => exact ⟨h.mode, h.inTransaction⟩

theorem Together.refused (h : s.Together) {completed : List ItemId} {retried : List Row}
    (refused : s.Refused (.call (.save completed retried))) :
    let inMemory := s.inMemory features (.save completed retried)
    let onDatabase := s.onDatabase db features (.save completed retried)
    inMemory.1 = .saved (.error .retryNotSupported) ∧ inMemory.2.1.transaction.isSome ∧
      onDatabase.1.outcome = .saved (.error .retryNotSupported) ∧ onDatabase.2.1.inTransaction = false := by
  obtain ⟨some, unsupported, holds⟩ := refused
  have rejected : ¬ (retried = [] ∨ s.memory.mode.lock.supportsRetry) := by simp [some, unsupported]
  have memory : s.memory.save features completed retried s.table =
      (.error .retryNotSupported, s.memory, s.table) := by
    rcases s.memory.save_cases features completed retried s.table with
      ⟨closed, _⟩ | ⟨_, _, _, _, eq⟩ | ⟨_, _, supported, _⟩
    · rw [closed] at holds
      cases holds
    · exact eq
    · exact absurd supported rejected
  obtain ⟨result, server, l, eq, saves⟩ := s.remote.save_saves db features completed retried s.server
  rw [← h.mode, ← h.inTransaction, holds] at saves
  simp only [inMemory, onDatabase, Repository.turn, memory, eq, holds, true_and]
  cases saves with
  | unsupported => exact ⟨rfl, trivial⟩
  | failed _ _ supported | refused _ _ supported | committed _ supported => exact absurd supported rejected

theorem Covered.step (h : s.Covered) (faithful : s.Faithful db features e) :
    (s.step db features e).Covered := by
  cases e with
  | elsewhere table server => exact ⟨h.mode, h.inTransaction⟩
  | call c =>
    refine ⟨(mode_inMemory features c s).trans (h.mode.trans (mode_onDatabase db features c s).symm), ?_⟩
    cases c with
    | save completed retried =>
      -- a save leaves no transaction on the database
      obtain ⟨_, _, _, eq, _⟩ := s.remote.save_saves db features completed retried s.server
      intro holds
      simp only [Twins.step, onDatabase, Repository.turn, eq] at holds
      cases holds
    | fetch now limit =>
      cases opened : s.memory.transaction with
      | some txn =>
        -- refused in memory, whatever the database does
        intro _
        simp only [Twins.step, inMemory, Outbox.Repository.fetch, opened]
        rfl
      | none =>
        have together : s.Together := ⟨h.mode, by
          cases holds : s.remote.inTransaction with
          | false => rw [opened]; rfl
          | true => exact h.inTransaction holds⟩
        exact fun holds => (together.fetch faithful).2.trans holds

/-- For as long as a database answers as the table would, it holds a transaction only while its twin in
memory does. Up to a save that is refused because its rows cannot be retried the twins do the same;
that save both refuse, and only the one in memory goes on in its transaction. -/
theorem life_cycles_alike {mode : Mode} {table : Table} {server : σ} {events : List (Event σ)}
    (faithful : Along (step db features) (Faithful db features) (start mode table server) events) :
    let s := events.foldl (step db features) (start mode table server)
    (s.remote.inTransaction → s.memory.transaction.isSome) ∧
    (Along (step db features) (fun s e => ¬ s.Refused e) (start mode table server) events →
      Along (step db features) (Alike db features) (start mode table server) events ∧
      ∀ completed retried, s.Refused (.call (.save completed retried)) →
        let inMemory := s.inMemory features (.save completed retried)
        let onDatabase := s.onDatabase db features (.save completed retried)
        inMemory.1 = .saved (.error .retryNotSupported) ∧ inMemory.2.1.transaction.isSome ∧
          onDatabase.1.outcome = .saved (.error .retryNotSupported) ∧
          onDatabase.2.1.inTransaction = false) := by
  intro s
  have together : (start mode table server).Together := ⟨rfl, rfl⟩
  have covered : s.Covered :=
    foldl_invariant (fun _ _ h faithful => h.step faithful) together.covered faithful
  refine ⟨covered.inTransaction, fun kept => ⟨?_, fun completed retried => ?_⟩⟩
  · exact (faithful.and kept).of_invariant
      (fun _ _ h given => ⟨h.alike given.1 given.2, h.step given.1 given.2⟩) together
  · have after : s.Together :=
      foldl_invariant (fun _ _ h given => h.step given.1 given.2) together (faithful.and kept)
    exact after.refused

section Instances

open Outbox.Rehearsal

def letter : Row := { id := .ofNat 1, payload := "letter" }

def strict : Mode := ⟨.noWait, false⟩

def posted : Table := Table.insert [letter] {}

def held : Table := { posted with nextTransaction := 2 }.lockAll 1 [letter]

def database (replies : List ScriptedReply) : ScriptedDatabase := { features := {}, replies }

def conflicting : ScriptedDatabase := database [{ answer := .error lockNotAvailable "could not obtain lock" }]

def returning : ScriptedDatabase := database [{ answer := .rows [{ id := letter.id, payload := "letter" }] }]

/-- A fetch that meets a lock, one that returns the letter, its save, a save too many and a fetch of
nothing. -/
def delivery : List (Event ScriptedDatabase) :=
  [.call (.fetch .epoch 1), .elsewhere posted returning, .call (.fetch .epoch 1),
    .call (.save [letter.id] []), .call (.save [] []), .call (.fetch .epoch 1)]

theorem life_cycles_alike_delivery :
    let s := delivery.foldl (step ScriptedDatabase.perform {}) (start strict held conflicting)
    Along (step ScriptedDatabase.perform {}) (Faithful ScriptedDatabase.perform {})
      (start strict held conflicting) delivery ∧
    Along (step ScriptedDatabase.perform {}) (Alike ScriptedDatabase.perform {})
      (start strict held conflicting) delivery ∧
    s.Refused (.call (.save [] [letter])) ∧
    (s.inMemory {} (.save [] [letter])).2.1.transaction = some 2 ∧
    (s.onDatabase ScriptedDatabase.perform {} (.save [] [letter])).2.1.inTransaction = false := by
  intro s
  have faithful : Along (step ScriptedDatabase.perform {}) (Faithful ScriptedDatabase.perform {})
      (start strict held conflicting) delivery := by decide
  have kept : Along (step ScriptedDatabase.perform {}) (fun s e => ¬ s.Refused e)
      (start strict held conflicting) delivery := by decide
  have refused : s.Refused (.call (.save [] [letter])) := by decide
  obtain ⟨alike, parts⟩ := (life_cycles_alike faithful).2 kept
  exact ⟨faithful, alike, refused, by decide, (parts [] [letter] refused).2.2.2⟩

/-- After the refusal another save finds a transaction in memory and none on the database. -/
def refusal : List (Event ScriptedDatabase) :=
  [.call (.fetch .epoch 1), .call (.save [] [letter]), .call (.save [] [])]

theorem life_cycles_part :
    Along (step ScriptedDatabase.perform {}) (Faithful ScriptedDatabase.perform {})
      (start strict posted returning) refusal ∧
    ¬ Along (step ScriptedDatabase.perform {}) (Alike ScriptedDatabase.perform {})
      (start strict posted returning) refusal ∧
    let s := (refusal.take 2).foldl (step ScriptedDatabase.perform {}) (start strict posted returning)
    (s.inMemory {} (.save [] [])).1 = .saved (.ok ()) ∧
      (s.onDatabase ScriptedDatabase.perform {} (.save [] [])).1.outcome =
        .saved (.error .transactionNotOpen) := by
  refine ⟨by decide, ?_, rfl, rfl⟩
  rintro ⟨_, ⟨_, apart⟩, _⟩
  cases apart

end Instances

end Twins

end Outbox.Sql
