/-!
Runs of a system that takes one step after another, under conditions on each step.
-/

namespace Outbox

variable {σ ε : Type} {step : σ → ε → σ} {P Q : σ → ε → Prop} {s : σ} {events : List ε}

/-- Each event of a run is as `P` asks of it where it happens. -/
def Along (step : σ → ε → σ) (P : σ → ε → Prop) (s : σ) : List ε → Prop
  | [] => True
  | e :: rest => P s e ∧ Along step P (step s e) rest

instance decidableAlong [∀ s e, Decidable (P s e)] (s : σ) :
    (events : List ε) → Decidable (Along step P s events)
  | [] => .isTrue trivial
  | e :: rest =>
    have := decidableAlong (step s e) rest
    inferInstanceAs (Decidable (P s e ∧ Along step P (step s e) rest))

theorem Along.of_forall (h : ∀ e ∈ events, ∀ s, P s e) : Along step P s events := by
  induction events generalizing s with
  | nil => trivial
  | cons e rest ih => exact ⟨h e List.mem_cons_self s, ih fun e member => h e (List.mem_cons_of_mem _ member)⟩

theorem Along.and (p : Along step P s events) (q : Along step Q s events) :
    Along step (fun s e => P s e ∧ Q s e) s events := by
  induction events generalizing s with
  | nil => trivial
  | cons e rest ih => exact ⟨⟨p.1, q.1⟩, ih p.2 q.2⟩

theorem Along.of_invariant {Inv : σ → Prop} (keeps : ∀ s e, Inv s → P s e → Q s e ∧ Inv (step s e))
    (start : Inv s) (along : Along step P s events) : Along step Q s events := by
  induction events generalizing s with
  | nil => trivial
  | cons e rest ih => exact ⟨(keeps s e start along.1).1, ih (keeps s e start along.1).2 along.2⟩

theorem foldl_invariant {Inv : σ → Prop} (keeps : ∀ s e, Inv s → P s e → Inv (step s e)) (start : Inv s)
    (along : Along step P s events) : Inv (events.foldl step s) := by
  induction events generalizing s with
  | nil => exact start
  | cons e rest ih => exact ih (keeps s e start along.1) along.2

end Outbox
