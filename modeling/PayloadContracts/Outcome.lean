import PayloadContracts.Error

/-!
Results of computations that need not come to an end.
-/

namespace PayloadContracts

inductive Outcome (α : Type) where
  | done (x : α)
  | failed (e : ContractError)
  | endless
  deriving Repr

namespace Outcome

variable {α β : Type}

def ofExcept : Except ContractError α → Outcome α
  | .ok x => done x
  | .error e => failed e

def bind (r : Outcome α) (f : α → Outcome β) : Outcome β :=
  match r with
  | done x => f x
  | failed e => failed e
  | endless => endless

def map (f : α → β) (r : Outcome α) : Outcome β := r.bind fun x => done (f x)

/-- The outcome for a part as one for the whole. -/
def under (crumb : Crumb) : Outcome α → Outcome α
  | failed e => failed (e.under crumb)
  | r => r

/-- All results in turn; nothing is worked out after the first that is none. -/
def collect : List (Unit → Outcome α) → Outcome (List α)
  | [] => done []
  | r :: rest => (r ()).bind fun x => (collect rest).map (x :: ·)

@[simp] theorem bind_done (x : α) (f : α → Outcome β) : (done x).bind f = f x := rfl

@[simp] theorem bind_failed (e : ContractError) (f : α → Outcome β) :
    (failed e : Outcome α).bind f = failed e := rfl

@[simp] theorem bind_endless (f : α → Outcome β) : (endless : Outcome α).bind f = endless := rfl

theorem bind_eq_done {r : Outcome α} {f : α → Outcome β} {y : β} :
    r.bind f = done y ↔ ∃ x, r = done x ∧ f x = done y := by
  cases r <;> simp

theorem map_eq_done {r : Outcome α} {f : α → β} {y : β} :
    r.map f = done y ↔ ∃ x, r = done x ∧ f x = y := by
  simp [map, bind_eq_done]

end Outcome

end PayloadContracts
