import PayloadContracts.Outcome
import Mathlib.Tactic.Choose

/-!
Computations that ask for the results of others.
-/

namespace PayloadContracts

/-- A computation ends, or asks a question and goes on with the answer. -/
inductive Inquiry (Q A α : Type) where
  | done (x : α)
  | failed (e : ContractError)
  | ask (q : Q) (go : Outcome A → Inquiry Q A α)

variable {Q A α β : Type}

/-- The second gives all answers that the first gives. -/
def Extends (answer answer' : Q → Outcome A) : Prop :=
  ∀ q, answer q ≠ .endless → answer' q = answer q

/-- The answers of the first and, where it has none, of the second. -/
def join (answer answer' : Q → Outcome A) (q : Q) : Outcome A :=
  match answer q with
  | .endless => answer' q
  | found => found

theorem join_of_endless {answer answer' : Q → Outcome A} {q : Q} (h : answer q = .endless) :
    join answer answer' q = answer' q := by
  rw [join, h]

theorem extends_join (answer answer' : Q → Outcome A) : Extends answer (join answer answer') := by
  intro q hq
  rw [join]
  split
  · contradiction
  · rfl

namespace Inquiry

variable {answer answer' : Q → Outcome A} {allowed allowed' : Q → Prop}

/-- The result, given answers; without an answer that it asks for it does not end. -/
def run (answer : Q → Outcome A) : Inquiry Q A α → Outcome α
  | done x => .done x
  | failed e => .failed e
  | ask q go =>
    match answer q with
    | .endless => .endless
    | r => (go r).run answer

/-- All questions on the way are allowed. -/
def Only (allowed : Q → Prop) : Inquiry Q A α → Prop
  | done _ => True
  | failed _ => True
  | ask q go => allowed q ∧ ∀ r, (go r).Only allowed

/-- An answer as a computation. -/
def ofOutcome : Outcome α → Inquiry Q A α
  | .done x => done x
  | .failed e => failed e
  | .endless => failed default

theorem run_ofOutcome {r : Outcome α} (h : r ≠ .endless) :
    (ofOutcome r : Inquiry Q A α).run answer = r := by
  cases r with
  | endless => contradiction
  | _ => rfl

theorem only_ofOutcome (r : Outcome α) : (ofOutcome r : Inquiry Q A α).Only allowed := by
  cases r <;> trivial

theorem run_ask {q : Q} {go : Outcome A → Inquiry Q A α} (h : answer q ≠ .endless) :
    (ask q go).run answer = (go (answer q)).run answer := by
  rw [run]
  split
  · contradiction
  · rfl

theorem run_ask_endless {q : Q} {go : Outcome A → Inquiry Q A α} (h : answer q = .endless) :
    (ask q go).run answer = .endless := by
  rw [run, h]

theorem Only.mono (h : ∀ q, allowed q → allowed' q) {t : Inquiry Q A α} (ht : t.Only allowed) :
    t.Only allowed' := by
  induction t with
  | done x => trivial
  | failed e => trivial
  | ask q go ih => exact ⟨h q ht.1, fun r => ih r (ht.2 r)⟩

theorem run_of_extends {t : Inquiry Q A α} (h : Extends answer answer')
    (ht : t.run answer ≠ .endless) : t.run answer' = t.run answer := by
  induction t with
  | done x => rfl
  | failed e => rfl
  | ask q go ih =>
    by_cases hq : answer q = .endless
    · exact absurd (run_ask_endless hq) ht
    · have hq' := h q hq
      rw [run_ask hq] at ht ⊢
      rw [run_ask (hq' ▸ hq), hq']
      exact ih _ ht

/-- Without end for lack of an answer, and so as long as that answer is not given. -/
theorem exists_unanswered {t : Inquiry Q A α} (h : t.Only allowed)
    (ht : t.run answer = .endless) :
    ∃ q, allowed q ∧ answer q = .endless ∧
      ∀ answer', Extends answer answer' → answer' q = .endless → t.run answer' = .endless := by
  induction t with
  | done x => cases ht
  | failed e => cases ht
  | ask q go ih =>
    by_cases hq : answer q = .endless
    · exact ⟨q, h.1, hq, fun _ _ hq' => run_ask_endless hq'⟩
    · rw [run_ask hq] at ht
      obtain ⟨q', hallowed, hq', hstuck⟩ := ih _ (h.2 _) ht
      refine ⟨q', hallowed, hq', fun answer' he hnone => ?_⟩
      have hsame := he q hq
      rw [run_ask (hsame ▸ hq), hsame]
      exact hstuck answer' he hnone

/-- With an end only finitely many answers matter. -/
theorem exists_questions {t : Inquiry Q A α} (ht : t.run answer ≠ .endless) :
    ∃ qs : List Q, (∀ q ∈ qs, answer q ≠ .endless) ∧
      ∀ answer', (∀ q ∈ qs, answer' q = answer q) → t.run answer' = t.run answer := by
  induction t with
  | done x => exact ⟨[], by simp, fun _ _ => rfl⟩
  | failed e => exact ⟨[], by simp, fun _ _ => rfl⟩
  | ask q go ih =>
    by_cases hq : answer q = .endless
    · exact absurd (run_ask_endless hq) ht
    · rw [run_ask hq] at ht ⊢
      obtain ⟨qs, hqs, hsame⟩ := ih _ ht
      refine ⟨q :: qs, List.forall_mem_cons.mpr ⟨hq, hqs⟩, fun answer' h => ?_⟩
      obtain ⟨hq', hrest⟩ := List.forall_mem_cons.mp h
      rw [run_ask (hq' ▸ hq), hq']
      exact hsame answer' hrest

def bind (k : α → Inquiry Q A β) : Inquiry Q A α → Inquiry Q A β
  | done x => k x
  | failed e => failed e
  | ask q go => ask q fun r => (go r).bind k

def under (crumb : Crumb) : Inquiry Q A α → Inquiry Q A α
  | done x => done x
  | failed e => failed (e.under crumb)
  | ask q go => ask q fun r => (go r).under crumb

theorem run_bind (t : Inquiry Q A α) (k : α → Inquiry Q A β) :
    (t.bind k).run answer = (t.run answer).bind fun x => (k x).run answer := by
  induction t with
  | done x => rfl
  | failed e => rfl
  | ask q go ih =>
    rw [bind]
    by_cases hq : answer q = .endless
    · rw [run_ask_endless hq, run_ask_endless hq, Outcome.bind_endless]
    · rw [run_ask hq, run_ask hq, ih]

theorem run_under (t : Inquiry Q A α) (crumb : Crumb) :
    (t.under crumb).run answer = (t.run answer).under crumb := by
  induction t with
  | done x => rfl
  | failed e => rfl
  | ask q go ih =>
    rw [under]
    by_cases hq : answer q = .endless
    · rw [run_ask_endless hq, run_ask_endless hq]
      rfl
    · rw [run_ask hq, run_ask hq, ih]

theorem Only.bind {t : Inquiry Q A α} {k : α → Inquiry Q A β} (ht : t.Only allowed)
    (hk : ∀ x, (k x).Only allowed) : (t.bind k).Only allowed := by
  induction t with
  | done x => exact hk x
  | failed e => trivial
  | ask q go ih => exact ⟨ht.1, fun r => ih r (ht.2 r)⟩

theorem Only.under {t : Inquiry Q A α} (ht : t.Only allowed) (crumb : Crumb) :
    (t.under crumb).Only allowed := by
  induction t with
  | done x => trivial
  | failed e => trivial
  | ask q go ih => exact ⟨ht.1, fun r => ih r (ht.2 r)⟩

end Inquiry

/-- What depends on answers does so by asking allowed questions one after the other. -/
def Inquires (allowed : Q → Prop) (f : (Q → Outcome A) → Outcome α) : Prop :=
  ∃ t : Inquiry Q A α, t.Only allowed ∧ ∀ answer, f answer = t.run answer

namespace Inquires

variable {allowed allowed' : Q → Prop} {f : (Q → Outcome A) → Outcome α}

theorem mono (h : ∀ q, allowed q → allowed' q) (hf : Inquires allowed f) : Inquires allowed' f := by
  obtain ⟨t, ht, hrun⟩ := hf
  exact ⟨t, ht.mono h, hrun⟩

theorem done (x : α) : Inquires allowed fun _ : Q → Outcome A => .done x :=
  ⟨.done x, trivial, fun _ => rfl⟩

theorem failed (e : ContractError) :
    Inquires allowed fun _ : Q → Outcome A => (.failed e : Outcome α) :=
  ⟨.failed e, trivial, fun _ => rfl⟩

theorem ofExcept (r : Except ContractError α) :
    Inquires allowed fun _ : Q → Outcome A => .ofExcept r := by
  cases r with
  | ok x => exact done x
  | error e => exact failed e

theorem ask {q : Q} (h : allowed q) : Inquires allowed fun answer : Q → Outcome A => answer q := by
  refine ⟨.ask q .ofOutcome, ⟨h, Inquiry.only_ofOutcome⟩, fun answer => ?_⟩
  show answer q = _
  by_cases hq : answer q = .endless
  · rw [Inquiry.run_ask_endless hq, hq]
  · rw [Inquiry.run_ask hq, Inquiry.run_ofOutcome hq]

theorem bind {g : α → (Q → Outcome A) → Outcome β} (hf : Inquires allowed f)
    (hg : ∀ x, Inquires allowed (g x)) :
    Inquires allowed fun answer => (f answer).bind fun x => g x answer := by
  obtain ⟨t, ht, hrun⟩ := hf
  choose k hk hgrun using hg
  refine ⟨t.bind k, ht.bind hk, fun answer => ?_⟩
  simp only [Inquiry.run_bind, hrun, hgrun]

theorem map (hf : Inquires allowed f) (g : α → β) :
    Inquires allowed fun answer => (f answer).map g :=
  hf.bind fun x => done (g x)

theorem under (hf : Inquires allowed f) (crumb : Crumb) :
    Inquires allowed fun answer => (f answer).under crumb := by
  obtain ⟨t, ht, hrun⟩ := hf
  refine ⟨t.under crumb, ht.under crumb, fun answer => ?_⟩
  simp only [Inquiry.run_under, hrun]

theorem collect {fs : List ((Q → Outcome A) → Outcome α)} (h : ∀ f ∈ fs, Inquires allowed f) :
    Inquires allowed fun answer => Outcome.collect (fs.map fun f _ => f answer) := by
  induction fs with
  | nil => exact done []
  | cons f fs ih =>
    have hf := h f List.mem_cons_self
    have hfs := ih fun g hg => h g (List.mem_cons_of_mem _ hg)
    exact hf.bind fun x => hfs.map (x :: ·)

end Inquires

end PayloadContracts
