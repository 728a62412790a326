import PayloadContracts.Proofs.Inquiry
import PayloadContracts.Proofs.Tables
import Mathlib.Logic.Relation

/-!
Recursion through questions comes to an end unless a question comes back to itself. Main statement:
`Recursion.ends_iff`.
-/

namespace PayloadContracts

open Relation

/-- What holds from each link of a chain to the next holds from each to all later ones. -/
theorem rel_of_chain {α : Type} {r : α → α → Prop} (trans : ∀ x y z, r x y → r y z → r x z)
    {f : Nat → α} {n : Nat} (hf : ∀ i ≤ n, r (f i) (f (i + 1))) {i j : Nat} (hij : i < j)
    (hj : j ≤ n + 1) : r (f i) (f j) := by
  induction hij with
  | refl => exact hf i (Nat.le_of_succ_le_succ hj)
  | @step j hij ih =>
    exact trans _ _ _ (ih (Nat.le_of_succ_le hj)) (hf j (Nat.le_of_succ_le_succ hj))

/-- The work on a question, given the answers to those that it may call for. -/
structure Recursion (Q A : Type) where
  work : (Q → Outcome A) → Q → Outcome A
  calls : Q → Q → Prop
  inquires : ∀ x, Inquires (calls x) fun answer => work answer x

namespace Recursion

variable {Q A : Type} {R : Recursion Q A} {x y : Q} {r r' : Outcome A} {n m : Nat}

/-- The work on the question ends with the result, in finitely many steps. -/
inductive Yields (R : Recursion Q A) : Q → Outcome A → Prop
  | work {x : Q} (answer : Q → Outcome A)
    (truthful : ∀ q, answer q ≠ .endless → Yields R q (answer q))
    (ends : R.work answer x ≠ .endless) : Yields R x (R.work answer x)

/-- After some answers, all of them yielded, the work on the first question waits for the second. -/
def Asks (R : Recursion Q A) (x y : Q) : Prop :=
  ∃ answer : Q → Outcome A, (∀ q, answer q ≠ .endless → R.Yields q (answer q)) ∧
    answer y = .endless ∧
    ∀ answer', Extends answer answer' → answer' y = .endless → R.work answer' x = .endless

/-- Answers that take fewer questions one inside the other. -/
def answers (R : Recursion Q A) : Nat → Q → Outcome A
  | 0, _ => .endless
  | n + 1, x => R.work (R.answers n) x

theorem work_of_extends {answer answer' : Q → Outcome A} (h : Extends answer answer')
    (hx : R.work answer x ≠ .endless) : R.work answer' x = R.work answer x := by
  obtain ⟨t, -, hrun⟩ := R.inquires x
  simp only [hrun] at hx ⊢
  exact Inquiry.run_of_extends h hx

theorem answers_succ (n : Nat) : Extends (R.answers n) (R.answers (n + 1)) := by
  induction n with
  | zero => exact fun _ h => absurd rfl h
  | succ n ih => exact fun _ h => work_of_extends ih h

theorem answers_of_le (h : n ≤ m) : Extends (R.answers n) (R.answers m) := by
  induction h with
  | refl => exact fun _ _ => rfl
  | step _ ih =>
    intro q hq
    have hm := ih q hq
    rw [answers_succ _ q (hm ▸ hq), hm]

theorem yields_answers (h : R.answers n x ≠ .endless) : R.Yields x (R.answers n x) := by
  induction n generalizing x with
  | zero => exact absurd rfl h
  | succ n ih => exact .work (R.answers n) (fun _ hq => ih hq) h

theorem Yields.ne_endless (h : R.Yields x r) : r ≠ .endless := by
  cases h with
  | work answer truthful ends => exact ends

/-- A derivation needs finitely many answers, so they have a common bound. -/
theorem Yields.exists_answers (h : R.Yields x r) : ∃ n, R.answers n x = r := by
  induction h with
  | @work x answer truthful ends ih =>
    obtain ⟨t, -, hrun⟩ := R.inquires x
    simp only [hrun] at ends ⊢
    obtain ⟨qs, hqs, hsame⟩ := Inquiry.exists_questions ends
    have hmono : ∀ n m q, n ≤ m → R.answers n q = answer q ∧ answer q ≠ .endless →
        R.answers m q = answer q ∧ answer q ≠ .endless := by
      rintro n m q hle ⟨hq, hne⟩
      exact ⟨(answers_of_le hle q (hq ▸ hne)).trans hq, hne⟩
    have hexists : ∀ q ∈ qs, ∃ n, R.answers n q = answer q ∧ answer q ≠ .endless := fun q hq =>
      (ih q (hqs q hq)).imp fun n hn => ⟨hn, hqs q hq⟩
    obtain ⟨n, hn⟩ := exists_forall_mem hmono hexists
    refine ⟨n + 1, ?_⟩
    exact (hrun _).trans (hsame _ fun q hq => (hn q hq).1)

theorem Yields.unique (h : R.Yields x r) (h' : R.Yields x r') : r = r' := by
  obtain ⟨n, rfl⟩ := h.exists_answers
  obtain ⟨m, rfl⟩ := h'.exists_answers
  have hn := answers_of_le (Nat.le_max_left n m) x h.ne_endless
  have hm := answers_of_le (Nat.le_max_right n m) x h'.ne_endless
  exact hn.symm.trans hm

theorem ends_iff_answers : (∃ r, R.Yields x r) ↔ ∃ n, R.answers n x ≠ .endless := by
  constructor
  · rintro ⟨r, h⟩
    obtain ⟨n, rfl⟩ := h.exists_answers
    exact ⟨n, h.ne_endless⟩
  · rintro ⟨n, h⟩
    exact ⟨_, yields_answers h⟩

/-- What a question that has an answer asks has one earlier. -/
theorem Asks.descends (h : R.Asks x y) (hx : R.answers n x ≠ .endless) :
    ∃ m < n, R.answers m y ≠ .endless := by
  cases n with
  | zero => exact absurd rfl hx
  | succ n =>
    refine ⟨n, Nat.lt_succ_self n, fun hy => ?_⟩
    obtain ⟨answer, htruthful, hnone, hstuck⟩ := h
    -- Both sets of answers are yielded, so they agree and can be put together.
    have hanswers : Extends (R.answers n) (join answer (R.answers n)) := by
      intro q hq
      by_cases ha : answer q = .endless
      · exact join_of_endless ha
      · exact (extends_join _ _ q ha).trans ((htruthful q ha).unique (yields_answers hq))
    have hjoined : join answer (R.answers n) y = .endless := by
      rw [join_of_endless hnone]
      exact hy
    have hwork := work_of_extends hanswers hx
    rw [hstuck _ (extends_join _ _) hjoined] at hwork
    exact hx hwork.symm

theorem descends_transGen (h : TransGen R.Asks x y) (hx : R.answers n x ≠ .endless) :
    ∃ m < n, R.answers m y ≠ .endless := by
  induction h with
  | single h => exact h.descends hx
  | tail _ h ih =>
    obtain ⟨m, hm, hy⟩ := ih
    obtain ⟨k, hk, hz⟩ := h.descends hy
    exact ⟨k, Nat.lt_trans hk hm, hz⟩

/-- A question that comes back to itself has no answer. -/
theorem answers_of_cycle (h : TransGen R.Asks x x) (n : Nat) : R.answers n x = .endless := by
  induction n using Nat.strongRecOn with
  | ind n ih =>
    by_contra hx
    obtain ⟨m, hm, hx⟩ := descends_transGen h hx
    exact hx (ih m hm)

theorem not_ends_of_cycle (h : ReflTransGen R.Asks x y) (hy : TransGen R.Asks y y) :
    ¬∃ r, R.Yields x r := by
  rw [ends_iff_answers]
  rintro ⟨n, hx⟩
  obtain rfl | h := reflTransGen_iff_eq_or_transGen.mp h
  · exact hx (answers_of_cycle hy n)
  · obtain ⟨m, -, hm⟩ := descends_transGen h hx
    exact hm (answers_of_cycle hy m)

theorem exists_asked (h : R.answers (n + 1) x = .endless) :
    ∃ y, R.calls x y ∧ R.Asks x y ∧ R.answers n y = .endless := by
  obtain ⟨t, ht, hrun⟩ := R.inquires x
  obtain ⟨y, hcalls, hy, hstuck⟩ := Inquiry.exists_unanswered ht ((hrun _).symm.trans h)
  refine ⟨y, hcalls, ⟨R.answers n, fun _ hq => yields_answers hq, hy, fun answer' he hnone => ?_⟩, hy⟩
  exact (hrun answer').trans (hstuck answer' he hnone)

/-- A question without an answer is the first of a chain, each asking the next. -/
theorem exists_chain (h : R.answers (n + 1) x = .endless) :
    ∃ f : Nat → Q, f 0 = x ∧ ∀ i ≤ n, R.calls (f i) (f (i + 1)) ∧ R.Asks (f i) (f (i + 1)) := by
  induction n generalizing x with
  | zero =>
    obtain ⟨y, hcalls, hasks, -⟩ := exists_asked h
    refine ⟨Nat.rec x fun _ _ => y, rfl, fun i hi => ?_⟩
    obtain rfl := Nat.le_zero.mp hi
    exact ⟨hcalls, hasks⟩
  | succ n ih =>
    obtain ⟨y, hcalls, hasks, hy⟩ := exists_asked h
    obtain ⟨f, rfl, hf⟩ := ih hy
    refine ⟨Nat.rec x fun i _ => f i, rfl, fun i hi => ?_⟩
    cases i with
    | zero => exact ⟨hcalls, hasks⟩
    | succ i => exact hf i (Nat.le_of_succ_le_succ hi)

theorem transGen_of_chain {f : Nat → Q} (hf : ∀ i ≤ n, R.Asks (f i) (f (i + 1))) {i j : Nat}
    (hij : i < j) (hj : j ≤ n + 1) : TransGen R.Asks (f i) (f j) :=
  rel_of_chain (fun _ _ _ => TransGen.trans) (fun i hi => .single (hf i hi)) hij hj

/-- Chains of calls of some length from the question on go through one question twice. -/
def Returns (R : Recursion Q A) (n : Nat) (x : Q) : Prop :=
  ∀ f : Nat → Q, f 0 = x → (∀ i ≤ n, R.calls (f i) (f (i + 1))) → ∃ i j, i < j ∧ j ≤ n + 1 ∧ f i = f j

theorem exists_cycle (hn : R.Returns n x) (h : R.answers (n + 1) x = .endless) :
    ∃ y, ReflTransGen R.Asks x y ∧ TransGen R.Asks y y := by
  obtain ⟨f, rfl, hf⟩ := exists_chain h
  obtain ⟨i, j, hij, hj, heq⟩ := hn f rfl fun i hi => (hf i hi).1
  have hcycle := transGen_of_chain (fun i hi => (hf i hi).2) hij hj
  refine ⟨f i, ?_, heq ▸ hcycle⟩
  cases i with
  | zero => exact .refl
  | succ i =>
    have hlt : i + 1 ≤ n + 1 := Nat.le_trans (Nat.le_of_lt hij) hj
    exact (transGen_of_chain (fun i hi => (hf i hi).2) (Nat.succ_pos i) hlt).to_reflTransGen

/-- The work ends exactly if it leads to no question that comes back to itself. -/
theorem ends_iff (hn : R.Returns n x) :
    (∃ r, R.Yields x r) ↔ ¬∃ y, ReflTransGen R.Asks x y ∧ TransGen R.Asks y y := by
  constructor
  · rintro hx ⟨y, hxy, hy⟩
    exact not_ends_of_cycle hxy hy hx
  · intro hcycle
    refine ends_iff_answers.mpr ⟨n + 1, fun h => hcycle (exists_cycle hn h)⟩

/-- As many questions one inside the other are enough for the answer, if there is one. -/
theorem Yields.eq_answers (hn : R.Returns n x) (h : R.Yields x r) : R.answers (n + 1) x = r := by
  by_cases hx : R.answers (n + 1) x = .endless
  · obtain ⟨y, hxy, hy⟩ := exists_cycle hn hx
    exact absurd ⟨r, h⟩ (not_ends_of_cycle hxy hy)
  · exact (yields_answers hx).unique h

end Recursion

end PayloadContracts
