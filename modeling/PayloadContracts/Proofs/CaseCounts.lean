import PayloadContracts.Proofs.Cases
import PayloadContracts.Proofs.Types
import Mathlib.Algebra.GroupWithZero.Nat

/-!
How many cases a pattern has. Main statement: `Pattern.length_cases_le`.

Tables of fields and attributes are counted while they are enumerated, and so are the ways to put the
parts of an element together. The cases of alternatives are put side by side without a look at the
limit, so the limit holds for each pattern that these lead to, and not for all of them together.
-/

namespace PayloadContracts

section Enumeration

variable {α : Type} {limit count : Nat} {tables : List (Entries α)}

theorem length_combineSets_le {options : Entries (List α)} {found : List (Entries α)}
    {sets : List (List String)} (hcount : count = found.length) (hle : count ≤ limit)
    (h : combineSets limit options count found sets = .ok tables) : tables.length ≤ limit := by
  induction sets generalizing count found with
  | nil =>
    cases h
    exact hcount ▸ hle
  | cons set sets ih =>
    rw [combineSets] at h
    split at h
    · cases h
    · rename_i more hmore
      split at h
      · rename_i hroom
        refine ih ?_ hroom h
        rw [List.length_append, List.length_reverse, hcount, Nat.add_comm]
      · cases h

theorem length_keyCombinations_le {parts : Entries (Unit → Outcome (List α))} {row : Row}
    {mark : String} (h : keyCombinations parts row mark limit = .done tables) :
    tables.length ≤ limit := by
  rw [keyCombinations] at h
  split at h
  · cases h
  · obtain ⟨options, -, h⟩ := Outcome.bind_eq_done.mp h
    obtain ⟨found, hfound, rfl⟩ := Outcome.map_eq_done.mp h
    rw [Outcome.ofExcept_eq_done_iff] at hfound
    rw [List.length_reverse]
    exact length_combineSets_le List.length_nil.symm (Nat.zero_le _) hfound

end Enumeration

/-- What is put side by side is not longer than the bounds of its parts together. -/
theorem length_flatten_le {α β : Type} {R : α → List β → Prop} {xs : List α} {lists : List (List β)}
    {weight : α → Nat} {limit : Nat} (h : List.Forall₂ R xs lists)
    (hle : ∀ x ∈ xs, ∀ list, R x list → list.length ≤ weight x * limit) :
    lists.flatten.length ≤ (xs.map weight).sum * limit := by
  induction h with
  | nil => simp
  | cons hx _ ih =>
    obtain ⟨hfirst, hrest⟩ := List.forall_mem_cons.mp hle
    rw [List.flatten_cons, List.length_append, List.map_cons, List.sum_cons, Nat.add_mul]
    exact Nat.add_le_add (hfirst _ hx) (ih hrest)

namespace Pattern

variable {ofToken : Pattern → Scope → Outcome (List Pattern)} {row : Row} {p q : Pattern}
  {s inner : Scope} {cs : List Pattern}

theorem length_elementCases_le {shape : Shape Pattern} {limit : Nat} {tables : List (Entries Pattern)}
    {choices : List (List (Option Pattern))} (h : elementCases shape limit tables choices = .ok cs) :
    cs.length ≤ limit := by
  rw [elementCases] at h
  split at h
  · cases h
  · dsimp only at h
    split at h
    · cases h
    · rename_i n hn
      cases h
      have hproduct : tables.length * (selections choices).length ≤ limit := by
        simp only [productLength, productFrom, Nat.one_mul] at hn
        split at hn
        · split at hn
          · assumption
          · cases hn
        · cases hn
      simpa [List.length_flatMap, List.map_const', List.sum_replicate_nat] using hproduct

/-- The number of patterns that a pattern comes down to through alternatives, items of lists and
references, and whose cases are put side by side. -/
def heads (p : Pattern) (s : Scope) : Nat :=
  match p with
  | .union ps => (ps.map fun q => q.heads s.withEmpty).sum
  | .list item => item.heads s
  | .reference token =>
    if s.isExpanding token then 1
    else
      match _h : s.follow (.reference token) with
      | .ok (q, inner) => q.heads inner
      | .error _ => 1
  | _ => 1
termination_by (s.headroom, sizeOf p)
decreasing_by
  · rename_i h
    rw [Scope.headroom_withEmpty]
    exact Prod.Lex.right _ (by have := List.sizeOf_lt_of_mem h; simp; omega)
  · exact Prod.Lex.right _ (by simp)
  · exact Prod.Lex.left _ _ (Scope.headroom_follow _h)

theorem heads_reference {token : String} (h : ¬s.isExpanding token = true)
    (hf : s.follow (.reference token) = .ok (q, inner)) :
    (reference token).heads s = q.heads inner := by
  rw [heads, if_neg h]
  split
  · rename_i hf'
    cases hf.symm.trans hf'
    rfl
  · rename_i hf'
    cases hf.symm.trans hf'

/-- Each pattern that a pattern comes down to has no more cases than the limit. -/
theorem length_casesWith_le (hlimit : 1 ≤ s.caseLimit)
    (h : p.casesWith ofToken row s = .done cs) : cs.length ≤ p.heads s * s.caseLimit := by
  induction p, s using scopeInduction generalizing cs with
  | literal e s =>
    rw [casesWith] at h
    cases h
    simpa [heads] using hlimit
  | scalar kind s =>
    rw [casesWith] at h
    cases h
    simpa [heads] using hlimit
  | record fields isOpen s =>
    rw [casesWith] at h
    obtain ⟨tables, htables, rfl⟩ := Outcome.map_eq_done.mp h
    rw [heads, Nat.one_mul, List.length_map]
    · exact length_keyCombinations_le htables
    all_goals simp
  | element shape s =>
    have hheads : (element shape).heads s = 1 := by simp [heads]
    rw [hheads, Nat.one_mul]
    by_cases hexpanding : (shape.typeRef.any fun name => s.isExpanding (typeToken name)) = true
    · rw [casesWith_element_expanding hexpanding] at h
      cases h
      exact hlimit
    · cases hr : s.resolveType shape with
      | error e =>
        rw [casesWith_element_error hexpanding hr] at h
        cases h
      | ok r =>
        obtain ⟨full, inner⟩ := r
        obtain ⟨trail, -, -, rfl⟩ := Scope.resolveType_eq_ok_iff.mp hr
        rw [casesWith_element hexpanding hr] at h
        obtain ⟨tables, -, h⟩ := Outcome.bind_eq_done.mp h
        obtain ⟨choices, -, h⟩ := Outcome.bind_eq_done.mp h
        exact length_elementCases_le (Outcome.ofExcept_eq_done_iff.mp h)
  | union ps s ih =>
    rw [casesWith] at h
    obtain ⟨lists, hlists, rfl⟩ := Outcome.map_eq_done.mp h
    rw [Outcome.collect_eq_done_iff, List.forall₂_map_left_iff] at hlists
    rw [heads, ← s.withEmpty_caseLimit]
    rw [← s.withEmpty_caseLimit] at hlimit
    exact length_flatten_le hlists fun q hq more hmore => ih q hq hlimit hmore
  | reference token s ih =>
    rw [casesWith] at h
    split at h
    · rename_i hexpanding
      cases h
      rw [heads, if_pos hexpanding, Nat.one_mul]
      exact hlimit
    · rename_i hexpanding
      split at h
      · cases h
      · rename_i q inner hf
        have hinner : inner.caseLimit = s.caseLimit := by
          obtain ⟨trail, -, -, -, rfl⟩ := Scope.follow_eq_ok_iff.mp hf
          rfl
        rw [heads_reference hexpanding hf, ← hinner]
        exact ih q inner hf (hinner ▸ hlimit) h
  | list item s ih =>
    rw [casesWith] at h
    obtain ⟨more, hmore, rfl⟩ := Outcome.map_eq_done.mp h
    rw [heads, List.length_map]
    exact ih hlimit hmore

/-- There are no more cases than the limit allows for each of the patterns that a pattern comes down to,
so no more than the limit where that is one pattern at most. -/
theorem length_cases_le (hlimit : 1 ≤ s.caseLimit) (h : p.cases row s = .done cs) :
    cs.length ≤ p.heads s * s.caseLimit ∧ (p.heads s ≤ 1 → cs.length ≤ s.caseLimit) := by
  obtain ⟨ofToken, hcases⟩ := exists_cases_eq p row s
  have hbound : cs.length ≤ p.heads s * s.caseLimit := length_casesWith_le hlimit (hcases ▸ h)
  refine ⟨hbound, fun hone => ?_⟩
  calc cs.length
    _ ≤ p.heads s * s.caseLimit := hbound
    _ ≤ 1 * s.caseLimit := Nat.mul_le_mul_right _ hone
    _ = s.caseLimit := Nat.one_mul _

theorem length_cases_le_chain :
    1 ≤ Chain.scope.caseLimit ∧
      Chain.node.cases [("name", "first")] (Chain.scope.below ["(Node)"]) =
        .done [record [("name", literal (.text "first"))] false,
          record [("name", literal (.text "first")), ("next?", reference "(Node)")] false] ∧
      Chain.node.heads (Chain.scope.below ["(Node)"]) = 1 ∧ 2 ≤ Chain.scope.caseLimit := by
  have hheads : Chain.node.heads (Chain.scope.below ["(Node)"]) = 1 := by
    rw [Chain.node, heads]
    all_goals simp
  have hlimit : 1 ≤ (Chain.scope.below ["(Node)"]).caseLimit := by decide
  exact ⟨hlimit, chain_cases, hheads,
    (length_cases_le hlimit chain_cases).2 (Nat.le_of_eq hheads)⟩

/-- Two alternatives have a case each, also where one case is the limit. -/
theorem not_length_cases_le :
    1 ≤ (Scope.ofDefinitions [] ⟨.strict, 256, 1⟩).caseLimit ∧
      (union [scalar .number, scalar .string]).cases [] (.ofDefinitions [] ⟨.strict, 256, 1⟩) =
        .done [scalar .number, scalar .string] ∧
      ¬[scalar .number, scalar .string].length ≤ (Scope.ofDefinitions [] ⟨.strict, 256, 1⟩).caseLimit := by
  obtain ⟨ofToken, hcases⟩ := exists_cases_eq (union [scalar .number, scalar .string]) []
    (.ofDefinitions [] ⟨.strict, 256, 1⟩)
  refine ⟨by decide, ?_, by decide⟩
  rw [hcases, casesWith]
  simp only [List.map_cons, List.map_nil, Outcome.collect]
  rw [casesWith, casesWith]
  rfl

end Pattern

end PayloadContracts
