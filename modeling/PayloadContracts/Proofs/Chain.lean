import PayloadContracts.Proofs.Comparisons
import PayloadContracts.Proofs.Parts

/-!
A scope with one recursive record: a node with a name and perhaps a next node.
-/

namespace PayloadContracts.Chain

open Pattern

def node : Pattern :=
  .record [("name", .scalar .string), ("next?", .reference "(Node)")] false

def scope : Scope := .ofDefinitions [("(Node)", node)] ⟨.strict, 8, 100⟩

/-- A node that is the last one. -/
def last : Value := .object [("name", .text "example")]

variable {s t : Scope} {holds : Pattern → Prop}

theorem every_node (hh : Spelled holds) (h : holds node) : node.Every holds := by
  refine every_record.mpr ⟨h, ?_⟩
  rintro field (_ | ⟨_, _ | ⟨_, hf⟩⟩)
  · exact every_scalar.mpr (hh.scalar _)
  · exact every_reference.mpr (hh.reference _)
  · cases hf

theorem every_scope (hh : Spelled holds) (h : holds node) : scope.Every holds := by
  rintro entry (_ | ⟨_, he⟩)
  · exact every_node hh h
  · cases he

theorem every_start (hh : Spelled holds) : (reference "(Node)").Every holds :=
  every_reference.mpr (hh.reference _)

/-- The scope has the chain, perhaps with the token of absent content. -/
def Knows (s : Scope) : Prop :=
  s.definitions = scope.definitions ∨ s.definitions = scope.withEmpty.definitions

theorem Knows.withEmpty (h : Knows s) : Knows s.withEmpty :=
  .inr (Scope.withEmpty_definitions_of_or h)

theorem lookup_node (h : Knows s) : s.lookup "(Node)" = .ok node := by
  obtain hd | hd := h <;> rw [Scope.lookup, hd] <;> rfl

theorem follow_node (hk : Knows s) (h : 0 < s.headroom) :
    s.follow (.reference "(Node)") = .ok (node, s.below ["(Node)"]) :=
  Scope.follow_eq_ok_iff.mpr ⟨["(Node)"], .hop (lookup_node hk) (.stop rfl),
    by simp, h, rfl⟩

theorem node_subsumes_node
    (h : (reference "(Node)").subsumes (reference "(Node)") s.withEmpty t.withEmpty = .accepted) :
    node.subsumes node s t = .accepted := by
  rw [node, subsumes]
  refine compareKeys_self (fun _ => rfl) (by unfold Entries.Distinct; decide) ?_
  rintro field (_ | ⟨_, _ | ⟨_, hf⟩⟩)
  · exact subsumes_scalar_self .string
  · exact h
  · cases hf

/-- Below the pair of references it is under comparison already. -/
theorem start_subsumes_start (hs : Knows s) (ht : Knows t) (hs' : 0 < s.headroom)
    (ht' : 0 < t.headroom) :
    (reference "(Node)").subsumes (reference "(Node)") s t = .accepted := by
  have hfollow : (s.assuming "(Node)" "(Node)").follow (.reference "(Node)") =
      .ok (node, (s.assuming "(Node)" "(Node)").below ["(Node)"]) := follow_node hs hs'
  refine subsumes_references.mpr (.inr ⟨_, _, _, _, hfollow, follow_node ht ht', ?_⟩)
  refine node_subsumes_node (subsumes_references.mpr (.inl ?_))
  rw [Scope.isAssumed, Scope.withEmpty_assumed]
  simp [Scope.below, Scope.assuming]

theorem namesApart_node : node.NamesApart := by
  unfold NamesApart node
  decide

theorem markedOnce_node : node.MarkedOnce := by
  rintro field (_ | ⟨_, _ | ⟨_, hf⟩⟩)
  · decide
  · decide
  · cases hf

theorem check_last : (reference "(Node)").check last scope = .accepted := by
  refine check_reference_eq_accepted.mpr ⟨node, _, follow_node (.inl rfl) (by decide), ?_⟩
  refine check_record_eq_accepted.mpr ⟨_, rfl, by decide, ?_⟩
  rintro field (_ | ⟨_, _ | ⟨_, hf⟩⟩) part hpart
  · cases hpart
    exact check_scalar_eq_accepted.mpr rfl
  · cases hpart
  · cases hf

end PayloadContracts.Chain
