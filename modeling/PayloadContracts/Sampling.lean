import PayloadContracts.Matching.Check

/-!
Sample values of patterns.
-/

namespace PayloadContracts

namespace Pattern

/-- A sample of the pattern would go once more into a name that is being expanded. -/
def reenters (p : Pattern) (s : Scope) : Bool :=
  match p with
  | .reference token => s.isExpanding token
  | .list item => item.reenters s
  | .union ps =>
    let live := (ps.map fun q => (q.isEmptyMarker, q.reenters s)).filter fun q => !q.1
    !live.isEmpty && live.all (·.2)
  | .element shape =>
    match shape.typeRef with
    | some name => s.isExpanding (typeToken name)
    | none => false
  | _ => false
termination_by sizeOf p

/-- The alternative to take a sample of: the first with content that does not go back into a name
being expanded, else absence, else the first. -/
def representative? (ps : List Pattern) (s : Scope) : Option Pattern :=
  (ps.find? fun p => !p.isEmptyMarker && !p.reenters s).orElse fun _ =>
    (ps.find? isEmptyMarker).orElse fun _ => ps.head?

theorem mem_of_representative? {ps : List Pattern} {s : Scope} {p : Pattern}
    (h : representative? ps s = some p) : p ∈ ps := by
  unfold representative? at h
  cases h₁ : ps.find? (fun p => !p.isEmptyMarker && !p.reenters s) with
  | some q =>
    simp only [h₁, Option.orElse_some, Option.some.injEq] at h
    exact h ▸ List.mem_of_find?_eq_some h₁
  | none =>
    cases h₂ : ps.find? isEmptyMarker with
    | some q =>
      simp only [h₁, h₂, Option.orElse_none, Option.orElse_some, Option.some.injEq] at h
      exact h ▸ List.mem_of_find?_eq_some h₂
    | none =>
      simp only [h₁, h₂, Option.orElse_none] at h
      exact List.mem_of_head? h

/-- A sample child: an element as it is, all else as text. -/
def asChild : Value → Value
  | .node n => .node n
  | v => .text v.toText

def locateUnder {α : Type} (name : Option String) (r : Except ContractError α) :
    Except ContractError α :=
  match name with
  | some name => locate (.key name) r
  | none => r

/-- One value that the pattern describes. Optional fields, optional children and items of lists are
left out where they would go back into a name being expanded. -/
def sample (p : Pattern) (s : Scope) : Except ContractError Value :=
  match p with
  | .literal v => .ok v
  | .scalar kind => .ok kind.sample
  | .record fields _ =>
    (collect (fields.map fun field _ =>
      if KeyKind.field.isOptional field.1 && field.2.reenters s.withEmpty then .ok []
      else
        let name := KeyKind.field.canonical field.1
        (locate (.key name) (field.2.sample s.withEmpty)).map fun v => [(name, v)])).map
      fun parts => .object (Entries.ofList parts.flatten)
  | .element shape =>
    match _h : s.resolveType shape with
    | .error e => .error e
    | .ok (full, inner) =>
      let attributes : List (Unit → Except ContractError (String × String)) :=
        full.attributes.attach.map fun entry _ =>
          let name := KeyKind.attributes.canonical entry.1.1
          (locate (.key name) (entry.1.2.sample inner.withEmpty)).map fun v => (name, v.toText)
      let children : List (Unit → Except ContractError (List Value)) :=
        full.children.attach.map fun child _ =>
          match inner.withEmpty.slot child.1 with
          | .error e => .error e
          | .ok slot =>
            if slot.occurs != .required && child.1.single.reenters inner.withEmpty then .ok []
            else
              (locateUnder slot.name (child.1.single.sample inner.withEmpty)).map fun v => [asChild v]
      match collect attributes with
      | .error e => .error e
      | .ok attributes =>
        (collect children).map fun children =>
          .node ⟨shape.name, shape.qualifier, Entries.ofList attributes, children.flatten⟩
  | .union ps =>
    match _h : representative? ps s.withEmpty with
    | some q => q.sample s.withEmpty
    | none => .error (.invalidPattern "a union needs at least one alternative")
  | .list item =>
    if item.reenters s then .ok (.list [])
    else (locate (.index 0) (item.sample s)).map fun v => .list [v]
  | .reference token =>
    match _h : s.follow (.reference token) with
    | .error e => .error e
    | .ok (q, inner) => q.sample inner
termination_by (s.headroom, sizeOf p)
decreasing_by
  · rename_i h _
    rw [Scope.headroom_withEmpty]
    exact Prod.Lex.right _ (by have := Entries.sizeOf_snd_lt h; simp; omega)
  · exact Scope.part_measure _h (Shape.sizeOf_attribute_lt entry.2)
  · exact Scope.part_measure _h (Shape.sizeOf_single_lt child.2)
  · rw [Scope.headroom_withEmpty]
    exact Prod.Lex.right _
      (by have := List.sizeOf_lt_of_mem (mem_of_representative? _h); simp; omega)
  · exact Prod.Lex.right _ (by simp)
  · exact Prod.Lex.left _ _ (Scope.headroom_follow _h)

end Pattern

end PayloadContracts
