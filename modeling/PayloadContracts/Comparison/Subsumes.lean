import PayloadContracts.Comparison.Keys
import PayloadContracts.Comparison.Sequence
import PayloadContracts.Matching.Check

/-!
Whether one pattern accepts every value that another accepts.
-/

namespace PayloadContracts

/-- Each pattern of the smaller side has to be taken by one of the alternatives. -/
def compareUnion (expected : String) (alternatives : List (Pattern → Verdict)) :
    List Pattern → Verdict
  | [] => .accepted
  | candidate :: rest =>
    if alternatives.any fun compare => (compare candidate).isAccepted then
      compareUnion expected alternatives rest
    else .reject .mismatch ("None of " ++ expected ++ " accepts " ++ candidate.typeName)

def unexpectedPattern (expected : String) (p : Pattern) : Verdict :=
  .reject .mismatch ("Expected " ++ expected ++ ", got " ++ p.typeName)

/-- Literal text on the smaller side is read as the bigger side reads it. -/
def compareText (checkText : String → Verdict) (compare : Pattern → Verdict) : Pattern → Verdict
  | .literal (.text t) => checkText t
  | p => compare p

/-- The scope in which a pair of references is compared: nothing if the pair is under comparison
already, and itself for all else. -/
def Scope.assumePair (s : Scope) : Pattern → Pattern → Option Scope
  | .reference b, .reference c => if s.isAssumed b c then none else some (s.assuming b c)
  | _, _ => some s

/-- As `assumePair`, for the type names of two elements. -/
def Scope.assumeTypes (s : Scope) : Option String → Option String → Option Scope
  | some b, some c => if s.isAssumed b c then none else some (s.assuming b c)
  | _, _ => some s

theorem Scope.headroom_assumePair {s s' : Scope} {p q : Pattern} (h : s.assumePair p q = some s') :
    s'.headroom = s.headroom := by
  unfold assumePair at h
  split at h
  · split at h <;> cases h; rfl
  · cases h; rfl

theorem Scope.headroom_assumeTypes {s s' : Scope} {b c : Option String}
    (h : s.assumeTypes b c = some s') : s'.headroom = s.headroom := by
  unfold assumeTypes at h
  split at h
  · split at h <;> cases h; rfl
  · cases h; rfl

namespace Pattern

theorem sizeOf_withOccurs (p : Pattern) (occurs : Occurs) : sizeOf (p.withOccurs occurs) = sizeOf p := by
  cases p <;> simp [withOccurs]
  rename_i shape
  cases shape
  rename_i o _
  cases o <;> cases occurs <;> simp

theorem measure_lt {a b x y z w : Nat} (h : a < b ∨ (a = b ∧ (x < y ∨ (x = y ∧ z < w)))) :
    Prod.Lex (· < ·) (Prod.Lex (· < ·) (· < ·)) (a, x, z) (b, y, w) := by
  rcases h with h | ⟨rfl, h | ⟨rfl, h⟩⟩
  · exact Prod.Lex.left _ _ h
  · exact Prod.Lex.right _ (Prod.Lex.left _ _ h)
  · exact Prod.Lex.right _ (Prod.Lex.right _ h)

/-- A part of an element is compared with less headroom, or is smaller than the element. -/
theorem element_measure {s s' t s₁ t₁ : Scope} {shape other full full' : Shape Pattern}
    {part : Nat} (ha : s.assumeTypes shape.typeRef other.typeRef = some s')
    (h : s'.resolveType shape = .ok (full, s₁)) (h' : t.resolveType other = .ok (full', t₁))
    (hp : part < sizeOf full) :
    s₁.withEmpty.headroom + t₁.withEmpty.headroom < s.headroom + t.headroom ∨
      (s₁.withEmpty.headroom + t₁.withEmpty.headroom = s.headroom + t.headroom ∧
        part < sizeOf (element shape)) := by
  have := Scope.headroom_assumeTypes ha
  have := Scope.headroom_withEmpty s₁
  have := Scope.headroom_withEmpty t₁
  rcases Scope.resolveType_measure h with hb | ⟨rfl, rfl⟩ <;>
    rcases Scope.resolveType_measure h' with hc | ⟨rfl, rfl⟩ <;> simp <;> omega

/-- Every value that `q` accepts in the scope `t` is accepted by `p` in the scope `s`. References
that are being compared already count as compared. -/
def subsumes (p q : Pattern) (s t : Scope) : Verdict :=
  match p, q with
  | .reference b, .reference c =>
    if s.isAssumed b c then .accepted
    else
      match _h : (s.assuming b c).follow (.reference b), _h' : t.follow (.reference c) with
      | .ok (p, s), .ok (q, t) => p.subsumes q s t
      | .error e, _ => .ofError e
      | _, .error e => .ofError e
  | .reference b, q =>
    match _h : s.follow (.reference b) with
    | .ok (p, s) => p.subsumes q s t
    | .error e => .ofError e
  | p, .reference c =>
    match _h : t.follow (.reference c) with
    | .ok (q, t) => p.subsumes q s t
    | .error e => .ofError e
  | .union ps, q =>
    compareUnion (union ps).typeName
      (ps.map fun p => fun candidate => p.subsumes candidate s.withEmpty t.withEmpty)
      (match q with
      | .union qs => qs
      | q => [q])
  | p, .union qs =>
    checkAll (fun verdict => verdict ()) (qs.map fun q => fun (_ : Unit) => p.subsumes q s t.withEmpty)
  | .literal expected, q =>
    match q with
    | .literal v => expected.check v
    | q => .reject .mismatch ("Expected exactly " ++ expected.quoted ++ ", got " ++ q.typeName)
  | .scalar kind, q =>
    match q with
    | .scalar other =>
      if kind.covers other then .accepted else unexpectedPattern kind.typeName (.scalar other)
    | .literal v => kind.check v
    | q => unexpectedPattern kind.typeName q
  | .record fields isOpen, q =>
    match q with
    | .literal (.object parts) => (record fields isOpen).check (.object parts) s.withEmpty
    | .record others othersOpen =>
      compareKeys .field (s.policyFor isOpen) othersOpen
        (fields.map fun field => (field.1, fun q => field.2.subsumes q s.withEmpty t.withEmpty)) others
    | q => unexpectedPattern "json object" q
  | .list item, q =>
    match q with
    | .list other => item.subsumes other s t
    | .literal (.list items) => (list item).check (.list items) s
    | q => unexpectedPattern ("list of " ++ item.typeName) q
  | .element shape, q =>
    match q with
    | .literal (.node n) => (element shape).check (.node n) s
    | .element other =>
      if !shape.occurs.admits other.occurs then
        .reject .structuralAlignment
          ("A " ++ shape.occurs.label ++ " node " ++ shape.name ++ " does not accept a " ++
            other.occurs.label ++ " node")
      else if shape.name ≠ other.name then
        .reject .mismatch ("Expected node named " ++ shape.name ++ ", got " ++ other.name)
      else
        match _ha : s.assumeTypes shape.typeRef other.typeRef with
        | none => .accepted
        | some s' =>
          match _h : s'.resolveType shape, _h' : t.resolveType other with
          | .ok (bigger, s₁), .ok (smaller, t₁) =>
            let attributes : Entries (Pattern → Verdict) := bigger.attributes.attach.map fun entry =>
              (entry.1.1, compareText (fun text => entry.1.2.checkText text s₁.withEmpty)
                (fun q => entry.1.2.subsumes q s₁.withEmpty t₁.withEmpty))
            let slots : List (Unit → Except ContractError (Slot (Pattern → Verdict))) :=
              bigger.children.attach.map fun child _ =>
                (s₁.withEmpty.slot child.1).map fun slot =>
                  { slot with
                    content := if slot.isText then
                      compareText (fun text => child.1.single.checkText text s₁.withEmpty)
                        (fun q => child.1.single.subsumes q s₁.withEmpty t₁.withEmpty)
                    else fun q =>
                      match _hp : s₁.withEmpty.assumePair child.1.single q with
                      | none => .accepted
                      | some s₂ =>
                        match _hb : s₂.follow child.1.single, _hc : t₁.withEmpty.follow q with
                        | .ok (b, s₃), .ok (c, t₃) =>
                          (b.withOccurs .required).subsumes (c.withOccurs .required) s₃ t₃
                        | .error e, _ => .ofError e
                        | _, .error e => .ofError e }
            (compareKeys .attributes s₁.policy false (contentAttributes attributes)
              (contentAttributes smaller.attributes)).andThen fun _ =>
                match collect slots, collect (smaller.children.map fun child _ => t₁.withEmpty.slot child) with
                | .ok slots, .ok others => compareSlots slots others
                | .error e, _ => .ofError e
                | _, .error e => .ofError e
          | .error e, _ => .ofError e
          | _, .error e => .ofError e
    | q => unexpectedPattern shape.typeName q
termination_by (s.headroom + t.headroom, sizeOf p, sizeOf q)
decreasing_by
  · have := Scope.headroom_follow _h
    have := Scope.headroom_follow _h'
    simp only [Scope.headroom_assuming] at *
    exact measure_lt (Or.inl (by omega))
  · have := Scope.headroom_follow _h
    exact measure_lt (Or.inl (by omega))
  · have := Scope.headroom_follow _h
    exact measure_lt (Or.inl (by omega))
  · rename_i h
    have := List.sizeOf_lt_of_mem h
    exact measure_lt (Or.inr ⟨by simp, Or.inl (by simp; omega)⟩)
  · rename_i h
    have := List.sizeOf_lt_of_mem h
    exact measure_lt (Or.inr ⟨by simp, Or.inr ⟨rfl, by simp; omega⟩⟩)
  · rename_i h
    have := Entries.sizeOf_snd_lt h
    exact measure_lt (Or.inr ⟨by simp, Or.inl (by simp; omega)⟩)
  · exact measure_lt (Or.inr ⟨rfl, Or.inl (by simp)⟩)
  · exact measure_lt ((element_measure _ha _h _h' (Shape.sizeOf_attribute_lt entry.2)).imp_right
      fun h => ⟨h.1, Or.inl h.2⟩)
  · exact measure_lt ((element_measure _ha _h _h' (Shape.sizeOf_single_lt child.2)).imp_right
      fun h => ⟨h.1, Or.inl h.2⟩)
  · have h := element_measure _ha _h _h' (Shape.sizeOf_single_lt child.2)
    have := Scope.headroom_assumePair _hp
    rw [sizeOf_withOccurs]
    rcases Scope.follow_measure _hb with hb | ⟨rfl, rfl⟩ <;>
      rcases Scope.follow_measure _hc with hc | ⟨rfl, rfl⟩ <;>
      exact measure_lt (by omega)

end Pattern

end PayloadContracts
