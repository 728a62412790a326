import PayloadContracts.Matching.Keys
import PayloadContracts.Matching.Literal
import PayloadContracts.Matching.Sequence

/-!
Whether a value is one that a pattern describes, and which value an example text stands for.
-/

namespace PayloadContracts

/-- Reads text and checks the value; text that cannot be read does not match. -/
def checkReading (expected : String) (read : String → Except ContractError Value)
    (check : Value → Verdict) (text : String) : Verdict :=
  match read text with
  | .ok v => check v
  | .error _ => .mismatch expected (.text text)

/-- Checks a child in a place: text is read first, and an element has its own name on the way. -/
def checkChild (name : Option String) (expected : String) (checkText : String → Verdict)
    (check : Value → Verdict) (v : Value) : Verdict :=
  match name with
  | some name => (check v).under (.key name)
  | none =>
    match v with
    | .text s => checkText s
    | .node _ => .mismatch expected v
    | v => check v

/-- The first alternative that reads text as a value that it accepts. -/
def readUnion (text : String) :
    List ((String → Except ContractError Value) × (Value → Verdict)) → Option Value
  | [] => none
  | (read, check) :: rest =>
    match read text with
    | .ok v => if (check v).isAccepted then some v else readUnion text rest
    | .error _ => readUnion text rest

/-- An open record lets through what it does not declare. -/
def Scope.policyFor (s : Scope) (isOpen : Bool) : KeyPolicy := if isOpen then .permissive else s.policy

/-- Parts of a resolved shape are smaller than it, or lie in a scope with less headroom. -/
theorem Scope.part_measure {s inner : Scope} {shape full : Shape Pattern} {part : Pattern}
    (h : s.resolveType shape = .ok (full, inner)) (hp : sizeOf part < sizeOf full) :
    Prod.Lex (· < ·) (· < ·) (inner.withEmpty.headroom, sizeOf part)
      (s.headroom, sizeOf (Pattern.element shape)) := by
  rw [Scope.headroom_withEmpty]
  rcases Scope.resolveType_measure h with hlt | ⟨rfl, rfl⟩
  · exact Prod.Lex.left _ _ hlt
  · exact Prod.Lex.right _ (by simp; omega)

theorem Shape.sizeOf_attribute_lt {shape : Shape Pattern} {entry : String × Pattern}
    (h : entry ∈ shape.attributes) : sizeOf entry.2 < sizeOf shape := by
  have := Entries.sizeOf_snd_lt h
  have := shape.sizeOf_attributes_lt
  omega

theorem Shape.sizeOf_single_lt {shape : Shape Pattern} {child : Pattern}
    (h : child ∈ shape.children) : sizeOf child.single < sizeOf shape := by
  have := List.sizeOf_lt_of_mem h
  have := shape.sizeOf_children_lt
  have := child.sizeOf_single_le
  omega

namespace Pattern

mutual

/-- The value that an example text stands for. -/
def read (p : Pattern) (text : String) (s : Scope) : Except ContractError Value :=
  match p with
  | .literal v => v.read text
  | .scalar kind => kind.read text
  | .record .. => readObject text
  | .element shape => .error (elementText shape.typeName)
  | .union ps =>
    let alternatives :=
      ps.map fun q => (fun t => q.read t s.withEmpty, fun v => q.check v s.withEmpty)
    match readUnion text alternatives with
    | some v => .ok v
    | none =>
      .error (.format p.typeName
        ("Expected " ++ p.typeName ++ ", actual was \"" ++ text ++ "\""))
  | .list item => readItems ("list of " ++ item.typeName) text
  | .reference token =>
    match _h : s.follow (.reference token) with
    | .error e => .error e
    | .ok (q, inner) => q.read text inner
termination_by (s.headroom, sizeOf p)
decreasing_by
  · rename_i h
    rw [Scope.headroom_withEmpty]
    exact Prod.Lex.right _ (by have := List.sizeOf_lt_of_mem h; simp; omega)
  · rename_i h
    rw [Scope.headroom_withEmpty]
    exact Prod.Lex.right _ (by have := List.sizeOf_lt_of_mem h; simp; omega)
  · exact Prod.Lex.left _ _ (Scope.headroom_follow _h)

/-- Whether the pattern describes the value. -/
def check (p : Pattern) (v : Value) (s : Scope) : Verdict :=
  match p with
  | .literal expected => expected.check v
  | .scalar kind => kind.check v
  | .record fields isOpen =>
    match v with
    | .object parts =>
      checkKeys .field (s.policyFor isOpen)
        (fields.map fun field => (field.1, fun w => field.2.check w s.withEmpty)) parts
    | v => .mismatch "json object" v
  | .element shape =>
    match v with
    | .node n =>
      if n.name ≠ shape.name then
        .reject .mismatch ("Expected node named " ++ shape.name ++ ", actual was " ++ n.name)
      else
        match _h : s.resolveType shape with
        | .error e => .ofError e
        | .ok (full, inner) =>
          let attributes : Entries (String → Verdict) := full.attributes.attach.map fun entry =>
            (entry.1.1, checkReading entry.1.2.typeName
              (fun t => entry.1.2.read t inner.withEmpty) (fun w => entry.1.2.check w inner.withEmpty))
          let slots : List (Unit → Except ContractError (Slot (Value → Verdict))) :=
            full.children.attach.map fun child _ =>
              (inner.withEmpty.slot child.1).map fun slot =>
                { slot with
                  content := checkChild slot.name child.1.single.typeName
                    (checkReading child.1.single.typeName
                      (fun t => child.1.single.read t inner.withEmpty)
                      (fun w => child.1.single.check w inner.withEmpty))
                    (fun w => child.1.single.check w inner.withEmpty) }
          (checkKeys .attributes inner.policy (contentAttributes attributes)
            (contentAttributes n.attributes)).andThen fun _ =>
              match collect slots with
              | .error e => .ofError e
              | .ok slots => checkSlots slots (n.children.filter fun child => !child.isLayout)
    | v => .mismatch shape.typeName v
  | .union ps =>
    checkUnion v (.mismatch p.typeName v) (ps.map fun q => fun w => q.check w s.withEmpty)
  | .list item =>
    match v with
    | .list items => checkItems (fun w => item.check w s) 0 items
    | v => .mismatch "json array" v
  | .reference token =>
    match _h : s.follow (.reference token) with
    | .error e => .ofError e
    | .ok (q, inner) => q.check v inner
termination_by (s.headroom, sizeOf p)
decreasing_by
  · rename_i h
    rw [Scope.headroom_withEmpty]
    exact Prod.Lex.right _ (by have := Entries.sizeOf_snd_lt h; simp; omega)
  · exact Scope.part_measure _h (Shape.sizeOf_attribute_lt entry.2)
  · exact Scope.part_measure _h (Shape.sizeOf_attribute_lt entry.2)
  · exact Scope.part_measure _h (Shape.sizeOf_single_lt child.2)
  · exact Scope.part_measure _h (Shape.sizeOf_single_lt child.2)
  · exact Scope.part_measure _h (Shape.sizeOf_single_lt child.2)
  · rename_i h
    rw [Scope.headroom_withEmpty]
    exact Prod.Lex.right _ (by have := List.sizeOf_lt_of_mem h; simp; omega)
  · exact Prod.Lex.right _ (by simp)
  · exact Prod.Lex.left _ _ (Scope.headroom_follow _h)

end

/-- Reads text as the pattern does and checks the value. -/
def checkText (p : Pattern) (text : String) (s : Scope) : Verdict :=
  checkReading p.typeName (fun t => p.read t s) (fun v => p.check v s) text

end Pattern

end PayloadContracts
