import PayloadContracts.Scope

/-!
The places for children in an element, seen through references.
-/

namespace PayloadContracts

/-- A place for children: how many it takes, the name of an element or none for text, and what is
known of one child in it. -/
structure Slot (α : Type) where
  occurs : Occurs
  name : Option String
  content : α

namespace Slot

variable {α β : Type}

def isText (slot : Slot α) : Bool := slot.name.isNone

/-- The child has the name that belongs here. -/
def accepts (slot : Slot α) (v : Value) : Bool :=
  match slot.name, v with
  | some name, .node n => n.name == name
  | some _, _ => false
  | none, .node _ => false
  | none, _ => true

def describe (slot : Slot α) : String :=
  match slot.name with
  | some name => "node " ++ name
  | none => "text"

/-- The verdict on a child as one on its element. -/
def under (slot : Slot α) (v : Verdict) : Verdict :=
  match slot.name with
  | some name => v.under (.key name)
  | none => v

/-- How many of the places directly after one of this name need a child of that name. -/
def reserved (name : Option String) (after : List (Slot α)) : Nat :=
  ((after.takeWhile (·.name == name)).filter (·.occurs == .required)).length

end Slot

/-- The pattern of one child where a list stands for many. -/
def Pattern.single : Pattern → Pattern
  | .list item => item
  | p => p

theorem Pattern.sizeOf_single_le (p : Pattern) : sizeOf p.single ≤ sizeOf p := by
  cases p <;> simp [single]

/-- The place that a child pattern describes. -/
def Scope.slot (s : Scope) (p : Pattern) : Except ContractError (Slot Pattern) :=
  match p with
  | .element shape => .ok ⟨shape.occurs, some shape.name, p⟩
  | .list item =>
    match s.slot item with
    | .error e => .error e
    | .ok inner => .ok ⟨.multiple, inner.name, item⟩
  | .reference token =>
    match _h : s.follow (.reference token) with
    | .error e => .error e
    | .ok (q, scope) =>
      match scope.slot q with
      | .error e => .error e
      | .ok inner => .ok ⟨inner.occurs, inner.name, p⟩
  | p => .ok ⟨.required, none, p⟩
termination_by (s.headroom, sizeOf p)
decreasing_by
  · right; simp
  · left; exact Scope.headroom_follow _h

theorem Scope.content_slot {s : Scope} {p : Pattern} {slot : Slot Pattern}
    (h : s.slot p = .ok slot) : slot.content = p.single := by
  unfold Scope.slot at h
  split at h
  · cases h; rfl
  · split at h <;> cases h; rfl
  · split at h
    · cases h
    · split at h <;> cases h; rfl
  · cases h
    rename_i hne _ _
    cases p <;> simp_all [Pattern.single]

def typeToken (name : String) : String := "(" ++ name ++ ")"

/-- A shape with the attributes and children of the type it names, if it names one. -/
def Scope.resolveType (s : Scope) (shape : Shape Pattern) : Except ContractError (Shape Pattern × Scope) :=
  match shape.typeRef with
  | none => .ok (shape, s)
  | some name =>
    match _h : s.follow (.reference (typeToken name)) with
    | .error e => .error e
    | .ok (.element other, inner) =>
      inner.resolveType
        { shape with
          attributes := Entries.extend shape.attributes other.attributes
          children := other.children
          typeRef := other.typeRef }
    | .ok (content, inner) => .ok ({ shape with children := [content], typeRef := none }, inner)
termination_by s.headroom
decreasing_by exact Scope.headroom_follow _h

/-- Resolving a type uses up headroom or leaves all as it is. -/
theorem Scope.resolveType_measure {s inner : Scope} {shape full : Shape Pattern}
    (h : s.resolveType shape = .ok (full, inner)) :
    inner.headroom < s.headroom ∨ (full = shape ∧ inner = s) := by
  fun_induction Scope.resolveType s shape with
  | case1 => cases h; exact Or.inr ⟨rfl, rfl⟩
  | case2 => cases h
  | case3 s shape name _ other next hf ih =>
    have := Scope.headroom_follow hf
    rcases ih h with hlt | ⟨_, heq⟩
    · exact Or.inl (Nat.lt_trans hlt this)
    · exact Or.inl (heq ▸ this)
  | case4 s shape name _ content next _ hf =>
    cases h
    exact Or.inl (Scope.headroom_follow hf)

end PayloadContracts
