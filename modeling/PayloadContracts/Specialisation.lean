import PayloadContracts.Combinations
import PayloadContracts.Comparison.Subsumes

/-!
The cases of a pattern that a row of example text allows.
-/

namespace PayloadContracts

/-- The message of an error about example text, without the field it names. -/
def ContractError.plainMessage (e : ContractError) : String :=
  match e.root with
  | .format _ message => message
  | other => other.message

namespace Pattern

/-- Literal example text pins a part to the value that the pattern of the part reads. -/
def pin (p : Pattern) (key text : String) (s : Scope) : Except ContractError (List Pattern) :=
  match p.read text s with
  | .error e => .error (.format key e.plainMessage)
  | .ok v =>
    match p.check v s with
    | .accepted => .ok [.literal v]
    | .rejected f =>
      .error (.misfit
        ("Example \"" ++ text ++ "\" for \"" ++ key ++ "\" does not match: " ++ f.message))

/-- The pattern of a token that is given as example text, which has to fit inside the pattern of the
part. -/
def narrow (p : Pattern) (key text : String) (s : Scope) : Except ContractError Pattern :=
  match s.lookup (Text.trim text) with
  | .error e => .error e
  | .ok q =>
    match p.subsumes q s s with
    | .accepted => .ok q
    | .rejected f =>
      .error (.misfit
        ("Example " ++ text ++ " for \"" ++ key ++ "\" does not fit " ++ p.typeName ++ ": " ++
          f.message))

/-- The text that is all of the content of an element. -/
def onlyText? : List Pattern → Option Pattern
  | [.element _] => none
  | [.list _] => none
  | [.reference _] => none
  | [p] => some p
  | _ => none

theorem mem_of_onlyText? {children : List Pattern} {p : Pattern} (h : onlyText? children = some p) :
    p ∈ children := by
  unfold onlyText? at h
  split at h <;> simp_all

theorem sizeOf_lt_of_onlyText? {shape : Shape Pattern} {p : Pattern}
    (h : onlyText? shape.children = some p) : sizeOf p < sizeOf shape := by
  have := List.sizeOf_lt_of_mem (mem_of_onlyText? h)
  have := shape.sizeOf_children_lt
  omega

/-- Example text named after a child element is the text of that element. -/
def bindsText (child : Pattern) (s : Scope) : Except ContractError Bool :=
  match s.follow child with
  | .error e => .error e
  | .ok (.element shape, inner) =>
    (inner.resolveType shape).map fun (full, _) => (onlyText? full.children).isSome
  | .ok _ => .ok false

/-- The cases for the place of a child; nothing stands for a child that is left out. -/
def childCases (child : Pattern) (row : Row) (s : Scope) (cases : Unit → Outcome (List Pattern)) :
    Outcome (List (Option Pattern)) :=
  (Outcome.ofExcept (s.slot child)).bind fun slot =>
    let bound : Except ContractError Bool :=
      match slot.name with
      | some name => if Entries.contains row name then bindsText child s else .ok false
      | none => .ok false
    (Outcome.ofExcept bound).bind fun bound =>
      (cases ()).map fun cases =>
        if slot.occurs == .optional then
          let present := cases.map fun p => some (p.withOccurs .required)
          if bound then present else none :: present
        else cases.map some

/-- Every attribute table with every selection of children, the attributes varying slowest. -/
def elementCases (shape : Shape Pattern) (limit : Nat) (attributeSets : List (Entries Pattern))
    (childCases : List (List (Option Pattern))) : Except ContractError (List Pattern) :=
  match productLength (childCases.map List.length) limit with
  | .error e => .error e
  | .ok _ =>
    let childSets := selections childCases
    match productLength [attributeSets.length, childSets.length] limit with
    | .error e => .error e
    | .ok _ =>
      .ok (attributeSets.flatMap fun attributes =>
        childSets.map fun children =>
          .element { shape with attributes, children := children.filterMap id, typeRef := none })

theorem cases_measure {a b x y : Nat} (h : a < b ∨ (a = b ∧ x < y)) :
    Prod.Lex (· < ·) (· < ·) (a, x) (b, y) := by
  rcases h with h | ⟨rfl, h⟩
  · exact Prod.Lex.left _ _ h
  · exact Prod.Lex.right _ h

theorem part_cases_measure {x : Nat} {s inner : Scope} {shape full : Shape Pattern}
    (h : s.resolveType shape = .ok (full, inner)) (hx : x < 2 * sizeOf full) :
    Prod.Lex (· < ·) (· < ·) (inner.withEmpty.headroom, x)
      (s.headroom, 2 * sizeOf (element shape)) := by
  have := Scope.headroom_withEmpty inner
  have : sizeOf (element shape) = 1 + sizeOf shape := by simp
  rcases Scope.resolveType_measure h with hlt | ⟨rfl, rfl⟩ <;> exact cases_measure (by omega)

section

variable (ofToken : Pattern → Scope → Outcome (List Pattern)) (row : Row)

mutual

/-- The cases of a part that the row may have text for under its name: a token takes the place of the
pattern of the part, other text pins it. The pattern of a token is worked on in the scope in which
the token was met. -/
def partCases (p : Pattern) (key : String) (s : Scope) : Outcome (List Pattern) :=
  match Entries.get? row key with
  | none => p.casesWith s
  | some text =>
    if Token.isToken text then
      match p.narrow key text s with
      | .error e => .failed e
      | .ok q => ofToken q s
    else .ofExcept (p.pin key text s)
termination_by (s.headroom, 2 * sizeOf p + 1)
decreasing_by exact cases_measure (by omega)

/-- The cases, given those of the patterns that tokens of the row put in the place of parts. -/
def casesWith (p : Pattern) (s : Scope) : Outcome (List Pattern) :=
  match p with
  | .literal _ | .scalar _ => .done [p]
  | .record fields isOpen =>
    let parts : Entries (Unit → Outcome (List Pattern)) := fields.map fun field =>
      (field.1, fun _ => field.2.partCases (KeyKind.field.canonical field.1) s.withEmpty)
    (keyCombinations parts row fieldMark s.caseLimit).map fun tables =>
      tables.map fun fields => .record fields isOpen
  | .element shape =>
    if shape.typeRef.any fun name => s.isExpanding (typeToken name) then .done [p]
    else
      match _h : s.resolveType shape with
      | .error e => .failed e
      | .ok (full, inner) =>
        let parts : Entries (Unit → Outcome (List Pattern)) := full.attributes.attach.map fun entry =>
          (entry.1.1, fun _ =>
            if isNamespace entry.1.1 then .done [entry.1.2]
            else entry.1.2.partCases (KeyKind.attributes.canonical entry.1.1) inner.withEmpty)
        (keyCombinations parts row attributeMark inner.caseLimit).bind fun attributeSets =>
          let children : Outcome (List (List (Option Pattern))) :=
            match _hc : onlyText? full.children, Entries.contains row shape.name with
            | some text, true =>
              (text.partCases shape.name inner.withEmpty).map fun cases => [cases.map some]
            | _, _ =>
              Outcome.collect (full.children.attach.zipIdx.map fun child _ =>
                (childCases child.1.1 row inner.withEmpty fun _ =>
                  child.1.1.casesWith inner.withEmpty).under (.index child.2))
          children.bind fun children =>
            .ofExcept (elementCases shape inner.caseLimit attributeSets children)
  | .union ps =>
    (Outcome.collect (ps.map fun q _ => q.casesWith s.withEmpty)).map List.flatten
  | .list item => (item.casesWith s).map fun cases => cases.map .list
  | .reference token =>
    if s.isExpanding token then .done [p]
    else
      match _h : s.follow (.reference token) with
      | .error e => .failed e
      | .ok (q, inner) => q.casesWith inner
termination_by (s.headroom, 2 * sizeOf p)
decreasing_by
  · rename_i h
    have := Entries.sizeOf_snd_lt h
    exact cases_measure (Or.inr ⟨by simp, by simp; omega⟩)
  · have := Shape.sizeOf_attribute_lt entry.2
    exact part_cases_measure _h (by omega)
  · have := sizeOf_lt_of_onlyText? _hc
    exact part_cases_measure _h (by omega)
  · have := List.sizeOf_lt_of_mem child.1.2
    have := full.sizeOf_children_lt
    exact part_cases_measure _h (by omega)
  · rename_i h
    have := List.sizeOf_lt_of_mem h
    exact cases_measure (Or.inr ⟨by simp, by simp; omega⟩)
  · exact cases_measure (Or.inr ⟨rfl, by simp⟩)
  · exact cases_measure (Or.inl (Scope.headroom_follow _h))

end

end

/-- The cases, as long as no more than the given number of tokens of the row take the place of
patterns one inside the other. -/
def casesWithin : Nat → Pattern → Row → Scope → Outcome (List Pattern)
  | 0, p, row, s => p.casesWith (fun _ _ => .endless) row s
  | tokens + 1, p, row, s => p.casesWith (fun q t => casesWithin tokens q row t) row s

/-- As many tokens as can take the place of each other and still come to an end: each of them once
in each scope, and in the scope in which absence has no token. -/
def tokenLimit (row : Row) (s : Scope) : Nat := 2 * row.length * (s.headroom + 1)

/-- All cases of the pattern that the row allows. Text of the row pins the part of its name, a token
narrows it, and other parts come in all their cases. Tokens that call for each other do so without
end. -/
def cases (p : Pattern) (row : Row) (s : Scope) : Outcome (List Pattern) :=
  p.casesWithin (tokenLimit row s) row s

end Pattern

end PayloadContracts
