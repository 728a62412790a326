import PayloadContracts.Pattern.Token

/-!
Patterns as documents and elements spell them out.
-/

namespace PayloadContracts.Pattern

/-- The pattern of a token, or the text itself. -/
def ofText (text : String) : Pattern := (Token.read? text).getD (.literal (.text text))

/-- Texts may be tokens, an object is a record, a list holds the pattern of its items, and all else
stands for itself. -/
def ofJson : Json → Except ContractError Pattern
  | .text s => .ok (ofText s)
  | .list [item] => (locate (.index 0) (ofJson item)).map .list
  | .list items =>
    .error (.invalidPattern
      ("a list pattern holds exactly one item pattern, found " ++ toString items.length))
  | .object fields =>
    (collect (fields.map fun field _ =>
      (locate (.key field.1) (ofJson field.2)).map fun p => (field.1, p))).map ofFields
  | json => .ok (.literal (.ofJson json))
termination_by json => sizeOf json
decreasing_by
  · simp; omega
  · rename_i h; have := Entries.sizeOf_snd_lt h; simp; omega

/-- Takes up an attribute: two names speak about the element, all others are its own. -/
def addAttribute (shape : Shape Pattern) (name text : String) : Except ContractError (Shape Pattern) :=
  if name = occursAttribute then
    (Occurs.ofAttribute text).map fun occurs => { shape with occurs }
  else if name = typeAttribute then .ok { shape with typeRef := some (Text.trim text) }
  else
    .ok { shape with attributes := Entries.insert shape.attributes name (ofText (Text.trim text)) }

mutual

/-- The texts and attributes of an element may be tokens. -/
def ofNode (n : Node Value) : Except ContractError Pattern :=
  let start : Shape Pattern := ⟨n.name, n.qualifier, [], [], .required, none⟩
  match n.attributes.foldlM (fun shape entry => addAttribute shape entry.1 entry.2) start with
  | .error e => .error e
  | .ok shape =>
    (collect (n.children.map fun child _ => ofChild child)).map fun children =>
      .element { shape with children := children.flatten }
termination_by sizeOf n
decreasing_by
  rename_i h
  have := List.sizeOf_lt_of_mem h
  have := n.sizeOf_children_lt
  omega

/-- The pattern of a child, if it has content. -/
def ofChild : Value → Except ContractError (List Pattern)
  | .node inner => (locate (.key inner.name) (ofNode inner)).map fun p => [p]
  | .text s => .ok (if Text.isBlankText s then [] else [ofText (Text.trim s)])
  | v => .ok [.literal v]
termination_by v => sizeOf v

end

end PayloadContracts.Pattern
