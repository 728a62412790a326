import PayloadContracts.Pattern.Basic
import PayloadContracts.Value.Same

/-!
Equality of patterns: fields and attributes count without their order, and literal values as values do.
-/

namespace PayloadContracts.Pattern

def same : Pattern → Pattern → Bool
  | literal v, literal w => v.same w
  | scalar kind, scalar other => kind == other
  | record fields isOpen, record others othersOpen =>
    Entries.agree (fields.map fun field => (field.1, fun q => same field.2 q)) others &&
      isOpen == othersOpen
  | element shape, element other =>
    shape.name == other.name && shape.qualifier == other.qualifier &&
      Entries.agree (shape.attributes.map fun entry => (entry.1, fun q => same entry.2 q))
        other.attributes &&
      agree (shape.children.map fun child => fun q => same child q) other.children &&
      shape.occurs == other.occurs && shape.typeRef == other.typeRef
  | union ps, union qs => agree (ps.map fun p => fun q => same p q) qs
  | reference token, reference other => token == other
  | list item, list other => same item other
  | _, _ => false
termination_by p => sizeOf p
decreasing_by
  · rename_i h; have := Entries.sizeOf_snd_lt h; simp; omega
  · rename_i h
    have := Entries.sizeOf_snd_lt h
    have := shape.sizeOf_attributes_lt
    simp; omega
  · rename_i h
    have := List.sizeOf_lt_of_mem h
    have := shape.sizeOf_children_lt
    simp; omega
  · rename_i h; have := List.sizeOf_lt_of_mem h; simp; omega
  · simp

end PayloadContracts.Pattern
