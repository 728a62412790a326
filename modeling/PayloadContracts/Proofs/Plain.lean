import PayloadContracts.Proofs.Apart
import PayloadContracts.Proofs.Markup
import PayloadContracts.Proofs.Sources

/-!
Plain markup: an element has one text or elements only, texts are literal or of plain kinds, and no
two attributes are called the same in values.
-/

namespace PayloadContracts

/-- Texts of all kinds, attributes of all names, and references that name elements. -/
def Dialect.plain : Dialect := ⟨fun _ => True, fun _ => True, fun _ => False⟩

/-- The place is not left out of any sample or case: it needs a child, or is one for any number of
elements that are spelled out there without a type. -/
def Slot.IsKept (place : Slot Pattern) : Prop :=
  place.occurs = .required ∨
    place.occurs = .multiple ∧ ∃ shape, place.content = .element shape ∧ shape.typeRef = none

namespace Pattern

variable {arranged : List (Slot Pattern) → Prop} {s t u : Scope} {p : Pattern}
  {shape full : Shape Pattern} {trail : List String} {children : List Pattern} {v : Value}

/-- One text, or elements, names of elements and lists of them. -/
inductive IsPlainContent (s : Scope) : List Pattern → Prop
  | text {p : Pattern} (h : IsText (fun _ => True) s p) : IsPlainContent s [p]
  | elements {children : List Pattern} (h : ∀ child ∈ children, IsElement .plain s child ∨
      ∃ p, child = list p ∧ IsElement .plain s p) : IsPlainContent s children

/-- The element has plain texts and content, a type that is an element if it has one, places for
children that are arranged as said, and attributes that have names of their own once the types have
brought theirs. -/
structure IsPlainShape (arranged : List (Slot Pattern) → Prop) (s : Scope) (shape : Shape Pattern) :
    Prop where
  attributes : ∀ entry ∈ shape.attributes, IsText (fun _ => True) s entry.2
  content : IsPlainContent s shape.children
  places : ∀ (u : Scope) places, u.definitions = s.withEmpty.definitions →
    List.Forall₂ (fun child place => u.slot child = .ok place) shape.children places → arranged places
  typeName : ∀ name, shape.typeRef = some name → IsElement .plain s (reference (typeToken name))
  keys : ∀ trail full, s.withEmpty.Resolves shape trail full →
    ((Entries.names full.attributes).map fun name => canonical name attributeMark).Nodup

/-- An element is plain. -/
def IsPlain (arranged : List (Slot Pattern) → Prop) (s : Scope) : Pattern → Prop
  | element shape => IsPlainShape arranged s shape
  | _ => True

theorem spelled_isPlain : Spelled (IsPlain arranged s) :=
  ⟨fun _ => trivial, fun _ => trivial, fun _ => trivial, fun _ => trivial⟩

theorem IsPlainContent.text_or (h : IsPlainContent s children) :
    (∃ p, children = [p] ∧ IsText (fun _ => True) s p) ∨
      ∀ child ∈ children, IsElement .plain s child ∨ ∃ p, child = list p ∧ IsElement .plain s p := by
  cases h with
  | text h => exact .inl ⟨_, rfl, h⟩
  | elements h => exact .inr h

/-- Types bring what is plain. -/
theorem IsPlainShape.resolves (h : IsPlainShape arranged s shape) (hsolid : (element shape).Solid)
    (hs : t.Every (IsPlain arranged s)) (hs' : t.Every Solid) (ht : s.Derives t)
    (hr : t.Resolves shape trail full) :
    IsPlainShape arranged s full ∧ (element full).Solid ∧ full.typeRef = none := by
  induction hr with
  | plain hn => exact ⟨h, hsolid, hn⟩
  | element hn hl _ ih =>
    have hother : IsPlainShape arranged s _ :=
      (hs.leads spelled_isPlain (every_reference.mpr trivial) hl).self
    refine ih ⟨fun entry he => ?_, hother.content, hother.places, hother.typeName, ?_⟩
      (hs'.leads spelled_solid (every_reference.mpr trivial) hl).self
    · exact (Entries.mem_of_mem_extend he).elim (h.attributes entry) (hother.attributes entry)
    · exact fun trail full hr => h.keys _ full (.element hn (ht.leads hl) hr)
  | content hn hl hc =>
    obtain ⟨other, rfl⟩ := (h.typeName _ hn).leads ht hl
    exact absurd rfl (hc other)

/-- Attributes of a plain element that is complete have names of their own. -/
theorem IsPlainShape.nodup (h : IsPlainShape arranged s shape) (hn : shape.typeRef = none) :
    ((Entries.names shape.attributes).map fun name => canonical name attributeMark).Nodup :=
  h.keys [] shape (.plain hn)

end Pattern

end PayloadContracts
