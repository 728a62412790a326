import PayloadContracts.Proofs.Derivations
import PayloadContracts.Proofs.Marks
import PayloadContracts.Proofs.Texts

/-!
Elements that have their children in places of different names: other elements, references to
elements, lists of such references, and plain text.
-/

namespace PayloadContracts

/-- What the elements of a kind of markup may have: the kinds of their texts, the names of their
attributes, and the names of their types. -/
structure Dialect where
  kind : Scalar → Prop
  key : String → Prop
  typeName : String → Prop

namespace Pattern

variable {d : Dialect} {s t : Scope} {p q : Pattern} {shape other full : Shape Pattern}
  {trail : List String} {token name : String}

/-- What has the name is an element, and the name is not that of a type. -/
def NamesElement (d : Dialect) (s : Scope) (token : String) : Prop :=
  ¬d.typeName token ∧ ∀ q, s.withEmpty.lookup token = .ok q → ∃ shape, q = element shape

/-- An element or a name of one. -/
inductive IsElement (d : Dialect) (s : Scope) : Pattern → Prop
  | element (shape : Shape Pattern) : IsElement d s (element shape)
  | reference {token : String} (h : NamesElement d s token) : IsElement d s (reference token)

/-- What may stand in an element. -/
inductive IsChild (d : Dialect) (s : Scope) : Pattern → Prop
  | one {p : Pattern} (h : IsElement d s p) : IsChild d s p
  | many {p : Pattern} (h : IsElement d s p) : IsChild d s (list p)
  | text {p : Pattern} (h : IsText d.kind s p) : IsChild d s p

/-- The element is as the dialect has it, and so is the content of its type. -/
structure IsMarkupShape (d : Dialect) (s : Scope) (shape : Shape Pattern) : Prop where
  attributes : ∀ entry ∈ shape.attributes, d.key entry.1 ∧ IsText d.kind s entry.2
  children : ∀ child ∈ shape.children, IsChild d s child
  apart : ∀ (u : Scope) places, u.definitions = s.withEmpty.definitions →
    List.Forall₂ (fun child place => u.slot child = .ok place) shape.children places →
      (places.map Slot.name).Nodup
  typeName : ∀ name, shape.typeRef = some name →
    d.typeName name ∧ ∀ q, s.withEmpty.lookup (typeToken name) = .ok q → IsChild d s q

/-- An element is as the dialect has it. -/
def IsMarkup (d : Dialect) (s : Scope) : Pattern → Prop
  | element shape => IsMarkupShape d s shape
  | _ => True

theorem spelled_isMarkup : Spelled (IsMarkup d s) :=
  ⟨fun _ => trivial, fun _ => trivial, fun _ => trivial, fun _ => trivial⟩

theorem every_withOccurs {occurs : Occurs} (h : (element shape).Every (IsMarkup d s)) :
    (element { shape with occurs }).Every (IsMarkup d s) := by
  obtain ⟨hshape, hparts⟩ := every_element.mp h
  exact every_element.mpr ⟨⟨hshape.attributes, hshape.children, hshape.apart, hshape.typeName⟩, hparts⟩

theorem NamesElement.leads (h : NamesElement d s token) (ht : s.Derives t)
    (hl : t.Leads (reference token) trail q) : ∃ shape, q = element shape := by
  cases hl with
  | stop hr => cases hr
  | hop hn rest =>
    obtain ⟨shape, rfl⟩ := h.2 _ (ht.lookup hn)
    cases rest with
    | stop => exact ⟨shape, rfl⟩

theorem IsElement.leads (h : IsElement d s p) (ht : s.Derives t) (hl : t.Leads p trail q) :
    ∃ shape, q = .element shape := by
  cases h with
  | element shape =>
    cases hl with
    | stop => exact ⟨shape, rfl⟩
  | reference h => exact h.leads ht hl

theorem IsElement.single_eq (h : IsElement d s p) : p.single = p := by
  cases h <;> rfl

theorem IsElement.single (h : IsElement d s p ∨ ∃ q, p = list q ∧ IsElement d s q) :
    IsElement d s p.single := by
  obtain h | ⟨q, rfl, h⟩ := h
  · rwa [h.single_eq]
  · exact h

/-- A chain of references from a child on ends at an element or at the child itself. -/
theorem IsChild.leads (h : IsChild d s p) (ht : s.Derives t) (hl : t.Leads p trail q) :
    (∃ shape, q = .element shape) ∨ q = p := by
  have hself : p.isReference = false → q = p := by
    intro hp
    cases hl with
    | stop => rfl
    | hop => cases hp
  cases h with
  | one h => exact .inl (h.leads ht hl)
  | many => exact .inr (hself rfl)
  | text h => exact .inr (hself h.isReference_eq_false)

theorem IsMarkupShape.content (h : IsMarkupShape d s shape) (ht : s.Derives t)
    (hn : shape.typeRef = some name) (hl : t.Leads (reference (typeToken name)) trail q)
    (hq : ∀ other, q ≠ element other) : IsChild d s q := by
  cases hl with
  | stop hr => cases hr
  | hop hlookup rest =>
    have hchild := (h.typeName name hn).2 _ (ht.lookup hlookup)
    obtain ⟨other, rfl⟩ | rfl := hchild.leads ht rest
    · exact absurd rfl (hq other)
    · exact hchild

/-- Types bring what the dialect has. -/
theorem IsMarkupShape.resolves (h : IsMarkupShape d s shape) (hs : t.Every (IsMarkup d s))
    (ht : s.Derives t) (hr : t.Resolves shape trail full) : IsMarkupShape d s full := by
  induction hr with
  | plain => exact h
  | element hn hl _ ih =>
    have hother : IsMarkupShape d s _ :=
      (hs.leads spelled_isMarkup (every_reference.mpr trivial) hl).self
    refine ih ⟨fun entry he => ?_, hother.children, hother.apart, hother.typeName⟩
    exact (Entries.mem_of_mem_extend he).elim (h.attributes entry) (hother.attributes entry)
  | content hn hl hc =>
    refine ⟨h.attributes, fun child hchild => ?_, fun u places _ hplaces => ?_, by simp [Shape.holding]⟩
    · obtain rfl := List.mem_singleton.mp hchild
      exact h.content ht hn hl hc
    · cases hplaces with
      | cons _ hnil =>
        cases hnil
        simp

theorem IsText.slot {kinds : Scalar → Prop} {u : Scope} (h : IsText kinds s p) :
    u.slot p = .ok ⟨.required, none, p⟩ := by
  cases h with
  | literal text => rw [Scope.slot] <;> simp
  | choice hp h =>
    cases p with
    | reference => cases hp
    | element | list =>
      obtain ⟨kind, -, hk⟩ := h _ List.mem_cons_self
      cases hk
    | _ => rw [Scope.slot] <;> simp

/-- The place of an element or of a list of elements is for elements of a name that its content leads
to. -/
theorem IsElement.place {u : Scope} {child : Pattern} {place : Slot Pattern}
    (h : IsElement d s child ∨ ∃ p, child = list p ∧ IsElement d s p) (hu : s.Derives u)
    (hs : u.slot child = .ok place) :
    ∃ shape trail, place.name = some shape.name ∧ IsElement d s place.content ∧
      u.Leads place.content trail (.element shape) := by
  have hone : ∀ {p : Pattern} {place : Slot Pattern}, IsElement d s p → u.slot p = .ok place →
      ∃ shape trail, place.name = some shape.name ∧ u.Leads p trail (.element shape) := by
    intro p place h hs
    cases h with
    | element shape =>
      rw [Scope.slot] at hs
      cases hs
      exact ⟨shape, [], rfl, .stop rfl⟩
    | reference h =>
      rw [Scope.slot] at hs
      split at hs
      · cases hs
      · rename_i q inner hf
        obtain ⟨trail, hl, -⟩ := Scope.follow_eq_ok_iff.mp hf
        obtain ⟨shape, rfl⟩ := h.leads hu hl
        rw [Scope.slot] at hs
        cases hs
        exact ⟨shape, trail, rfl, hl⟩
  rw [Scope.content_slot hs]
  obtain h | ⟨p, rfl, h⟩ := h
  · obtain ⟨shape, trail, hname, hl⟩ := hone h hs
    rw [h.single_eq]
    exact ⟨shape, trail, hname, h, hl⟩
  · rw [Scope.slot] at hs
    cases hitem : u.slot p with
    | error e => simp [hitem] at hs
    | ok item =>
      rw [hitem] at hs
      cases hs
      obtain ⟨shape, trail, hname, hl⟩ := hone h hitem
      exact ⟨shape, trail, hname, h, hl⟩

/-- A place is one for text, or for elements of a name that its content leads to. -/
theorem IsChild.place {u : Scope} {place : Slot Pattern} (h : IsChild d s p) (hu : s.Derives u)
    (hs : u.slot p = .ok place) :
    (place.name = none ∧ IsText d.kind s place.content) ∨
      ∃ shape trail, place.name = some shape.name ∧ IsElement d s place.content ∧
        u.Leads place.content trail (.element shape) := by
  cases h with
  | one h => exact .inr (IsElement.place (.inl h) hu hs)
  | many h => exact .inr (IsElement.place (.inr ⟨_, rfl, h⟩) hu hs)
  | text h =>
    rw [h.slot] at hs
    cases hs
    exact .inl ⟨rfl, h⟩

/-- A child that is all right in a place belongs there. -/
theorem IsChild.accepts {u w : Scope} {child : Pattern} {place : Slot Pattern} {v : Value}
    (h : IsChild d s child) (hu : s.Derives u) (hs : u.slot child = .ok place)
    (hd : w.definitions = u.definitions) (hc : (w.placeCheck place).content v = .accepted) :
    place.accepts v = true := by
  refine accepts_of_placeCheck hd ?_ hc
  obtain ⟨hname, -⟩ | ⟨shape, trail, hname, -, hl⟩ := h.place hu hs
  · exact .inl hname
  · exact .inr ⟨shape, trail, hname, hl⟩

end Pattern

end PayloadContracts
