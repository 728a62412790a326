import Mathlib.Data.List.Nodup
import PayloadContracts.Keys
import PayloadContracts.Proofs.Equality
import PayloadContracts.Proofs.References

/-!
Conditions on a pattern and all its parts, and on all that a scope defines.
-/

namespace PayloadContracts

namespace Pattern

/-- The pattern and all its parts are as said. References are parts, but not what they stand for. -/
def Every (holds : Pattern → Prop) (p : Pattern) : Prop :=
  holds p ∧
    match p with
    | .record fields _ => ∀ field ∈ fields, Every holds field.2
    | .element shape =>
      (∀ entry ∈ shape.attributes, Every holds entry.2) ∧ ∀ child ∈ shape.children, Every holds child
    | .union ps => ∀ q ∈ ps, Every holds q
    | .list item => Every holds item
    | _ => True
termination_by sizeOf p
decreasing_by
  · rename_i h; have := Entries.sizeOf_snd_lt h; simp; omega
  · rename_i h
    have := Entries.sizeOf_snd_lt h
    have := shape.sizeOf_attributes_lt
    simp; omega
  · rename_i h
    have := List.sizeOf_lt_of_mem h
    have := shape.sizeOf_children_lt
    simp; omega
  · rename_i h; have := List.sizeOf_lt_of_mem h; simp; omega
  · simp

variable {holds more : Pattern → Prop} {p : Pattern} {shape : Shape Pattern}

theorem Every.self (h : p.Every holds) : holds p := by
  rw [Every.eq_def] at h
  exact h.1

theorem every_record {fields : Entries Pattern} {isOpen : Bool} :
    (record fields isOpen).Every holds ↔
      holds (record fields isOpen) ∧ ∀ field ∈ fields, field.2.Every holds := by
  rw [Every.eq_def]

theorem every_union {ps : List Pattern} :
    (union ps).Every holds ↔ holds (union ps) ∧ ∀ q ∈ ps, q.Every holds := by
  rw [Every.eq_def]

theorem every_list {item : Pattern} :
    (list item).Every holds ↔ holds (list item) ∧ item.Every holds := by
  rw [Every.eq_def]

theorem every_scalar {kind : Scalar} : (scalar kind).Every holds ↔ holds (scalar kind) := by
  rw [Every.eq_def, and_iff_left trivial]

theorem every_reference {token : String} :
    (reference token).Every holds ↔ holds (reference token) := by
  rw [Every.eq_def, and_iff_left trivial]

theorem every_element :
    (element shape).Every holds ↔
      holds (element shape) ∧ (∀ entry ∈ shape.attributes, entry.2.Every holds) ∧
        ∀ child ∈ shape.children, child.Every holds := by
  rw [Every.eq_def]

theorem every_literal {v : Value} : (literal v).Every holds ↔ holds (literal v) := by
  rw [Every.eq_def, and_iff_left trivial]

/-- Patterns have no parts, or fields, or attributes and children, or alternatives, or an item. -/
@[elab_as_elim]
theorem partsInduction {motive : Pattern → Prop}
    (literal : ∀ v, motive (literal v)) (scalar : ∀ kind, motive (scalar kind))
    (record : ∀ fields isOpen, (∀ field ∈ fields, motive field.2) → motive (record fields isOpen))
    (element : ∀ shape : Shape Pattern, (∀ entry ∈ shape.attributes, motive entry.2) →
      (∀ child ∈ shape.children, motive child) → motive (element shape))
    (union : ∀ ps, (∀ q ∈ ps, motive q) → motive (union ps))
    (reference : ∀ token, motive (reference token))
    (list : ∀ item, motive item → motive (list item)) (p : Pattern) : motive p :=
  match p with
  | .literal v => literal v
  | .scalar kind => scalar kind
  | .record fields isOpen =>
    record fields isOpen fun field _ =>
      partsInduction literal scalar record element union reference list field.2
  | .element shape =>
    element shape
      (fun entry _ => partsInduction literal scalar record element union reference list entry.2)
      fun child _ => partsInduction literal scalar record element union reference list child
  | .union ps =>
    union ps fun q _ => partsInduction literal scalar record element union reference list q
  | .reference token => reference token
  | .list item => list item (partsInduction literal scalar record element union reference list item)
termination_by sizeOf p
decreasing_by
  · rename_i h; have := Entries.sizeOf_snd_lt h; simp; omega
  · rename_i h
    have := Entries.sizeOf_snd_lt h
    have := shape.sizeOf_attributes_lt
    simp; omega
  · rename_i h
    have := List.sizeOf_lt_of_mem h
    have := shape.sizeOf_children_lt
    simp; omega
  · rename_i h; have := List.sizeOf_lt_of_mem h; simp; omega
  · simp

theorem Every.imp (himp : ∀ q : Pattern, holds q → more q) (h : p.Every holds) : p.Every more := by
  induction p using partsInduction with
  | literal v => exact every_literal.mpr (himp _ h.self)
  | scalar kind => exact every_scalar.mpr (himp _ h.self)
  | reference token => exact every_reference.mpr (himp _ h.self)
  | record fields isOpen ih =>
    have hfields := (every_record.mp h).2
    exact every_record.mpr ⟨himp _ h.self, fun field hf => ih field hf (hfields field hf)⟩
  | union ps ih =>
    have hps := (every_union.mp h).2
    exact every_union.mpr ⟨himp _ h.self, fun q hq => ih q hq (hps q hq)⟩
  | list item ih => exact every_list.mpr ⟨himp _ h.self, ih (every_list.mp h).2⟩
  | element shape ihAttributes ihChildren =>
    obtain ⟨-, hattributes, hchildren⟩ := every_element.mp h
    exact every_element.mpr ⟨himp _ h.self,
      fun entry he => ihAttributes entry he (hattributes entry he),
      fun child hc => ihChildren child hc (hchildren child hc)⟩

/-- Tokens spell nothing but patterns that are as said. -/
structure Spelled (holds : Pattern → Prop) : Prop where
  scalar : ∀ kind, holds (scalar kind)
  reference : ∀ token, holds (reference token)
  union : ∀ ps, holds (union ps)
  list : ∀ item, holds (list item)

theorem Spelled.and (h : Spelled holds) (h' : Spelled more) :
    Spelled fun p => holds p ∧ more p :=
  ⟨fun kind => ⟨h.scalar kind, h'.scalar kind⟩, fun token => ⟨h.reference token, h'.reference token⟩,
    fun ps => ⟨h.union ps, h'.union ps⟩, fun item => ⟨h.list item, h'.list item⟩⟩

theorem Spelled.ofReversed (h : Spelled holds) {cs : List Char}
    (hp : Token.ofReversed cs = some p) : p.Every holds := by
  induction cs generalizing p with
  | nil => cases hp
  | cons c rest ih =>
    rw [Token.ofReversed] at hp
    split at hp
    · exact ih hp
    · split at hp
      · obtain ⟨item, hitem, rfl⟩ := Option.map_eq_some_iff.mp hp
        exact every_list.mpr ⟨h.list item, ih hitem⟩
      · split at hp
        · obtain ⟨q, hq, rfl⟩ := Option.map_eq_some_iff.mp hp
          refine every_union.mpr ⟨h.union _, ?_⟩
          rintro r (_ | ⟨_, _ | ⟨_, hr⟩⟩)
          · exact every_reference.mpr (h.reference _)
          · exact ih hq
          · cases hr
        · cases hp
          unfold Token.ofName
          split
          · exact every_scalar.mpr (h.scalar _)
          · exact every_reference.mpr (h.reference _)

theorem Spelled.read? (h : Spelled holds) {text : String} (hp : Token.read? text = some p) :
    p.Every holds := by
  obtain ⟨cs, -, hcs⟩ := Option.bind_eq_some_iff.mp hp
  exact h.ofReversed hcs

/-- Describes JSON: no element, and literal values with each name once in each table. -/
def IsJson : Pattern → Prop
  | element _ => False
  | literal v => v.Tidy
  | _ => True

/-- Describes something else than elements. -/
def NoElement : Pattern → Prop
  | element _ => False
  | _ => True

/-- No two fields of a record are called the same in values. -/
def NamesApart : Pattern → Prop
  | record fields _ => ((Entries.names fields).map fun name => canonical name fieldMark).Nodup
  | _ => True

/-- Names of fields in values tell which fields they are. -/
theorem eq_of_canonical_eq {fields : Entries Pattern} {isOpen : Bool}
    (hn : (record fields isOpen).NamesApart) {field other : String × Pattern} (hf : field ∈ fields)
    (ho : other ∈ fields)
    (h : canonical field.1 fieldMark = canonical other.1 fieldMark) : field = other := by
  rw [NamesApart, Entries.names, List.map_map] at hn
  exact List.inj_on_of_nodup_map hn hf ho h

theorem distinct_of_namesApart {fields : Entries Pattern} {isOpen : Bool}
    (hn : (record fields isOpen).NamesApart) : Entries.Distinct fields :=
  List.Nodup.of_map _ hn

/-- No field of a record is marked twice. -/
def MarkedOnce : Pattern → Prop
  | record fields _ => ∀ field ∈ fields, isOptional (canonical field.1 fieldMark) fieldMark = false
  | _ => True

/-- A record lets through only what it declares. -/
def Closed : Pattern → Prop
  | record _ isOpen => isOpen = false
  | _ => True

/-- JSON that names its fields apart. -/
def IsUnambiguous (p : Pattern) : Prop := p.IsJson ∧ p.NamesApart

theorem spelled_isJson : Spelled IsJson :=
  ⟨fun _ => trivial, fun _ => trivial, fun _ => trivial, fun _ => trivial⟩

theorem spelled_noElement : Spelled NoElement :=
  ⟨fun _ => trivial, fun _ => trivial, fun _ => trivial, fun _ => trivial⟩

theorem spelled_namesApart : Spelled NamesApart :=
  ⟨fun _ => trivial, fun _ => trivial, fun _ => trivial, fun _ => trivial⟩

theorem spelled_markedOnce : Spelled MarkedOnce :=
  ⟨fun _ => trivial, fun _ => trivial, fun _ => trivial, fun _ => trivial⟩

theorem spelled_closed : Spelled Closed :=
  ⟨fun _ => trivial, fun _ => trivial, fun _ => trivial, fun _ => trivial⟩

theorem spelled_isUnambiguous : Spelled IsUnambiguous := spelled_isJson.and spelled_namesApart

end Pattern

namespace Scope

open Pattern

variable {holds : Pattern → Prop} {s t inner : Scope} {p q : Pattern}

/-- All that the scope defines is as said, in all its parts. -/
def Every (holds : Pattern → Prop) (s : Scope) : Prop :=
  ∀ entry ∈ s.definitions, entry.2.Every holds

theorem Every.congr (h : s.Every holds) (hd : t.definitions = s.definitions) : t.Every holds := by
  rwa [Every, hd]

theorem Every.imp {more : Pattern → Prop} (himp : ∀ q : Pattern, holds q → more q) (h : s.Every holds) :
    s.Every more :=
  fun entry he => (h entry he).imp himp

theorem Every.withEmpty (h : s.Every holds) (hh : Spelled holds) : s.withEmpty.Every holds := by
  unfold Scope.withEmpty
  split
  · exact h
  · intro entry he
    obtain he | he := List.mem_append.mp he
    · exact h entry he
    · obtain rfl := List.mem_singleton.mp he
      exact every_scalar.mpr (hh.scalar _)

theorem Every.lookup (h : s.Every holds) (hh : Spelled holds) {token : String}
    (hl : s.lookup token = .ok p) : p.Every holds := by
  unfold Scope.lookup at hl
  split at hl
  · cases hl
    rename_i hget
    exact h _ (Entries.mem_of_get? hget)
  · split at hl
    · split at hl
      · cases hl
      · cases hl
        exact every_reference.mpr (hh.reference _)
    · cases hl
      rename_i hread
      exact hh.read? hread
    · cases hl

theorem Every.leads (h : s.Every holds) (hh : Spelled holds) (hp : p.Every holds)
    {trail : List String} (hl : s.Leads p trail q) : q.Every holds := by
  induction hl with
  | stop => exact hp
  | hop hn _ ih => exact ih (h.lookup hh hn)

theorem Every.follow (h : s.Every holds) (hh : Spelled holds) (hp : p.Every holds)
    (hf : s.follow p = .ok (q, inner)) : q.Every holds ∧ inner.Every holds := by
  obtain ⟨trail, hl, -, -, rfl⟩ := follow_eq_ok_iff.mp hf
  exact ⟨h.leads hh hp hl, h.congr rfl⟩

end Scope

end PayloadContracts
