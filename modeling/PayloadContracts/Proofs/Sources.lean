import PayloadContracts.Pattern.Source
import PayloadContracts.Proofs.Trimming
import PayloadContracts.Proofs.Types
import PayloadContracts.Proofs.Verdicts

/-!
Patterns that markup spells: literal text between elements is never blank. Main statement:
`Pattern.IsRead.every_solid`.
-/

namespace PayloadContracts

namespace Pattern

variable {holds : Pattern → Prop} {p : Pattern} {shape start : Shape Pattern}

/-- Markup spells the pattern. -/
def IsRead (p : Pattern) : Prop := ∃ n, ofNode n = .ok p

/-- No literal text in an element is blank. -/
def Solid : Pattern → Prop
  | element shape => ∀ text, literal (.text text) ∈ shape.children → Text.isBlankText text = false
  | _ => True

theorem spelled_solid : Spelled Solid :=
  ⟨fun _ => trivial, fun _ => trivial, fun _ => trivial, fun _ => trivial⟩

theorem every_ofText (hh : Spelled holds) (hl : ∀ v, holds (literal v)) (text : String) :
    (ofText text).Every holds := by
  cases hread : Token.read? text with
  | none =>
    rw [ofText, hread]
    exact every_literal.mpr (hl _)
  | some p =>
    rw [ofText, hread]
    exact hh.read? hread

theorem eq_of_ofText {text other : String} (h : ofText text = literal (.text other)) :
    other = text := by
  have hno : Spelled fun p => ∀ v, p ≠ literal v :=
    ⟨fun _ _ h => (by cases h), fun _ _ h => (by cases h), fun _ _ h => (by cases h),
      fun _ _ h => (by cases h)⟩
  cases hread : Token.read? text with
  | none =>
    rw [ofText, hread] at h
    cases h
    rfl
  | some p =>
    rw [ofText, hread] at h
    exact absurd h ((hno.read? hread).self _)

theorem every_of_addAttribute {name text : String} (hh : Spelled holds) (hl : ∀ v, holds (literal v))
    (h : addAttribute start name text = .ok shape)
    (hstart : ∀ entry ∈ start.attributes, entry.2.Every holds) :
    ∀ entry ∈ shape.attributes, entry.2.Every holds := by
  unfold addAttribute at h
  split at h
  · cases ho : Occurs.ofAttribute text <;> rw [ho] at h <;> cases h
    exact hstart
  · split at h
    · obtain rfl := Except.ok.inj h
      exact hstart
    · obtain rfl := Except.ok.inj h
      intro entry he
      obtain he | he := Entries.mem_of_mem_insert he
      · exact hstart entry he
      · simp only [he]
        exact every_ofText hh hl _

theorem every_of_addAttributes {entries : List (String × String)} (hh : Spelled holds)
    (hl : ∀ v, holds (literal v))
    (h : entries.foldlM (fun shape entry => addAttribute shape entry.1 entry.2) start = .ok shape)
    (hstart : ∀ entry ∈ start.attributes, entry.2.Every holds) :
    ∀ entry ∈ shape.attributes, entry.2.Every holds := by
  induction entries generalizing start with
  | nil =>
    cases h
    exact hstart
  | cons entry entries ih =>
    rw [List.foldlM_cons] at h
    cases hadd : addAttribute start entry.1 entry.2 with
    | error e =>
      rw [hadd] at h
      cases h
    | ok next =>
      rw [hadd] at h
      exact ih h (every_of_addAttribute hh hl hadd hstart)

/-- A pattern that markup spells is an element, with attributes and children that are spelled. -/
theorem eq_of_ofNode {n : Node Value} (h : ofNode n = .ok p) :
    ∃ shape children, p = element { shape with children := children.flatten } ∧
      n.attributes.foldlM (fun shape entry => addAttribute shape entry.1 entry.2)
        (⟨n.name, n.qualifier, [], [], .required, none⟩ : Shape Pattern) = .ok shape ∧
      List.Forall₂ (fun child ps => ofChild child = .ok ps) n.children children := by
  rw [ofNode] at h
  split at h
  · cases h
  · rename_i shape hshape
    cases hc : collect (n.children.map fun child _ => ofChild child) with
    | error e =>
      rw [hc] at h
      cases h
    | ok children =>
      rw [hc] at h
      rw [collect_eq_ok_iff, List.forall₂_map_left_iff] at hc
      exact ⟨shape, children, (Except.ok.inj h).symm, hshape, hc⟩

/-- What markup spells in the place of a child. -/
inductive Child : Value → List Pattern → Prop
  | node {n : Node Value} {p : Pattern} (h : ofNode n = .ok p) : Child (.node n) [p]
  | layout {text : String} (h : Text.isBlankText text = true) : Child (.text text) []
  | text {text : String} (h : Text.isBlankText text = false) :
    Child (.text text) [ofText (Text.trim text)]
  | other {v : Value} (h : ∀ text, v ≠ .text text) : Child v [literal v]

theorem child_of_ofChild {v : Value} {ps : List Pattern} (h : ofChild v = .ok ps) : Child v ps := by
  cases v with
  | node n =>
    rw [ofChild] at h
    cases hn : ofNode n with
    | error e =>
      rw [hn] at h
      cases h
    | ok p =>
      rw [hn] at h
      cases h
      exact .node hn
  | text text =>
    rw [ofChild] at h
    split at h
    · cases h
      exact .layout ‹_›
    · cases h
      rename_i hblank
      exact .text (by simpa using hblank)
  | _ =>
    rw [ofChild] at h
    · cases h
      exact .other fun _ hv => (by cases hv)
    all_goals simp

theorem Child.ne_blank {v : Value} {ps : List Pattern} {text : String} (h : Child v ps)
    (hmem : literal (.text text) ∈ ps) : Text.isBlankText text = false := by
  cases h with
  | node hn =>
    obtain ⟨shape, children, rfl, -⟩ := eq_of_ofNode hn
    cases List.mem_singleton.mp hmem
  | layout => cases hmem
  | @text other hblank =>
    rw [eq_of_ofText (List.mem_singleton.mp hmem).symm, Text.isBlankText_trim]
    exact hblank
  | other hne =>
    cases List.mem_singleton.mp hmem
    exact absurd rfl (hne text)

theorem every_solid_of_ofNode {p : Pattern} {n : Node Value} (h : ofNode n = .ok p) : p.Every Solid := by
  obtain ⟨shape, children, rfl, hattributes, hchildren⟩ := eq_of_ofNode h
  have hliteral : ∀ v, Solid (literal v) := fun _ => trivial
  refine every_element.mpr ⟨fun text hmem => ?_, ?_, fun child hmem => ?_⟩
  · obtain ⟨ps, hps, hmem⟩ := List.mem_flatten.mp hmem
    obtain ⟨v, -, hv⟩ := exists_of_forall₂_right hchildren hps
    exact (child_of_ofChild hv).ne_blank hmem
  · have hspelled := every_of_addAttributes spelled_solid hliteral hattributes (by simp)
    exact hspelled
  · obtain ⟨ps, hps, hmem⟩ := List.mem_flatten.mp hmem
    obtain ⟨v, _hv, hof⟩ := exists_of_forall₂_right hchildren hps
    cases child_of_ofChild hof with
    | node hn =>
      rw [List.mem_singleton.mp hmem]
      exact every_solid_of_ofNode hn
    | layout => cases hmem
    | text =>
      rw [List.mem_singleton.mp hmem]
      exact every_ofText spelled_solid hliteral _
    | other =>
      rw [List.mem_singleton.mp hmem]
      exact every_literal.mpr trivial
termination_by sizeOf n
decreasing_by
  have := List.sizeOf_lt_of_mem _hv
  have := n.sizeOf_children_lt
  simp at *
  omega

theorem IsRead.every_solid (h : p.IsRead) : p.Every Solid := every_solid_of_ofNode h.choose_spec

theorem IsRead.eq_element (h : p.IsRead) : ∃ shape, p = element shape := by
  obtain ⟨n, hn⟩ := h
  obtain ⟨shape, children, rfl, -⟩ := eq_of_ofNode hn
  exact ⟨_, rfl⟩

end Pattern

end PayloadContracts
