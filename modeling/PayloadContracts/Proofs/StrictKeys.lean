import PayloadContracts.Proofs.Acceptance
import PayloadContracts.Proofs.Marks
import PayloadContracts.Proofs.Tables

/-!
What a strict check of names leaves unchecked. Main statement: `Pattern.field_of_checked_key`.

Names are declared with or without the mark, and what is declared under either spelling is let through.
Parts, though, are looked up without the mark, so a part that is spelled with the mark itself is checked
only where its name is declared with a second mark.
-/

namespace PayloadContracts

section Keys

variable {α : Type} {kind : KeyKind} {checks : Entries (α → Verdict)} {parts : Entries α}
  {name : String} {part : α}

theorem declared_of_checkKeys (h : checkKeys kind .strict checks parts = .accepted)
    (hget : Entries.get? parts name = some part) :
    name ∈ checks.names ∨ name ++ kind.mark ∈ checks.names :=
  (keyMismatch?_eq_none_iff.mp (checkKeys_eq_accepted.mp h).1).2 rfl name
    (Entries.mem_names_of_get? hget)

/-- An accepted part is one that some check has seen, but for a name with the mark that is not declared
with one more. -/
theorem seen_iff_of_checkKeys (h : checkKeys kind .strict checks parts = .accepted)
    (hget : Entries.get? parts name = some part) :
    (∃ entry ∈ checks, kind.canonical entry.1 = name ∧ entry.2 part = .accepted) ↔
      (kind.isOptional name = true → name ++ kind.mark ∈ checks.names) := by
  have hparts := (checkKeys_eq_accepted.mp h).2
  constructor
  · rintro ⟨entry, he, hname, -⟩ hmarked
    obtain ⟨hplain, rfl⟩ | hdouble := canonical_eq_iff.mp hname
    · cases hplain.symm.trans hmarked
    · exact hdouble ▸ Entries.mem_names he
  · intro hdouble
    obtain ⟨entry, he, hname⟩ : ∃ entry ∈ checks, kind.canonical entry.1 = name := by
      by_cases hmarked : kind.isOptional name = true
      · obtain ⟨entry, he, hentry⟩ := List.mem_map.mp (hdouble hmarked)
        exact ⟨entry, he, by rw [KeyKind.canonical, hentry, canonical_append]⟩
      · obtain hplain | hoptional := declared_of_checkKeys h hget
        · obtain ⟨entry, he, rfl⟩ := List.mem_map.mp hplain
          exact ⟨entry, he, canonical_of_not_optional (Bool.not_eq_true _ ▸ hmarked)⟩
        · obtain ⟨entry, he, hentry⟩ := List.mem_map.mp hoptional
          exact ⟨entry, he, by rw [KeyKind.canonical, hentry, canonical_append]⟩
    exact ⟨entry, he, hname, hparts entry he part (hname ▸ hget)⟩

/-- A part with a marked name that is not declared with one more mark can be anything. -/
theorem checkKeys_insert (h : checkKeys kind .strict checks parts = .accepted)
    (hget : Entries.get? parts name = some part) (hmarked : kind.isOptional name = true)
    (hdouble : name ++ kind.mark ∉ checks.names) (other : α) :
    checkKeys kind .strict checks (Entries.insert parts name other) = .accepted := by
  obtain ⟨hkeys, hparts⟩ := checkKeys_eq_accepted.mp h
  refine checkKeys_eq_accepted.mpr ⟨?_, fun entry he found hfound => ?_⟩
  · rwa [Entries.names_insert, if_pos (Entries.mem_names_of_get? hget)]
  · have hne : name ≠ kind.canonical entry.1 := fun hname => by
      obtain ⟨hplain, rfl⟩ | hentry := canonical_eq_iff.mp hname.symm
      · cases hplain.symm.trans hmarked
      · exact hdouble (hentry ▸ Entries.mem_names he)
    rw [Entries.get?_insert, if_neg hne] at hfound
    exact hparts entry he found hfound

end Keys

/-- Every attribute of an element that the strict check lets through is seen by the pattern declared for
it, unless its name has the mark itself and is not declared with one more mark. -/
theorem Shape.AllowsAttributes.seen_iff {full : Shape Pattern} {attributes : Entries String} {s : Scope}
    {name text : String} (hs : s.policy = .strict) (h : full.AllowsAttributes attributes s)
    (hget : Entries.get? (contentAttributes attributes) name = some text) :
    (∃ entry ∈ contentAttributes full.attributes, canonical entry.1 attributeMark = name ∧
        entry.2.checkText text s.withEmpty = .accepted) ↔
      (isOptional name attributeMark = true →
        name ++ attributeMark ∈ Entries.names (contentAttributes full.attributes)) := by
  have hchecks : checkKeys .attributes .strict
      ((contentAttributes full.attributes).map fun entry =>
        (entry.1, fun text => entry.2.checkText text s.withEmpty))
      (contentAttributes attributes) = .accepted := by
    refine checkKeys_eq_accepted.mpr ⟨?_, List.forall_mem_map.mpr h.texts⟩
    rw [Entries.names_map, ← hs]
    exact h.names
  have hseen := seen_iff_of_checkKeys hchecks hget
  simp only [List.mem_map, exists_exists_and_eq_and, Entries.names_map] at hseen
  exact hseen

namespace Pattern

variable {fields : Entries Pattern} {parts : Entries Value} {s : Scope} {name : String} {w : Value}

theorem check_strict_record (hs : s.policy = .strict) (parts : Entries Value) :
    (record fields false).check (.object parts) s =
      checkKeys .field .strict
        (fields.map fun field => (field.1, fun v => field.2.check v s.withEmpty)) parts := by
  rw [check, Scope.policyFor, hs]
  rfl

/-- Every key of an object that a closed record accepts is the name of a field that accepts the part
there, unless the key has the mark itself and is not declared with one more mark. Such a key is let
through with anything. -/
theorem field_of_checked_key (hs : s.policy = .strict)
    (h : (record fields false).check (.object parts) s = .accepted)
    (hget : Entries.get? parts name = some w) :
    ((∃ field ∈ fields, canonical field.1 fieldMark = name ∧
        field.2.check w s.withEmpty = .accepted) ↔
      (isOptional name fieldMark = true → name ++ fieldMark ∈ Entries.names fields)) ∧
    (isOptional name fieldMark = true → name ++ fieldMark ∉ Entries.names fields →
      name ∈ Entries.names fields ∧
        ∀ other, (record fields false).check (.object (Entries.insert parts name other)) s =
          .accepted) := by
  rw [check_strict_record hs] at h
  have hnames : Entries.names (fields.map fun field =>
      (field.1, fun v => field.2.check v s.withEmpty)) = Entries.names fields := Entries.names_map _ _
  have hseen := seen_iff_of_checkKeys h hget
  have hdeclared := declared_of_checkKeys h hget
  simp only [List.mem_map, exists_exists_and_eq_and, hnames] at hseen
  rw [hnames] at hdeclared
  refine ⟨hseen, fun hmarked hdouble => ⟨hdeclared.resolve_right hdouble, fun other => ?_⟩⟩
  rw [check_strict_record hs]
  exact checkKeys_insert h hget hmarked (hnames ▸ hdouble) other

end Pattern

namespace Note

open Pattern

/-- A note that may be left out. -/
def fields : Entries Pattern := [("note?", .scalar .string)]

/-- A note under its name, and no text under the name that the note is declared with. -/
def parts : Entries Value := [("note", .text "example"), ("note?", .null)]

def scope : Scope := .ofDefinitions [] {}

theorem check_parts : (record fields false).check (.object parts) scope = .accepted := by
  have htext : (scalar .string).check (.text "example") scope.withEmpty = .accepted :=
    check_scalar_eq_accepted.mpr rfl
  have hnote : canonical "note?" fieldMark = "note" := by decide
  refine check_record_eq_accepted.mpr ⟨parts, rfl, by decide, ?_⟩
  simp [fields, parts, hnote, Entries.get?_cons, htext]

end Note

theorem Pattern.field_of_checked_key_note :
    (∃ field ∈ Note.fields, canonical field.1 fieldMark = "note" ∧
      field.2.check (.text "example") Note.scope.withEmpty = .accepted) ∧
    ∀ other, (record Note.fields false).check (.object (Entries.insert Note.parts "note?" other))
      Note.scope = .accepted :=
  ⟨(field_of_checked_key rfl Note.check_parts (w := .text "example") rfl).1.mpr
    fun h => absurd h (by decide),
  ((field_of_checked_key rfl Note.check_parts (w := .null) rfl).2 (by decide) (by decide)).2⟩

/-- A key that is spelled as a field is declared, with the mark, is no field's name, and may hold what no
field accepts. -/
theorem Pattern.not_field_of_checked_key :
    ¬∀ (fields : Entries Pattern) (parts : Entries Value) (s : Scope), s.policy = .strict →
      (record fields false).check (.object parts) s = .accepted →
        ∀ name w, Entries.get? parts name = some w →
          ∃ field ∈ fields, canonical field.1 fieldMark = name ∧
            field.2.check w s.withEmpty = .accepted := by
  intro h
  obtain ⟨field, hf, hname, -⟩ := h Note.fields Note.parts Note.scope rfl Note.check_parts "note?" .null rfl
  cases List.mem_singleton.mp hf
  exact absurd hname (by decide)

end PayloadContracts
