import PayloadContracts.Proofs.Comparisons
import PayloadContracts.Proofs.Marks

/-!
The fields of two records that a comparison puts side by side. Main statement:
`Pattern.counterpart_named_alike`.

A name is looked up as it is spelled, then with one more mark, and then without its mark. A name that
has the mark itself and is not declared is so taken for one with two marks, which values call otherwise.
-/

namespace PayloadContracts

section Spellings

variable {α : Type} {kind : KeyKind} {entries : Entries α} {name key : String} {x : α}

/-- The spelling under which something is declared for a name. -/
def KeyKind.spelling? (kind : KeyKind) (entries : Entries α) (name : String) : Option String :=
  [name, name ++ kind.mark, kind.canonical name].find? (Entries.contains entries)

/-- The name is declared as it is spelled, or it has no mark, or nothing is declared for it under a name
that values call otherwise. -/
def KeyKind.Unmistakable (kind : KeyKind) (entries : Entries α) (name : String) : Prop :=
  name ∈ entries.names ∨ kind.isOptional name = false ∨
    name ++ kind.mark ∉ entries.names ∧
      (kind.isOptional (kind.canonical name) = true → kind.canonical name ∉ entries.names)

theorem declared?_eq_bind (kind : KeyKind) (entries : Entries α) (name : String) :
    kind.declared? entries name = (kind.spelling? entries name).bind (Entries.get? entries) := by
  simp only [KeyKind.declared?, KeyKind.spelling?, List.find?_cons, List.find?_nil, Entries.contains]
  cases hplain : Entries.get? entries name with
  | some _ => exact hplain.symm
  | none =>
    cases hmarked : Entries.get? entries (name ++ kind.mark) with
    | some _ => exact hmarked.symm
    | none =>
      cases hbare : Entries.get? entries (kind.canonical name) with
      | some _ => exact hbare.symm
      | none => rfl

theorem spelling?_eq_some_iff :
    kind.spelling? entries name = some key ↔
      (key = name ∧ name ∈ entries.names) ∨ name ∉ entries.names ∧
        ((key = name ++ kind.mark ∧ name ++ kind.mark ∈ entries.names) ∨
          name ++ kind.mark ∉ entries.names ∧
            key = kind.canonical name ∧ kind.canonical name ∈ entries.names) := by
  simp only [KeyKind.spelling?, List.find?_cons, List.find?_nil, ← Entries.contains_iff]
  cases Entries.contains entries name <;> cases Entries.contains entries (name ++ kind.mark) <;>
    cases Entries.contains entries (kind.canonical name) <;> simp [eq_comm]

theorem canonical_eq_self_iff {mark : String} (hmark : mark ≠ "") :
    canonical name mark = name ↔ isOptional name mark = false := by
  rw [canonical_eq_iff]
  constructor
  · rintro (⟨hplain, -⟩ | h)
    · exact hplain
    · exact absurd (String.append_eq_left_iff.mp h.symm) hmark
  · exact fun hplain => .inl ⟨hplain, rfl⟩

theorem KeyKind.Unmistakable.canonical_eq (h : kind.Unmistakable entries name)
    (hkey : kind.spelling? entries name = some key) : kind.canonical key = kind.canonical name := by
  obtain ⟨rfl, -⟩ | ⟨hname, ⟨rfl, hm⟩ | ⟨-, rfl, hbare⟩⟩ := spelling?_eq_some_iff.mp hkey
  · rfl
  · obtain h | hplain | ⟨h, -⟩ := h
    · exact absurd h hname
    · exact (canonical_append _ _).trans (canonical_of_not_optional hplain).symm
    · exact absurd hm h
  · obtain h | hplain | ⟨-, h⟩ := h
    · exact absurd h hname
    · exact congrArg kind.canonical (canonical_of_not_optional hplain)
    · exact canonical_of_not_optional (Bool.eq_false_iff.mpr fun ho => h ho hbare)

/-- What is found for a name is called the same in values just if the name is not mistaken for
another. -/
theorem canonical_spelling?_iff (hmark : kind.mark ≠ "") :
    (∀ key, kind.spelling? entries name = some key → kind.canonical key = kind.canonical name) ↔
      kind.Unmistakable entries name := by
  refine ⟨fun h => ?_, fun h _ => h.canonical_eq⟩
  simp only [spelling?_eq_some_iff] at h
  by_cases hname : name ∈ entries.names
  · exact .inl hname
  · cases ho : kind.isOptional name with
    | false => exact .inr (.inl ho)
    | true =>
      have hmarked : name ++ kind.mark ∉ entries.names := fun hm => by
        have hself := (h _ (.inr ⟨hname, .inl ⟨rfl, hm⟩⟩)).symm.trans (canonical_append _ _)
        cases ho.symm.trans ((canonical_eq_self_iff hmark).mp hself)
      refine .inr (.inr ⟨hmarked, fun hc hbare => ?_⟩)
      have hself := h _ (.inr ⟨hname, .inr ⟨hmarked, rfl, hbare⟩⟩)
      cases hc.symm.trans ((canonical_eq_self_iff hmark).mp hself)

theorem exists_get?_of_spelling? (h : kind.spelling? entries name = some key) :
    ∃ x, Entries.get? entries key = some x := by
  rw [KeyKind.spelling?] at h
  have hcontains : Entries.contains entries key = true := List.find?_some h
  exact Option.isSome_iff_exists.mp hcontains

theorem exists_declared?_of_canonical_eq (hkey : key ∈ entries.names)
    (h : kind.canonical key = kind.canonical name) : ∃ x, kind.declared? entries name = some x := by
  refine Option.ne_none_iff_exists'.mp (declared?_ne_none ?_)
  obtain ⟨-, hplain⟩ | hmarked := canonical_eq_iff.mp h
  · subst hplain
    exact .inl hkey
  · subst hmarked
    exact .inr hkey

/-- What is declared for a name that is not mistaken for another is declared under a name that values
call the same. -/
theorem KeyKind.Unmistakable.exists_mem (h : kind.Unmistakable entries name)
    (hx : kind.declared? entries name = some x) :
    ∃ key, (key, x) ∈ entries ∧ kind.canonical key = kind.canonical name := by
  rw [declared?_eq_bind] at hx
  obtain ⟨key, hkey, hget⟩ := Option.bind_eq_some_iff.mp hx
  exact ⟨key, Entries.mem_of_get? hget, h.canonical_eq hkey⟩

end Spellings

namespace Pattern

variable {fields others : Entries Pattern} {isOpen othersOpen : Bool} {s t : Scope}

theorem check_declared {parts : Entries Value} {w : Value}
    (h : (record fields isOpen).check (.object parts) s = .accepted) {field : String × Pattern}
    (hf : field ∈ fields) (hw : Entries.get? parts (canonical field.1 fieldMark) = some w) :
    field.2.check w s.withEmpty = .accepted := by
  obtain ⟨_, hparts, -, hchecks⟩ := check_record_eq_accepted.mp h
  cases hparts
  exact hchecks field hf w hw

theorem subsumes_declared (h : (record fields isOpen).subsumes (record others othersOpen) s t = .accepted)
    {field : String × Pattern} (hf : field ∈ fields) {q : Pattern}
    (hq : KeyKind.field.declared? others field.1 = some q) :
    field.2.subsumes q s.withEmpty t.withEmpty = .accepted := by
  rw [subsumes] at h
  exact (compareKeys_map_eq_accepted.mp h).2.2 field hf q hq

/-- A field is compared with something if the other record declares a field that values call the same.
This is what it is compared with, and what matching puts to the same part of an object, unless its name
is mistaken for another one. Then it is compared with a field that values call otherwise. -/
theorem counterpart_named_alike (isOpen othersOpen : Bool) (s t : Scope) {field : String × Pattern}
    (hf : field ∈ fields) :
    ((∃ other ∈ others, canonical other.1 fieldMark = canonical field.1 fieldMark) →
        ∃ q, KeyKind.field.declared? others field.1 = some q) ∧
      (KeyKind.field.Unmistakable others field.1 →
        ∀ q, KeyKind.field.declared? others field.1 = some q →
          ∃ key, (key, q) ∈ others ∧ canonical key fieldMark = canonical field.1 fieldMark ∧
            ((record fields isOpen).subsumes (record others othersOpen) s t = .accepted →
              field.2.subsumes q s.withEmpty t.withEmpty = .accepted) ∧
            ∀ parts w, Entries.get? parts (canonical field.1 fieldMark) = some w →
              ((record fields isOpen).check (.object parts) s = .accepted →
                field.2.check w s.withEmpty = .accepted) ∧
              ((record others othersOpen).check (.object parts) t = .accepted →
                q.check w t.withEmpty = .accepted)) ∧
      (¬KeyKind.field.Unmistakable others field.1 →
        ∃ key q, Entries.get? others key = some q ∧
          KeyKind.field.declared? others field.1 = some q ∧
          canonical key fieldMark ≠ canonical field.1 fieldMark) := by
  have hmark : KeyKind.field.mark ≠ "" := by decide
  refine ⟨?_, fun h q hq => ?_, fun h => ?_⟩
  · rintro ⟨other, hother, hname⟩
    exact exists_declared?_of_canonical_eq (Entries.mem_names hother) hname
  · obtain ⟨key, hkey, hname⟩ := h.exists_mem hq
    refine ⟨key, hkey, hname, fun hs => subsumes_declared hs hf hq, fun parts w hw => ⟨?_, ?_⟩⟩
    · exact fun hc => check_declared hc hf hw
    · exact fun hc => check_declared hc hkey ((congrArg (Entries.get? parts) hname).trans hw)
  · rw [← canonical_spelling?_iff hmark] at h
    push Not at h
    obtain ⟨key, hkey, hname⟩ := h
    obtain ⟨q, hq⟩ := exists_get?_of_spelling? hkey
    exact ⟨key, q, hq, by rw [declared?_eq_bind, hkey, Option.bind_some, hq], hname⟩

end Pattern

open Pattern

namespace Spellings

def scope : Scope := .ofDefinitions [] {}

def marked : Entries Pattern := [("age??", .scalar .number)]

/-- Has the same age, and a text under a name that is only almost the same. -/
def recorded : Entries Pattern := [("age?", .scalar .string), ("age??", .scalar .number)]

theorem declared?_recorded : KeyKind.field.declared? recorded "age??" = some (scalar .number) := rfl

end Spellings

open Spellings

theorem Pattern.counterpart_named_alike_ages :
    ("age??", scalar .number) ∈ marked ∧ KeyKind.field.Unmistakable recorded "age??" ∧
      ∃ key, (key, scalar .number) ∈ recorded ∧
        canonical key fieldMark = canonical "age??" fieldMark := by
  have hmem : ("age??", scalar .number) ∈ marked := List.mem_cons_self
  have hname : KeyKind.field.Unmistakable recorded "age??" := .inl (by decide)
  obtain ⟨key, hkey, hcanonical, -⟩ :=
    (counterpart_named_alike false false scope scope hmem).2.1 hname _ declared?_recorded
  exact ⟨hmem, hname, key, hkey, hcanonical⟩

namespace Spellings

/-- An age that may be left out. -/
def optional : Entries Pattern := [("age?", .scalar .number)]

/-- An age in words, and a number that is called `age?` in values. -/
def worded : Entries Pattern := [("age", .scalar .string), ("age??", .scalar .number)]

theorem optional_subsumes_worded :
    (record optional false).subsumes (record worded false) scope scope = .accepted := by
  rw [subsumes]
  refine compareKeys_map_eq_accepted.mpr ⟨by decide, fun _ => ⟨rfl, by decide⟩, ?_⟩
  intro field hf q hq
  cases List.mem_singleton.mp hf
  cases hq
  exact subsumes_scalar_self .number

theorem check_worded : (record worded false).check (.object [("age", .text "ten")]) scope = .accepted := by
  have htext : (scalar .string).check (.text "ten") scope.withEmpty = .accepted :=
    check_scalar_eq_accepted.mpr rfl
  have hage : canonical "age" fieldMark = "age" := by decide
  have hmarked : canonical "age??" fieldMark = "age?" := by decide
  refine check_record_eq_accepted.mpr ⟨_, rfl, by decide, ?_⟩
  simp [worded, hage, hmarked, Entries.get?_cons, htext]

end Spellings

/-- A field that may be left out is compared with one of two marks, although the other record declares
it without a mark. So texts are let through to where a number has to be. -/
theorem Pattern.not_counterpart_named_alike :
    (¬∀ (fields others : Entries Pattern), ∀ field ∈ fields, ∀ q,
      KeyKind.field.declared? others field.1 = some q →
        ∃ key, (key, q) ∈ others ∧ canonical key fieldMark = canonical field.1 fieldMark) ∧
    (record optional false).subsumes (record worded false) scope scope = .accepted ∧
    (record worded false).check (.object [("age", .text "ten")]) scope = .accepted ∧
    (record optional false).check (.object [("age", .text "ten")]) scope ≠ .accepted := by
  refine ⟨fun h => ?_, optional_subsumes_worded, check_worded, fun h => ?_⟩
  · obtain ⟨key, hkey, hname⟩ := h optional worded _ List.mem_cons_self (scalar .number) rfl
    obtain hkey | hkey := List.mem_pair.mp hkey
    · cases congrArg Prod.snd hkey
    · obtain rfl : key = "age??" := congrArg Prod.fst hkey
      exact absurd hname (by decide)
  · have hmem : ("age?", scalar .number) ∈ optional := List.mem_cons_self
    have hage := check_declared h hmem (w := .text "ten") rfl
    cases check_scalar_eq_accepted.mp hage

end PayloadContracts
