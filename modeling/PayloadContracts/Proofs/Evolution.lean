import PayloadContracts.Proofs.Chain
import PayloadContracts.Proofs.Marks

/-!
Declared names before and after one more is declared, and how the two tables compare. Main statement:
`Pattern.evolution`.
-/

namespace PayloadContracts

variable {α : Type}

theorem Entries.get?_append_cons {front back : Entries α} {key name : String} {x : α}
    (h : name ≠ key) : get? (front ++ (key, x) :: back) name = get? (front ++ back) name := by
  rw [get?_append, get?_append, get?_cons, if_neg (Ne.symm h)]

theorem Entries.mem_names_append_cons {front back : Entries α} {key name : String} {x : α} :
    name ∈ names (front ++ (key, x) :: back) ↔ name = key ∨ name ∈ names (front ++ back) := by
  simp only [names, List.map_append, List.map_cons, List.mem_append, List.mem_cons]
  exact or_left_comm

/-- A name is declared in none of the spellings by which what is declared for it, or for the name with
the mark, is looked up. -/
structure Undeclared (kind : KeyKind) (entries : Entries α) (name : String) : Prop where
  plain : name ∉ entries.names
  marked : name ++ kind.mark ∉ entries.names
  markedTwice : name ++ kind.mark ++ kind.mark ∉ entries.names

namespace Undeclared

variable {kind : KeyKind} {entries : Entries α} {base name : String}

theorem declared?_eq_none (h : Undeclared kind entries base)
    (ho : isOptional base kind.mark = false) : kind.declared? entries base = none := by
  simp only [KeyKind.declared?, Option.orElse_eq_or, Option.or_eq_none_iff, Entries.get?_eq_none_iff]
  exact ⟨h.plain, h.marked, by rw [KeyKind.canonical, canonical_of_not_optional ho]; exact h.plain⟩

theorem declared?_mark_eq_none (h : Undeclared kind entries base) :
    kind.declared? entries (base ++ kind.mark) = none := by
  simp only [KeyKind.declared?, Option.orElse_eq_or, Option.or_eq_none_iff, Entries.get?_eq_none_iff]
  exact ⟨h.marked, h.markedTwice, by rw [KeyKind.canonical, canonical_append]; exact h.plain⟩

theorem canonical_ne (h : Undeclared kind entries base) (hn : name ∈ entries.names) :
    canonical name kind.mark ≠ base := by
  intro hc
  obtain ⟨-, rfl⟩ | rfl := canonical_eq_iff.mp hc
  · exact h.plain hn
  · exact h.marked hn

theorem canonical_ne_mark (h : Undeclared kind entries base) (hn : name ∈ entries.names) :
    canonical name kind.mark ≠ base ++ kind.mark := by
  intro hc
  obtain ⟨-, rfl⟩ | rfl := canonical_eq_iff.mp hc
  · exact h.marked hn
  · exact h.markedTwice hn

end Undeclared

section Tables

variable {kind : KeyKind} {policy : KeyPolicy} {isOpen : Bool} {front back : Entries Pattern}
  {compare : String × Pattern → Pattern → Verdict} {key name : String} {p : Pattern}

/-- One more entry is looked up only by a name that it is a spelling of. -/
theorem declared?_append_cons (hplain : name ≠ key) (hmarked : name ++ kind.mark ≠ key)
    (hcanonical : kind.canonical name ≠ key) :
    kind.declared? (front ++ (key, p) :: back) name = kind.declared? (front ++ back) name := by
  rw [KeyKind.declared?, KeyKind.declared?, Entries.get?_append_cons hplain,
    Entries.get?_append_cons hmarked, Entries.get?_append_cons hcanonical]

variable {base : String}

/-- A table with one more optional name compares to the table without it. -/
theorem compareKeys_add_optional (h : Undeclared kind (front ++ back) base)
    (hself : compareKeys kind policy isOpen
      ((front ++ back).map fun field => (field.1, compare field)) (front ++ back) = .accepted) :
    compareKeys kind policy isOpen
      ((front ++ (base ++ kind.mark, p) :: back).map fun field => (field.1, compare field))
      (front ++ back) = .accepted := by
  obtain ⟨-, hstrict, hparts⟩ := compareKeys_map_eq_accepted.mp hself
  refine compareKeys_map_eq_accepted.mpr ⟨fun name hname ho => ?_, fun hp => ?_, ?_⟩
  · obtain rfl | hname := Entries.mem_names_append_cons.mp hname
    · rw [isOptional_append] at ho
      cases ho
    · exact hname
  · refine ⟨(hstrict hp).1, fun name hname ho => declared?_ne_none (.inl ?_)⟩
    rw [canonical_of_not_optional ho]
    exact Entries.mem_names_append_cons.mpr (.inr hname)
  · intro field hf q hq
    obtain hfront | hadded | hback : field ∈ front ∨ field = (base ++ kind.mark, p) ∨ field ∈ back := by
      simpa using hf
    · exact hparts field (List.mem_append_left _ hfront) q hq
    · rw [hadded, h.declared?_mark_eq_none] at hq
      cases hq
    · exact hparts field (List.mem_append_right _ hback) q hq

/-- A table compares to the one with one more optional name. -/
theorem compareKeys_added_optional (h : Undeclared kind (front ++ back) base)
    (hself : compareKeys kind policy isOpen
      ((front ++ back).map fun field => (field.1, compare field)) (front ++ back) = .accepted) :
    compareKeys kind policy isOpen ((front ++ back).map fun field => (field.1, compare field))
      (front ++ (base ++ kind.mark, p) :: back) = .accepted := by
  obtain ⟨hrequired, hstrict, hparts⟩ := compareKeys_map_eq_accepted.mp hself
  refine compareKeys_map_eq_accepted.mpr ⟨fun name hname ho => ?_, fun hp => ?_, ?_⟩
  · exact Entries.mem_names_append_cons.mpr (.inr (hrequired name hname ho))
  · refine ⟨(hstrict hp).1, fun name hname ho => ?_⟩
    obtain rfl | hname := Entries.mem_names_append_cons.mp hname
    · rw [isOptional_append] at ho
      cases ho
    · exact (hstrict hp).2 name hname ho
  · intro field hf q hq
    have hname := Entries.mem_names hf
    have hplain : field.1 ≠ base ++ kind.mark := fun he => h.marked (he ▸ hname)
    have hmarked : field.1 ++ kind.mark ≠ base ++ kind.mark :=
      fun he => h.plain (String.append_left_inj kind.mark |>.mp he ▸ hname)
    rw [declared?_append_cons hplain hmarked (h.canonical_ne_mark hname)] at hq
    exact hparts field hf q hq

/-- A table with one more required name does not compare to the table without it. -/
theorem compareKeys_add_required (h : base ∉ Entries.names (front ++ back))
    (ho : isOptional base kind.mark = false) :
    compareKeys kind policy isOpen
      ((front ++ (base, p) :: back).map fun field => (field.1, compare field))
      (front ++ back) ≠ .accepted := by
  intro haccepted
  obtain ⟨hrequired, -, -⟩ := compareKeys_map_eq_accepted.mp haccepted
  exact h (hrequired base (Entries.mem_names_append_cons.mpr (.inl rfl)) ho)

/-- A table compares to the one with one more required name where unknown names are let through. -/
theorem compareKeys_added_required (h : Undeclared kind (front ++ back) base)
    (ho : isOptional base kind.mark = false)
    (hself : compareKeys kind policy isOpen
      ((front ++ back).map fun field => (field.1, compare field)) (front ++ back) = .accepted) :
    compareKeys kind policy isOpen ((front ++ back).map fun field => (field.1, compare field))
      (front ++ (base, p) :: back) = .accepted ↔ policy = .permissive := by
  obtain ⟨hrequired, -, hparts⟩ := compareKeys_map_eq_accepted.mp hself
  rw [compareKeys_map_eq_accepted]
  constructor
  · rintro ⟨-, hstrict, -⟩
    cases policy with
    | permissive => rfl
    | strict =>
      have hbase := (hstrict rfl).2 base (Entries.mem_names_append_cons.mpr (.inl rfl)) ho
      exact absurd (h.declared?_eq_none ho) hbase
  · rintro rfl
    refine ⟨fun name hname hn => ?_, nofun, fun field hf q hq => ?_⟩
    · exact Entries.mem_names_append_cons.mpr (.inr (hrequired name hname hn))
    · have hname := Entries.mem_names hf
      have hplain : field.1 ≠ base := fun he => h.plain (he ▸ hname)
      have hmarked : field.1 ++ kind.mark ≠ base := by
        rintro rfl
        rw [isOptional_append] at ho
        cases ho
      rw [declared?_append_cons hplain hmarked (h.canonical_ne hname)] at hq
      exact hparts field hf q hq

end Tables

namespace Pattern

variable {s t : Scope} {fields others : Entries Pattern} {isOpen othersOpen : Bool}

theorem subsumes_records :
    (record fields isOpen).subsumes (record others othersOpen) s t =
      compareKeys .field (s.policyFor isOpen) othersOpen
        (fields.map fun field => (field.1, fun r => field.2.subsumes r s.withEmpty t.withEmpty))
        others := by
  rw [subsumes]

/-- One more field and a record that subsumes itself. An optional one may come and go. A required one
may not come, and may go where the scope or the record lets unknown fields through. -/
theorem evolution (front back : Entries Pattern) (p : Pattern) {name : String}
    (hself : (record (front ++ back) isOpen).subsumes (record (front ++ back) isOpen) s s = .accepted)
    (ho : isOptional name fieldMark = false) (h : Undeclared .field (front ++ back) name) :
    ((record (front ++ (name ++ fieldMark, p) :: back) isOpen).subsumes
          (record (front ++ back) isOpen) s s = .accepted ∧
        (record (front ++ back) isOpen).subsumes
          (record (front ++ (name ++ fieldMark, p) :: back) isOpen) s s = .accepted) ∧
      (record (front ++ (name, p) :: back) isOpen).subsumes
        (record (front ++ back) isOpen) s s ≠ .accepted ∧
      ((record (front ++ back) isOpen).subsumes
          (record (front ++ (name, p) :: back) isOpen) s s = .accepted ↔
        s.policy = .permissive ∨ isOpen = true) := by
  have hpolicy : s.policyFor isOpen = .permissive ↔ s.policy = .permissive ∨ isOpen = true := by
    cases isOpen <;> simp [Scope.policyFor]
  simp only [subsumes_records] at hself ⊢
  refine ⟨⟨?_, ?_⟩, ?_, ?_⟩
  · exact compareKeys_add_optional h hself
  · exact compareKeys_added_optional h hself
  · exact compareKeys_add_required h.plain ho
  · rw [← hpolicy]
    exact compareKeys_added_required h ho hself

/-- The chain with an age between the name and the next node. -/
theorem evolution_chain :
    Chain.node.subsumes Chain.node Chain.scope Chain.scope = .accepted ∧
      isOptional "age" fieldMark = false ∧
      Undeclared .field ([("name", scalar .string)] ++ [("next?", reference "(Node)")]) "age" ∧
      ((record [("name", scalar .string), ("age?", scalar .number), ("next?", reference "(Node)")]
            false).subsumes Chain.node Chain.scope Chain.scope = .accepted ∧
          Chain.node.subsumes (record [("name", scalar .string), ("age?", scalar .number),
            ("next?", reference "(Node)")] false) Chain.scope Chain.scope = .accepted) ∧
        (record [("name", scalar .string), ("age", scalar .number), ("next?", reference "(Node)")]
          false).subsumes Chain.node Chain.scope Chain.scope ≠ .accepted ∧
        (Chain.node.subsumes (record [("name", scalar .string), ("age", scalar .number),
            ("next?", reference "(Node)")] false) Chain.scope Chain.scope = .accepted ↔
          Chain.scope.policy = .permissive ∨ false = true) := by
  have hknows : Chain.Knows Chain.scope.withEmpty := Chain.Knows.withEmpty (.inl rfl)
  have hself : Chain.node.subsumes Chain.node Chain.scope Chain.scope = .accepted :=
    Chain.node_subsumes_node (Chain.start_subsumes_start hknows hknows (by decide) (by decide))
  have hundeclared : Undeclared .field
      ([("name", scalar .string)] ++ [("next?", reference "(Node)")]) "age" :=
    ⟨by decide, by decide, by decide⟩
  have ho : isOptional "age" fieldMark = false := by decide
  exact ⟨hself, ho, hundeclared, evolution [("name", scalar .string)]
    [("next?", reference "(Node)")] (scalar .number) hself ho hundeclared⟩

end Pattern

end PayloadContracts
