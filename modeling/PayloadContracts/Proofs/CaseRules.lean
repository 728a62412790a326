import PayloadContracts.Proofs.Selections
import PayloadContracts.Specialisation

/-!
What the cases of a pattern are made of, one statement for each kind of pattern.
-/

namespace PayloadContracts.Pattern

variable {ofToken : Pattern → Scope → Outcome (List Pattern)} {row : Row} {p q S : Pattern}
  {s inner : Scope} {v : Value} {cs : List Pattern} {key text : String} {shape full : Shape Pattern}

theorem narrow_eq_ok_iff :
    p.narrow key text s = .ok q ↔
      s.lookup (Text.trim text) = .ok q ∧ p.subsumes q s s = .accepted := by
  constructor
  · intro h
    rw [narrow] at h
    split at h
    · cases h
    · rename_i q' hq
      split at h
      · rename_i hs
        cases h
        exact ⟨hq, hs⟩
      · cases h
  · rintro ⟨hq, hs⟩
    simp only [narrow, hq, hs]

theorem pin_eq_ok_iff :
    p.pin key text s = .ok cs ↔
      ∃ v, p.read text s = .ok v ∧ p.check v s = .accepted ∧ cs = [literal v] := by
  rw [pin]
  cases p.read text s with
  | error e => simp
  | ok v =>
    cases hc : p.check v s with
    | accepted => simp [hc, eq_comm]
    | rejected f => simp [hc]

theorem partCases_of_none (h : Entries.get? row key = none) :
    p.partCases ofToken row key s = p.casesWith ofToken row s := by
  rw [partCases, h]

theorem partCases_of_text (h : Entries.get? row key = some text)
    (ht : Token.isToken text = false) :
    p.partCases ofToken row key s = .ofExcept (p.pin key text s) := by
  simp only [partCases, h, ht, Bool.false_eq_true, if_false]

theorem partCases_of_isToken (h : Entries.get? row key = some text)
    (ht : Token.isToken text = true) :
    p.partCases ofToken row key s =
      (Outcome.ofExcept (p.narrow key text s)).bind fun q => ofToken q s := by
  simp only [partCases, h, ht, if_true]
  cases p.narrow key text s <;> rfl

theorem partCases_of_token (h : Entries.get? row key = some text)
    (ht : Token.isToken text = true) (hn : p.narrow key text s = .ok q) :
    p.partCases ofToken row key s = ofToken q s := by
  rw [partCases_of_isToken h ht, hn]
  rfl

theorem table_of_casesWith {fields : Entries Pattern} {isOpen : Bool}
    (h : (record fields isOpen).casesWith ofToken row s = .done cs) (hS : S ∈ cs) :
    ∃ tables table, keyCombinations (fields.map fun field => (field.1, fun _ =>
        field.2.partCases ofToken row (canonical field.1 fieldMark) s.withEmpty))
      row fieldMark s.caseLimit = .done tables ∧ table ∈ tables ∧ S = record table isOpen := by
  rw [casesWith] at h
  obtain ⟨tables, ht, rfl⟩ := Outcome.map_eq_done.mp h
  obtain ⟨table, hmem, rfl⟩ := List.mem_map.mp hS
  exact ⟨tables, table, ht, hmem, rfl⟩

theorem alternative_of_casesWith {ps : List Pattern} (h : (union ps).casesWith ofToken row s = .done cs)
    (hS : S ∈ cs) : ∃ q ∈ ps, ∃ more, q.casesWith ofToken row s.withEmpty = .done more ∧ S ∈ more := by
  rw [casesWith] at h
  obtain ⟨lists, hlists, rfl⟩ := Outcome.map_eq_done.mp h
  rw [Outcome.collect_eq_done_iff, List.forall₂_map_left_iff] at hlists
  obtain ⟨more, hmore, hS⟩ := List.mem_flatten.mp hS
  obtain ⟨q, hq, hdone⟩ := exists_of_forall₂_right hlists hmore
  exact ⟨q, hq, more, hdone, hS⟩

theorem item_of_casesWith {item : Pattern} (h : (list item).casesWith ofToken row s = .done cs)
    (hS : S ∈ cs) : ∃ more, item.casesWith ofToken row s = .done more ∧ ∃ T ∈ more, S = list T := by
  rw [casesWith] at h
  obtain ⟨more, hmore, rfl⟩ := Outcome.map_eq_done.mp h
  obtain ⟨T, hT, rfl⟩ := List.mem_map.mp hS
  exact ⟨more, hmore, T, hT, rfl⟩

theorem follow_of_casesWith {token : String}
    (h : (reference token).casesWith ofToken row s = .done cs) :
    cs = [reference token] ∨ ∃ q inner, s.follow (.reference token) = .ok (q, inner) ∧
      q.casesWith ofToken row inner = .done cs := by
  rw [casesWith] at h
  split at h
  · cases h
    exact .inl rfl
  · split at h
    · cases h
    · exact .inr ⟨_, _, ‹_›, h⟩

theorem casesWith_reference_error {token : String} {e : ContractError}
    (h : ¬s.isExpanding token = true) (hf : s.follow (.reference token) = .error e) :
    (reference token).casesWith ofToken row s = .failed e := by
  rw [casesWith, if_neg h]
  split
  · rename_i hf'
    cases hf.symm.trans hf'
    rfl
  · rename_i hf'
    cases hf.symm.trans hf'

theorem casesWith_reference {token : String} {r : Pattern × Scope}
    (h : ¬s.isExpanding token = true) (hf : s.follow (.reference token) = .ok r) :
    (reference token).casesWith ofToken row s = r.1.casesWith ofToken row r.2 := by
  rw [casesWith, if_neg h]
  split
  · rename_i hf'
    cases hf.symm.trans hf'
  · rename_i hf'
    cases hf.symm.trans hf'
    rfl

/-- The cases for the places of all children of an element. -/
def childrenCases (ofToken : Pattern → Scope → Outcome (List Pattern)) (row : Row) (name : String)
    (children : List Pattern) (s : Scope) : Outcome (List (List (Option Pattern))) :=
  match onlyText? children, Entries.contains row name with
  | some text, true => (text.partCases ofToken row name s).map fun cases => [cases.map some]
  | _, _ =>
    Outcome.collect (children.zipIdx.map fun child _ =>
      (childCases child.1 row s fun _ => child.1.casesWith ofToken row s).under (.index child.2))

theorem casesWith_element_expanding
    (h : (shape.typeRef.any fun name => s.isExpanding (typeToken name)) = true) :
    (element shape).casesWith ofToken row s = .done [element shape] := by
  rw [casesWith, if_pos h]

theorem casesWith_element_error {e : ContractError}
    (h : ¬(shape.typeRef.any fun name => s.isExpanding (typeToken name)) = true)
    (hr : s.resolveType shape = .error e) :
    (element shape).casesWith ofToken row s = .failed e := by
  rw [casesWith, if_neg h]
  split
  · rename_i hr'
    cases hr.symm.trans hr'
    rfl
  · rename_i hr'
    cases hr.symm.trans hr'

theorem casesWith_element
    (h : ¬(shape.typeRef.any fun name => s.isExpanding (typeToken name)) = true)
    (hr : s.resolveType shape = .ok (full, inner)) :
    (element shape).casesWith ofToken row s =
      (keyCombinations (full.attributes.map fun entry => (entry.1, fun _ =>
        if isNamespace entry.1 then .done [entry.2]
        else entry.2.partCases ofToken row (KeyKind.attributes.canonical entry.1) inner.withEmpty))
          row attributeMark inner.caseLimit).bind fun attributeSets =>
        (childrenCases ofToken row shape.name full.children inner.withEmpty).bind fun children =>
          .ofExcept (elementCases shape inner.caseLimit attributeSets children) := by
  rw [casesWith, if_neg h]
  split
  · rename_i hr'
    cases hr.symm.trans hr'
  · rename_i hr'
    cases hr.symm.trans hr'
    simp only [List.map_attach_eq_pmap, List.pmap_eq_map, childrenCases]
    congr
    funext attributeSets
    congr 1
    split
    · rename_i hc hrow
      simp only [hc, hrow]
    · rename_i hne
      split
      · rename_i hc hrow
        exact (hne _ hc hrow).elim
      · have hattach : full.children.zipIdx =
            full.children.attach.zipIdx.map fun child => (child.1.1, child.2) := by
          conv_lhs => rw [← List.attach_map_subtype_val full.children, List.zipIdx_map]
          rfl
        rw [hattach, List.map_map]
        rfl

/-- The cases of a child for which the row has nothing: one that may be left out is so in one of them,
and required in the others. -/
theorem childCases_eq_done {r : Outcome (List Pattern)} {options : List (Option Pattern)}
    (hrow : ∀ name, Entries.contains row name = false)
    (h : childCases p row s (fun _ => r) = .done options) :
    ∃ place cases, s.slot p = .ok place ∧ r = .done cases ∧
      ∀ choice ∈ options, (choice = none ∧ place.occurs = .optional) ∨
        ∃ S ∈ cases, choice = some S ∨ choice = some (S.withOccurs .required) := by
  obtain ⟨place, hplace, h⟩ := Outcome.bind_eq_done.mp h
  obtain ⟨bound, hbound, h⟩ := Outcome.bind_eq_done.mp h
  obtain ⟨cases, hcases, rfl⟩ := Outcome.map_eq_done.mp h
  have hfree : bound = false := by
    rw [Outcome.ofExcept_eq_done_iff] at hbound
    cases hname : place.name with
    | none => simpa [hname] using hbound.symm
    | some name => simpa [hname, hrow] using hbound.symm
  refine ⟨place, cases, Outcome.ofExcept_eq_done_iff.mp hplace, hcases, fun choice hchoice => ?_⟩
  rw [hfree] at hchoice
  split at hchoice
  · rename_i ho
    obtain rfl | hchoice := List.mem_cons.mp hchoice
    · exact .inl ⟨rfl, by simpa using ho⟩
    · obtain ⟨S, hS, rfl⟩ := List.mem_map.mp hchoice
      exact .inr ⟨S, hS, .inr rfl⟩
  · obtain ⟨S, hS, rfl⟩ := List.mem_map.mp hchoice
    exact .inr ⟨S, hS, .inl rfl⟩

theorem childrenCases_eq_done {children : List Pattern} {name : String}
    {choices : List (List (Option Pattern))} (hrow : ∀ name, Entries.contains row name = false)
    (h : childrenCases ofToken row name children s = .done choices) :
    List.Forall₂ (fun child options => childCases child row s (fun _ => child.casesWith ofToken row s) =
      .done options) children choices := by
  unfold childrenCases at h
  split at h
  · rename_i hcontains
    rw [hrow] at hcontains
    cases hcontains
  · rw [Outcome.collect_eq_done_iff, List.forall₂_map_left_iff] at h
    rw [← List.zipIdx_map_fst 0 children, List.forall₂_map_left_iff]
    exact h.imp fun child options hdone => Outcome.under_eq_done_iff.mp hdone

/-- A case of an element without a type has a table of attributes and one choice for each child. -/
theorem element_of_casesWith (hn : shape.typeRef = none)
    (h : (element shape).casesWith ofToken row s = .done cs) (hS : S ∈ cs) :
    ∃ tables attributes choices selection,
      keyCombinations (shape.attributes.map fun entry => (entry.1, fun _ =>
        if isNamespace entry.1 then .done [entry.2]
        else entry.2.partCases ofToken row (canonical entry.1 attributeMark) s.withEmpty))
          row attributeMark s.caseLimit = .done tables ∧ attributes ∈ tables ∧
      childrenCases ofToken row shape.name shape.children s.withEmpty = .done choices ∧
      List.Forall₂ (fun choice options => choice ∈ options) selection choices ∧
      S = element { shape with attributes, children := selection.filterMap id, typeRef := none } := by
  have hr : s.resolveType shape = .ok (shape, s) := by
    rw [Scope.resolveType, hn]
  rw [casesWith_element (by simp [hn]) hr] at h
  obtain ⟨tables, htables, h⟩ := Outcome.bind_eq_done.mp h
  obtain ⟨choices, hchoices, h⟩ := Outcome.bind_eq_done.mp h
  rw [Outcome.ofExcept_eq_done_iff, elementCases] at h
  split at h
  · cases h
  · dsimp only at h
    split at h
    · cases h
    · cases h
      obtain ⟨attributes, ha, hS⟩ := List.mem_flatMap.mp hS
      obtain ⟨selection, hselection, rfl⟩ := List.mem_map.mp hS
      exact ⟨tables, attributes, choices, selection, htables, ha, hchoices,
        mem_selections.mp hselection, rfl⟩

end PayloadContracts.Pattern
