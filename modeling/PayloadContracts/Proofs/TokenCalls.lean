import PayloadContracts.Proofs.Acceptance
import PayloadContracts.Proofs.CaseRules
import PayloadContracts.Proofs.Inquiry

/-!
Which patterns the work on cases calls for: those of tokens of the row, in scopes that names have been
entered in on the way.
-/

namespace PayloadContracts

namespace Scope

variable {s t u inner : Scope} {p q : Pattern}

/-- The second scope is reached from the first by entering names, and has the token of absent
content. -/
def Descends (s t : Scope) : Prop :=
  ∃ trail : List String, trail.length ≤ s.headroom ∧ t = (s.below trail).withEmpty

namespace Descends

theorem self_withEmpty (s : Scope) : s.Descends s.withEmpty :=
  ⟨[], Nat.zero_le _, by rw [below_nil]⟩

theorem of_withEmpty (h : s.withEmpty.Descends t) : s.Descends t := by
  obtain ⟨trail, hlen, rfl⟩ := h
  rw [headroom_withEmpty] at hlen
  exact ⟨trail, hlen, by rw [below_withEmpty, withEmpty_withEmpty]⟩

theorem of_below {trail : List String} (hlen : trail.length ≤ s.headroom)
    (h : (s.below trail).Descends t) : s.Descends t := by
  obtain ⟨more, hmore, rfl⟩ := h
  rw [headroom_below] at hmore
  refine ⟨trail ++ more, ?_, by rw [below_below]⟩
  rw [List.length_append]
  omega

theorem of_follow (hf : s.follow p = .ok (q, inner)) (h : inner.Descends t) : s.Descends t := by
  obtain ⟨trail, -, -, hlen, rfl⟩ := follow_eq_ok_iff.mp hf
  exact of_below hlen h

theorem of_resolveType {shape full : Shape Pattern} (hr : s.resolveType shape = .ok (full, inner))
    (h : inner.Descends t) : s.Descends t := by
  fun_induction Scope.resolveType s shape with
  | case1 => cases hr; exact h
  | case2 => cases hr
  | case3 s shape name hn other next hf ih => exact of_follow hf (ih hr)
  | case4 s shape name hn content next hne hf => cases hr; exact of_follow hf h

theorem trans (h : s.Descends t) (h' : t.Descends u) : s.Descends u := by
  obtain ⟨trail, hlen, rfl⟩ := h
  exact of_below hlen (of_withEmpty h')

theorem headroom_le (h : s.Descends t) : t.headroom ≤ s.headroom := by
  obtain ⟨trail, -, rfl⟩ := h
  rw [headroom_withEmpty, headroom_below]
  exact Nat.sub_le _ _

/-- Entering a name uses up headroom. -/
theorem eq_of_headroom (h : s.Descends t) (ht : t.headroom = s.headroom) : t = s.withEmpty := by
  obtain ⟨trail, hlen, rfl⟩ := h
  rw [headroom_withEmpty, headroom_below] at ht
  have hnil : trail = [] := List.eq_nil_of_length_eq_zero (by omega)
  rw [hnil, below_nil]

theorem withEmpty_eq (h : s.Descends t) : t.withEmpty = t := by
  obtain ⟨trail, -, rfl⟩ := h
  rw [withEmpty_withEmpty]

end Descends

end Scope

section KeyCombinations

variable {Q A α : Type} {allowed : Q → Prop}

theorem inquires_choicesOf {f : (Q → Outcome A) → Outcome (List α)} (hf : Inquires allowed f)
    (name : String) : Inquires allowed fun answer => choicesOf name (f answer) := by
  refine (hf.under (.key name)).bind fun choices => ?_
  by_cases h : choices.isEmpty = true
  · simp only [h, if_true]
    exact .failed _
  · simp only [h]
    exact .done _

theorem inquires_keyCombinations {parts : List (String × ((Q → Outcome A) → Outcome (List α)))}
    (row : Row) (mark : String) (limit : Nat) (h : ∀ part ∈ parts, Inquires allowed part.2) :
    Inquires allowed fun answer =>
      keyCombinations (parts.map fun part => (part.1, fun _ => part.2 answer)) row mark limit := by
  simp only [keyCombinations, Entries.names_map]
  cases keySets (Entries.names parts) row mark limit with
  | error e => exact .failed e
  | ok sets =>
    have hcollect : Inquires allowed fun answer => Outcome.collect
        ((parts.map fun part answer => choicesOf part.1 (part.2 answer)).map fun f _ => f answer) := by
      refine .collect fun f hf => ?_
      obtain ⟨part, hpart, rfl⟩ := List.mem_map.mp hf
      exact inquires_choicesOf (h part hpart) part.1
    simp only [List.map_map, Function.comp_def] at hcollect ⊢
    exact hcollect.bind fun options => (Inquires.ofExcept _).map _

end KeyCombinations

namespace Pattern

variable {row : Row} {s inner : Scope} {p q : Pattern} {key : String}

/-- A pattern that a token of the row may put in the place of a part, in a scope below the first. -/
def TokenCall (row : Row) (s : Scope) (y : Pattern × Scope) : Prop :=
  s.Descends y.2 ∧ ∃ entry ∈ row, Token.isToken entry.2 = true ∧
    y.2.lookup (Text.trim entry.2) = .ok y.1

/-- The cases of the pattern come about by asking for those of patterns of tokens. -/
def AsksForTokens (row : Row) (p : Pattern) (s : Scope) : Prop :=
  Inquires (TokenCall row s) fun answer : Pattern × Scope → Outcome (List Pattern) =>
    p.casesWith (fun q t => answer (q, t)) row s

theorem TokenCall.mono (h : ∀ t, inner.Descends t → s.Descends t) {y : Pattern × Scope}
    (hy : TokenCall row inner y) : TokenCall row s y :=
  ⟨h _ hy.1, hy.2⟩

theorem AsksForTokens.mono (hp : AsksForTokens row p inner) (h : ∀ t, inner.Descends t → s.Descends t) :
    Inquires (TokenCall row s) fun answer : Pattern × Scope → Outcome (List Pattern) =>
      p.casesWith (fun q t => answer (q, t)) row inner :=
  Inquires.mono (fun _ => TokenCall.mono h) hp

theorem AsksForTokens.partCases (h : AsksForTokens row p s.withEmpty) (key : String) :
    Inquires (TokenCall row s) fun answer : Pattern × Scope → Outcome (List Pattern) =>
      p.partCases (fun q t => answer (q, t)) row key s.withEmpty := by
  simp only [Pattern.partCases]
  cases hget : Entries.get? row key with
  | none => exact h.mono fun _ => Scope.Descends.of_withEmpty
  | some text =>
    by_cases ht : Token.isToken text = true
    · simp only [ht, if_true]
      cases hn : p.narrow key text s.withEmpty with
      | error e => exact .failed e
      | ok q =>
        apply Inquires.ask
        exact ⟨.self_withEmpty s, (key, text), Entries.mem_of_get? hget, ht, (narrow_eq_ok_iff.mp hn).1⟩
    · simp only [ht]
      exact .ofExcept _

theorem AsksForTokens.list {item : Pattern} (h : AsksForTokens row item s) :
    AsksForTokens row (list item) s := by
  unfold AsksForTokens
  simp only [casesWith]
  exact h.map _

theorem AsksForTokens.of_single (h : AsksForTokens row p.single s) : AsksForTokens row p s := by
  cases p with
  | list item => exact h.list
  | _ => exact h

theorem AsksForTokens.childCases (h : AsksForTokens row p s) :
    Inquires (TokenCall row s) fun answer : Pattern × Scope → Outcome (List Pattern) =>
      childCases p row s fun _ => p.casesWith (fun q t => answer (q, t)) row s := by
  refine (Inquires.ofExcept _).bind fun slot => (Inquires.ofExcept _).bind fun bound => ?_
  exact h.map _

theorem AsksForTokens.childrenCases {children : List Pattern} (name : String)
    (h : ∀ child ∈ children, AsksForTokens row child s.withEmpty) :
    Inquires (TokenCall row s) fun answer : Pattern × Scope → Outcome (List Pattern) =>
      childrenCases (fun q t => answer (q, t)) row name children s.withEmpty := by
  simp only [Pattern.childrenCases]
  split
  · rename_i text hc _
    exact ((h text (mem_of_onlyText? hc)).partCases name).map _
  · have hcollect : Inquires (TokenCall row s)
        fun answer : Pattern × Scope → Outcome (List Pattern) => Outcome.collect
          ((children.zipIdx.map fun child answer => (Pattern.childCases child.1 row s.withEmpty fun _ =>
            child.1.casesWith (fun q t => answer (q, t)) row s.withEmpty).under
              (.index child.2)).map fun f _ => f answer) := by
      refine .collect fun f hf => ?_
      obtain ⟨child, hchild, rfl⟩ := List.mem_map.mp hf
      have hmem : child.1 ∈ children := List.fst_mem_of_mem_zipIdx hchild
      refine Inquires.under ?_ (.index child.2)
      exact (h child.1 hmem).childCases.mono fun _ => TokenCall.mono fun _ => .of_withEmpty
    simpa only [List.map_map, Function.comp_def] using hcollect

theorem AsksForTokens.element {shape : Shape Pattern}
    (h : ∀ full inner, s.resolveType shape = .ok (full, inner) →
      (∀ entry ∈ full.attributes, AsksForTokens row entry.2 inner.withEmpty) ∧
        ∀ child ∈ full.children, AsksForTokens row child.single inner.withEmpty) :
    AsksForTokens row (element shape) s := by
  unfold AsksForTokens
  by_cases hexpanding : (shape.typeRef.any fun name => s.isExpanding (typeToken name)) = true
  · simp only [casesWith_element_expanding hexpanding]
    exact .done _
  · cases hr : s.resolveType shape with
    | error e =>
      simp only [casesWith_element_error hexpanding hr]
      exact .failed e
    | ok r =>
      obtain ⟨full, inner⟩ := r
      obtain ⟨hattributes, hchildren⟩ := h full inner hr
      simp only [casesWith_element hexpanding hr]
      have hbelow : ∀ y, TokenCall row inner y → TokenCall row s y :=
        fun _ => TokenCall.mono fun _ => .of_resolveType hr
      have hparts : ∀ part ∈ full.attributes.map fun entry =>
          (entry.1, fun answer : Pattern × Scope → Outcome (List Pattern) =>
            if isNamespace entry.1 then .done [entry.2]
            else entry.2.partCases (fun q t => answer (q, t)) row
              (KeyKind.attributes.canonical entry.1) inner.withEmpty),
          Inquires (TokenCall row s) part.2 := by
        intro part hpart
        obtain ⟨entry, he, rfl⟩ := List.mem_map.mp hpart
        by_cases hn : isNamespace entry.1 = true
        · simp only [hn, if_true]
          exact .done _
        · simp only [hn]
          exact ((hattributes entry he).partCases _).mono hbelow
      have hsets := inquires_keyCombinations row attributeMark inner.caseLimit hparts
      simp only [List.map_map, Function.comp_def] at hsets
      refine hsets.bind fun attributeSets => Inquires.bind ?_ fun children => .ofExcept _
      have hplaces : ∀ child ∈ full.children, AsksForTokens row child inner.withEmpty :=
        fun child hc => (hchildren child hc).of_single
      exact (AsksForTokens.childrenCases shape.name hplaces).mono hbelow

theorem asksForTokens (row : Row) (p : Pattern) (s : Scope) : AsksForTokens row p s := by
  induction p, s using scopeInduction with
  | literal e s =>
    unfold AsksForTokens
    simp only [casesWith]
    exact .done _
  | scalar kind s =>
    unfold AsksForTokens
    simp only [casesWith]
    exact .done _
  | record fields isOpen s ih =>
    unfold AsksForTokens
    simp only [casesWith]
    have hparts : ∀ part ∈ fields.map fun field =>
        (field.1, fun answer : Pattern × Scope → Outcome (List Pattern) =>
          field.2.partCases (fun q t => answer (q, t)) row (KeyKind.field.canonical field.1)
            s.withEmpty), Inquires (TokenCall row s) part.2 := by
      intro part hpart
      obtain ⟨field, hf, rfl⟩ := List.mem_map.mp hpart
      exact (ih field hf).partCases _
    have htables := inquires_keyCombinations row fieldMark s.caseLimit hparts
    simp only [List.map_map, Function.comp_def] at htables
    exact htables.map _
  | element shape s ih => exact .element ih
  | union ps s ih =>
    unfold AsksForTokens
    simp only [casesWith]
    have hcollect : Inquires (TokenCall row s)
        fun answer : Pattern × Scope → Outcome (List Pattern) => Outcome.collect
          ((ps.map fun q answer => q.casesWith (fun r t => answer (r, t)) row s.withEmpty).map
            fun f _ => f answer) := by
      refine .collect fun f hf => ?_
      obtain ⟨q, hq, rfl⟩ := List.mem_map.mp hf
      exact (ih q hq).mono fun _ => .of_withEmpty
    simp only [List.map_map, Function.comp_def] at hcollect
    exact hcollect.map _
  | reference token s ih =>
    unfold AsksForTokens
    by_cases h : s.isExpanding token = true
    · simp only [casesWith, h, if_true]
      exact .done _
    · cases hf : s.follow (.reference token) with
      | error e =>
        simp only [casesWith_reference_error h hf]
        exact .failed e
      | ok r =>
        simp only [casesWith_reference h hf]
        exact (ih r.1 r.2 hf).mono fun _ => .of_follow hf
  | list item s ih => exact ih.list

end Pattern

end PayloadContracts
