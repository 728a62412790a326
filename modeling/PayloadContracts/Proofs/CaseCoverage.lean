import PayloadContracts.Proofs.CaseComparisons

/-!
No value gets lost between a pattern and its cases: what the pattern accepts is accepted by one of
them. Main statement: `Pattern.exists_case_of_check`.

For a record the case with all fields will do, as optional fields stay optional in it. A name that is
met again while it is expanded stands in the case for all that it stood for. Lists are left out, as
items of one list may belong to different cases of the item.
-/

namespace PayloadContracts

open Relation

namespace Pattern

variable {ofToken : Pattern → Scope → Outcome (List Pattern)} {p q S : Pattern} {s t u : Scope}
  {v : Value} {cs : List Pattern} {token : String} {trail : List String}

/-- Neither a list nor an element. -/
def IsFlat : Pattern → Prop
  | list _ => False
  | element _ => False
  | _ => True

/-- The pattern comes down to a flat one. -/
def EndsFlat (s : Scope) (p : Pattern) : Prop := ∃ trail q, s.Leads p trail q ∧ q.IsFlat

theorem endsFlat_self (hp : p.isReference = false) (h : p.IsFlat) : EndsFlat s p :=
  ⟨[], p, .stop hp, h⟩

/-- The token of absent content matters to no chain of references but one that ends with it. -/
theorem leads_of_withEmpty (h : s.withEmpty.Leads p trail q) (hq : q ≠ scalar .empty) :
    s.Leads p trail q := by
  induction h with
  | stop h => exact .stop h
  | @hop name next q trail hn rest ih =>
    by_cases hname : name = emptyToken
    · by_cases hc : Entries.contains s.definitions emptyToken = true
      · rw [Scope.withEmpty_of_contains hc] at hn
        exact .hop hn (ih hq)
      · have hnext : s.withEmpty.lookup emptyToken = .ok (scalar .empty) := by
          have hnone : emptyToken ∉ Entries.names s.definitions := fun h => hc (Entries.contains_iff.mpr h)
          rw [Scope.lookup, Scope.withEmpty, if_neg hc, ← Entries.insert_of_not_mem hnone,
            Entries.get?_insert, if_pos rfl]
        rw [hname, hnext] at hn
        cases hn
        cases rest
        exact absurd rfl hq
    · exact .hop (Scope.lookup_withEmpty_of_ne hname ▸ hn) (ih hq)

theorem check_withEmpty (hq : q.isReference = false) (h : q.IsFlat) :
    q.check v s.withEmpty = .accepted ↔ q.check v s = .accepted := by
  cases q with
  | literal e => simp only [check_literal]
  | scalar kind => simp only [check_scalar_eq_accepted]
  | record fields isOpen =>
    simp only [check_record_eq_accepted, Scope.withEmpty_withEmpty, Scope.policyFor,
      Scope.withEmpty_policy]
  | union ps => simp only [check_union_eq_accepted, Scope.withEmpty_withEmpty]
  | reference token => cases hq
  | list item => cases h
  | element shape => cases h

/-- What comes down to a flat pattern is accepted without the token of absent content if it is with
it. -/
theorem EndsFlat.check_of_withEmpty (h : EndsFlat s p) (ht : t.definitions = s.definitions)
    (hv : p.check v t.withEmpty = .accepted) : p.check v t = .accepted := by
  obtain ⟨trail, q, hl, hq⟩ := h
  have hl' : t.Leads p trail q := hl.mono fun name _ hn => (Scope.lookup_congr ht name).trans hn
  have hempty : t.withEmpty.Leads p trail q := hl'.mono fun _ _ => Scope.lookup_withEmpty
  obtain ⟨hroom, hv⟩ := (check_of_leads hempty).mp hv
  rw [Scope.headroom_withEmpty] at hroom
  rw [Scope.below_withEmpty, check_withEmpty hl.isReference_eq_false hq] at hv
  exact (check_of_leads hl').mpr ⟨hroom, hv⟩

/-- The second scope has come about from the first by entering names that come down to flat patterns,
perhaps with the token of absent content. -/
structure ExpandsFlat (s t : Scope) : Prop where
  definitions : t.definitions = s.definitions ∨ t.definitions = s.withEmpty.definitions
  path : ∀ token ∈ t.path, EndsFlat s (reference token)

namespace ExpandsFlat

theorem of_fresh (h : s.path = []) : ExpandsFlat s s := ⟨.inl rfl, by simp [h]⟩

theorem withEmpty (h : ExpandsFlat s t) : ExpandsFlat s t.withEmpty :=
  ⟨.inr (Scope.withEmpty_definitions_of_or h.definitions), by simpa using h.path⟩

theorem leads (h : ExpandsFlat s t) (hl : t.Leads p trail q) (hq : q ≠ scalar .empty) :
    s.Leads p trail q := by
  obtain hd | hd := h.definitions
  · exact hl.mono fun name _ hn => (Scope.lookup_congr hd name).symm.trans hn
  · exact leads_of_withEmpty (hl.mono fun name _ hn => (Scope.lookup_congr hd name).symm.trans hn) hq

theorem below (h : ExpandsFlat s t) (hl : t.Leads p trail q) (hq : q ≠ scalar .empty)
    (hflat : q.IsFlat) : ExpandsFlat s (t.below trail) := by
  refine ⟨h.definitions, fun token ht => ?_⟩
  obtain ht | ht := List.mem_append.mp ht
  · exact h.path token ht
  · obtain ⟨more, hmore, -⟩ := (h.leads hl hq).of_mem ht
    exact ⟨more, q, hmore, hflat⟩

theorem check_of_withEmpty (h : ExpandsFlat s t) (hS : EndsFlat s S)
    (hv : S.check v t.withEmpty = .accepted) : S.check v t = .accepted := by
  obtain hd | hd := h.definitions
  · exact hS.check_of_withEmpty hd hv
  · have hcontains : Entries.contains t.definitions emptyToken = true :=
      hd ▸ Scope.contains_withEmpty s
    rwa [Scope.withEmpty_of_contains hcontains] at hv

end ExpandsFlat

/-- The pattern accepts what the parts have for the field, if they have it. -/
def AcceptsPart (parts : Entries Value) (s : Scope) (name : String) (p : Pattern) : Prop :=
  ∀ part, Entries.get? parts (canonical name fieldMark) = some part → p.check part s = .accepted

theorem exists_acceptsPart {parts : Entries Value} {name : String} {choices : List Pattern}
    (hne : choices ≠ [])
    (h : ∀ part, Entries.get? parts (canonical name fieldMark) = some part →
      ∃ choice ∈ choices, choice.check part s = .accepted) :
    ∃ choice ∈ choices, AcceptsPart parts s name choice := by
  cases hpart : Entries.get? parts (canonical name fieldMark) with
  | none =>
    obtain ⟨choice, hchoice⟩ := List.exists_mem_of_ne_nil choices hne
    exact ⟨choice, hchoice, by simp [AcceptsPart, hpart]⟩
  | some part =>
    obtain ⟨choice, hchoice, hcheck⟩ := h part hpart
    refine ⟨choice, hchoice, fun other ho => ?_⟩
    cases hpart.symm.trans ho
    exact hcheck

/-- What a record accepts is accepted by one with the same names, if what it has for them accepts the
parts that the value has. -/
theorem check_record_of_names {fields table : Entries Pattern} {parts : Entries Value} {isOpen : Bool}
    (hnames : ∀ name, name ∈ Entries.names table ↔ name ∈ Entries.names fields)
    (hkeys : keyMismatch? (Entries.names fields) (Entries.names parts) (s.policyFor isOpen) fieldMark =
      none)
    (h : ∀ entry ∈ table, AcceptsPart parts s.withEmpty entry.1 entry.2) :
    (record table isOpen).check (.object parts) s = .accepted := by
  refine check_record_eq_accepted.mpr ⟨parts, rfl, ?_, h⟩
  rw [keyMismatch?_eq_none_iff] at hkeys ⊢
  simpa only [hnames] using hkeys

/-- One of the cases accepts the value. It comes down to a flat pattern, so it also accepts the value
outside of a union that it is taken from, where absent content has no token. -/
theorem exists_case (hs : ExpandsFlat s t) (hu : u.definitions = t.definitions)
    (hflat : ∀ x, ReflTransGen Unfolds (p, u) x → x.1.IsFlat)
    (h : p.casesWith ofToken [] t = .done cs) (hv : p.check v t = .accepted) :
    ∃ S ∈ cs, EndsFlat s S ∧ S.check v t = .accepted := by
  induction p, t using scopeInduction generalizing u v cs with
  | literal e t =>
    rw [casesWith] at h
    cases h
    exact ⟨_, List.mem_cons_self, endsFlat_self rfl trivial, hv⟩
  | scalar kind t =>
    rw [casesWith] at h
    cases h
    exact ⟨_, List.mem_cons_self, endsFlat_self rfl trivial, hv⟩
  | record fields isOpen t ih =>
    obtain ⟨parts, rfl, hkeys, hparts⟩ := check_record_eq_accepted.mp hv
    rw [casesWith] at h
    obtain ⟨tables, htables, rfl⟩ := Outcome.map_eq_done.mp h
    have hgood : ∀ field ∈ fields, ∀ choices,
        field.2.partCases ofToken [] (canonical field.1 fieldMark) t.withEmpty = .done choices →
          choices ≠ [] → ∃ choice ∈ choices, AcceptsPart parts t.withEmpty field.1 choice := by
      intro field hf choices hdone hne
      rw [partCases_of_none rfl] at hdone
      refine exists_acceptsPart hne fun part hpart => ?_
      obtain ⟨choice, hchoice, -, hcheck⟩ := ih field hf hs.withEmpty
        (Scope.withEmpty_definitions_congr hu) (fun x hx => hflat x (.head (.field hf) hx)) hdone
        (hparts field hf part hpart)
      exact ⟨choice, hchoice, hcheck⟩
    obtain ⟨table, ht, hnames, hentries⟩ :=
      exists_mem_keyCombinations htables (List.forall_mem_map.mpr hgood)
    rw [Entries.names_map] at hnames
    exact ⟨_, List.mem_map_of_mem ht, endsFlat_self rfl trivial,
      check_record_of_names hnames hkeys hentries⟩
  | element shape t => exact (hflat _ .refl).elim
  | union ps t ih =>
    obtain ⟨q, hq, hv⟩ := check_union_eq_accepted.mp hv
    rw [casesWith] at h
    obtain ⟨lists, hlists, rfl⟩ := Outcome.map_eq_done.mp h
    rw [Outcome.collect_eq_done_iff, List.forall₂_map_left_iff] at hlists
    obtain ⟨more, hmore, hdone⟩ := exists_of_forall₂_left hlists hq
    obtain ⟨S, hS, hends, hcheck⟩ := ih q hq hs.withEmpty (Scope.withEmpty_definitions_congr hu)
      (fun x hx => hflat x (.head (.alternative hq) hx)) hdone hv
    exact ⟨S, List.mem_flatten.mpr ⟨more, hmore, hS⟩, hends, hs.check_of_withEmpty hends hcheck⟩
  | reference token t ih =>
    by_cases hexpanding : t.isExpanding token = true
    · rw [casesWith, if_pos hexpanding] at h
      cases h
      have hpath : token ∈ t.path := by simpa [Scope.isExpanding] using hexpanding
      exact ⟨_, List.mem_cons_self, hs.path token hpath, hv⟩
    · obtain ⟨q, inner, hf, hv⟩ := check_reference_eq_accepted.mp hv
      rw [casesWith_reference hexpanding hf] at h
      obtain ⟨trail, hl, -, -, rfl⟩ := Scope.follow_eq_ok_iff.mp hf
      by_cases hempty : q = scalar .empty
      -- Names that come down to absent content may do so only with its token.
      · subst hempty
        rw [casesWith] at h
        cases h
        refine ⟨_, List.mem_cons_self, endsFlat_self rfl trivial, ?_⟩
        rwa [check_scalar_eq_accepted] at hv ⊢
      · have hl' : u.Leads (reference token) trail q :=
          hl.mono fun name _ hn => (Scope.lookup_congr hu name).trans hn
        have hreach := reflTransGen_of_leads hl'
        obtain ⟨S, hS, hends, hcheck⟩ := ih q _ hf (hs.below hl hempty (hflat _ hreach)) hu
          (fun x hx => hflat x (hreach.trans hx)) h hv
        have hwithin : (t.below trail).Within t :=
          ⟨.inl rfl, .inl rfl, by rw [Scope.headroom_below]; omega⟩
        exact ⟨S, hS, hends, hwithin.check hcheck⟩
  | list item t => exact (hflat _ .refl).elim

/-- In a scope in which no name has been entered, what a pattern without lists and elements accepts is
accepted by one of its cases. -/
theorem exists_case_of_check (hpath : s.path = [])
    (hflat : ∀ x, ReflTransGen Unfolds (p, s) x → x.1.IsFlat) (h : p.cases [] s = .done cs)
    (hv : p.check v s = .accepted) : ∃ S ∈ cs, S.check v s = .accepted := by
  obtain ⟨ofToken, hcases⟩ := exists_cases_eq p [] s
  obtain ⟨S, hS, -, hcheck⟩ := exists_case (.of_fresh hpath) rfl hflat (hcases ▸ h) hv
  exact ⟨S, hS, hcheck⟩

end Pattern

namespace Chain

open Pattern

theorem isFlat {x : Pattern × Scope} (h : ReflTransGen Unfolds (reference "(Node)", scope) x) :
    x.1.IsFlat := by
  have hx : x.1 = reference "(Node)" ∨ x.1 = node ∨ x.1 = scalar .string := by
    simpa [patterns] using (mem_patterns h).2
  obtain hx | hx | hx := hx <;> rw [hx] <;> trivial

/-- A node without a row has a case without a next node and one with any. -/
theorem cases_fresh :
    (reference "(Node)").cases [] scope =
      .done [record [("name", scalar .string)] false,
        record [("name", scalar .string), ("next?", reference "(Node)")] false] := by
  obtain ⟨ofToken, hcases⟩ := exists_cases_eq (reference "(Node)") [] scope
  have hname : ∀ s, (scalar .string).partCases ofToken [] "name" s = .done [scalar .string] := by
    intro s
    rw [partCases_of_none rfl, casesWith]
  have hnext : (reference "(Node)").partCases ofToken [] "next" (scope.below ["(Node)"]).withEmpty =
      .done [reference "(Node)"] := by
    rw [partCases_of_none rfl, casesWith, if_pos]
    rw [Scope.isExpanding, Scope.withEmpty_path]
    rfl
  have hcanonical : KeyKind.field.canonical "name" = "name" ∧
      KeyKind.field.canonical "next?" = "next" := by decide
  rw [hcases, casesWith_reference (by decide) (follow_node (.inl rfl) (by decide)), node, casesWith]
  simp only [List.map_cons, List.map_nil, hcanonical, hname, hnext]
  rfl

end Chain

theorem Pattern.exists_case_of_check_chain :
    Chain.scope.path = [] ∧
      (∀ x, ReflTransGen Unfolds (reference "(Node)", Chain.scope) x → x.1.IsFlat) ∧
      (reference "(Node)").cases [] Chain.scope =
        .done [record [("name", scalar .string)] false,
          record [("name", scalar .string), ("next?", reference "(Node)")] false] ∧
      (reference "(Node)").check Chain.last Chain.scope = .accepted ∧
      ∃ S ∈ [record [("name", scalar .string)] false,
        record [("name", scalar .string), ("next?", reference "(Node)")] false],
        S.check Chain.last Chain.scope = .accepted :=
  ⟨rfl, fun _ => Chain.isFlat, Chain.cases_fresh, Chain.check_last,
    exists_case_of_check rfl (fun _ => Chain.isFlat) Chain.cases_fresh Chain.check_last⟩

namespace Identifiers

open Pattern

/-- A number or a text. -/
def identifier : Pattern := .union [.scalar .number, .scalar .string]

/-- A token that stands for a list, though nothing in the pattern and the table is one. -/
def many : Pattern := .reference "(Id*)"

def scope : Scope := .ofDefinitions [("(Id)", identifier)] ⟨.strict, 8, 100⟩

def mixed : Value := .list [.number (.ofNat 1), .text "a"]

theorem every_isFlat : many.Every IsFlat ∧ scope.Every IsFlat := by
  refine ⟨every_reference.mpr trivial, ?_⟩
  rintro entry (_ | ⟨_, he⟩)
  · refine every_union.mpr ⟨trivial, ?_⟩
    rintro q (_ | ⟨_, _ | ⟨_, hq⟩⟩)
    · exact every_scalar.mpr trivial
    · exact every_scalar.mpr trivial
    · cases hq
  · cases he

theorem follow_many :
    scope.follow many = .ok (.list (.reference "(Id)"), scope.below ["(Id*)"]) :=
  Scope.follow_of_leads (.hop rfl (.stop rfl)) (by decide)

theorem follow_identifier :
    (scope.below ["(Id*)"]).follow (.reference "(Id)") =
      .ok (identifier, (scope.below ["(Id*)"]).below ["(Id)"]) :=
  Scope.follow_of_leads (.hop rfl (.stop rfl)) (by decide)

/-- One case for the kind of all items. -/
theorem cases_many : many.cases [] scope = .done [list (scalar .number), list (scalar .string)] := by
  obtain ⟨ofToken, hcases⟩ := exists_cases_eq many [] scope
  rw [hcases, many, casesWith_reference (by decide) follow_many, casesWith,
    casesWith_reference (by decide) follow_identifier, identifier, casesWith]
  simp only [List.map_cons, List.map_nil, Outcome.collect]
  rw [casesWith, casesWith]
  rfl

theorem check_mixed : many.check mixed scope = .accepted := by
  refine check_reference_eq_accepted.mpr ⟨_, _, follow_many, check_list_eq_accepted.mpr ⟨_, rfl, ?_⟩⟩
  intro w hw
  refine check_reference_eq_accepted.mpr ⟨_, _, follow_identifier, check_union_eq_accepted.mpr ?_⟩
  obtain rfl | rfl : w = .number (.ofNat 1) ∨ w = .text "a" := by simpa using hw
  · exact ⟨scalar .number, by simp, check_scalar_eq_accepted.mpr rfl⟩
  · exact ⟨scalar .string, by simp, check_scalar_eq_accepted.mpr rfl⟩

end Identifiers

/-- A list of numbers and texts is accepted by a token spelled as a list, and by none of the cases, which
have items of one kind each. -/
theorem Pattern.not_exists_case_of_check :
    Identifiers.scope.path = [] ∧ Identifiers.many.Every IsFlat ∧ Identifiers.scope.Every IsFlat ∧
      Identifiers.many.cases [] Identifiers.scope =
        .done [list (scalar .number), list (scalar .string)] ∧
      Identifiers.many.check Identifiers.mixed Identifiers.scope = .accepted ∧
      ¬∃ S ∈ [list (scalar .number), list (scalar .string)],
        S.check Identifiers.mixed Identifiers.scope = .accepted := by
  refine ⟨rfl, Identifiers.every_isFlat.1, Identifiers.every_isFlat.2, Identifiers.cases_many,
    Identifiers.check_mixed, ?_⟩
  rintro ⟨S, hS, hcheck⟩
  obtain rfl | rfl : S = list (scalar .number) ∨ S = list (scalar .string) := by simpa using hS
  · obtain ⟨items, hitems, heach⟩ := check_list_eq_accepted.mp hcheck
    cases hitems
    cases check_scalar_eq_accepted.mp (heach (.text "a") (by simp))
  · obtain ⟨items, hitems, heach⟩ := check_list_eq_accepted.mp hcheck
    cases hitems
    cases check_scalar_eq_accepted.mp (heach (.number (.ofNat 1)) (by simp))

end PayloadContracts
