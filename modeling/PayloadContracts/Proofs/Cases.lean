import PayloadContracts.Proofs.CaseRules
import PayloadContracts.Proofs.Depth
import PayloadContracts.Proofs.Samples

/-!
Cases of a JSON pattern for a row without tokens: their samples are accepted by the pattern, and have
the values that the row gives. Main statement: `Pattern.check_of_case`.
-/

namespace PayloadContracts.Pattern

variable {ofToken : Pattern → Scope → Outcome (List Pattern)} {row : Row} {p q S : Pattern}
  {s : Scope} {v : Value} {cs : List Pattern} {key text : String}

/-- A part has the cases of its pattern, or the value that the row gives it. -/
theorem partCases_eq_done (hrow : ∀ entry ∈ row, Token.isToken entry.2 = false)
    (h : p.partCases ofToken row key s = .done cs) :
    (Entries.get? row key = none ∧ p.casesWith ofToken row s = .done cs) ∨
      ∃ text v, Entries.get? row key = some text ∧ p.read text s = .ok v ∧
        p.check v s = .accepted ∧ cs = [literal v] := by
  cases hget : Entries.get? row key with
  | none =>
    rw [partCases_of_none hget] at h
    exact .inl ⟨rfl, h⟩
  | some text =>
    have htext := hrow (key, text) (Entries.mem_of_get? hget)
    rw [partCases_of_text hget htext] at h
    obtain ⟨v, hv⟩ := pin_eq_ok_iff.mp (Outcome.ofExcept_eq_done_iff.mp h)
    exact .inr ⟨text, v, rfl, hv⟩

/-- Samples of the first pattern are accepted by the second, whichever of both scopes has the token
of absent content. -/
def Refines (S p : Pattern) (s : Scope) : Prop :=
  ∀ s₀ v, s₀.Loosens s → s₀.Every IsUnambiguous → S.sample s₀ = .ok v → p.DeepAccepts v s

namespace Refines

theorem self (hp : p.Every IsUnambiguous) : p.Refines p s :=
  fun _ _ hl hs hv => (deepAccepts_of_check (accepts_sample hp hs hv)).loosen hl

theorem literal (h : p.check v s = .accepted) : (literal v).Refines p s := by
  intro s₀ w _ _ hw
  rw [sample] at hw
  cases hw
  exact deepAccepts_of_check h

theorem union {ps : List Pattern} (hq : q ∈ ps) (h : S.Refines q s.withEmpty) :
    S.Refines (union ps) s :=
  fun s₀ v hl hs hv => .union hq (h s₀ v hl.withEmpty_right hs hv)

theorem list {item : Pattern} (h : S.Refines item s) : (list S).Refines (list item) s := by
  intro s₀ v hl hs hv
  obtain ⟨items, rfl, hitems⟩ := items_of_sample hv
  exact .list fun w hw => h s₀ w hl hs (hitems w hw)

theorem reference {token : String} {inner : Scope}
    (hf : s.follow (.reference token) = .ok (q, inner)) (h : S.Refines q inner) :
    S.Refines (reference token) s :=
  fun s₀ v hl hs hv => .reference hf (h s₀ v (hl.follow hf) hs hv)

theorem record {fields table : Entries Pattern} {isOpen : Bool}
    (hn : (record fields isOpen).NamesApart)
    (hsub : (Entries.names table).Sublist (Entries.names fields))
    (hkept : ∀ field ∈ fields, isOptional field.1 fieldMark = false →
      field.1 ∈ Entries.names table)
    (h : ∀ entry ∈ table, ∃ field ∈ fields, field.1 = entry.1 ∧
      entry.2.Refines field.2 s.withEmpty) :
    (Pattern.record table isOpen).Refines (record fields isOpen) s := by
  intro s₀ v hl hs hv
  have happart : (Pattern.record table isOpen).NamesApart := (hsub.map _).nodup hn
  obtain ⟨parts, rfl, -, hpresent, hparts⟩ := parts_of_sample happart hv
  have hrequired : ∀ field ∈ fields, isOptional field.1 fieldMark = false →
      field.1 ∈ Entries.names parts := by
    intro field hf ho
    obtain ⟨entry, he, heq⟩ := List.mem_map.mp (hkept field hf ho)
    have hname := hpresent entry he (.inl (heq ▸ ho))
    rwa [heq, canonical_of_not_optional ho] at hname
  refine .record (keyMismatch?_of_parts hrequired fun part hpart => ?_) fun field hf part hpart => ?_
  · obtain ⟨entry, he, hname, -⟩ := hparts part hpart
    obtain ⟨field, hf, heq, -⟩ := h entry he
    exact ⟨field, hf, heq ▸ hname⟩
  · obtain ⟨entry, he, hname, hv⟩ := hparts _ (Entries.mem_of_get? hpart)
    obtain ⟨other, ho, heq, hrefines⟩ := h entry he
    obtain rfl := eq_of_canonical_eq hn hf ho (heq ▸ hname)
    exact hrefines s₀.withEmpty part hl.withEmpty (hs.withEmpty spelled_isUnambiguous) hv

end Refines

/-- The tables that the cases of a record are made of. -/
theorem mem_recordCases {fields table : Entries Pattern} {isOpen : Bool}
    {tables : List (Entries Pattern)} (hn : (record fields isOpen).NamesApart)
    (ht : keyCombinations (fields.map fun field => (field.1, fun _ =>
        field.2.partCases ofToken row (canonical field.1 fieldMark) s.withEmpty))
      row fieldMark s.caseLimit = .done tables) (hmem : table ∈ tables) :
    (Entries.names table).Sublist (Entries.names fields) ∧
      (∀ field ∈ fields, isFree row fieldMark field.1 = false → field.1 ∈ Entries.names table) ∧
      ∀ entry ∈ table, ∃ field ∈ fields, field.1 = entry.1 ∧ ∃ choices,
        field.2.partCases ofToken row (canonical field.1 fieldMark) s.withEmpty = .done choices ∧
          entry.2 ∈ choices :=
  mem_fieldCombinations (distinct_of_namesApart hn) ht hmem

/-- For a row without tokens each case of a JSON pattern refines it. -/
theorem refines_of_mem_cases (hrow : ∀ entry ∈ row, Token.isToken entry.2 = false)
    (hp : p.Every IsUnambiguous) (hs : s.Every IsUnambiguous)
    (h : p.casesWith ofToken row s = .done cs) (hS : S ∈ cs) : S.Refines p s := by
  induction p, s using scopeInduction generalizing S cs with
  | literal e s =>
    rw [casesWith] at h
    cases h
    obtain rfl := List.mem_singleton.mp hS
    exact .self hp
  | scalar kind s =>
    rw [casesWith] at h
    cases h
    obtain rfl := List.mem_singleton.mp hS
    exact .self hp
  | record fields isOpen s ih =>
    obtain ⟨⟨-, hn⟩, hfields⟩ := every_record.mp hp
    obtain ⟨tables, table, ht, hmem, rfl⟩ := table_of_casesWith h hS
    obtain ⟨hsub, hkept, hchoices⟩ := mem_recordCases hn ht hmem
    refine .record hn hsub (fun field hf ho => hkept field hf ?_) fun entry he => ?_
    · rw [isFree, ho, Bool.false_and]
    · obtain ⟨field, hf, hname, choices, hdone, hentry⟩ := hchoices entry he
      refine ⟨field, hf, hname, ?_⟩
      obtain ⟨-, hdone⟩ | ⟨_, v, _, _, hcheck, rfl⟩ := partCases_eq_done hrow hdone
      · exact ih field hf (hfields field hf) (hs.withEmpty spelled_isUnambiguous) hdone hentry
      · rw [List.mem_singleton.mp hentry]
        exact .literal hcheck
  | element shape s =>
    exact hp.self.1.elim
  | union ps s ih =>
    obtain ⟨q, hq, more, hdone, hS⟩ := alternative_of_casesWith h hS
    have hpart := (every_union.mp hp).2 q hq
    exact .union hq (ih q hq hpart (hs.withEmpty spelled_isUnambiguous) hdone hS)
  | reference token s ih =>
    obtain rfl | ⟨q, inner, hf, hdone⟩ := follow_of_casesWith h
    -- A reference that is left as it is goes on to stand for all that it stands for in the pattern.
    · rw [List.mem_singleton.mp hS]
      exact .self hp
    · obtain ⟨hq, hinner⟩ := hs.follow spelled_isUnambiguous hp hf
      exact .reference hf (ih q inner hf hq hinner hdone hS)
  | list item s ih =>
    obtain ⟨more, hdone, T, hT, rfl⟩ := item_of_casesWith h hS
    exact .list (ih (every_list.mp hp).2 hs hdone hT)

theorem sample_literal : (literal v).sample s = .ok v := by
  rw [sample]

theorem reenters_literal : (literal v).reenters s = false := by
  rw [reenters]
  all_goals simp

/-- A sample of a case of a record has the value that the row gives a field. -/
theorem get?_of_case {fields : Entries Pattern} {isOpen : Bool} {s₀ : Scope}
    (hrow : ∀ entry ∈ row, Token.isToken entry.2 = false) (hn : (record fields isOpen).NamesApart)
    (h : (record fields isOpen).casesWith ofToken row s = .done cs) (hS : S ∈ cs)
    (hv : S.sample s₀ = .ok v) {field : String × Pattern} (hf : field ∈ fields)
    (ht : Entries.get? row (canonical field.1 fieldMark) = some text) :
    ∃ parts w, v = .object parts ∧ field.2.read text s.withEmpty = .ok w ∧
      Entries.get? parts (canonical field.1 fieldMark) = some w := by
  obtain ⟨tables, table, htables, hmem, rfl⟩ := table_of_casesWith h hS
  obtain ⟨hsub, hkept, hchoices⟩ := mem_recordCases hn htables hmem
  have hfree : isFree row fieldMark field.1 = false := by
    simp [isFree, Entries.contains, ht]
  obtain ⟨entry, he, hname⟩ := List.mem_map.mp (hkept field hf hfree)
  obtain ⟨other, ho, heq, choices, hdone, hentry⟩ := hchoices entry he
  obtain rfl := eq_of_canonical_eq hn hf ho (by rw [heq, hname])
  obtain ⟨hnone, -⟩ | ⟨_, w, hget, hread, -, rfl⟩ := partCases_eq_done hrow hdone
  · rw [ht] at hnone
    cases hnone
  · cases ht.symm.trans hget
    have happart : (record table isOpen).NamesApart := (hsub.map _).nodup hn
    obtain ⟨parts, rfl, -, hpresent, hparts⟩ := parts_of_sample happart hv
    have hliteral : entry.2 = literal w := List.mem_singleton.mp hentry
    have hkey := hpresent entry he (.inr (hliteral ▸ reenters_literal))
    obtain ⟨x, hx⟩ := Entries.exists_get?_of_mem_names hkey
    obtain ⟨entry', he', hname', hsample⟩ := hparts _ (Entries.mem_of_get? hx)
    obtain rfl := eq_of_canonical_eq happart he he' hname'
    rw [hliteral, sample_literal] at hsample
    cases hsample
    exact ⟨parts, _, rfl, hread, hname ▸ hx⟩

theorem exists_cases_eq (p : Pattern) (row : Row) (s : Scope) :
    ∃ ofToken, p.cases row s = p.casesWith ofToken row s := by
  rw [cases]
  cases tokenLimit row s with
  | zero => exact ⟨_, rfl⟩
  | succ n => exact ⟨_, rfl⟩

/-- Samples of the cases of a JSON pattern for a row without tokens are accepted by the pattern with
enough headroom, and those of a record have the values that the row gives. -/
theorem check_of_case (hp : p.Every IsUnambiguous) (hs : s.Every IsUnambiguous)
    (hrow : ∀ entry ∈ row, Token.isToken entry.2 = false) (h : p.cases row s = .done cs)
    (hS : S ∈ cs) (hv : S.sample s = .ok v) :
    (∃ n, ∀ limit, n ≤ limit → p.check v { s with depthLimit := limit } = .accepted) ∧
      ∀ fields isOpen, p = record fields isOpen → ∀ field ∈ fields, ∀ text,
        Entries.get? row (canonical field.1 fieldMark) = some text →
          ∃ parts w, v = .object parts ∧ field.2.read text s.withEmpty = .ok w ∧
            Entries.get? parts (canonical field.1 fieldMark) = some w := by
  obtain ⟨ofToken, hcases⟩ := exists_cases_eq p row s
  rw [hcases] at h
  constructor
  · exact (refines_of_mem_cases hrow hp hs h hS s v (.congr rfl rfl) hs hv).exists_limit
  · rintro fields isOpen rfl field hf text ht
    exact get?_of_case hrow hp.self.2 h hS hv hf ht

theorem chain_casesWith :
    Chain.node.casesWith ofToken [("name", "first")] (Chain.scope.below ["(Node)"]) =
      .done [record [("name", literal (.text "first"))] false,
        record [("name", literal (.text "first")), ("next?", reference "(Node)")] false] := by
  have hname : ∀ s, (scalar .string).partCases ofToken [("name", "first")] "name" s =
      .done [literal (.text "first")] := by
    intro s
    have hread : (scalar .string).read "first" s = .ok (.text "first") := by
      rw [read]
      rfl
    rw [partCases_of_text rfl rfl, Outcome.ofExcept_eq_done_iff]
    exact pin_eq_ok_iff.mpr ⟨_, hread, check_scalar_eq_accepted.mpr rfl, rfl⟩
  have hnext : ∀ s : Scope, s.path = ["(Node)"] →
      (reference "(Node)").partCases ofToken [("name", "first")] "next" s =
        .done [reference "(Node)"] := by
    intro s hs
    rw [partCases_of_none rfl, casesWith, if_pos]
    rw [Scope.isExpanding, hs]
    rfl
  have hcanonical : KeyKind.field.canonical "name" = "name" ∧
      KeyKind.field.canonical "next?" = "next" := by decide
  have hpath : (Chain.scope.below ["(Node)"]).withEmpty.path = ["(Node)"] :=
    Scope.withEmpty_path _
  rw [Chain.node, casesWith]
  simp only [List.map_cons, List.map_nil, hcanonical, hname, hnext _ hpath]
  rfl

theorem chain_cases :
    Chain.node.cases [("name", "first")] (Chain.scope.below ["(Node)"]) =
      .done [record [("name", literal (.text "first"))] false,
        record [("name", literal (.text "first")), ("next?", reference "(Node)")] false] := by
  obtain ⟨ofToken, hcases⟩ :=
    exists_cases_eq Chain.node [("name", "first")] (Chain.scope.below ["(Node)"])
  rw [hcases, chain_casesWith]

theorem check_of_case_chain :
    Chain.node.cases [("name", "first")] (Chain.scope.below ["(Node)"]) =
        .done [record [("name", literal (.text "first"))] false,
          record [("name", literal (.text "first")), ("next?", reference "(Node)")] false] ∧
      (∃ n, ∀ limit, n ≤ limit → Chain.node.check (.object [("name", .text "first")])
        { Chain.scope.below ["(Node)"] with depthLimit := limit } = .accepted) ∧
      ∀ fields isOpen, Chain.node = record fields isOpen → ∀ field ∈ fields, ∀ text,
        Entries.get? [("name", "first")] (canonical field.1 fieldMark) = some text →
          ∃ parts w, Value.object [("name", .text "first")] = .object parts ∧
            field.2.read text (Chain.scope.below ["(Node)"]).withEmpty = .ok w ∧
            Entries.get? parts (canonical field.1 fieldMark) = some w := by
  have hsample : (record [("name", literal (.text "first"))] false).sample
      (Chain.scope.below ["(Node)"]) = .ok (.object [("name", .text "first")]) := by
    rw [sample]
    simp only [List.map_cons, List.map_nil, sample_literal]
    rfl
  have hnode : Chain.node.IsUnambiguous := ⟨trivial, Chain.namesApart_node⟩
  refine ⟨chain_cases, check_of_case (Chain.every_node spelled_isUnambiguous hnode) ?_ ?_ chain_cases
    List.mem_cons_self hsample⟩
  · exact (Chain.every_scope spelled_isUnambiguous hnode).congr rfl
  · decide

end PayloadContracts.Pattern
