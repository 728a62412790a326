import PayloadContracts.Comparison.Subsumes
import PayloadContracts.Proofs.Acceptance

/-!
What a comparison goes by, one statement for each pair of patterns without elements, and induction
on a pair of patterns along the way that their comparison takes. Main statement:
`Pattern.subsumes_literal_iff`.
-/

namespace PayloadContracts

theorem compareUnion_eq_accepted {expected : String} {alternatives : List (Pattern → Verdict)}
    {candidates : List Pattern} :
    compareUnion expected alternatives candidates = .accepted ↔
      ∀ q ∈ candidates, ∃ compare ∈ alternatives, compare q = .accepted := by
  induction candidates with
  | nil => simp [compareUnion]
  | cons q rest ih =>
    rw [compareUnion, List.forall_mem_cons, ← ih]
    split
    · rename_i h
      have hq : ∃ compare ∈ alternatives, compare q = .accepted := by
        simpa [List.any_eq_true] using h
      rw [and_iff_right hq]
    · rename_i h
      have hq : ¬∃ compare ∈ alternatives, compare q = .accepted := by
        simpa [List.any_eq_true] using h
      simp [hq, Verdict.reject]

theorem compareFields_eq_accepted {kind : KeyKind} {smaller : Entries Pattern}
    {bigger : Entries (Pattern → Verdict)} :
    compareFields kind smaller bigger = .accepted ↔
      ∀ field ∈ bigger, ∀ p, kind.declared? smaller field.1 = some p → field.2 p = .accepted := by
  induction bigger with
  | nil => simp [compareFields]
  | cons field bigger ih =>
    rw [compareFields, List.forall_mem_cons, ← ih]
    cases kind.declared? smaller field.1 <;> simp

theorem notRequired?_eq_none_iff {kind : KeyKind} {bigger : Entries (Pattern → Verdict)}
    {smaller : Entries Pattern} :
    notRequired? kind bigger smaller = none ↔
      ∀ name ∈ bigger.names, isOptional name kind.mark = false → name ∈ smaller.names := by
  have hcontains : ∀ name, (!Entries.contains smaller name) = true ↔ name ∉ smaller.names := by
    intro name
    rw [← Entries.contains_iff]
    simp
  simp only [notRequired?, List.find?_eq_none, Bool.and_eq_true, hcontains, KeyKind.isOptional,
    Bool.not_eq_true', not_and, not_not]

theorem notDeclared?_eq_none_iff {kind : KeyKind} {bigger : Entries (Pattern → Verdict)}
    {smaller : Entries Pattern} :
    notDeclared? kind bigger smaller = none ↔
      ∀ name ∈ smaller.names, isOptional name kind.mark = false → kind.declared? bigger name ≠ none := by
  simp only [notDeclared?, List.find?_eq_none, Bool.and_eq_true, KeyKind.isOptional,
    Bool.not_eq_true', Option.isNone_iff_eq_none, not_and, Ne]

/-- Required names are required on the smaller side, under the strict policy required names of the
smaller side are declared, and parts of the same name compare. -/
theorem compareKeys_eq_accepted {kind : KeyKind} {policy : KeyPolicy} {smallerIsOpen : Bool}
    {bigger : Entries (Pattern → Verdict)} {smaller : Entries Pattern} :
    compareKeys kind policy smallerIsOpen bigger smaller = .accepted ↔
      (∀ name ∈ bigger.names, isOptional name kind.mark = false → name ∈ smaller.names) ∧
        (policy = .strict → smallerIsOpen = false ∧ ∀ name ∈ smaller.names,
          isOptional name kind.mark = false → kind.declared? bigger name ≠ none) ∧
        ∀ field ∈ bigger, ∀ p, kind.declared? smaller field.1 = some p → field.2 p = .accepted := by
  rw [← notRequired?_eq_none_iff, ← notDeclared?_eq_none_iff, ← compareFields_eq_accepted]
  unfold compareKeys
  cases notRequired? kind bigger smaller with
  | some name => simp [Verdict.reject]
  | none =>
    cases policy with
    | permissive => simp
    | strict =>
      cases smallerIsOpen with
      | true => simp [Verdict.reject]
      | false => cases notDeclared? kind bigger smaller <;> simp [Verdict.reject]

section Tables

variable {kind : KeyKind} {policy policy' : KeyPolicy} {isOpen : Bool} {fields smaller : Entries Pattern}
  {compare compare' : String × Pattern → Pattern → Verdict}

/-- As `compareKeys_eq_accepted`, for the parts of one table. -/
theorem compareKeys_map_eq_accepted :
    compareKeys kind policy isOpen (fields.map fun field => (field.1, compare field)) smaller =
        .accepted ↔
      (∀ name ∈ fields.names, isOptional name kind.mark = false → name ∈ smaller.names) ∧
        (policy = .strict → isOpen = false ∧ ∀ name ∈ smaller.names,
          isOptional name kind.mark = false → kind.declared? fields name ≠ none) ∧
        ∀ field ∈ fields, ∀ q, kind.declared? smaller field.1 = some q →
          compare field q = .accepted := by
  rw [compareKeys_eq_accepted, List.forall_mem_map]
  simp only [KeyKind.declared?, Option.orElse_eq_or, Ne, Option.or_eq_none_iff,
    Entries.get?_eq_none_iff, Entries.names_map]

/-- Names compare if they did under a policy that is no looser, with parts that accept no more. -/
theorem compareKeys_mono (hpolicy : policy' = .strict → policy = .strict)
    (hmore : ∀ field ∈ fields, ∀ q, compare field q = .accepted → compare' field q = .accepted)
    (h : compareKeys kind policy isOpen (fields.map fun field => (field.1, compare field))
      smaller = .accepted) :
    compareKeys kind policy' isOpen (fields.map fun field => (field.1, compare' field))
      smaller = .accepted := by
  obtain ⟨hrequired, hstrict, hparts⟩ := compareKeys_map_eq_accepted.mp h
  exact compareKeys_map_eq_accepted.mpr ⟨hrequired, fun hp => hstrict (hpolicy hp),
    fun field hf q hq => hmore field hf q (hparts field hf q hq)⟩

/-- Names compare with themselves if what they stand for does. -/
theorem compareKeys_self (hopen : policy = .strict → isOpen = false) (hd : Entries.Distinct fields)
    (h : ∀ field ∈ fields, compare field field.2 = .accepted) :
    compareKeys kind policy isOpen (fields.map fun field => (field.1, compare field)) fields =
      .accepted := by
  refine compareKeys_map_eq_accepted.mpr
    ⟨fun _ hname _ => hname, fun hp => ⟨hopen hp, fun name hname _ hnone => ?_⟩, ?_⟩
  · simp only [KeyKind.declared?, Option.orElse_eq_or, Option.or_eq_none_iff,
      Entries.get?_eq_none_iff] at hnone
    exact hnone.1 hname
  · intro field hf p hp
    rw [KeyKind.declared?, Entries.get?_of_mem hd hf] at hp
    cases hp
    exact h field hf

end Tables

theorem Scalar.admits_of_covers {kind other : Scalar} (h : kind.covers other = true) {v : Value}
    (hv : other.admits v = true) : kind.admits v = true := by
  cases kind <;> cases other <;> first | exact hv | cases h
  all_goals cases v <;> first | rfl | cases hv

namespace Pattern

/-- Neither a reference nor a union: comparison goes by the kind of pattern. -/
def isPlain : Pattern → Bool
  | reference _ => false
  | union _ => false
  | _ => true

/-- The patterns of which a value has to match one. -/
def alternatives : Pattern → List Pattern
  | union ps => ps
  | p => [p]

variable {s t : Scope} {p q : Pattern}

theorem eq_reference_or (p : Pattern) : (∃ token, p = reference token) ∨ p.isReference = false := by
  cases p with
  | reference token => exact .inl ⟨token, rfl⟩
  | _ => exact .inr rfl

theorem isReference_of_isPlain (h : p.isPlain = true) : p.isReference = false := by
  cases p with
  | reference => cases h
  | _ => rfl

theorem alternatives_of_isPlain (h : p.isPlain = true) : p.alternatives = [p] := by
  cases p with
  | union => cases h
  | _ => rfl

theorem eq_union_or (h : p.isReference = false) : (∃ ps, p = union ps) ∨ p.isPlain = true := by
  cases p with
  | reference => cases h
  | union ps => exact .inl ⟨ps, rfl⟩
  | _ => exact .inr rfl

theorem subsumes_references {b c : String} :
    (reference b).subsumes (reference c) s t = .accepted ↔
      s.isAssumed b c = true ∨
        ∃ p s' q t', (s.assuming b c).follow (.reference b) = .ok (p, s') ∧
          t.follow (.reference c) = .ok (q, t') ∧ p.subsumes q s' t' = .accepted := by
  rw [subsumes]
  split
  · simp [*]
  · rename_i ha
    split
    · rename_i hb hc
      simp [ha, hb, hc]
    · rename_i hb
      simp [ha, hb, Verdict.ofError]
    · rename_i hc _
      simp [ha, hc, Verdict.ofError]

theorem subsumes_reference_left {b : String} (hq : q.isReference = false) :
    (reference b).subsumes q s t = .accepted ↔
      ∃ p s', s.follow (.reference b) = .ok (p, s') ∧ p.subsumes q s' t = .accepted := by
  rw [subsumes]
  · split
    · rename_i hb
      simp [hb]
    · rename_i hb
      simp [hb, Verdict.ofError]
  · rintro c rfl
    cases hq

theorem subsumes_reference_right {c : String} (hp : p.isReference = false) :
    p.subsumes (reference c) s t = .accepted ↔
      ∃ q t', t.follow (.reference c) = .ok (q, t') ∧ p.subsumes q s t' = .accepted := by
  rw [subsumes]
  · split
    · rename_i hc
      simp [hc]
    · rename_i hc
      simp [hc, Verdict.ofError]
  · rintro b rfl
    cases hp

theorem subsumes_of_follow_left {b : String} {s' : Scope} (hq : q.isReference = false)
    (hf : s.follow (.reference b) = .ok (p, s')) : (reference b).subsumes q s t = p.subsumes q s' t := by
  rw [subsumes]
  · split
    · rename_i hb
      cases hf.symm.trans hb
      rfl
    · rename_i hb
      cases hf.symm.trans hb
  · rintro c rfl
    cases hq

theorem subsumes_of_follow_right {c : String} {t' : Scope} (hp : p.isReference = false)
    (hf : t.follow (.reference c) = .ok (q, t')) : p.subsumes (reference c) s t = p.subsumes q s t' := by
  rw [subsumes]
  · split
    · rename_i hc
      cases hf.symm.trans hc
      rfl
    · rename_i hc
      cases hf.symm.trans hc
  · rintro b rfl
    cases hp

theorem subsumes_union_left {ps : List Pattern} (hq : q.isReference = false) :
    (union ps).subsumes q s t = .accepted ↔
      ∀ r ∈ q.alternatives, ∃ p ∈ ps, p.subsumes r s.withEmpty t.withEmpty = .accepted := by
  have hany : ∀ (r : Pattern) (u : Scope), (∃ compare ∈ ps.map fun p => fun candidate =>
      p.subsumes candidate s.withEmpty u, compare r = .accepted) ↔
        ∃ p ∈ ps, p.subsumes r s.withEmpty u = .accepted := by
    simp only [List.mem_map, exists_exists_and_eq_and, implies_true]
  cases q with
  | reference => cases hq
  | union qs =>
    rw [subsumes, compareUnion_eq_accepted]
    exact forall₂_congr fun r _ => hany r _
  | _ =>
    rw [subsumes, compareUnion_eq_accepted]
    · exact forall₂_congr fun r _ => hany r _
    all_goals simp

theorem subsumes_union_right {qs : List Pattern} (hp : p.isPlain = true) :
    p.subsumes (union qs) s t = .accepted ↔
      ∀ q ∈ qs, p.subsumes q s t.withEmpty = .accepted := by
  rw [subsumes, checkAll_eq_accepted, List.forall_mem_map]
  · rintro b rfl
    cases hp
  · rintro ps rfl
    cases hp

theorem subsumes_literal (hp : p.isPlain = true) {v : Value}
    (h : p.subsumes (literal v) s t = .accepted) : p.check v s = .accepted := by
  cases p with
  | reference => cases hp
  | union => cases hp
  | literal e =>
    rw [subsumes] at h
    rwa [check_literal]
  | scalar kind =>
    rw [subsumes] at h
    rwa [check]
  | record fields isOpen =>
    cases v with
    | object parts =>
      rw [subsumes, check] at h
      rw [check]
      simpa [Scope.policyFor] using h
    | _ => rw [subsumes] at h <;> first | cases h | simp
  | list item =>
    cases v with
    | list items =>
      rw [subsumes] at h
      exact h
    | _ => rw [subsumes] at h <;> first | cases h | simp
  | element shape =>
    cases v with
    | node n =>
      rw [subsumes] at h
      exact h
    | _ => rw [subsumes] at h <;> first | cases h | simp

/-- A literal value is subsumed by what accepts it. -/
theorem subsumes_literal_of_check {v : Value} (h : p.check v s = .accepted) :
    p.subsumes (literal v) s t = .accepted := by
  induction p, s using scopeInduction generalizing t with
  | literal e s => rwa [subsumes, ← check_literal (s := s)]
  | scalar kind s => rwa [subsumes, ← check]
  | record fields isOpen s =>
    obtain ⟨parts, rfl, hkeys, hparts⟩ := check_record_eq_accepted.mp h
    rw [subsumes, check_record_eq_accepted]
    exact ⟨parts, rfl, by simpa [Scope.policyFor] using hkeys, by simpa using hparts⟩
  | element shape s =>
    obtain ⟨n, full, inner, rfl, -⟩ := check_element_eq_accepted.mp h
    rwa [subsumes]
  | union ps s ih =>
    obtain ⟨q, hq, hc⟩ := check_union_eq_accepted.mp h
    refine (subsumes_union_left rfl).mpr fun r hr => ⟨q, hq, ?_⟩
    rw [List.mem_singleton.mp hr]
    exact ih q hq hc
  | reference token s ih =>
    obtain ⟨q, inner, hf, hc⟩ := check_reference_eq_accepted.mp h
    exact (subsumes_reference_left rfl).mpr ⟨q, inner, hf, ih q inner hf hc⟩
  | list item s =>
    obtain ⟨items, rfl, hitems⟩ := check_list_eq_accepted.mp h
    rwa [subsumes]

/-- A pattern subsumes a literal value if and only if it accepts the value. -/
theorem subsumes_literal_iff {v : Value} :
    p.subsumes (literal v) s t = .accepted ↔ p.check v s = .accepted := by
  refine ⟨fun h => ?_, subsumes_literal_of_check⟩
  induction p, s using scopeInduction generalizing t with
  | union ps s ih =>
    obtain ⟨q, hq, hsub⟩ := (subsumes_union_left rfl).mp h (literal v) List.mem_cons_self
    exact check_union_eq_accepted.mpr ⟨q, hq, ih q hq hsub⟩
  | reference token s ih =>
    obtain ⟨q, inner, hf, hsub⟩ := (subsumes_reference_left rfl).mp h
    exact check_reference_eq_accepted.mpr ⟨q, inner, hf, ih q inner hf hsub⟩
  | _ => exact subsumes_literal rfl h

theorem subsumes_literal_cases {e : Value} (hq : q.isPlain = true) :
    (∃ v, q = literal v ∧ (literal e).subsumes q s t = e.check v) ∨
      ∃ message, (literal e).subsumes q s t = .reject .mismatch message := by
  cases q with
  | literal v => exact .inl ⟨v, rfl, by rw [subsumes]⟩
  | reference => cases hq
  | union => cases hq
  | _ =>
    refine .inr ?_
    rw [subsumes] <;> first | exact ⟨_, rfl⟩ | simp

theorem subsumes_scalar_cases {kind : Scalar} (hq : q.isPlain = true) :
    (∃ v, q = literal v ∧ (scalar kind).subsumes q s t = kind.check v) ∨
      (∃ other, q = scalar other ∧ kind.covers other = true ∧
        (scalar kind).subsumes q s t = .accepted) ∨
      ∃ message, (scalar kind).subsumes q s t = .reject .mismatch message := by
  cases q with
  | literal v => exact .inl ⟨v, rfl, by rw [subsumes]⟩
  | scalar other =>
    by_cases hc : kind.covers other = true
    · exact .inr (.inl ⟨other, rfl, hc, by rw [subsumes, if_pos hc]⟩)
    · refine .inr (.inr ?_)
      rw [subsumes, if_neg hc]
      exact ⟨_, rfl⟩
  | reference => cases hq
  | union => cases hq
  | _ =>
    refine .inr (.inr ?_)
    rw [subsumes] <;> first | exact ⟨_, rfl⟩ | simp

theorem subsumes_record_cases {fields : Entries Pattern} {isOpen : Bool} (hq : q.isPlain = true) :
    (∃ v, q = literal v ∧
        (record fields isOpen).subsumes q s t = (record fields isOpen).check v s.withEmpty) ∨
      (∃ others othersOpen, q = record others othersOpen ∧ (record fields isOpen).subsumes q s t =
        compareKeys .field (s.policyFor isOpen) othersOpen
          (fields.map fun field => (field.1, fun r => field.2.subsumes r s.withEmpty t.withEmpty))
          others) ∨
      ∃ message, (record fields isOpen).subsumes q s t = .reject .mismatch message := by
  cases q with
  | literal v =>
    cases v with
    | object parts => exact .inl ⟨_, rfl, by rw [subsumes]⟩
    | _ =>
      refine .inr (.inr ?_)
      rw [subsumes] <;> first | exact ⟨_, rfl⟩ | simp
  | record others othersOpen => exact .inr (.inl ⟨others, othersOpen, rfl, by rw [subsumes]⟩)
  | reference => cases hq
  | union => cases hq
  | _ =>
    refine .inr (.inr ?_)
    rw [subsumes] <;> first | exact ⟨_, rfl⟩ | simp

theorem subsumes_list_cases {item : Pattern} (hq : q.isPlain = true) :
    (∃ v, q = literal v ∧ (list item).subsumes q s t = (list item).check v s) ∨
      (∃ other, q = list other ∧ (list item).subsumes q s t = item.subsumes other s t) ∨
      ∃ message, (list item).subsumes q s t = .reject .mismatch message := by
  cases q with
  | literal v =>
    cases v with
    | list items => exact .inl ⟨_, rfl, by rw [subsumes]⟩
    | _ =>
      refine .inr (.inr ?_)
      rw [subsumes] <;> first | exact ⟨_, rfl⟩ | simp
  | list other => exact .inr (.inl ⟨other, rfl, by rw [subsumes]⟩)
  | reference => cases hq
  | union => cases hq
  | _ =>
    refine .inr (.inr ?_)
    rw [subsumes] <;> first | exact ⟨_, rfl⟩ | simp

theorem subsumes_literal_left {e : Value} (hq : q.isPlain = true)
    (h : (literal e).subsumes q s t = .accepted) : ∃ v, q = literal v := by
  obtain ⟨v, hv, -⟩ | ⟨message, hrejected⟩ := subsumes_literal_cases hq
  · exact ⟨v, hv⟩
  · cases hrejected.symm.trans h

theorem subsumes_scalar {kind : Scalar} (hq : q.isPlain = true)
    (h : (scalar kind).subsumes q s t = .accepted) :
    (∃ v, q = literal v) ∨ ∃ other, q = scalar other ∧ kind.covers other = true := by
  obtain ⟨v, hv, -⟩ | ⟨other, hother, hcovers, -⟩ | ⟨message, hrejected⟩ := subsumes_scalar_cases hq
  · exact .inl ⟨v, hv⟩
  · exact .inr ⟨other, hother, hcovers⟩
  · cases hrejected.symm.trans h

theorem subsumes_scalar_self (kind : Scalar) : (scalar kind).subsumes (scalar kind) s t = .accepted := by
  rw [subsumes, if_pos (by simp [Scalar.covers])]

theorem subsumes_record {fields : Entries Pattern} {isOpen : Bool} (hq : q.isPlain = true)
    (h : (record fields isOpen).subsumes q s t = .accepted) :
    (∃ v, q = literal v) ∨ ∃ others othersOpen, q = record others othersOpen ∧
      compareKeys .field (s.policyFor isOpen) othersOpen
        (fields.map fun field => (field.1, fun r => field.2.subsumes r s.withEmpty t.withEmpty))
        others = .accepted := by
  obtain ⟨v, hv, -⟩ | ⟨others, othersOpen, hothers, hkeys⟩ | ⟨message, hrejected⟩ :=
    subsumes_record_cases hq
  · exact .inl ⟨v, hv⟩
  · exact .inr ⟨others, othersOpen, hothers, hkeys.symm.trans h⟩
  · cases hrejected.symm.trans h

theorem subsumes_list {item : Pattern} (hq : q.isPlain = true)
    (h : (list item).subsumes q s t = .accepted) :
    (∃ v, q = literal v) ∨ ∃ other, q = list other ∧ item.subsumes other s t = .accepted := by
  obtain ⟨v, hv, -⟩ | ⟨other, hother, hitem⟩ | ⟨message, hrejected⟩ := subsumes_list_cases hq
  · exact .inl ⟨v, hv⟩
  · exact .inr ⟨other, hother, hitem.symm.trans h⟩
  · cases hrejected.symm.trans h

theorem subsumes_element {shape : Shape Pattern} (hq : q.isPlain = true)
    (h : (element shape).subsumes q s t = .accepted) :
    (∃ v, q = literal v) ∨ ∃ other, q = element other := by
  cases q with
  | literal v => exact .inl ⟨v, rfl⟩
  | element other => exact .inr ⟨other, rfl⟩
  | reference => cases hq
  | union => cases hq
  | _ => rw [subsumes] at h <;> first | cases h | simp

/-- Only a kind subsumes a kind. -/
theorem subsumes_scalar_right {other : Scalar} (hp : p.isPlain = true)
    (h : p.subsumes (scalar other) s t = .accepted) :
    ∃ kind, p = scalar kind ∧ kind.covers other = true := by
  cases p with
  | scalar kind =>
    obtain ⟨v, hv⟩ | ⟨_, hother, hcovers⟩ := subsumes_scalar rfl h
    · cases hv
    · cases hother
      exact ⟨kind, rfl, hcovers⟩
  | literal e =>
    obtain ⟨v, hv⟩ := subsumes_literal_left rfl h
    cases hv
  | record fields isOpen => obtain ⟨v, hv⟩ | ⟨_, _, hv, -⟩ := subsumes_record rfl h <;> cases hv
  | list item => obtain ⟨v, hv⟩ | ⟨_, hv, -⟩ := subsumes_list rfl h <;> cases hv
  | element shape => obtain ⟨v, hv⟩ | ⟨_, hv⟩ := subsumes_element rfl h <;> cases hv
  | reference => cases hp
  | union => cases hp

/-- Induction on a pair of patterns in their scopes, along the way that comparing them takes. The parts
of elements come once their types are resolved, children also once references to them are followed. -/
@[elab_as_elim]
theorem pairInduction {motive : Pattern → Pattern → Scope → Scope → Prop}
    (references : ∀ b c s t, (∀ p s' q t', (s.assuming b c).follow (.reference b) = .ok (p, s') →
      t.follow (.reference c) = .ok (q, t') → motive p q s' t') →
        motive (reference b) (reference c) s t)
    (left : ∀ b q s t, q.isReference = false →
      (∀ p s', s.follow (.reference b) = .ok (p, s') → motive p q s' t) → motive (reference b) q s t)
    (right : ∀ p c s t, p.isReference = false →
      (∀ q t', t.follow (.reference c) = .ok (q, t') → motive p q s t') → motive p (reference c) s t)
    (unionLeft : ∀ ps q s t, q.isReference = false →
      (∀ p ∈ ps, ∀ r ∈ q.alternatives, motive p r s.withEmpty t.withEmpty) → motive (union ps) q s t)
    (unionRight : ∀ p qs s t, p.isPlain = true → (∀ q ∈ qs, motive p q s t.withEmpty) →
      motive p (union qs) s t)
    (record : ∀ fields isOpen q s t, q.isPlain = true →
      (∀ field ∈ fields, ∀ r, motive field.2 r s.withEmpty t.withEmpty) →
        motive (record fields isOpen) q s t)
    (list : ∀ item q s t, q.isPlain = true → (∀ other, motive item other s t) →
      motive (list item) q s t)
    (literal : ∀ e q s t, q.isPlain = true → motive (literal e) q s t)
    (scalar : ∀ kind q s t, q.isPlain = true → motive (scalar kind) q s t)
    (element : ∀ (shape : Shape Pattern) (q : Pattern) (s t : Scope), q.isPlain = true →
      (∀ (other full full' : Shape Pattern) (s' s₁ t₁ : Scope),
        s.assumeTypes shape.typeRef other.typeRef = some s' →
        s'.resolveType shape = .ok (full, s₁) → t.resolveType other = .ok (full', t₁) →
          (∀ entry ∈ full.attributes, ∀ r, motive entry.2 r s₁.withEmpty t₁.withEmpty) ∧
          (∀ child ∈ full.children, ∀ r, motive child.single r s₁.withEmpty t₁.withEmpty) ∧
          ∀ child ∈ full.children, ∀ (r b c : Pattern) (s₂ s₃ t₃ : Scope),
            s₁.withEmpty.assumePair child.single r = some s₂ →
            s₂.follow child.single = .ok (b, s₃) → t₁.withEmpty.follow r = .ok (c, t₃) →
              motive (b.withOccurs .required) (c.withOccurs .required) s₃ t₃) →
        motive (element shape) q s t)
    (p q : Pattern) (s t : Scope) : motive p q s t := by
  have smaller : ∀ p' q' s' t', Prod.Lex (· < ·) (Prod.Lex (· < ·) (· < ·))
      (s'.headroom + t'.headroom, sizeOf p', sizeOf q') (s.headroom + t.headroom, sizeOf p, sizeOf q) →
        motive p' q' s' t' := fun p' q' s' t' _h =>
    pairInduction references left right unionLeft unionRight record list literal scalar element
      p' q' s' t'
  obtain ⟨c, rfl⟩ | hq := eq_reference_or q
  · obtain ⟨b, rfl⟩ | hp := eq_reference_or p
    · refine references b c s t fun p s' q t' hf hf' => smaller _ _ _ _ (measure_lt (.inl ?_))
      have := Scope.headroom_follow hf
      have := Scope.headroom_follow hf'
      simp only [Scope.headroom_assuming] at *
      omega
    · refine right p c s t hp fun q t' hf => smaller _ _ _ _ (measure_lt (.inl ?_))
      have := Scope.headroom_follow hf
      omega
  · obtain ⟨b, rfl⟩ | hp := eq_reference_or p
    · refine left b q s t hq fun p s' hf => smaller _ _ _ _ (measure_lt (.inl ?_))
      have := Scope.headroom_follow hf
      omega
    · obtain ⟨ps, rfl⟩ | hp := eq_union_or hp
      · refine unionLeft ps q s t hq fun p hp r hr => smaller _ _ _ _ (measure_lt (.inr ⟨by simp, .inl ?_⟩))
        have := List.sizeOf_lt_of_mem hp
        simp only [Pattern.union.sizeOf_spec]
        omega
      · obtain ⟨qs, rfl⟩ | hq := eq_union_or hq
        · refine unionRight p qs s t hp fun q hq =>
            smaller _ _ _ _ (measure_lt (.inr ⟨by simp, .inr ⟨rfl, ?_⟩⟩))
          have := List.sizeOf_lt_of_mem hq
          simp only [Pattern.union.sizeOf_spec]
          omega
        · cases p with
          | literal e => exact literal e q s t hq
          | scalar kind => exact scalar kind q s t hq
          | record fields isOpen =>
            refine record fields isOpen q s t hq fun field hf r =>
              smaller _ _ _ _ (measure_lt (.inr ⟨by simp, .inl ?_⟩))
            have := Entries.sizeOf_snd_lt hf
            simp only [Pattern.record.sizeOf_spec]
            omega
          | element shape =>
            refine element shape q s t hq fun other full full' s' s₁ t₁ ha h h' => ⟨?_, ?_, ?_⟩
            · exact fun entry he r => smaller _ _ _ _ (measure_lt
                ((element_measure ha h h' (Shape.sizeOf_attribute_lt he)).imp_right
                  fun hp => ⟨hp.1, .inl hp.2⟩))
            · exact fun child hc r => smaller _ _ _ _ (measure_lt
                ((element_measure ha h h' (Shape.sizeOf_single_lt hc)).imp_right
                  fun hp => ⟨hp.1, .inl hp.2⟩))
            · intro child hc r b c s₂ s₃ t₃ hp hb hc'
              have hpart := element_measure ha h h' (Shape.sizeOf_single_lt hc)
              have hroom := Scope.headroom_assumePair hp
              refine smaller _ _ _ _ ?_
              rw [sizeOf_withOccurs]
              -- A child that is no reference is compared as it is.
              obtain hb | ⟨rfl, rfl⟩ := Scope.follow_measure hb <;>
                obtain hc | ⟨rfl, rfl⟩ := Scope.follow_measure hc' <;>
                exact measure_lt (by omega)
          | union => cases hp
          | reference => cases hp
          | list item =>
            refine list item q s t hq fun other =>
              smaller _ _ _ _ (measure_lt (.inr ⟨rfl, .inl ?_⟩))
            simp
termination_by (s.headroom + t.headroom, sizeOf p, sizeOf q)
decreasing_by exact _h

end Pattern

end PayloadContracts
