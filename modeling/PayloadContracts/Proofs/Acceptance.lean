import PayloadContracts.Proofs.Scopes
import PayloadContracts.Proofs.Verdicts

/-!
What a pattern accepts, one statement for each kind of pattern, and induction on a pattern in a
scope: parts come before the whole, and the pattern behind a reference before the reference.
-/

namespace PayloadContracts

/-- A place with the check of a child in it. -/
def Scope.placeCheck (s : Scope) (slot : Slot Pattern) : Slot (Value → Verdict) :=
  { slot with
    content := checkChild slot.name slot.content.typeName (fun t => slot.content.checkText t s)
      (fun w => slot.content.check w s) }

/-- An element in its place is checked as its content says. -/
theorem Scope.placeCheck_named {s : Scope} {place : Slot Pattern} {name : String} {v : Value}
    (h : place.name = some name) :
    (s.placeCheck place).content v = .accepted ↔ place.content.check v s = .accepted := by
  rw [placeCheck, h, checkChild_some]

namespace Shape

/-- The attributes are those that the element declares, with texts that it accepts. -/
structure AllowsAttributes (full : Shape Pattern) (attributes : Entries String) (s : Scope) : Prop where
  names : keyMismatch? (Entries.names (contentAttributes full.attributes))
    (Entries.names (contentAttributes attributes)) s.policy attributeMark = none
  texts : ∀ entry ∈ contentAttributes full.attributes, ∀ text,
    Entries.get? (contentAttributes attributes) (canonical entry.1 attributeMark) = some text →
      entry.2.checkText text s.withEmpty = .accepted

/-- The children fit the places of the element. -/
def AllowsChildren (full : Shape Pattern) (children : List Value) (s : Scope) : Prop :=
  ∃ places, List.Forall₂ (fun child place => s.slot child = .ok place) full.children places ∧
    checkSlots (places.map s.placeCheck) (children.filter fun child => !child.isLayout) = .accepted

end Shape

namespace Pattern

/-- Induction on a pattern in a scope, along the way that checking takes. -/
@[elab_as_elim]
theorem scopeInduction {motive : Pattern → Scope → Prop}
    (literal : ∀ v s, motive (literal v) s)
    (scalar : ∀ kind s, motive (scalar kind) s)
    (record : ∀ fields isOpen s, (∀ field ∈ fields, motive field.2 s.withEmpty) →
      motive (record fields isOpen) s)
    (element : ∀ shape s, (∀ full inner, s.resolveType shape = .ok (full, inner) →
      (∀ entry ∈ full.attributes, motive entry.2 inner.withEmpty) ∧
        ∀ child ∈ full.children, motive child.single inner.withEmpty) → motive (element shape) s)
    (union : ∀ ps s, (∀ q ∈ ps, motive q s.withEmpty) → motive (union ps) s)
    (reference : ∀ token s, (∀ q inner, s.follow (.reference token) = .ok (q, inner) →
      motive q inner) → motive (reference token) s)
    (list : ∀ item s, motive item s → motive (list item) s)
    (p : Pattern) (s : Scope) : motive p s :=
  match p with
  | .literal v => literal v s
  | .scalar kind => scalar kind s
  | .record fields isOpen =>
    record fields isOpen s fun field _ =>
      scopeInduction literal scalar record element union reference list field.2 s.withEmpty
  | .element shape =>
    element shape s fun full inner _h =>
      ⟨fun entry _ =>
        scopeInduction literal scalar record element union reference list entry.2 inner.withEmpty,
      fun child _ =>
        scopeInduction literal scalar record element union reference list child.single
          inner.withEmpty⟩
  | .union ps =>
    union ps s fun q _ =>
      scopeInduction literal scalar record element union reference list q s.withEmpty
  | .reference token =>
    reference token s fun q inner _h =>
      scopeInduction literal scalar record element union reference list q inner
  | .list item =>
    list item s (scopeInduction literal scalar record element union reference list item s)
termination_by (s.headroom, sizeOf p)
decreasing_by
  · rename_i h
    rw [Scope.headroom_withEmpty]
    exact Prod.Lex.right _ (by have := Entries.sizeOf_snd_lt h; simp; omega)
  · rename_i h'
    exact Scope.part_measure _h (Shape.sizeOf_attribute_lt h')
  · rename_i h'
    exact Scope.part_measure _h (Shape.sizeOf_single_lt h')
  · rename_i h
    rw [Scope.headroom_withEmpty]
    exact Prod.Lex.right _ (by have := List.sizeOf_lt_of_mem h; simp; omega)
  · exact Prod.Lex.left _ _ (Scope.headroom_follow _h)
  · exact Prod.Lex.right _ (by simp)

variable {s inner : Scope} {v : Value}

theorem check_literal {e : Value} : (literal e).check v s = e.check v := by
  rw [check]

theorem check_literal_eq_accepted {e : Value} :
    (literal e).check v s = .accepted ↔ e.same v = true := by
  rw [check_literal, Value.check]
  split <;> simp_all [Verdict.mismatch, Verdict.reject]

theorem check_scalar_eq_accepted {kind : Scalar} :
    (scalar kind).check v s = .accepted ↔ kind.admits v = true := by
  rw [check, Scalar.check]
  split <;> simp_all [Verdict.mismatch, Verdict.reject]

theorem check_record_eq_accepted {fields : Entries Pattern} {isOpen : Bool} :
    (record fields isOpen).check v s = .accepted ↔
      ∃ parts, v = .object parts ∧
        keyMismatch? (Entries.names fields) (Entries.names parts) (s.policyFor isOpen) fieldMark =
          none ∧
        ∀ field ∈ fields, ∀ part, Entries.get? parts (canonical field.1 fieldMark) = some part →
          field.2.check part s.withEmpty = .accepted := by
  cases v with
  | object parts =>
    rw [check, checkKeys_eq_accepted, Entries.names_map, List.forall_mem_map]
    simp only [Value.object.injEq, exists_eq_left', KeyKind.canonical, KeyKind.field]
  | _ => rw [check] <;> simp [Verdict.mismatch, Verdict.reject]

theorem check_union_eq_accepted {ps : List Pattern} :
    (union ps).check v s = .accepted ↔ ∃ q ∈ ps, q.check v s.withEmpty = .accepted := by
  rw [check, Verdict.mismatch, Verdict.reject, checkUnion_eq_accepted]
  simp

theorem check_list_eq_accepted {item : Pattern} :
    (list item).check v s = .accepted ↔
      ∃ items, v = .list items ∧ ∀ w ∈ items, item.check w s = .accepted := by
  cases v with
  | list items => rw [check]; simp [checkItems_eq_accepted]
  | _ => rw [check] <;> simp [Verdict.mismatch, Verdict.reject]

theorem check_reference {token : String} {q : Pattern}
    (h : s.follow (.reference token) = .ok (q, inner)) :
    (reference token).check v s = q.check v inner := by
  rw [check]
  split
  · simp_all
  · rename_i hf
    cases h.symm.trans hf
    rfl

theorem check_reference_eq_accepted {token : String} :
    (reference token).check v s = .accepted ↔
      ∃ q inner, s.follow (.reference token) = .ok (q, inner) ∧ q.check v inner = .accepted := by
  constructor
  · intro h
    rw [check] at h
    split at h
    · cases h
    · exact ⟨_, _, ‹_›, h⟩
  · rintro ⟨q, inner, hf, h⟩
    rwa [check_reference hf]

/-- A chain of references is accepted as what it leads to, if there is headroom for its names. -/
theorem check_of_leads {p q : Pattern} {trail : List String} (h : s.Leads p trail q) :
    p.check v s = .accepted ↔
      trail.length ≤ s.headroom ∧ q.check v (s.below trail) = .accepted := by
  cases h with
  | stop => simp
  | hop hn rest => rw [check_reference_eq_accepted, Scope.exists_follow_iff (.hop hn rest)]

theorem check_element {shape full : Shape Pattern} {n : Node Value} (hn : n.name = shape.name)
    (h : s.resolveType shape = .ok (full, inner)) :
    (element shape).check (.node n) s =
      (checkKeys .attributes inner.policy
        (contentAttributes (full.attributes.map fun entry =>
          (entry.1, fun text => entry.2.checkText text inner.withEmpty)))
        (contentAttributes n.attributes)).andThen fun _ =>
          match collect (full.children.map fun child _ =>
            (inner.withEmpty.slot child).map inner.withEmpty.placeCheck) with
          | .error e => .ofError e
          | .ok slots => checkSlots slots (n.children.filter fun child => !child.isLayout) := by
  have hplace : ∀ child : Pattern, (inner.withEmpty.slot child).map inner.withEmpty.placeCheck =
      (inner.withEmpty.slot child).map fun slot =>
        { slot with
          content := checkChild slot.name child.single.typeName
            (fun t => child.single.checkText t inner.withEmpty)
            (fun w => child.single.check w inner.withEmpty) } := by
    intro child
    cases hs : inner.withEmpty.slot child with
    | error e => rfl
    | ok slot => simp only [Except.map, Scope.placeCheck, Scope.content_slot hs]
  rw [check, if_neg (by simp [hn])]
  split
  · simp_all
  · rename_i h'
    cases h.symm.trans h'
    simp only [hplace, List.map_attach_eq_pmap, List.pmap_eq_map]
    rfl

theorem check_element_eq_accepted {shape : Shape Pattern} :
    (element shape).check v s = .accepted ↔
      ∃ n full inner, v = .node n ∧ n.name = shape.name ∧ s.resolveType shape = .ok (full, inner) ∧
        full.AllowsAttributes n.attributes inner ∧
        full.AllowsChildren n.children inner.withEmpty := by
  constructor
  · intro h
    cases v with
    | node n =>
      by_cases hn : n.name = shape.name
      · cases hr : s.resolveType shape with
        | error e =>
          rw [check, if_neg (by simp [hn])] at h
          split at h <;> simp_all [Verdict.ofError]
        | ok r =>
          obtain ⟨full, inner⟩ := r
          rw [check_element hn hr, Verdict.andThen_eq_accepted, contentAttributes_map,
            checkKeys_eq_accepted, Entries.names_map, List.forall_mem_map] at h
          obtain ⟨⟨hkeys, htexts⟩, hslots⟩ := h
          split at hslots
          · cases hslots
          · rename_i slots hc
            rw [collect_eq_ok_iff, List.forall₂_map_left_iff, forall₂_map_eq_ok] at hc
            obtain ⟨places, hp, rfl⟩ := hc
            exact ⟨n, full, inner, rfl, hn, rfl, ⟨hkeys, htexts⟩, places, hp, hslots⟩
      · rw [check, if_pos hn] at h
        cases h
    | _ =>
      rw [check] at h
      · cases h
      · simp
  · rintro ⟨n, full, inner, rfl, hn, hr, ⟨hkeys, htexts⟩, places, hp, hslots⟩
    have hc : collect (full.children.map fun child _ =>
        (inner.withEmpty.slot child).map inner.withEmpty.placeCheck) =
          .ok (places.map inner.withEmpty.placeCheck) := by
      rw [collect_eq_ok_iff, List.forall₂_map_left_iff, forall₂_map_eq_ok]
      exact ⟨places, hp, rfl⟩
    rw [check_element hn hr, hc, Verdict.andThen_eq_accepted, contentAttributes_map,
      checkKeys_eq_accepted, Entries.names_map, List.forall_mem_map]
    exact ⟨⟨hkeys, htexts⟩, hslots⟩

end Pattern

end PayloadContracts
