import PayloadContracts.Proofs.References

/-!
Scopes that let through at least what another one does: with the same names, or also that of absent
content, with at least as much headroom, and permissive if the other one is.
-/

namespace PayloadContracts.Scope

variable {s t inner : Scope} {p q : Pattern} {name : String}

@[simp] theorem withEmpty_policy (s : Scope) : s.withEmpty.policy = s.policy := by
  unfold withEmpty
  split <;> rfl

@[simp] theorem withEmpty_depthLimit (s : Scope) : s.withEmpty.depthLimit = s.depthLimit := by
  unfold withEmpty
  split <;> rfl

@[simp] theorem withEmpty_caseLimit (s : Scope) : s.withEmpty.caseLimit = s.caseLimit := by
  unfold withEmpty
  split <;> rfl

@[simp] theorem withEmpty_path (s : Scope) : s.withEmpty.path = s.path := by
  unfold withEmpty
  split <;> rfl

@[simp] theorem withEmpty_assumed (s : Scope) : s.withEmpty.assumed = s.assumed := by
  unfold withEmpty
  split <;> rfl

theorem le_headroom {n limit : Nat} (h : s.path.length + n ≤ limit) :
    n ≤ ({ s with depthLimit := limit } : Scope).headroom :=
  Nat.le_sub_of_add_le (Nat.add_comm n _ ▸ h)

theorem withPolicy_withEmpty (policy : KeyPolicy) (s : Scope) :
    (s.withPolicy policy).withEmpty = s.withEmpty.withPolicy policy := by
  unfold withEmpty withPolicy
  split <;> rfl

theorem below_withEmpty (s : Scope) (trail : List String) :
    s.withEmpty.below trail = (s.below trail).withEmpty := by
  unfold withEmpty below
  split <;> rfl

theorem withEmpty_of_contains (h : Entries.contains s.definitions emptyToken = true) :
    s.withEmpty = s := by
  rw [withEmpty, if_pos h]

theorem contains_withEmpty (s : Scope) :
    Entries.contains s.withEmpty.definitions emptyToken = true := by
  unfold withEmpty
  split
  · assumption
  · rw [Entries.contains_iff]
    simp [Entries.names]

theorem withEmpty_definitions_congr (h : t.definitions = s.definitions) :
    t.withEmpty.definitions = s.withEmpty.definitions := by
  simp only [withEmpty, h]
  split <;> simp [h]

@[simp] theorem withEmpty_withEmpty (s : Scope) : s.withEmpty.withEmpty = s.withEmpty :=
  withEmpty_of_contains (contains_withEmpty s)

theorem withEmpty_definitions_of_or
    (h : t.definitions = s.definitions ∨ t.definitions = s.withEmpty.definitions) :
    t.withEmpty.definitions = s.withEmpty.definitions := by
  obtain h | h := h
  · exact withEmpty_definitions_congr h
  · rw [withEmpty_definitions_congr h, withEmpty_withEmpty]

/-- The token of absent content says nothing by itself. -/
theorem lookup_emptyToken (h : Entries.get? s.definitions emptyToken = none) :
    s.lookup emptyToken = .error (.patternNotFound emptyToken) := by
  have hread : Token.read? emptyToken = some (.reference emptyToken) := rfl
  simp [lookup, h, hread]

/-- All other tokens stand for the same with the token of absent content. -/
theorem lookup_withEmpty_of_ne {token : String} (h : token ≠ emptyToken) :
    s.withEmpty.lookup token = s.lookup token := by
  by_cases hc : Entries.contains s.definitions emptyToken = true
  · rw [withEmpty_of_contains hc]
  · have hnone : Entries.get? s.definitions emptyToken = none := by
      simpa [Entries.contains] using hc
    have hget : Entries.get? s.withEmpty.definitions token = Entries.get? s.definitions token := by
      rw [withEmpty, if_neg hc, ← Entries.insert_of_not_mem (Entries.get?_eq_none_iff.mp hnone),
        Entries.get?_insert, if_neg h.symm]
    rw [lookup, lookup, hget]

/-- A name that is defined without the token of absent content stays as it is with it. -/
theorem lookup_withEmpty {token : String} (h : s.lookup token = .ok p) :
    s.withEmpty.lookup token = .ok p := by
  by_cases ht : token = emptyToken
  · obtain rfl := ht
    have hc : Entries.contains s.definitions emptyToken = true := by
      by_contra hc
      rw [lookup_emptyToken (by simpa [Entries.contains] using hc)] at h
      cases h
    rwa [withEmpty_of_contains hc]
  · rwa [lookup_withEmpty_of_ne ht]

theorem slot_reference {token : String} (h : s.follow (.reference token) = .ok (q, inner)) :
    s.slot (.reference token) =
      (inner.slot q).map fun part => ⟨part.occurs, part.name, .reference token⟩ := by
  rw [slot]
  split
  · simp_all
  · rename_i hf
    rw [h] at hf
    cases hf
    cases inner.slot q <;> rfl

/-- A reference has a place if it can be followed to something that has one. -/
theorem slot_reference_eq_ok_iff {token : String} {place : Slot Pattern} :
    s.slot (.reference token) = .ok place ↔
      ∃ q inner part, s.follow (.reference token) = .ok (q, inner) ∧ inner.slot q = .ok part ∧
        place = ⟨part.occurs, part.name, .reference token⟩ := by
  constructor
  · intro h
    rw [slot] at h
    split at h
    · cases h
    · rename_i q inner hf
      split at h <;> cases h
      rename_i part hpart
      exact ⟨q, inner, part, hf, hpart, rfl⟩
  · rintro ⟨q, inner, part, hf, hpart, rfl⟩
    rw [slot_reference hf, hpart]
    rfl

theorem resolveType_element {shape other : Shape Pattern} (hn : shape.typeRef = some name)
    (h : s.follow (.reference (typeToken name)) = .ok (.element other, inner)) :
    s.resolveType shape =
      inner.resolveType
        { shape with
          attributes := Entries.extend shape.attributes other.attributes
          children := other.children
          typeRef := other.typeRef } := by
  rw [resolveType]
  split
  · simp_all
  · rename_i hn'
    cases hn.symm.trans hn'
    split <;> simp_all

theorem resolveType_content {shape : Shape Pattern} {content : Pattern}
    (hn : shape.typeRef = some name)
    (h : s.follow (.reference (typeToken name)) = .ok (content, inner))
    (hc : ∀ other, content = .element other → False) :
    s.resolveType shape = .ok ({ shape with children := [content], typeRef := none }, inner) := by
  rw [resolveType]
  split
  · simp_all
  · rename_i hn'
    cases hn.symm.trans hn'
    split
    · simp_all
    · rename_i hf
      rw [h] at hf
      cases hf
      exact (hc _ rfl).elim
    · rename_i hf
      rw [h] at hf
      cases hf
      rfl

/-- What passes in the first scope passes in the second. -/
structure Within (s t : Scope) : Prop where
  definitions : t.definitions = s.definitions ∨ t.definitions = s.withEmpty.definitions
  policy : t.policy = s.policy ∨ t.policy = .permissive
  headroom : s.headroom ≤ t.headroom

namespace Within

theorem self_withEmpty (s : Scope) : s.Within s.withEmpty :=
  ⟨.inr rfl, .inl (withEmpty_policy s), Nat.le_of_eq (headroom_withEmpty s).symm⟩

theorem withEmpty (h : s.Within t) : s.withEmpty.Within t.withEmpty := by
  refine ⟨.inl (withEmpty_definitions_of_or h.definitions), ?_, ?_⟩
  · simpa only [withEmpty_policy] using h.policy
  · simpa only [headroom_withEmpty] using h.headroom

theorem lookup (h : s.Within t) {token : String} (hl : s.lookup token = .ok p) :
    t.lookup token = .ok p := by
  obtain hd | hd := h.definitions
  · rwa [lookup_congr hd]
  · rw [lookup_congr hd]
    exact lookup_withEmpty hl

theorem below (h : s.Within t) (trail : List String) : (s.below trail).Within (t.below trail) := by
  have hd : (s.below trail).withEmpty.definitions = s.withEmpty.definitions :=
    withEmpty_definitions_congr rfl
  refine ⟨?_, h.policy, ?_⟩
  · rw [hd]
    exact h.definitions
  · rw [headroom_below, headroom_below]
    exact Nat.sub_le_sub_right h.headroom _

theorem follow (h : s.Within t) (hf : s.follow p = .ok (q, inner)) :
    ∃ inner', t.follow p = .ok (q, inner') ∧ inner.Within inner' := by
  obtain ⟨trail, hl, hnd, hroom, rfl⟩ := follow_eq_ok_iff.mp hf
  refine ⟨t.below trail, follow_eq_ok_iff.mpr ⟨trail, ?_, hnd, Nat.le_trans hroom h.headroom, rfl⟩,
    h.below trail⟩
  exact hl.mono fun _ _ hn => h.lookup hn

theorem slot (h : s.Within t) {place : Slot Pattern} (hs : s.slot p = .ok place) :
    t.slot p = .ok place := by
  fun_induction Scope.slot s p generalizing t place with
  | case1 s shape => rw [Scope.slot, ← hs]
  | case2 => cases hs
  | case3 s item part hp ih => rw [Scope.slot, ih h hp, ← hs]
  | case4 => cases hs
  | case5 => cases hs
  | case6 s token q inner hf part hp ih =>
    obtain ⟨inner', hf', hw⟩ := h.follow hf
    rw [slot_reference hf', ih hw hp, ← hs]
    rfl
  | case7 s p he hl hr =>
    rw [Scope.slot, ← hs] <;> assumption

theorem resolveType (h : s.Within t) {shape full : Shape Pattern}
    (hr : s.resolveType shape = .ok (full, inner)) :
    ∃ inner', t.resolveType shape = .ok (full, inner') ∧ inner.Within inner' := by
  fun_induction Scope.resolveType s shape generalizing t with
  | case1 s shape hn =>
    cases hr
    exact ⟨t, by rw [Scope.resolveType, hn], h⟩
  | case2 => cases hr
  | case3 s shape name hn other next hf ih =>
    obtain ⟨next', hf', hw⟩ := h.follow hf
    obtain ⟨inner', hr', hw'⟩ := ih hw hr
    exact ⟨inner', by rw [resolveType_element hn hf', hr'], hw'⟩
  | case4 s shape name hn content next hne hf =>
    cases hr
    obtain ⟨next', hf', hw⟩ := h.follow hf
    exact ⟨next', resolveType_content hn hf' hne, hw⟩

end Within

end PayloadContracts.Scope
