import PayloadContracts.Proofs.Elements

/-!
Scopes that come about from another one while patterns are compared or checked in it.
-/

namespace PayloadContracts

namespace Scope

variable {s t u inner : Scope} {p q : Pattern} {holds : Pattern → Prop}

/-- The second scope has come about from the first by entering names and putting pairs under
comparison, perhaps with the token of absent content. -/
structure Derives (s t : Scope) : Prop where
  definitions : t.withEmpty.definitions = s.withEmpty.definitions
  policy : t.policy = s.policy

namespace Derives

theorem refl (s : Scope) : s.Derives s := ⟨rfl, rfl⟩

theorem withEmpty (h : s.Derives t) : s.Derives t.withEmpty :=
  ⟨by rw [withEmpty_withEmpty, h.definitions], by rw [withEmpty_policy, h.policy]⟩

theorem congr (h : s.Derives t) (hd : u.definitions = t.definitions) (hp : u.policy = t.policy) :
    s.Derives u :=
  ⟨(withEmpty_definitions_congr hd).trans h.definitions, hp.trans h.policy⟩

theorem below (h : s.Derives t) (trail : List String) : s.Derives (t.below trail) := h.congr rfl rfl

theorem follow (h : s.Derives t) (hf : t.follow p = .ok (q, inner)) : s.Derives inner := by
  obtain ⟨trail, -, -, -, rfl⟩ := follow_eq_ok_iff.mp hf
  exact h.below trail

theorem resolveType (h : s.Derives t) {shape full : Shape Pattern}
    (hr : t.resolveType shape = .ok (full, inner)) : s.Derives inner := by
  obtain ⟨trail, -, -, rfl⟩ := resolveType_eq_ok_iff.mp hr
  exact h.below trail

theorem assuming (h : s.Derives t) (bigger smaller : String) : s.Derives (t.assuming bigger smaller) :=
  h.congr rfl rfl

theorem assumePair (h : s.Derives t) (ha : t.assumePair p q = some u) : s.Derives u := by
  obtain rfl | ⟨b, c, -, -, -, rfl⟩ := assumePair_eq_some ha
  · exact h
  · exact h.assuming b c

theorem assumeTypes (h : s.Derives t) {b c : Option String} (ha : t.assumeTypes b c = some u) :
    s.Derives u := by
  obtain rfl | ⟨b, c, -, -, -, rfl⟩ := assumeTypes_eq_some ha
  · exact h
  · exact h.assuming b c

theorem lookup (h : s.Derives t) {token : String} (hl : t.lookup token = .ok p) :
    s.withEmpty.lookup token = .ok p := by
  rw [← lookup_congr h.definitions]
  exact lookup_withEmpty hl

theorem lookup_eq (h : s.Derives t) {token : String} (ht : token ≠ emptyToken) :
    t.lookup token = s.lookup token := by
  rw [← lookup_withEmpty_of_ne ht, lookup_congr h.definitions, lookup_withEmpty_of_ne ht]

theorem leads (h : s.Derives t) {trail : List String} (hl : t.Leads p trail q) :
    s.withEmpty.Leads p trail q :=
  hl.mono fun _ _ => h.lookup

theorem resolves (h : s.Derives t) {shape full : Shape Pattern} {trail : List String}
    (hr : t.Resolves shape trail full) : s.withEmpty.Resolves shape trail full :=
  hr.mono fun _ _ => h.lookup

theorem every (h : s.Derives t) (hs : s.Every holds) (hh : Pattern.Spelled holds) : t.Every holds := by
  intro entry he
  have ht : t.withEmpty.Every holds := (hs.withEmpty hh).congr h.definitions
  apply ht
  unfold Scope.withEmpty
  split
  · exact he
  · exact List.mem_append_left _ he

end Derives

end Scope

end PayloadContracts
