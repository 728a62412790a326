import PayloadContracts.Proofs.Exposed
import PayloadContracts.Proofs.Texts
import PayloadContracts.Proofs.Trimming

/-!
Text that a pattern on the smaller side of a comparison reads, and what the bigger side makes of it.
Main statement: `Pattern.checkText_of_compareText`.
-/

namespace PayloadContracts

open Relation

/-- Of two kinds that compare, the bigger one reads what the smaller one reads, except that absent
content takes null as a value but not as text. -/
theorem Scalar.isSome_value?_of_value? {kind other : Scalar} {text : String}
    (h : kind.covers other = true)
    (hnull : ¬(Text.trim text = "null" ∧ kind = .empty ∧ other = .null))
    (ht : (other.value? text).isSome = true) : (kind.value? text).isSome = true := by
  by_cases hother : other = .null
  · obtain rfl := hother
    obtain rfl | rfl : kind = .null ∨ kind = .empty := by
      cases kind <;> simp_all [covers]
    · exact ht
    · have hcases : Text.trim text = "" ∨ Text.trim text = "null" := by
        by_contra hneither
        simp [value?, hneither] at ht
      obtain hempty | hword := hcases
      · simp [value?, hempty]
      · exact absurd ⟨hword, rfl, rfl⟩ hnull
  · exact isSome_value?_of_covers h hother ht

/-- Text that a kind admits as it stands can also be read. -/
theorem Scalar.isSome_value?_of_admits {kind : Scalar} {text : String}
    (h : kind.admits (.text text) = true) : (kind.value? text).isSome = true := by
  cases kind with
  | string => rfl
  | dateTime =>
    have htrim : Text.isDateTime (Text.trim text) = true := (Text.isDateTime_trim text).trans h
    simp [value?, htrim]
  | numberInString =>
    have htrim : Number.looksNumeric (Text.trim text) = true :=
      (Number.looksNumeric_trim text).trans h
    simp [value?, htrim]
  | empty => simp [value?, Text.trim_of_isBlankText h]
  | _ => cases h

namespace Pattern

variable {s s' t u : Scope} {p q x y : Pattern} {text : String}

section Reading

/-- What reads a text, comes to a plain pattern that does. -/
theorem exists_comesTo_of_checkText (ht : t.Derives u) (h : q.checkText text u = .accepted) :
    ∃ y u', y.isPlain = true ∧ t.ComesTo q y ∧ y.checkText text u' = .accepted := by
  induction q, u using scopeInduction with
  | union qs u ih =>
    obtain ⟨q, hq, hc⟩ := checkText_union_eq_accepted.mp h
    obtain ⟨y, u', hy, hto, hread⟩ := ih q hq ht.withEmpty hc
    exact ⟨y, u', hy, .head (.alternative hq) hto, hread⟩
  | reference token u ih =>
    obtain ⟨q, inner, hf, hc⟩ := checkText_reference_eq_accepted.mp h
    obtain ⟨y, u', hy, hto, hread⟩ := ih q inner hf (ht.follow hf) hc
    obtain ⟨trail, hl, -, -, rfl⟩ := Scope.follow_eq_ok_iff.mp hf
    exact ⟨y, u', hy, (Scope.ComesTo.leads (ht.leads hl)).trans hto, hread⟩
  | _ => exact ⟨_, _, rfl, .refl, h⟩

/-- A union or a chain of references reads what a pattern that it comes to reads. -/
theorem deepReads_of_comesTo (h : s.ComesTo p x) (hx : x.DeepReads text s.withEmpty) :
    p.DeepReads text s.withEmpty := by
  induction h using ReflTransGen.head_induction_on with
  | refl => exact hx
  | @head _ next hstep _ ih =>
    cases hstep with
    | alternative hq =>
      refine deepReads_union.mpr ⟨_, hq, ?_⟩
      rwa [Scope.withEmpty_withEmpty]
    | target hname =>
      obtain ⟨c, rfl⟩ | hq := eq_reference_or next
      · obtain ⟨n, hn⟩ := ih
        obtain ⟨r, inner, hf, hr⟩ := checkText_reference_eq_accepted.mp hn
        obtain ⟨trail, hl, -, -, rfl⟩ := Scope.follow_eq_ok_iff.mp hf
        have hl' : s.withEmpty.Leads (.reference c) trail r := hl.mono fun _ _ hname => hname
        refine (deepReads_of_leads (.hop hname hl')).mpr ?_
        exact (deepReads_of_leads hl').mp ⟨n, hn⟩
      · exact (deepReads_of_leads (.hop hname (.stop hq))).mpr ih

/-- A pattern that can be followed in the scope itself, without the token of absent content, reads
what a plain pattern that it comes to reads in any scope. -/
theorem deepReads_of_plain (hf : s.follow p = .ok (q, s')) (h : s.ComesTo p x)
    (hx : x.isPlain = true) (hread : ∀ u, x.checkText text u = .accepted) : p.DeepReads text s := by
  obtain ⟨trail, hl, -, -, rfl⟩ := Scope.follow_eq_ok_iff.mp hf
  obtain ⟨n, hn⟩ := h.exists_within
  obtain ⟨m, -, hm⟩ := hn.of_leads hx ((Scope.Derives.refl s).leads hl)
  rw [deepReads_of_leads hl]
  obtain ⟨qs, rfl⟩ | hq := eq_union_or hl.isReference_eq_false
  · obtain ⟨q, hq, hto⟩ := hm.of_union hx
    refine deepReads_union.mpr ⟨q, hq, deepReads_of_comesTo hto.comesTo ?_⟩
    exact deepReads_of_checkText (hread _)
  · obtain rfl := hm.eq_of_isPlain hq
    exact deepReads_of_checkText (hread _)

end Reading

theorem exists_follow_of_subsumes (hfresh : s.assumed = []) (h : p.subsumes q s t = .accepted) :
    ∃ p' s', s.follow p = .ok (p', s') := by
  obtain ⟨b, rfl⟩ | hp := eq_reference_or p
  · obtain ⟨c, rfl⟩ | hq := eq_reference_or q
    · obtain hbc | ⟨p', s', q', t', hf, -⟩ := subsumes_references.mp h
      · simp [Scope.isAssumed, hfresh] at hbc
      · obtain ⟨trail, hl, -, hroom, rfl⟩ := Scope.follow_eq_ok_iff.mp hf
        have hl' : s.Leads (.reference b) trail p' := hl.mono fun _ _ hname => hname
        exact ⟨p', s.below trail, Scope.follow_of_leads hl' hroom⟩
    · obtain ⟨p', s', hf, -⟩ := (subsumes_reference_left hq).mp h
      exact ⟨p', s', hf⟩
  · exact ⟨p, s, Scope.follow_self hp⟩

/-- A plain kind or literal text. -/
def IsWording : Pattern → Prop
  | literal (.text _) => True
  | scalar _ => True
  | _ => False

/-- Text is accepted as itself, or by a kind that admits it. -/
theorem check_text {e : String} (hx : x.isPlain = true) (h : x.check (.text e) s = .accepted) :
    x = literal (.text e) ∨ ∃ kind, x = scalar kind ∧ kind.admits (.text e) = true := by
  cases x with
  | scalar kind => exact .inr ⟨kind, rfl, check_scalar_eq_accepted.mp h⟩
  | literal v =>
    have hsame := check_literal_eq_accepted.mp h
    cases v with
    | text e' => exact .inl (by simpa [Value.same] using hsame)
    | _ => simp [Value.same] at hsame
  | record fields isOpen =>
    obtain ⟨_, hv, -⟩ := check_record_eq_accepted.mp h
    cases hv
  | list item =>
    obtain ⟨_, hv, -⟩ := check_list_eq_accepted.mp h
    cases hv
  | element shape =>
    obtain ⟨_, _, _, hv, -⟩ := check_element_eq_accepted.mp h
    cases hv
  | reference => cases hx
  | union => cases hx

/-- As `Scalar.isSome_value?_of_value?`, for plain patterns. -/
theorem checkText_of_subsumes_plain (hwording : y.IsWording) (hx : x.isPlain = true)
    (h : x.subsumes y s t = .accepted) (hread : y.checkText text u = .accepted)
    (hnull : ¬(Text.trim text = "null" ∧ x = scalar .empty ∧ y = scalar .null)) (s' : Scope) :
    x.checkText text s' = .accepted := by
  cases y with
  | scalar other =>
    obtain ⟨kind, rfl, hcovers⟩ := subsumes_scalar_right hx h
    rw [checkText_scalar_eq_accepted] at hread ⊢
    refine Scalar.isSome_value?_of_value? hcovers ?_ hread
    rintro ⟨hword, rfl, rfl⟩
    exact hnull ⟨hword, rfl, rfl⟩
  | literal v =>
    cases v with
    | text e =>
      obtain rfl := checkText_literal_text.mp hread
      obtain rfl | ⟨kind, rfl, hadmits⟩ := check_text hx (subsumes_literal hx h)
      · exact checkText_literal_text.mpr rfl
      · exact checkText_scalar_eq_accepted.mpr (Scalar.isSome_value?_of_admits hadmits)
    | _ => cases hwording
  | _ => cases hwording

/-- Text that the smaller side of a comparison of texts accepts, the bigger side accepts with enough
headroom. The word for null is an exception where the bigger side has absent content for it. -/
theorem checkText_of_compareText (hfresh : s.assumed = [])
    (hwordings : ∀ y, y.isPlain = true → t.ComesTo q y → y.IsWording)
    (hnull : Text.trim text = "null" → t.ComesTo q (scalar .null) → s.ComesTo p (scalar .empty) →
      s.ComesTo p (scalar .null) ∨ s.ComesTo p (scalar .string))
    (h : compareText (fun text => p.checkText text s) (fun q => p.subsumes q s t) q = .accepted)
    (hread : q.checkText text t = .accepted) :
    ∃ n, ∀ limit, n ≤ limit → p.checkText text { s with depthLimit := limit } = .accepted := by
  obtain ⟨e, rfl⟩ | hcompare : (∃ e, q = literal (.text e)) ∨ p.subsumes q s t = .accepted := by
    unfold compareText at h
    split at h
    · exact .inl ⟨_, rfl⟩
    · exact .inr h
  · obtain rfl := checkText_literal_text.mp hread
    exact (deepReads_of_checkText h).exists_limit
  · obtain ⟨p', s', hf⟩ := exists_follow_of_subsumes hfresh hcompare
    have hreads : ∀ {x}, s.ComesTo p x → x.isPlain = true →
        (∀ u, x.checkText text u = .accepted) → p.DeepReads text s :=
      fun hto hx hread => deepReads_of_plain hf hto hx hread
    apply DeepReads.exists_limit
    obtain ⟨y, u, hy, hqy, hread⟩ := exists_comesTo_of_checkText (.refl t) hread
    obtain ⟨x, s₁, t₁, hx, hpx, -, -, hxy⟩ := takes_of_subsumes hfresh hcompare hy hqy
    by_cases hexception : Text.trim text = "null" ∧ x = scalar .empty ∧ y = scalar .null
    · obtain ⟨hword, rfl, rfl⟩ := hexception
      have hvalue : (Scalar.null.value? text).isSome = true := by simp [Scalar.value?, hword]
      obtain hto | hto := hnull hword hqy hpx
      · exact hreads hto rfl fun u => checkText_scalar_eq_accepted.mpr hvalue
      · exact hreads hto rfl fun u => checkText_scalar_eq_accepted.mpr rfl
    · exact hreads hpx hx (checkText_of_subsumes_plain (hwordings y hy hqy) hx hxy hread hexception)

end Pattern

namespace Ages

open Pattern

/-- A number, or null where it is not known. -/
def age : Pattern := .union [.scalar .number, .scalar .null]

def scope : Scope := .ofDefinitions [("(Age)", age)] ⟨.strict, 8, 100⟩

variable {s t : Scope}

theorem leads_age (h : scope.Derives s) : s.Leads (.reference "(Age)") ["(Age)"] age := by
  refine .hop ?_ (.stop rfl)
  rw [h.lookup_eq (by decide)]
  rfl

theorem age_subsumes (h : scope.Derives s) (hroom : 0 < s.headroom) {kind : Scalar}
    (hkind : scalar kind ∈ [scalar .number, scalar .null]) :
    (reference "(Age)").subsumes (scalar kind) s t = .accepted := by
  refine (subsumes_reference_left rfl).mpr ⟨age, _, Scope.follow_of_leads (leads_age h) hroom, ?_⟩
  refine (subsumes_union_left rfl).mpr fun r hr => ⟨_, hkind, ?_⟩
  rw [List.mem_singleton.mp hr]
  exact subsumes_scalar_self kind

theorem nullable_subsumes :
    (nullable (.reference "(Age)")).subsumes (.reference "(Age)") scope scope = .accepted := by
  have hf := Scope.follow_of_leads (leads_age (.refl scope)) (by decide)
  refine (subsumes_reference_right rfl).mpr ⟨age, _, hf, (subsumes_union_left rfl).mpr ?_⟩
  intro r hr
  refine ⟨.reference "(Age)", by simp, ?_⟩
  obtain ⟨kind, rfl⟩ : ∃ kind, r = .scalar kind := by
    obtain rfl | hr := List.mem_cons.mp hr
    · exact ⟨_, rfl⟩
    · exact ⟨_, List.mem_singleton.mp hr⟩
  exact age_subsumes (Scope.Derives.refl scope).withEmpty (by decide) hr

theorem isWording_of_comesTo {y : Pattern} (hy : y.isPlain = true)
    (h : scope.ComesTo (.reference "(Age)") y) : y.IsWording := by
  obtain ⟨n, hn⟩ := h.exists_within
  obtain ⟨m, -, hm⟩ := hn.of_leads hy (leads_age (Scope.Derives.refl scope).withEmpty)
  obtain ⟨q, hq, hqy⟩ := hm.of_union hy
  obtain rfl | hq := List.mem_cons.mp hq
  · rw [hqy.eq_of_isPlain rfl]
    trivial
  · obtain rfl := List.mem_singleton.mp hq
    rw [hqy.eq_of_isPlain rfl]
    trivial

theorem comesTo_null {p : Pattern} (h : scope.ComesTo p (.reference "(Age)")) :
    scope.ComesTo p (.scalar .null) := by
  have hage : scope.ComesTo (.reference "(Age)") age :=
    .leads (leads_age (Scope.Derives.refl scope).withEmpty)
  exact h.trans (hage.tail (.alternative (by simp)))

end Ages

namespace Pattern

theorem checkText_of_compareText_age :
    Ages.scope.assumed = [] ∧
      (∀ y, y.isPlain = true → Ages.scope.ComesTo (reference "(Age)") y → y.IsWording) ∧
      (Text.trim "null" = "null" → Ages.scope.ComesTo (reference "(Age)") (scalar .null) →
        Ages.scope.ComesTo (nullable (reference "(Age)")) (scalar .empty) →
          Ages.scope.ComesTo (nullable (reference "(Age)")) (scalar .null) ∨
            Ages.scope.ComesTo (nullable (reference "(Age)")) (scalar .string)) ∧
      compareText (fun text => (nullable (reference "(Age)")).checkText text Ages.scope)
        (fun q => (nullable (reference "(Age)")).subsumes q Ages.scope Ages.scope)
        (reference "(Age)") = .accepted ∧
      (reference "(Age)").checkText "null" Ages.scope = .accepted ∧
      ∃ n, ∀ limit, n ≤ limit → (nullable (reference "(Age)")).checkText "null"
        { Ages.scope with depthLimit := limit } = .accepted := by
  have hnull : Ages.scope.ComesTo (nullable (reference "(Age)")) (scalar .null) :=
    Ages.comesTo_null (.single (.alternative (by simp)))
  have hread : (reference "(Age)").checkText "null" Ages.scope = .accepted := by
    refine (checkText_of_leads (Ages.leads_age (.refl _))).mpr ⟨by decide, ?_⟩
    refine checkText_union_eq_accepted.mpr ⟨scalar .null, by simp, ?_⟩
    exact checkText_scalar_eq_accepted.mpr (by decide)
  refine ⟨rfl, fun _ => Ages.isWording_of_comesTo, fun _ _ _ => .inl hnull, Ages.nullable_subsumes,
    hread, ?_⟩
  exact checkText_of_compareText rfl (fun _ => Ages.isWording_of_comesTo) (fun _ _ _ => .inl hnull)
    Ages.nullable_subsumes hread

/-- The word for null, read as null on the smaller side, is no text for a number that may be left out,
though the two compare. -/
theorem not_checkText_of_compareText :
    let s : Scope := .ofDefinitions [] ⟨.strict, 8, 100⟩
    compareText (fun text => (nullable (scalar .number)).checkText text s)
        (fun q => (nullable (scalar .number)).subsumes q s s) (scalar .null) = .accepted ∧
      (scalar .null).checkText "null" s = .accepted ∧
      ∀ limit, (nullable (scalar .number)).checkText "null" { s with depthLimit := limit } ≠
        .accepted := by
  intro s
  have hempty : s.withEmpty.lookup emptyToken = .ok (scalar .empty) := rfl
  refine ⟨?_, checkText_scalar_eq_accepted.mpr (by decide), fun limit h => ?_⟩
  · refine (subsumes_union_left rfl).mpr fun r hr => ⟨reference emptyToken, by simp, ?_⟩
    obtain rfl := List.mem_singleton.mp hr
    refine (subsumes_reference_left rfl).mpr ⟨scalar .empty, _,
      Scope.follow_of_leads (.hop hempty (.stop rfl)) (by decide), ?_⟩
    rw [subsumes, if_pos (by decide)]
  · obtain ⟨q, hq, hread⟩ := deepReads_union.mp (deepReads_of_checkText h)
    obtain rfl | hq := List.mem_cons.mp hq
    · have hsome := ((Denotes.absent hempty).deepReads_iff rfl).mp hread
      exact absurd hsome (by decide)
    · obtain rfl := List.mem_singleton.mp hq
      have hsome := ((Denotes.scalar (s := s) .number).deepReads_iff rfl).mp hread
      exact absurd hsome (by decide)

end Pattern

end PayloadContracts
