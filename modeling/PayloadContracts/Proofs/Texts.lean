import PayloadContracts.Proofs.Comparisons
import PayloadContracts.Proofs.Depth

/-!
Texts of elements and attributes that are literal or of some plain kinds. Main statements:
`Pattern.IsText.reads_of_compareText` for text and `Pattern.IsText.accepts_of_compareText` for other
content.
-/

namespace PayloadContracts

namespace Scalar

variable {kind other : Scalar} {text : String} {v : Value}

theorem admits_of_value? (h : kind.value? text = some v) : kind.admits v = true := by
  cases kind <;> simp only [value?, Option.map_eq_some_iff] at h
  case number => obtain ⟨x, -, rfl⟩ := h; rfl
  case string => cases h; rfl
  case boolean => split at h <;> [skip; split at h] <;> cases h <;> rfl
  case null => split at h <;> cases h; rfl
  case empty => split at h <;> cases h; rfl
  case dateTime => split at h <;> cases h; assumption
  case numberInString => split at h <;> cases h; assumption

/-- Text of the smaller kind can be read as the bigger one; only null has a text of its own. -/
theorem isSome_value?_of_covers (h : kind.covers other = true) (hnull : other ≠ .null)
    (ht : (other.value? text).isSome = true) : (kind.value? text).isSome = true := by
  have hcases : kind = other ∨ kind = .string ∨ other = .null := by
    cases kind <;> cases other <;> simp_all [covers]
  obtain rfl | rfl | rfl := hcases
  · exact ht
  · rfl
  · exact absurd rfl hnull

end Scalar

namespace Pattern

variable {kinds : Scalar → Prop} {p q : Pattern} {s s' t t' u : Scope} {kind other : Scalar}
  {text : String} {v : Value}

theorem checkText_scalar_eq_accepted :
    (scalar kind).checkText text s = .accepted ↔ (kind.value? text).isSome = true := by
  rw [checkText_eq_accepted, Option.isSome_iff_exists]
  simp only [read, Scalar.read, check_scalar_eq_accepted]
  cases hv : kind.value? text with
  | none => simp
  | some v => simpa using Scalar.admits_of_value? hv

theorem checkText_literal_text {e : String} :
    (literal (.text e)).checkText text s = .accepted ↔ e = text := by
  rw [checkText_eq_accepted]
  constructor
  · rintro ⟨v, hv, hc⟩
    rw [read] at hv
    cases hv
    simpa [Value.same] using check_literal_eq_accepted.mp hc
  · rintro rfl
    exact ⟨.text e, by rw [read]; rfl, check_literal_eq_accepted.mpr (by simp [Value.same])⟩

/-- The pattern stands for a plain kind, in scopes with the same definitions. -/
inductive Denotes (s : Scope) : Pattern → Scalar → Prop
  | scalar (kind : Scalar) : Denotes s (scalar kind) kind
  | absent (h : s.withEmpty.lookup emptyToken = .ok (.scalar .empty)) :
    Denotes s (reference emptyToken) .empty

/-- The pattern accepts the text when there is enough headroom. -/
def DeepReads (p : Pattern) (text : String) (s : Scope) : Prop :=
  ∃ n, p.checkText text (s.deepened n) = .accepted

theorem DeepReads.loosen (h : p.DeepReads text s) (hl : s.Loosens t) : p.DeepReads text t := by
  obtain ⟨n, hn⟩ := h
  exact ⟨n, (hl.deepened (Nat.le_refl n)).checkText hn⟩

theorem deepReads_of_checkText (h : p.checkText text s = .accepted) : p.DeepReads text s :=
  ⟨s.headroom, s.within_deepened.checkText h⟩

/-- From some limit on, every limit is enough. -/
theorem DeepReads.exists_limit (h : p.DeepReads text s) :
    ∃ n, ∀ limit, n ≤ limit → p.checkText text { s with depthLimit := limit } = .accepted := by
  obtain ⟨n, hn⟩ := h
  exact ⟨s.path.length + n, fun _ hlimit => (Scope.deepened_within_limit hlimit).checkText hn⟩

/-- With enough headroom a chain of references reads what it leads to reads. -/
theorem deepReads_of_leads {trail : List String} (h : s.Leads p trail q) :
    p.DeepReads text s ↔ q.DeepReads text s := by
  have hl : ∀ n, (s.deepened n).Leads p trail q := fun n => h.mono fun _ _ hname => hname
  constructor
  · rintro ⟨n, hn⟩
    obtain ⟨-, hc⟩ := (checkText_of_leads (hl n)).mp hn
    exact (deepReads_of_checkText hc).loosen (.congr rfl rfl)
  · rintro ⟨n, hn⟩
    exact ⟨n + trail.length, (checkText_of_leads (hl _)).mpr
      ⟨by simp, (s.deepened_within_below n trail).checkText hn⟩⟩

theorem deepReads_union {ps : List Pattern} :
    (union ps).DeepReads text s ↔ ∃ q ∈ ps, q.DeepReads text s.withEmpty := by
  simp only [DeepReads, checkText_union_eq_accepted, ← Scope.deepened_withEmpty]
  exact ⟨fun ⟨n, q, hq, h⟩ => ⟨q, hq, n, h⟩, fun ⟨q, hq, n, h⟩ => ⟨n, q, hq, h⟩⟩

theorem deepAccepts_union {ps : List Pattern} :
    (union ps).DeepAccepts v s ↔ ∃ q ∈ ps, q.DeepAccepts v s.withEmpty := by
  simp only [DeepAccepts, check_union_eq_accepted, ← Scope.deepened_withEmpty]
  exact ⟨fun ⟨n, q, hq, h⟩ => ⟨q, hq, n, h⟩, fun ⟨q, hq, n, h⟩ => ⟨n, q, hq, h⟩⟩

theorem deepReads_alternatives (hs : s.withEmpty = s) :
    p.DeepReads text s ↔ ∃ q ∈ p.alternatives, q.DeepReads text s := by
  cases p with
  | union ps => rw [deepReads_union, hs]; rfl
  | _ => simp [alternatives]

theorem deepAccepts_alternatives (hs : s.withEmpty = s) :
    p.DeepAccepts v s ↔ ∃ q ∈ p.alternatives, q.DeepAccepts v s := by
  cases p with
  | union ps => rw [deepAccepts_union, hs]; rfl
  | _ => simp [alternatives]

namespace Denotes

theorem unique (h : Denotes s p kind) (h' : Denotes s p other) : kind = other := by
  cases h <;> cases h' <;> rfl

theorem leads (h : s.withEmpty.lookup emptyToken = .ok (.scalar .empty))
    (hu : u.definitions = s.withEmpty.definitions) :
    u.Leads (.reference emptyToken) [emptyToken] (.scalar .empty) :=
  .hop ((Scope.lookup_congr hu emptyToken).trans h) (.stop rfl)

theorem eq_of_follow (h : s.withEmpty.lookup emptyToken = .ok (.scalar .empty))
    (hu : u.definitions = s.withEmpty.definitions)
    (hf : u.follow (.reference emptyToken) = .ok (q, t)) : q = .scalar .empty := by
  obtain ⟨trail, hl, -⟩ := Scope.follow_eq_ok_iff.mp hf
  exact (hl.unique (leads h hu)).2

theorem deepReads_iff (h : Denotes s p kind) (hu : u.definitions = s.withEmpty.definitions) :
    p.DeepReads text u ↔ (kind.value? text).isSome = true := by
  cases h with
  | scalar => simp [DeepReads, checkText_scalar_eq_accepted]
  | absent h =>
    simp only [DeepReads, checkText_reference_eq_accepted]
    constructor
    · rintro ⟨n, q, inner, hf, hc⟩
      obtain rfl := eq_of_follow h (u := u.deepened n) hu hf
      exact checkText_scalar_eq_accepted.mp hc
    · intro hc
      have hf := Scope.follow_of_leads (leads h (u := u.deepened 1) hu) (by simp)
      exact ⟨1, _, _, hf, checkText_scalar_eq_accepted.mpr hc⟩

theorem deepAccepts_iff (h : Denotes s p kind) (hu : u.definitions = s.withEmpty.definitions) :
    p.DeepAccepts v u ↔ kind.admits v = true := by
  cases h with
  | scalar => simp [DeepAccepts, check_scalar_eq_accepted]
  | absent h =>
    simp only [DeepAccepts, check_reference_eq_accepted]
    constructor
    · rintro ⟨n, q, inner, hf, hc⟩
      obtain rfl := eq_of_follow h (u := u.deepened n) hu hf
      exact check_scalar_eq_accepted.mp hc
    · intro hc
      have hf := Scope.follow_of_leads (leads h (u := u.deepened 1) hu) (by simp)
      exact ⟨1, _, _, hf, check_scalar_eq_accepted.mpr hc⟩

/-- Patterns that stand for kinds compare as the kinds do. -/
theorem covers_of_subsumes (h : Denotes s p kind) (h' : Denotes t q other)
    (hs : s'.definitions = s.withEmpty.definitions) (ht : t'.definitions = t.withEmpty.definitions)
    (hpq : p.subsumes q s' t' = .accepted) : kind.covers other = true := by
  have hself : ∀ kind : Scalar, kind.covers kind = true := fun kind => by simp [Scalar.covers]
  have hscalars : ∀ {kind other : Scalar} {s t : Scope},
      (Pattern.scalar kind).subsumes (.scalar other) s t = .accepted → kind.covers other = true := by
    intro kind other s t h
    obtain ⟨_, hk, hc⟩ := subsumes_scalar_right rfl h
    cases hk
    exact hc
  cases h with
  | scalar kind =>
    cases h' with
    | scalar other => exact hscalars hpq
    | absent h' =>
      obtain ⟨q, t₁, hf, hpq⟩ := (subsumes_reference_right rfl).mp hpq
      obtain rfl := eq_of_follow h' ht hf
      exact hscalars hpq
  | absent h =>
    cases h' with
    | scalar other =>
      obtain ⟨p, s₁, hf, hpq⟩ := (subsumes_reference_left rfl).mp hpq
      obtain rfl := eq_of_follow h hs hf
      exact hscalars hpq
    | absent => exact hself .empty

theorem not_subsumes_literal {e : Value} (h : Denotes t q kind)
    (ht : t'.definitions = t.withEmpty.definitions) :
    (literal e).subsumes q s' t' ≠ .accepted := by
  intro hpq
  cases h with
  | scalar kind =>
    obtain ⟨v, hv⟩ := subsumes_literal_left rfl hpq
    cases hv
  | absent h =>
    obtain ⟨q, t₁, hf, hpq⟩ := (subsumes_reference_right rfl).mp hpq
    obtain rfl := eq_of_follow h ht hf
    obtain ⟨v, hv⟩ := subsumes_literal_left rfl hpq
    cases hv

end Denotes

/-- Each alternative of the smaller side is taken by one of the bigger side. -/
theorem subsumes_alternatives (hp : p.isReference = false) (hq : q.isReference = false)
    (hs : s.withEmpty = s) (ht : t.withEmpty = t) (h : p.subsumes q s t = .accepted) :
    ∀ r ∈ q.alternatives, ∃ p' ∈ p.alternatives, p'.subsumes r s t = .accepted := by
  intro r hr
  obtain ⟨ps, rfl⟩ | hp := eq_union_or hp
  · obtain ⟨p', hp', hpr⟩ := (subsumes_union_left hq).mp h r hr
    exact ⟨p', hp', by rwa [hs, ht] at hpr⟩
  · have hself : p ∈ p.alternatives := by simp [alternatives_of_isPlain hp]
    obtain ⟨qs, rfl⟩ | hq := eq_union_or hq
    · have hpr := (subsumes_union_right hp).mp h r hr
      exact ⟨p, hself, by rwa [ht] at hpr⟩
    · rw [alternatives_of_isPlain hq] at hr
      exact ⟨p, hself, List.mem_singleton.mp hr ▸ h⟩

/-- One of the alternatives stands for the kind. -/
def Offers (s : Scope) (p : Pattern) (kind : Scalar) : Prop := ∃ q ∈ p.alternatives, Denotes s q kind

/-- Literal text, or a choice of some plain kinds. -/
inductive IsText (kinds : Scalar → Prop) (s : Scope) : Pattern → Prop
  | literal (text : String) : IsText kinds s (literal (.text text))
  | choice {p : Pattern} (hp : p.isReference = false)
    (h : ∀ q ∈ p.alternatives, ∃ kind, kinds kind ∧ Denotes s q kind) : IsText kinds s p

namespace IsText

theorem isReference_eq_false (h : IsText kinds s p) : p.isReference = false := by
  cases h with
  | literal => rfl
  | choice hp => exact hp

theorem withEmpty_eq (hu : u.definitions = s.withEmpty.definitions) : u.withEmpty = u :=
  Scope.withEmpty_of_contains (hu ▸ Scope.contains_withEmpty s)

/-- A choice reads what one of its kinds reads. -/
theorem deepReads_iff (h : ∀ q ∈ p.alternatives, ∃ kind, kinds kind ∧ Denotes s q kind)
    (hu : u.definitions = s.withEmpty.definitions) :
    p.DeepReads text u ↔ ∃ kind, Offers s p kind ∧ (kind.value? text).isSome = true := by
  rw [deepReads_alternatives (withEmpty_eq hu)]
  constructor
  · rintro ⟨q, hq, hread⟩
    obtain ⟨kind, -, hk⟩ := h q hq
    exact ⟨kind, ⟨q, hq, hk⟩, (hk.deepReads_iff hu).mp hread⟩
  · rintro ⟨kind, ⟨q, hq, hk⟩, hread⟩
    exact ⟨q, hq, (hk.deepReads_iff hu).mpr hread⟩

/-- A choice accepts what one of its kinds admits. -/
theorem deepAccepts_iff (h : ∀ q ∈ p.alternatives, ∃ kind, kinds kind ∧ Denotes s q kind)
    (hu : u.definitions = s.withEmpty.definitions) :
    p.DeepAccepts v u ↔ ∃ kind, Offers s p kind ∧ kind.admits v = true := by
  rw [deepAccepts_alternatives (withEmpty_eq hu)]
  constructor
  · rintro ⟨q, hq, hv⟩
    obtain ⟨kind, -, hk⟩ := h q hq
    exact ⟨kind, ⟨q, hq, hk⟩, (hk.deepAccepts_iff hu).mp hv⟩
  · rintro ⟨kind, ⟨q, hq, hk⟩, hv⟩
    exact ⟨q, hq, (hk.deepAccepts_iff hu).mpr hv⟩

theorem not_offers_literal {e : Value} : ¬Offers s (Pattern.literal e) kind := by
  rintro ⟨q, hq, hk⟩
  obtain rfl := List.mem_singleton.mp hq
  cases hk

/-- Each kind that a choice on the smaller side offers is covered by one on the bigger side. -/
theorem exists_covers (hp : IsText kinds s p) (hq : q.isReference = false)
    (hs : s'.definitions = s.withEmpty.definitions) (ht : t'.definitions = t.withEmpty.definitions)
    (hpq : p.subsumes q s' t' = .accepted) (ho : Offers t q other) :
    ∃ kind, Offers s p kind ∧ kind.covers other = true := by
  obtain ⟨r, hr, hr'⟩ := ho
  obtain ⟨p', hp', hcompare⟩ := subsumes_alternatives hp.isReference_eq_false hq (withEmpty_eq hs)
    (withEmpty_eq ht) hpq r hr
  cases hp with
  | literal text =>
    obtain rfl := List.mem_singleton.mp hp'
    exact absurd hcompare (hr'.not_subsumes_literal ht)
  | choice _ h =>
    obtain ⟨kind, -, hk⟩ := h p' hp'
    exact ⟨kind, ⟨p', hp', hk⟩, hk.covers_of_subsumes hr' hs ht hcompare⟩

variable {kinds' : Scalar → Prop}

/-- A choice on the smaller side is compared as it is. -/
theorem compareText_choice {checkText : String → Verdict} {compare : Pattern → Verdict}
    (h : ∀ r ∈ q.alternatives, ∃ kind, kinds' kind ∧ Denotes t r kind) :
    compareText checkText compare q = compare q := by
  cases q with
  | literal v =>
    obtain ⟨kind, -, hk⟩ := h _ List.mem_cons_self
    cases hk
  | _ => rfl

/-- Text that the smaller side accepts, the bigger one accepts when they compare. -/
theorem reads_of_compareText (hp : IsText kinds s p) (hq : IsText kinds' t q) (hnull : ¬kinds' .null)
    (hs : s'.definitions = s.withEmpty.definitions) (ht : t'.definitions = t.withEmpty.definitions)
    (h : compareText (fun text => p.checkText text s') (fun q => p.subsumes q s' t') q = .accepted)
    (hu : u.definitions = t.withEmpty.definitions) (hread : q.checkText text u = .accepted) :
    p.DeepReads text s' := by
  cases hq with
  | literal expected =>
    obtain rfl := checkText_literal_text.mp hread
    exact deepReads_of_checkText h
  | choice hq hchoice =>
    rw [compareText_choice hchoice] at h
    obtain ⟨other, ho, hread⟩ := (deepReads_iff hchoice hu).mp (deepReads_of_checkText hread)
    obtain ⟨kind, hk, hcovers⟩ := exists_covers hp hq hs ht h ho
    have hother : other ≠ .null := by
      obtain ⟨r, hr, hr'⟩ := ho
      obtain ⟨kind', hkind, hk'⟩ := hchoice r hr
      rintro rfl
      exact hnull (hr'.unique hk' ▸ hkind)
    cases hp with
    | literal => exact absurd hk not_offers_literal
    | choice _ hp =>
      exact (deepReads_iff hp hs).mpr ⟨kind, hk, Scalar.isSome_value?_of_covers hcovers hother hread⟩

/-- Other content that the smaller side accepts, the bigger one accepts when they compare. -/
theorem accepts_of_compareText (hp : IsText kinds s p) (hq : IsText kinds' t q)
    (hs : s'.definitions = s.withEmpty.definitions) (ht : t'.definitions = t.withEmpty.definitions)
    (h : compareText (fun text => p.checkText text s') (fun q => p.subsumes q s' t') q = .accepted)
    (hu : u.definitions = t.withEmpty.definitions) (hv : ∀ text, v ≠ .text text)
    (haccept : q.check v u = .accepted) : p.DeepAccepts v s' := by
  cases hq with
  | literal expected =>
    cases v <;> simp_all [check_literal_eq_accepted, Value.same]
  | choice hq hchoice =>
    rw [compareText_choice hchoice] at h
    obtain ⟨other, ho, haccept⟩ := (deepAccepts_iff hchoice hu).mp (deepAccepts_of_check haccept)
    obtain ⟨kind, hk, hcovers⟩ := exists_covers hp hq hs ht h ho
    cases hp with
    | literal => exact absurd hk not_offers_literal
    | choice _ hp =>
      exact (deepAccepts_iff hp hs).mpr ⟨kind, hk, Scalar.admits_of_covers hcovers haccept⟩

end IsText

end Pattern

end PayloadContracts
