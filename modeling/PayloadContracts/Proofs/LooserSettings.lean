import PayloadContracts.Proofs.Chain
import PayloadContracts.Proofs.Elements
import PayloadContracts.Proofs.NodeSamples

/-!
With a greater depth limit, or undeclared names let through, nothing fails that passed before. Main
statement: `Scope.Looser.passes`.

Values and texts are covered by the lemmas on scopes that let through at least as much. Comparisons
also look at the pairs under comparison, and samples at the names being expanded, so these have to be
the same on both sides.
-/

namespace PayloadContracts

/-- Two scopes of the same names, at the same point of a check, of which the second has the looser
settings. -/
structure Scope.Looser (s t : Scope) : Prop where
  definitions : t.definitions = s.definitions
  policy : t.policy = s.policy ∨ t.policy = .permissive
  depthLimit : s.depthLimit ≤ t.depthLimit
  path : t.path = s.path
  assumed : t.assumed = s.assumed

namespace Scope.Looser

variable {s t : Scope} {p q : Pattern}

theorem headroom (h : s.Looser t) : s.headroom ≤ t.headroom := by
  rw [Scope.headroom, Scope.headroom, h.path]
  exact Nat.sub_le_sub_right h.depthLimit _

theorem within (h : s.Looser t) : s.Within t := ⟨.inl h.definitions, h.policy, h.headroom⟩

theorem withEmpty (h : s.Looser t) : s.withEmpty.Looser t.withEmpty := by
  refine ⟨withEmpty_definitions_congr h.definitions, ?_, ?_, ?_, ?_⟩
  · simpa only [withEmpty_policy] using h.policy
  · simpa only [withEmpty_depthLimit] using h.depthLimit
  · simpa only [withEmpty_path] using h.path
  · simpa only [withEmpty_assumed] using h.assumed

theorem below (h : s.Looser t) (trail : List String) : (s.below trail).Looser (t.below trail) :=
  ⟨h.definitions, h.policy, h.depthLimit, congrArg (· ++ trail) h.path, h.assumed⟩

theorem assuming (h : s.Looser t) (b c : String) : (s.assuming b c).Looser (t.assuming b c) :=
  ⟨h.definitions, h.policy, h.depthLimit, h.path, congrArg (· ++ [(b, c)]) h.assumed⟩

theorem isAssumed (h : s.Looser t) (b c : String) : t.isAssumed b c = s.isAssumed b c := by
  rw [Scope.isAssumed, Scope.isAssumed, h.assumed]

theorem eq_none_of_rel {found : Option Scope} (h : Option.Rel Looser none found) : found = none := by
  cases h with
  | none => rfl

theorem exists_of_rel {found : Option Scope} (h : Option.Rel Looser (some s) found) :
    ∃ t, found = some t ∧ s.Looser t := by
  cases h with
  | some h => exact ⟨_, rfl, h⟩

theorem assumePair (h : s.Looser t) (p q : Pattern) :
    Option.Rel Looser (s.assumePair p q) (t.assumePair p q) := by
  unfold Scope.assumePair
  split
  · rw [h.isAssumed]
    split
    · exact .none
    · exact .some (h.assuming _ _)
  · exact .some h

theorem assumeTypes (h : s.Looser t) (b c : Option String) :
    Option.Rel Looser (s.assumeTypes b c) (t.assumeTypes b c) := by
  unfold Scope.assumeTypes
  split
  · rw [h.isAssumed]
    split
    · exact .none
    · exact .some (h.assuming _ _)
  · exact .some h

theorem follow {inner : Scope} (h : s.Looser t) (hf : s.follow p = .ok (q, inner)) :
    ∃ inner', t.follow p = .ok (q, inner') ∧ inner.Looser inner' := by
  obtain ⟨trail, hl, -, hroom, rfl⟩ := follow_eq_ok_iff.mp hf
  have hl' := hl.mono fun _ _ hn => h.within.lookup hn
  exact ⟨_, follow_of_leads hl' (Nat.le_trans hroom h.headroom), h.below trail⟩

theorem resolveType {shape full : Shape Pattern} {inner : Scope} (h : s.Looser t)
    (hr : s.resolveType shape = .ok (full, inner)) :
    ∃ inner', t.resolveType shape = .ok (full, inner') ∧ inner.Looser inner' := by
  obtain ⟨trail, hfull, hroom, rfl⟩ := resolveType_eq_ok_iff.mp hr
  have hfull' := hfull.mono fun _ _ hn => h.within.lookup hn
  have hroom' := Nat.le_trans hroom h.headroom
  exact ⟨_, resolveType_eq_ok_iff.mpr ⟨trail, hfull', hroom', rfl⟩, h.below trail⟩

end Scope.Looser

section Samples

open Pattern

variable {s t : Scope} {p : Pattern} {v : Value}

section Results

variable {α β : Type} {r r' : Except ContractError α}

theorem exceptMap_mono {f : α → β} (hr : ∀ x, r = .ok x → r' = .ok x) {y : β} (h : r.map f = .ok y) :
    r'.map f = .ok y := by
  obtain ⟨x, hx, hy⟩ := exceptMap_eq_ok_iff.mp h
  exact exceptMap_eq_ok_iff.mpr ⟨x, hr x hx, hy⟩

theorem locate_mono {crumb : Crumb} (hr : ∀ x, r = .ok x → r' = .ok x) (x : α)
    (h : locate crumb r = .ok x) : locate crumb r' = .ok x :=
  locate_eq_ok_iff.mpr (hr x (locate_eq_ok_iff.mp h))

theorem locateUnder_mono {name : Option String} (hr : ∀ x, r = .ok x → r' = .ok x) (x : α)
    (h : locateUnder name r = .ok x) : locateUnder name r' = .ok x :=
  locateUnder_eq_ok_iff.mpr (hr x (locateUnder_eq_ok_iff.mp h))

theorem collect_map_mono {f g : α → Except ContractError β} {xs : List α} {ys : List β}
    (h : collect (xs.map fun x _ => f x) = .ok ys)
    (hfg : ∀ x ∈ xs, ∀ y, f x = .ok y → g x = .ok y) : collect (xs.map fun x _ => g x) = .ok ys := by
  rw [collect_eq_ok_iff, List.forall₂_map_left_iff] at h ⊢
  induction h with
  | nil => exact .nil
  | cons hy _ ih =>
    exact .cons (hfg _ List.mem_cons_self _ hy) (ih fun x hx => hfg x (List.mem_cons_of_mem _ hx))

end Results

namespace Scope.Looser

theorem reenters (h : s.Looser t) (p : Pattern) : p.reenters t = p.reenters s :=
  Pattern.reenters_congr h.path p

theorem representative? (h : s.Looser t) (ps : List Pattern) :
    Pattern.representative? ps t = Pattern.representative? ps s := by
  simp only [Pattern.representative?, h.reenters]

theorem sampleChild {child : Pattern} {vs : List Value} (h : s.Looser t)
    (hsample : ∀ v, child.single.sample s = .ok v → child.single.sample t = .ok v)
    (hvs : child.sampleChild s = .ok vs) : child.sampleChild t = .ok vs := by
  rw [Pattern.sampleChild] at hvs ⊢
  split at hvs
  · cases hvs
  · rename_i place hplace
    simp only [h.within.slot hplace, h.reenters]
    split at hvs
    · rename_i ho
      rwa [if_pos ho]
    · rename_i ho
      rw [if_neg ho]
      exact exceptMap_mono (locateUnder_mono hsample) hvs

/-- A sample stays the same: what is left out of it depends on the names being expanded only. -/
theorem sample (h : s.Looser t) (hv : p.sample s = .ok v) : p.sample t = .ok v := by
  induction p, s using scopeInduction generalizing t v with
  | literal e s => rwa [Pattern.sample] at hv ⊢
  | scalar kind s => rwa [Pattern.sample] at hv ⊢
  | record fields isOpen s ih =>
    rw [Pattern.sample] at hv ⊢
    refine exceptMap_mono (fun chunks hc => collect_map_mono hc fun field hf chunk hchunk => ?_) hv
    rw [h.withEmpty.reenters]
    split at hchunk
    · rename_i ho
      rwa [if_pos ho]
    · rename_i ho
      rw [if_neg ho]
      exact exceptMap_mono (locate_mono fun w => ih field hf h.withEmpty) hchunk
  | element shape s ih =>
    obtain ⟨full, inner, pairs, chunks, hr, hpairs, hchunks, rfl⟩ := sample_element_eq_ok.mp hv
    obtain ⟨inner', hr', hw⟩ := h.resolveType hr
    obtain ⟨ihAttributes, ihChildren⟩ := ih full inner hr
    refine sample_element_eq_ok.mpr ⟨full, inner', pairs, chunks, hr', ?_, ?_, rfl⟩
    · exact collect_map_mono hpairs fun entry he pair hpair =>
        exceptMap_mono (locate_mono fun w => ihAttributes entry he hw.withEmpty) hpair
    · exact collect_map_mono hchunks fun child hc chunk hchunk =>
        hw.withEmpty.sampleChild (fun v => ihChildren child hc hw.withEmpty) hchunk
  | union ps s ih =>
    rw [Pattern.sample] at hv ⊢
    rw [h.withEmpty.representative?]
    split at hv
    · rename_i q hq
      exact ih q (mem_of_representative? hq) h.withEmpty hv
    · cases hv
  | reference token s ih =>
    obtain ⟨q, inner, hf, hv⟩ := follow_of_sample hv
    obtain ⟨inner', hf', hw⟩ := h.follow hf
    have hv' := ih q inner hf hw hv
    rw [Pattern.sample]
    split
    · rename_i he
      cases hf'.symm.trans he
    · rename_i he
      cases hf'.symm.trans he
      exact hv'
  | list item s ih =>
    rw [Pattern.sample] at hv ⊢
    rw [h.reenters]
    split at hv
    · rename_i ho
      rwa [if_pos ho]
    · rename_i ho
      rw [if_neg ho]
      exact exceptMap_mono (locate_mono fun w => ih h) hv

end Scope.Looser

end Samples

section Comparisons

open Pattern

variable {s s' t t' : Scope} {p q : Pattern}

theorem compareText_mono {checkText checkText' : String → Verdict} {compare compare' : Pattern → Verdict}
    (htext : ∀ text, checkText text = .accepted → checkText' text = .accepted)
    (hcompare : compare q = .accepted → compare' q = .accepted)
    (h : compareText checkText compare q = .accepted) :
    compareText checkText' compare' q = .accepted := by
  unfold compareText at h ⊢
  split at h
  · exact htext _ h
  · exact hcompare h

namespace Scope.Looser

/-- Children that stand for elements are compared as what their references lead to. -/
theorem compareChild (hs : s.Looser s') (ht : t.Looser t')
    (hparts : ∀ (b c : Pattern) (s₂ s₃ t₃ : Scope), s.assumePair p q = some s₂ →
      s₂.follow p = .ok (b, s₃) → t.follow q = .ok (c, t₃) →
      ∀ s₃' t₃', s₃.Looser s₃' → t₃.Looser t₃' →
        (b.withOccurs .required).subsumes (c.withOccurs .required) s₃ t₃ = .accepted →
          (b.withOccurs .required).subsumes (c.withOccurs .required) s₃' t₃' = .accepted)
    (h : p.compareChild q s t = .accepted) : p.compareChild q s' t' = .accepted := by
  have hrel := hs.assumePair p q
  refine compareChild_eq_accepted.mpr ?_
  obtain hnone | ⟨s₂, b, s₃, c, t₃, hsome, hb, hc, h⟩ := compareChild_eq_accepted.mp h
  · rw [hnone] at hrel
    exact .inl (eq_none_of_rel hrel)
  · rw [hsome] at hrel
    obtain ⟨s₂', hsome', hs₂⟩ := exists_of_rel hrel
    obtain ⟨s₃', hb', hs₃⟩ := hs₂.follow hb
    obtain ⟨t₃', hc', ht₃⟩ := ht.follow hc
    have h' := hparts b c s₂ s₃ t₃ hsome hb hc s₃' t₃' hs₃ ht₃ h
    exact .inr ⟨s₂', b, s₃', c, t₃', hsome', hb', hc', h'⟩

theorem placeCompare {place : Slot Pattern} (hs : s.Looser s')
    (htext : place.content.subsumes q s t = .accepted → place.content.subsumes q s' t' = .accepted)
    (hchild : place.content.compareChild q s t = .accepted →
      place.content.compareChild q s' t' = .accepted)
    (h : s.placeCompare t place q = .accepted) : s'.placeCompare t' place q = .accepted := by
  unfold Scope.placeCompare at h ⊢
  split at h
  · rename_i hp
    rw [if_pos hp]
    exact compareText_mono (fun text => hs.within.checkText) htext h
  · rename_i hp
    rw [if_neg hp]
    exact hchild h

theorem compareAttributes {full full' : Shape Pattern} (hs : s.Looser s')
    (hparts : ∀ entry ∈ full.attributes, ∀ q, entry.2.subsumes q s.withEmpty t.withEmpty = .accepted →
      entry.2.subsumes q s'.withEmpty t'.withEmpty = .accepted)
    (h : full.compareAttributes full' s t = .accepted) :
    full.compareAttributes full' s' t' = .accepted := by
  rw [Shape.compareAttributes, contentAttributes_map] at h ⊢
  refine compareKeys_mono (hs.within.policyFor false) (fun entry he q => ?_) h
  exact compareText_mono (fun text => hs.withEmpty.within.checkText)
    (hparts entry (List.mem_of_mem_filter he) q)

theorem comparesChildren {full full' : Shape Pattern} (hs : s.Looser s') (ht : t.Looser t')
    (htexts : ∀ child ∈ full.children, ∀ q,
      child.single.subsumes q s.withEmpty t.withEmpty = .accepted →
        child.single.subsumes q s'.withEmpty t'.withEmpty = .accepted)
    (hchildren : ∀ child ∈ full.children, ∀ q,
      child.single.compareChild q s.withEmpty t.withEmpty = .accepted →
        child.single.compareChild q s'.withEmpty t'.withEmpty = .accepted)
    (h : full.ComparesChildren full' s t) : full.ComparesChildren full' s' t' := by
  obtain ⟨places, others, hplaces, hothers, h⟩ := h
  refine ⟨places, others, hplaces.imp fun _ _ => hs.withEmpty.within.slot,
    hothers.imp fun _ _ => ht.withEmpty.within.slot, compareSlots_mono (fun place hp q => ?_) h⟩
  obtain ⟨child, hc, hplace⟩ := exists_of_forall₂_right hplaces hp
  refine hs.withEmpty.placeCompare ?_ ?_
  · rw [Scope.content_slot hplace]
    exact htexts child hc q
  · rw [Scope.content_slot hplace]
    exact hchildren child hc q

theorem literal {v : Value} (hs : s.Looser s') (hp : p.isPlain = true)
    (h : p.subsumes (.literal v) s t = .accepted) : p.subsumes (.literal v) s' t' = .accepted :=
  subsumes_literal_of_check (hs.within.check (subsumes_literal hp h))

/-- Patterns compare if they did with stricter settings on either side. -/
theorem subsumes (hs : s.Looser s') (ht : t.Looser t') (h : p.subsumes q s t = .accepted) :
    p.subsumes q s' t' = .accepted := by
  induction p, q, s, t using pairInduction generalizing s' t' with
  | references b c s t ih =>
    obtain hbc | ⟨p, s₁, q, t₁, hf, hf', h⟩ := subsumes_references.mp h
    · exact subsumes_references.mpr (.inl ((hs.isAssumed b c).trans hbc))
    · obtain ⟨s₁', hfs, hs₁⟩ := (hs.assuming b c).follow hf
      obtain ⟨t₁', hft, ht₁⟩ := ht.follow hf'
      exact subsumes_references.mpr
        (.inr ⟨p, s₁', q, t₁', hfs, hft, ih p s₁ q t₁ hf hf' hs₁ ht₁ h⟩)
  | left b q s t hq ih =>
    obtain ⟨p, s₁, hf, h⟩ := (subsumes_reference_left hq).mp h
    obtain ⟨s₁', hf', hs₁⟩ := hs.follow hf
    exact (subsumes_reference_left hq).mpr ⟨p, s₁', hf', ih p s₁ hf hs₁ ht h⟩
  | right p c s t hp ih =>
    obtain ⟨q, t₁, hf, h⟩ := (subsumes_reference_right hp).mp h
    obtain ⟨t₁', hf', ht₁⟩ := ht.follow hf
    exact (subsumes_reference_right hp).mpr ⟨q, t₁', hf', ih q t₁ hf hs ht₁ h⟩
  | unionLeft ps q s t hq ih =>
    refine (subsumes_union_left hq).mpr fun r hr => ?_
    obtain ⟨p, hp, h⟩ := (subsumes_union_left hq).mp h r hr
    exact ⟨p, hp, ih p hp r hr hs.withEmpty ht.withEmpty h⟩
  | unionRight p qs s t hp ih =>
    refine (subsumes_union_right hp).mpr fun q hq => ?_
    exact ih q hq hs ht.withEmpty ((subsumes_union_right hp).mp h q hq)
  | record fields isOpen q s t hq ih =>
    obtain ⟨v, rfl⟩ | ⟨others, othersOpen, rfl, hkeys⟩ := subsumes_record hq h
    · exact hs.literal rfl h
    · rw [Pattern.subsumes]
      exact compareKeys_mono (hs.within.policyFor isOpen)
        (fun field hf r => ih field hf r hs.withEmpty ht.withEmpty) hkeys
  | list item q s t hq ih =>
    obtain ⟨v, rfl⟩ | ⟨other, rfl, hitem⟩ := subsumes_list hq h
    · exact hs.literal rfl h
    · rw [Pattern.subsumes]
      exact ih other hs ht hitem
  | literal e q s t hq =>
    obtain ⟨v, rfl⟩ := subsumes_literal_left hq h
    exact hs.literal rfl h
  | scalar kind q s t hq =>
    obtain ⟨v, rfl⟩ | ⟨other, rfl, hcovers⟩ := subsumes_scalar hq h
    · exact hs.literal rfl h
    · rw [Pattern.subsumes, if_pos hcovers]
  | element shape q s t hq ih =>
    obtain ⟨v, rfl⟩ | ⟨other, rfl⟩ := subsumes_element hq h
    · exact hs.literal rfl h
    · obtain ⟨hadmits, hname, h⟩ := subsumes_elements.mp h
      refine subsumes_elements.mpr ⟨hadmits, hname, ?_⟩
      have hrel := hs.assumeTypes shape.typeRef other.typeRef
      obtain hnone | ⟨s₀, full, s₁, full', t₁, hsome, hr, hr', hattributes, hchildren⟩ := h
      · rw [hnone] at hrel
        exact .inl (eq_none_of_rel hrel)
      · rw [hsome] at hrel
        obtain ⟨s₀', hsome', hs₀⟩ := exists_of_rel hrel
        obtain ⟨s₁', hrs, hs₁⟩ := hs₀.resolveType hr
        obtain ⟨t₁', hrt, ht₁⟩ := ht.resolveType hr'
        obtain ⟨ihTexts, ihTextChildren, ihChildren⟩ := ih other full full' s₀ s₁ t₁ hsome hr hr'
        refine .inr ⟨s₀', full, s₁', full', t₁', hsome', hrs, hrt, ?_, ?_⟩
        · exact hs₁.compareAttributes
            (fun entry he q => ihTexts entry he q hs₁.withEmpty ht₁.withEmpty) hattributes
        · refine hs₁.comparesChildren ht₁
            (fun child hc q => ihTextChildren child hc q hs₁.withEmpty ht₁.withEmpty)
            (fun child hc q => hs₁.withEmpty.compareChild ht₁.withEmpty ?_) hchildren
          intro b c s₂ s₃ t₃ hp hb hc' s₃' t₃' hs₃ ht₃
          exact ihChildren child hc q b c s₂ s₃ t₃ hp hb hc' hs₃ ht₃

/-- What passes under some settings passes under looser ones: values and texts are accepted, patterns
compare, whichever side has the looser settings, and samples are the same. -/
theorem passes (hs : s.Looser s') (ht : t.Looser t') (p q : Pattern) :
    (∀ v, p.check v s = .accepted → p.check v s' = .accepted) ∧
      (∀ text, p.checkText text s = .accepted → p.checkText text s' = .accepted) ∧
      (p.subsumes q s t = .accepted → p.subsumes q s' t' = .accepted) ∧
      ∀ v, p.sample s = .ok v → p.sample s' = .ok v :=
  ⟨fun _ => hs.within.check, fun _ => hs.within.checkText, hs.subsumes ht, fun _ => hs.sample⟩

end Scope.Looser

end Comparisons

namespace Chain

open Pattern

/-- The scope of the chain with a greater depth limit, where undeclared names are let through. -/
def loosened : Scope := { scope with policy := .permissive, depthLimit := 9 }

theorem looser_loosened : scope.Looser loosened := ⟨rfl, .inr rfl, by decide, rfl, rfl⟩

theorem passes_loosened :
    scope.Looser loosened ∧ (reference "(Node)").check last loosened = .accepted ∧
      (reference "(Node)").subsumes (reference "(Node)") loosened loosened = .accepted ∧
      (reference "(Node)").sample loosened = .ok last := by
  obtain ⟨hcheck, -, hsubsumes, hsample⟩ := Scope.Looser.passes looser_loosened looser_loosened
    (reference "(Node)") (reference "(Node)")
  have hself : (reference "(Node)").subsumes (reference "(Node)") scope scope = .accepted :=
    start_subsumes_start (.inl rfl) (.inl rfl) (by decide) (by decide)
  exact ⟨looser_loosened, hcheck _ check_last, hsubsumes hself, hsample _ chain_sample⟩

end Chain

end PayloadContracts
