import PayloadContracts.Proofs.Comparisons
import PayloadContracts.Proofs.Loosening
import PayloadContracts.Proofs.Segments
import PayloadContracts.Proofs.Types

/-!
What the comparison of two elements goes by. Main statement: `Pattern.subsumes_elements`.
-/

namespace PayloadContracts

namespace Scope

variable {s s' : Scope} {p q : Pattern} {b c : Option String}

theorem assumePair_eq_none (h : s.assumePair p q = none) :
    ∃ b c, p = .reference b ∧ q = .reference c ∧ (b, c) ∈ s.assumed := by
  unfold assumePair at h
  split at h
  · split at h
    · rename_i ha
      exact ⟨_, _, rfl, rfl, by simpa [isAssumed] using ha⟩
    · cases h
  · cases h

theorem assumePair_eq_some (h : s.assumePair p q = some s') :
    s' = s ∨ ∃ b c, p = .reference b ∧ q = .reference c ∧ (b, c) ∉ s.assumed ∧ s' = s.assuming b c := by
  unfold assumePair at h
  split at h
  · split at h <;> cases h
    rename_i ha
    exact .inr ⟨_, _, rfl, rfl, by simpa [isAssumed] using ha, rfl⟩
  · cases h
    exact .inl rfl

theorem assumeTypes_eq_none (h : s.assumeTypes b c = none) :
    ∃ b' c', b = some b' ∧ c = some c' ∧ (b', c') ∈ s.assumed := by
  unfold assumeTypes at h
  split at h
  · split at h
    · rename_i ha
      exact ⟨_, _, rfl, rfl, by simpa [isAssumed] using ha⟩
    · cases h
  · cases h

theorem assumeTypes_eq_some (h : s.assumeTypes b c = some s') :
    s' = s ∨ ∃ b' c', b = some b' ∧ c = some c' ∧ (b', c') ∉ s.assumed ∧ s' = s.assuming b' c' := by
  unfold assumeTypes at h
  split at h
  · split at h <;> cases h
    rename_i ha
    exact .inr ⟨_, _, rfl, rfl, by simpa [isAssumed] using ha, rfl⟩
  · cases h
    exact .inl rfl

theorem definitions_assumeTypes (h : s.assumeTypes b c = some s') :
    s'.definitions = s.definitions := by
  obtain rfl | ⟨b, c, -, -, -, rfl⟩ := assumeTypes_eq_some h <;> rfl

end Scope

namespace Pattern

variable {p q : Pattern} {s t : Scope} {v : Value}

/-- Compares two children that stand for elements. The equations are those of the comparison that
this is a part of. -/
def compareChild (p q : Pattern) (s t : Scope) : Verdict :=
  match _hp : s.assumePair p q with
  | none => .accepted
  | some s' =>
    match _hb : s'.follow p, _hc : t.follow q with
    | .ok (b, s₁), .ok (c, t₁) => (b.withOccurs .required).subsumes (c.withOccurs .required) s₁ t₁
    | .error e, _ => .ofError e
    | _, .error e => .ofError e

theorem compareChild_eq_accepted :
    compareChild p q s t = .accepted ↔
      s.assumePair p q = none ∨
        ∃ s' b s₁ c t₁, s.assumePair p q = some s' ∧ s'.follow p = .ok (b, s₁) ∧
          t.follow q = .ok (c, t₁) ∧
          (b.withOccurs .required).subsumes (c.withOccurs .required) s₁ t₁ = .accepted := by
  unfold compareChild
  split
  · simp_all
  · rename_i hp
    split
    · rename_i hb hc
      simp [hp, hb, hc]
    · rename_i hb
      simp [hp, hb, Verdict.ofError]
    · rename_i hc _
      simp [hp, hc, Verdict.ofError]

end Pattern

/-- Compares what is known of a child in a place with the child of another place. -/
def Scope.placeCompare (s t : Scope) (place : Slot Pattern) : Pattern → Verdict :=
  if place.isText then
    compareText (fun text => place.content.checkText text s) (fun q => place.content.subsumes q s t)
  else fun q => place.content.compareChild q s t

theorem Scope.placeCompare_text {s t : Scope} {place : Slot Pattern} (h : place.name = none) :
    s.placeCompare t place =
      compareText (fun text => place.content.checkText text s)
        (fun q => place.content.subsumes q s t) := by
  rw [placeCompare, Slot.isText, h]
  rfl

theorem Scope.placeCompare_named {s t : Scope} {place : Slot Pattern} {name : String}
    (h : place.name = some name) (q : Pattern) :
    s.placeCompare t place q = place.content.compareChild q s t := by
  rw [placeCompare, Slot.isText, h]
  rfl

namespace Shape

/-- Compares the attributes of two elements. -/
def compareAttributes (full full' : Shape Pattern) (s t : Scope) : Verdict :=
  compareKeys .attributes s.policy false
    (contentAttributes (full.attributes.map fun entry =>
      (entry.1, compareText (fun text => entry.2.checkText text s.withEmpty)
        (fun q => entry.2.subsumes q s.withEmpty t.withEmpty))))
    (contentAttributes full'.attributes)

theorem compareAttributes_self {full : Shape Pattern} {s t : Scope}
    (hd : Entries.Distinct full.attributes)
    (h : ∀ entry ∈ full.attributes, compareText (fun text => entry.2.checkText text s.withEmpty)
      (fun q => entry.2.subsumes q s.withEmpty t.withEmpty) entry.2 = .accepted) :
    full.compareAttributes full s t = .accepted := by
  rw [compareAttributes, contentAttributes_map]
  have hnames : Entries.Distinct (contentAttributes full.attributes) :=
    hd.sublist (List.filter_sublist.map _)
  exact compareKeys_self (fun _ => rfl) hnames fun entry he => h entry (List.mem_of_mem_filter he)

theorem allowsAttributes_nil {full : Shape Pattern} {s : Scope} (h : full.attributes = []) :
    full.AllowsAttributes [] s :=
  ⟨by simp [h, contentAttributes, Entries.names, keyMismatch?_eq_none_iff], by simp [h, contentAttributes]⟩

/-- The places for children of two elements compare. -/
def ComparesChildren (full full' : Shape Pattern) (s t : Scope) : Prop :=
  ∃ places others,
    List.Forall₂ (fun child place => s.withEmpty.slot child = .ok place) full.children places ∧
      List.Forall₂ (fun child place => t.withEmpty.slot child = .ok place) full'.children others ∧
      compareSlots (places.map (Slot.fill (s.withEmpty.placeCompare t.withEmpty))) others = .accepted

theorem comparesChildren_iff {full full' : Shape Pattern} {s t : Scope} :
    full.ComparesChildren full' s t ↔
      (match collect (full.children.map fun child _ =>
          (s.withEmpty.slot child).map (Slot.fill (s.withEmpty.placeCompare t.withEmpty))),
        collect (full'.children.map fun child _ => t.withEmpty.slot child) with
      | .ok slots, .ok others => compareSlots slots others
      | .error e, _ => .ofError e
      | _, .error e => .ofError e) = .accepted := by
  constructor
  · rintro ⟨places, others, hplaces, hothers, h⟩
    have hslots : collect (full.children.map fun child _ =>
        (s.withEmpty.slot child).map (Slot.fill (s.withEmpty.placeCompare t.withEmpty))) =
          .ok (places.map (Slot.fill (s.withEmpty.placeCompare t.withEmpty))) := by
      rw [collect_eq_ok_iff, List.forall₂_map_left_iff, forall₂_map_eq_ok]
      exact ⟨places, hplaces, rfl⟩
    have hcollect : collect (full'.children.map fun child _ => t.withEmpty.slot child) =
        .ok others := by
      rwa [collect_eq_ok_iff, List.forall₂_map_left_iff]
    rw [hslots, hcollect]
    exact h
  · intro h
    split at h
    · rename_i hslots hcollect
      rw [collect_eq_ok_iff, List.forall₂_map_left_iff, forall₂_map_eq_ok] at hslots
      rw [collect_eq_ok_iff, List.forall₂_map_left_iff] at hcollect
      obtain ⟨places, hplaces, rfl⟩ := hslots
      exact ⟨places, _, hplaces, hcollect, h⟩
    · cases h
    · cases h

end Shape

namespace Pattern

variable {shape other full full' : Shape Pattern} {s s' s₁ t t₁ : Scope}

theorem subsumes_element_element (hadmits : shape.occurs.admits other.occurs = true)
    (hname : shape.name = other.name)
    (ha : s.assumeTypes shape.typeRef other.typeRef = some s')
    (h : s'.resolveType shape = .ok (full, s₁)) (h' : t.resolveType other = .ok (full', t₁)) :
    (element shape).subsumes (element other) s t =
      (full.compareAttributes full' s₁ t₁).andThen fun _ =>
        match collect (full.children.map fun child _ =>
            (s₁.withEmpty.slot child).map (Slot.fill (s₁.withEmpty.placeCompare t₁.withEmpty))),
          collect (full'.children.map fun child _ => t₁.withEmpty.slot child) with
        | .ok slots, .ok others => compareSlots slots others
        | .error e, _ => .ofError e
        | _, .error e => .ofError e := by
  have hplace : ∀ child : Pattern, (s₁.withEmpty.slot child).map
      (Slot.fill (s₁.withEmpty.placeCompare t₁.withEmpty)) =
        (s₁.withEmpty.slot child).map fun slot =>
          { slot with
            content := if slot.isText then
              compareText (fun text => child.single.checkText text s₁.withEmpty)
                (fun q => child.single.subsumes q s₁.withEmpty t₁.withEmpty)
            else fun q => child.single.compareChild q s₁.withEmpty t₁.withEmpty } := by
    intro child
    cases hs : s₁.withEmpty.slot child with
    | error e => rfl
    | ok slot => simp only [Except.map, Slot.fill, Scope.placeCompare, Scope.content_slot hs]
  rw [subsumes]
  rw [if_neg (by simp [hadmits]), if_neg (by simp [hname])]
  split
  · simp_all
  · rename_i ha'
    cases ha.symm.trans ha'
    split
    · rename_i hb hc
      cases h.symm.trans hb
      cases h'.symm.trans hc
      simp only [hplace, List.map_attach_eq_pmap, List.pmap_eq_map]
      rfl
    · simp_all
    · simp_all

/-- Elements compare if their names and numbers do and either the pair of their types is under
comparison already, or all that they have with their types compares. -/
theorem subsumes_elements :
    (element shape).subsumes (element other) s t = .accepted ↔
      shape.occurs.admits other.occurs = true ∧ shape.name = other.name ∧
        (s.assumeTypes shape.typeRef other.typeRef = none ∨
          ∃ s' full s₁ full' t₁, s.assumeTypes shape.typeRef other.typeRef = some s' ∧
            s'.resolveType shape = .ok (full, s₁) ∧ t.resolveType other = .ok (full', t₁) ∧
            full.compareAttributes full' s₁ t₁ = .accepted ∧
            full.ComparesChildren full' s₁ t₁) := by
  by_cases hadmits : shape.occurs.admits other.occurs = true
  · by_cases hname : shape.name = other.name
    · simp only [hadmits, hname, true_and]
      cases ha : s.assumeTypes shape.typeRef other.typeRef with
      | none =>
        rw [subsumes, if_neg (by simp [hadmits]), if_neg (by simp [hname])]
        split <;> simp_all
      | some s' =>
        have hfails : ∀ e, s'.resolveType shape = .error e ∨ t.resolveType other = .error e →
            (element shape).subsumes (element other) s t ≠ .accepted := by
          intro e he
          rw [subsumes, if_neg (by simp [hadmits]), if_neg (by simp [hname])]
          split
          · simp_all
          · split <;> simp_all [Verdict.ofError]
        cases h : s'.resolveType shape with
        | error e => simpa [h] using hfails e (.inl h)
        | ok r =>
          cases h' : t.resolveType other with
          | error e => simpa [h'] using hfails e (.inr h')
          | ok r' =>
            rw [subsumes_element_element hadmits hname ha h h', Verdict.andThen_eq_accepted,
              ← Shape.comparesChildren_iff]
            simp [h, Prod.ext_iff]
    · rw [subsumes, if_neg (by simp [hadmits]), if_pos hname]
      simp [hname, Verdict.reject]
  · rw [subsumes, if_pos (by simpa using hadmits)]
    simp [hadmits, Verdict.reject]

theorem check_of_resolves {n : Node Value} {trail : List String} (h : s.Resolves shape trail full) :
    (element shape).check (.node n) s = .accepted ↔
      n.name = shape.name ∧ trail.length ≤ s.headroom ∧
        full.AllowsAttributes n.attributes (s.below trail) ∧
        full.AllowsChildren n.children (s.below trail).withEmpty := by
  rw [check_element_eq_accepted]
  constructor
  · rintro ⟨n, full', inner, hv, hn, hr, hattributes, hchildren⟩
    obtain ⟨trail', h', hroom, rfl⟩ := Scope.resolveType_eq_ok_iff.mp hr
    obtain ⟨rfl, rfl⟩ := h.unique h'
    cases hv
    exact ⟨hn, hroom, hattributes, hchildren⟩
  · rintro ⟨hn, hroom, hattributes, hchildren⟩
    have hr := Scope.resolveType_eq_ok_iff.mpr ⟨trail, h, hroom, rfl⟩
    exact ⟨n, full, _, rfl, hn, hr, hattributes, hchildren⟩

/-- An element without attributes and with one place. -/
theorem check_only_child {p : Pattern} {qualifier : Option String} {children : List Value}
    (hn : shape.typeRef = none) (ha : shape.attributes = []) (hc : shape.children = [p]) :
    (element shape).check (.node ⟨shape.name, qualifier, [], children⟩) s = .accepted ↔
      ∃ place, s.withEmpty.slot p = .ok place ∧
        checkSlots [s.withEmpty.placeCheck place] (children.filter fun child => !child.isLayout) =
          .accepted := by
  rw [check_of_resolves (.plain hn), Scope.below_nil, Shape.AllowsChildren, hc]
  constructor
  · rintro ⟨-, -, -, places, hplaces, hslots⟩
    cases hplaces with
    | cons hplace hnil =>
      cases hnil
      exact ⟨_, hplace, hslots⟩
  · rintro ⟨place, hplace, hslots⟩
    exact ⟨rfl, Nat.zero_le _, Shape.allowsAttributes_nil ha, [place], .cons hplace .nil, hslots⟩

/-- What an element is accepted by through references has the name of the element. -/
theorem node_of_leads {p : Pattern} {v : Value} {u w : Scope} {trail : List String}
    (hl : u.Leads p trail (element shape)) (hd : w.definitions = u.definitions)
    (hc : p.check v w = .accepted) : ∃ node, v = .node node ∧ node.name = shape.name := by
  have hl' : w.Leads p trail (element shape) :=
    hl.mono fun name next hn => (Scope.lookup_congr hd name).trans hn
  obtain ⟨node, full, inner, rfl, hn, -⟩ := check_element_eq_accepted.mp ((check_of_leads hl').mp hc).2
  exact ⟨node, rfl, hn⟩

/-- A child that is all right in a place for text or for an element belongs there. -/
theorem accepts_of_placeCheck {v : Value} {u w : Scope} {place : Slot Pattern}
    (hd : w.definitions = u.definitions)
    (h : place.name = none ∨ ∃ shape trail, place.name = some shape.name ∧
      u.Leads place.content trail (element shape))
    (hc : (w.placeCheck place).content v = .accepted) : place.accepts v = true := by
  obtain hname | ⟨shape, trail, hname, hl⟩ := h
  · rw [Scope.placeCheck, hname] at hc
    cases v with
    | node => cases hc
    | _ => simp [Slot.accepts, hname]
  · rw [Scope.placeCheck_named hname] at hc
    obtain ⟨node, rfl, hn⟩ := node_of_leads hl hd hc
    simp [Slot.accepts, hname, hn]

/-- What a node has to be like does not depend on how many of them there may be. -/
theorem check_withOccurs {p : Pattern} {v : Value} (occurs : Occurs) :
    (p.withOccurs occurs).check v s = .accepted ↔ p.check v s = .accepted := by
  have hchanged : ∀ (shape : Shape Pattern) (occurs : Occurs),
      (element shape).check v s = .accepted →
        (element { shape with occurs }).check v s = .accepted := by
    intro shape occurs h
    obtain ⟨n, full, inner, hv, hn, hr, hattributes, hchildren⟩ := check_element_eq_accepted.mp h
    obtain ⟨trail, hfull, hroom, rfl⟩ := Scope.resolveType_eq_ok_iff.mp hr
    have hr' := Scope.resolveType_eq_ok_iff.mpr ⟨trail, hfull.withOccurs occurs, hroom, rfl⟩
    exact check_element_eq_accepted.mpr
      ⟨n, _, _, hv, hn, hr', ⟨hattributes.names, hattributes.texts⟩, hchildren⟩
  cases p with
  | element shape => exact ⟨hchanged { shape with occurs } shape.occurs, hchanged shape occurs⟩
  | _ => exact Iff.rfl

end Pattern

end PayloadContracts
