import PayloadContracts.Proofs.Containment

/-!
Elements without types: what one subsumes it accepts. An example is an item that holds items.
-/

namespace PayloadContracts

open Pattern

/-- Elements without types, with attributes that are marked at most once and texts of some kinds. -/
def Dialect.untyped (kind : Scalar → Prop) : Dialect :=
  ⟨kind, fun key => isOptional (canonical key attributeMark) attributeMark = false, fun _ => False⟩

/-- Without types no pair of elements is let through unseen. -/
theorem ElementPair.Meets.sound {x : ElementPair} {d e : Dialect} {s t : Scope}
    (hx : x.Meets d e s t) (hs : s.Every (IsMarkup d s)) (ht : t.Every (IsMarkup e t))
    (hd : ∀ name, ¬d.typeName name) : x.Sound := by
  intro y hxy
  have hy : y.Meets d e s t := by
    induction hxy with
    | refl => exact hx
    | tail _ hyz ih => exact ih.of_compares hs ht hyz
  intro hassumed
  obtain ⟨b, c, hb, -⟩ := Scope.assumeTypes_eq_none hassumed
  exact absurd (hy.bigger.self.typeName b hb).1 (hd b)

namespace Forest

/-- An item has a number and any number of items in it. -/
def item : Shape Pattern :=
  ⟨"item", none, [("id", .scalar .number)], [.list (.reference "(Item)")], .required, none⟩

def scope : Scope := .ofDefinitions [("(Item)", .element item)] ⟨.strict, 8, 100⟩

def leaf : Value := .node ⟨"item", none, [("id", "1")], []⟩

variable {d : Dialect} {s t : Scope}

theorem lookup_item (hs : scope.Derives s) : s.withEmpty.lookup "(Item)" = .ok (.element item) := by
  rw [Scope.lookup, hs.definitions]
  rfl

theorem follow_item (hs : scope.Derives s) (hroom : 0 < s.headroom) :
    s.withEmpty.follow (.reference "(Item)") = .ok (.element item, s.withEmpty.below ["(Item)"]) :=
  Scope.follow_of_leads (.hop (lookup_item hs) (.stop rfl)) ((Scope.headroom_withEmpty s).symm ▸ hroom)

theorem slot_items (hs : scope.Derives s) (hroom : 0 < s.headroom) :
    s.withEmpty.slot (.list (.reference "(Item)")) =
      .ok ⟨.multiple, some "item", .reference "(Item)"⟩ := by
  rw [Scope.slot, Scope.slot_reference (follow_item hs hroom), Scope.slot]
  rfl

theorem item_subsumes_item (hs : scope.Derives s) (ht : scope.Derives t) (hs' : 0 < s.headroom)
    (ht' : 0 < t.headroom) (h : compareChild (.reference "(Item)") (.reference "(Item)") s.withEmpty
      t.withEmpty = .accepted) :
    (element item).subsumes (element item) s t = .accepted := by
  have hplaces : ∀ {u : Scope}, scope.Derives u → 0 < u.headroom → List.Forall₂
      (fun child place => u.withEmpty.slot child = .ok place) item.children
        [⟨.multiple, some "item", .reference "(Item)"⟩] := fun hu hroom =>
    .cons (slot_items hu hroom) .nil
  refine subsumes_elements.mpr ⟨rfl, rfl, .inr ⟨s, item, s, item, t, rfl, ?_, ?_, ?_,
    _, _, hplaces hs hs', hplaces ht ht', ?_⟩⟩
  · rw [Scope.resolveType, item]
  · rw [Scope.resolveType, item]
  · refine Shape.compareAttributes_self (by unfold Entries.Distinct; decide) fun entry he => ?_
    obtain rfl := List.mem_singleton.mp he
    exact subsumes_scalar_self .number
  · refine compareSlots_self (.singleton _) fun place hp => ?_
    obtain rfl := List.mem_singleton.mp hp
    rw [Scope.placeCompare_named rfl]
    exact h

theorem compareChild_item (hs : scope.Derives s) (ht : scope.Derives t) (hs' : 1 < s.headroom)
    (ht' : 1 < t.headroom) :
    compareChild (.reference "(Item)") (.reference "(Item)") s.withEmpty t.withEmpty = .accepted := by
  by_cases ha : s.withEmpty.isAssumed "(Item)" "(Item)" = true
  · exact compareChild_eq_accepted.mpr (.inl (if_pos ha))
  · have hs₁ : scope.Derives (s.withEmpty.assuming "(Item)" "(Item)") := hs.withEmpty.congr rfl rfl
    have hb : (s.withEmpty.assuming "(Item)" "(Item)").follow (.reference "(Item)") = .ok (.element item,
        (s.withEmpty.assuming "(Item)" "(Item)").below ["(Item)"]) :=
      Scope.follow_of_leads (.hop (lookup_item hs) (.stop rfl)) (by simp; omega)
    refine compareChild_eq_accepted.mpr (.inr ⟨_, _, _, _, _, if_neg ha, hb,
      follow_item ht (Nat.lt_of_succ_lt ht'), ?_⟩)
    refine item_subsumes_item (hs₁.below _) (ht.withEmpty.below _) ?_ ?_ ?_
    · rw [Scope.headroom_below]
      simp
      omega
    · rw [Scope.headroom_below]
      simp
      omega
    · refine compareChild_eq_accepted.mpr (.inl (if_pos ?_))
      simp [Scope.isAssumed, Scope.below, Scope.assuming]

theorem isMarkupShape_item (hkind : d.kind .number) (hkey : d.key "id")
    (hname : ∀ name, ¬d.typeName name) (hs : scope.Derives s) : IsMarkupShape d s item := by
  refine ⟨?_, ?_, ?_, ?_⟩
  · intro entry he
    obtain rfl := List.mem_singleton.mp he
    exact ⟨hkey, .choice rfl fun q hq => ⟨.number, hkind, List.mem_singleton.mp hq ▸ .scalar .number⟩⟩
  · intro child hc
    obtain rfl := List.mem_singleton.mp hc
    refine .many (.reference ⟨hname _, fun q hq => ⟨item, ?_⟩⟩)
    rw [lookup_item hs] at hq
    exact (Except.ok.inj hq).symm
  · intro u places _ hplaces
    cases hplaces with
    | cons _ hnil =>
      cases hnil
      simp
  · intro name hn
    cases hn

theorem every_item (h : IsMarkupShape d s item) : (element item).Every (IsMarkup d s) := by
  refine every_element.mpr ⟨h, fun entry he => ?_, fun child hc => ?_⟩
  · obtain rfl := List.mem_singleton.mp he
    exact every_scalar.mpr trivial
  · obtain rfl := List.mem_singleton.mp hc
    exact every_list.mpr ⟨trivial, every_reference.mpr trivial⟩

theorem check_leaf : (element item).check leaf scope = .accepted := by
  refine check_element_eq_accepted.mpr ⟨_, item, scope, rfl, rfl, by rw [Scope.resolveType, item], ?_, ?_⟩
  · refine ⟨by decide, fun entry he text ht => ?_⟩
    obtain rfl := List.mem_singleton.mp he
    cases ht
    exact checkText_scalar_eq_accepted.mpr rfl
  · exact ⟨_, .cons (slot_items (.refl scope) (by decide)) .nil, rfl⟩

end Forest

/-- What an element without types accepts, each one that subsumes it accepts with enough headroom where
undeclared names are let through. -/
theorem Pattern.check_of_subsumes_untyped {shape other : Shape Pattern} {s t : Scope} {v : Value}
    (hp : (element shape).Every (IsMarkup (.untyped fun _ => True) s))
    (hs : s.Every (IsMarkup (.untyped fun _ => True) s))
    (hq : (element other).Every (IsMarkup (.untyped (· ≠ .null)) t))
    (ht : t.Every (IsMarkup (.untyped (· ≠ .null)) t)) (hfresh : s.assumed = [])
    (hstrict : t.policy = .strict)
    (h : (element shape).subsumes (element other) s t = .accepted)
    (hv : (element other).check v t = .accepted) :
    ∃ n, ∀ limit, n ≤ limit →
      (element shape).check v { s with policy := .permissive, depthLimit := limit } = .accepted := by
  have hrules : Rules (.untyped fun _ => True) (.untyped (· ≠ .null)) .permissive s t :=
    ⟨hs, ht, hstrict, fun _ hkey => hkey, fun _ hkey => hkey, fun hnull => hnull rfl, .inl rfl⟩
  have hsound : ElementPair.Sound ⟨shape, other, s, t⟩ :=
    ElementPair.Meets.sound ⟨hp, hq, .refl s, .refl t⟩ hs ht fun _ => id
  exact (deepAccepts_of_subsumes hrules hp hq hsound hfresh h hv).exists_limit

theorem Pattern.check_of_subsumes_untyped_item :
    (element Forest.item).subsumes (element Forest.item) Forest.scope Forest.scope = .accepted ∧
      (element Forest.item).check Forest.leaf Forest.scope = .accepted ∧
      ∃ n, ∀ limit, n ≤ limit → (element Forest.item).check Forest.leaf
        { Forest.scope with policy := .permissive, depthLimit := limit } = .accepted := by
  have hkey : isOptional (canonical "id" attributeMark) attributeMark = false := by decide
  have hshape : ∀ kind : Scalar → Prop, kind .number →
      IsMarkupShape (.untyped kind) Forest.scope Forest.item := fun kind hk =>
    Forest.isMarkupShape_item hk hkey (fun _ => id) (.refl _)
  have hscope : ∀ kind : Scalar → Prop, kind .number →
      Forest.scope.Every (IsMarkup (.untyped kind) Forest.scope) := by
    intro kind hk entry he
    obtain rfl := List.mem_singleton.mp he
    exact Forest.every_item (hshape kind hk)
  have hchild := Forest.compareChild_item (.refl Forest.scope) (.refl Forest.scope) (by decide) (by decide)
  have hsubsumes := Forest.item_subsumes_item (.refl _) (.refl _) (by decide) (by decide) hchild
  refine ⟨hsubsumes, Forest.check_leaf, ?_⟩
  exact check_of_subsumes_untyped (Forest.every_item (hshape _ trivial)) (hscope _ trivial)
    (Forest.every_item (hshape _ (by decide))) (hscope _ (by decide)) rfl rfl hsubsumes Forest.check_leaf

end PayloadContracts
