import PayloadContracts.Proofs.Groups

/-!
The check of the children of an element against the ways to cut them into segments. Main statement:
`Shape.checkChildren_fits`.
-/

namespace PayloadContracts

open Pattern

/-- The check of the children of an element that has all that its types bring. -/
def Shape.checkChildren (full : Shape Pattern) (children : List Value) (s : Scope) : Verdict :=
  match collect (full.children.map fun child _ => (s.slot child).map s.placeCheck) with
  | .error e => .ofError e
  | .ok slots => checkSlots slots (children.filter fun child => !child.isLayout)

section Places

variable {s inner : Scope} {p q : Pattern} {place : Slot Pattern} {shape full : Shape Pattern}
  {children : List Value} {places : List (Slot Pattern)} {v : Value}

/-- An element checks its attributes and then its children. -/
theorem Pattern.check_element_children {n : Node Value} (hn : n.name = shape.name)
    (h : s.resolveType shape = .ok (full, inner)) :
    (element shape).check (.node n) s =
      (checkKeys .attributes inner.policy
        (contentAttributes (full.attributes.map fun entry =>
          (entry.1, fun text => entry.2.checkText text inner.withEmpty)))
        (contentAttributes n.attributes)).andThen fun _ =>
          full.checkChildren n.children inner.withEmpty :=
  check_element hn h

theorem Shape.checkChildren_eq
    (h : List.Forall₂ (fun child place => s.slot child = .ok place) full.children places) :
    full.checkChildren children s =
      checkSlots (places.map s.placeCheck) (children.filter fun child => !child.isLayout) := by
  have hcollect : collect (full.children.map fun child _ => (s.slot child).map s.placeCheck) =
      .ok (places.map s.placeCheck) := by
    rw [collect_eq_ok_iff, List.forall₂_map_left_iff, forall₂_map_eq_ok]
    exact ⟨places, h, rfl⟩
  rw [checkChildren, hcollect]

/-- The place takes the child. -/
def Scope.Takes (s : Scope) (place : Slot Pattern) (v : Value) : Prop :=
  (s.placeCheck place).content v = .accepted

theorem Scope.takes_of_name {name : String} (h : place.name = some name) :
    s.Takes place v ↔ place.content.check v s = .accepted := by
  rw [Takes, placeCheck_named h]

/-- The places are for text or for elements, not more than one of them is for text, and those for
elements of one name stand together and take the same elements. -/
structure Scope.Sorts (s : Scope) (places : List (Slot Pattern)) : Prop where
  element : ∀ place ∈ places, place.isText = false →
    ∃ shape inner, s.follow place.content = .ok (.element shape, inner)
  oneText : ∀ a b, [a, b].Sublist places → a.isText = true → b.isText = false
  together : ∀ a b c, [a, b, c].Sublist places → a.isText = false → a.name = c.name →
    a.name = b.name
  same : ∀ a ∈ places, ∀ b ∈ places, a.isText = false → a.name = b.name → ∀ n : Node Value,
    a.content.check (.node n) s = .accepted ↔ b.content.check (.node n) s = .accepted

theorem Scope.name_of_slot (hs : s.slot p = .ok place)
    (hf : s.follow place.content = .ok (.element shape, inner)) : place.name = some shape.name := by
  have hone : ∀ {p : Pattern} {place : Slot Pattern}, s.slot p = .ok place →
      s.follow p = .ok (.element shape, inner) → place.name = some shape.name := by
    intro p place hs hf
    obtain ⟨token, rfl⟩ | hp := eq_reference_or p
    · rw [slot_reference hf, slot] at hs
      cases hs
      rfl
    · rw [follow_self hp] at hf
      cases hf
      rw [slot] at hs
      cases hs
      rfl
  rw [content_slot hs] at hf
  cases p with
  | list item =>
    rw [slot] at hs
    cases hitem : s.slot item with
    | error e => simp [hitem] at hs
    | ok part =>
      rw [hitem] at hs
      cases hs
      have hname : part.name = some shape.name := hone hitem hf
      exact hname
  | _ => exact hone hs hf

theorem Pattern.node_of_follow (hf : s.follow p = .ok (.element shape, inner))
    (h : p.check v s = .accepted) : ∃ n : Node Value, v = .node n ∧ n.name = shape.name := by
  obtain ⟨trail, hl, -⟩ := Scope.follow_eq_ok_iff.mp hf
  exact node_of_leads hl rfl h

theorem Scope.Takes.accepts (h : s.Takes place v) (hs : s.slot p = .ok place)
    (helement : place.isText = false →
      ∃ shape inner, s.follow place.content = .ok (.element shape, inner)) :
    place.accepts v = true := by
  refine accepts_of_placeCheck rfl ?_ h
  cases hname : place.name with
  | none => exact .inl rfl
  | some name =>
    obtain ⟨shape, inner, hf⟩ := helement (by simp [Slot.isText, hname])
    obtain ⟨trail, hl, -⟩ := follow_eq_ok_iff.mp hf
    exact .inr ⟨shape, trail, hname ▸ name_of_slot hs hf, hl⟩

theorem Scope.Sorts.grouped (h : s.Sorts places) : Grouped places := by
  refine ⟨fun a b c hs he => ?_, h.oneText⟩
  cases ha : a.isText with
  | false => exact h.together a b c hs ha he
  | true =>
    have hac : [a, c].Sublist places := .trans (.cons_cons a (.cons b (.refl _))) hs
    have hc := h.oneText a c hac ha
    rw [← Slot.isText_eq_of_name_eq he, ha] at hc
    cases hc

theorem Scope.Sorts.takes_iff (h : s.Sorts places) {a b : Slot Pattern}
    (hs : [a, b].Sublist places) (he : a.name = b.name) (v : Value) : s.Takes a v ↔ s.Takes b v := by
  have ha : a ∈ places := hs.subset List.mem_cons_self
  have hb : b ∈ places := hs.subset (List.mem_cons_of_mem _ List.mem_cons_self)
  have htext := Slot.isText_eq_of_name_eq he
  cases hname : a.name with
  | none =>
    have hta : a.isText = true := by simp [Slot.isText, hname]
    rw [hta, h.oneText a b hs hta] at htext
    cases htext
  | some name =>
    have hta : a.isText = false := by simp [Slot.isText, hname]
    obtain ⟨_, _, hfa⟩ := h.element a ha hta
    obtain ⟨_, _, hfb⟩ := h.element b hb (htext ▸ hta)
    have hsame := h.same a ha b hb hta he
    rw [takes_of_name hname, takes_of_name (he ▸ hname)]
    constructor
    · intro hv
      obtain ⟨n, rfl, -⟩ := node_of_follow hfa hv
      exact (hsame n).mp hv
    · intro hv
      obtain ⟨n, rfl, -⟩ := node_of_follow hfb hv
      exact (hsame n).mpr hv

/-- Children that an element accepts can be cut into segments, one for each place. Where the places
are sorted, children that can be cut are accepted. -/
theorem Shape.checkChildren_fits
    (h : List.Forall₂ (fun child place => s.slot child = .ok place) full.children places) :
    (full.checkChildren children s = .accepted →
        Fits s.Takes places (children.filter fun child => !child.isLayout)) ∧
      (s.Sorts places → (full.checkChildren children s = .accepted ↔
        Fits s.Takes places (children.filter fun child => !child.isLayout))) := by
  have hcut : full.checkChildren children s = .accepted →
      Fits s.Takes places (children.filter fun child => !child.isLayout) := by
    rw [checkChildren_eq h]
    exact fits_of_checkSlots
  refine ⟨hcut, fun hsorts => ⟨hcut, fun hfits => ?_⟩⟩
  rw [checkChildren_eq h]
  refine hfits.checkSlots_of_grouped hsorts.grouped (fun a b => hsorts.takes_iff) ?_
  intro place hp v hv
  obtain ⟨child, -, hslot⟩ := exists_of_forall₂_right h hp
  exact Scope.Takes.accepts hv hslot (hsorts.element place hp)

end Places

namespace Pages

/-- A page without content. -/
def page (occurs : Occurs) : Pattern := .element ⟨"page", none, [], [], occurs, none⟩

/-- A book has any number of pages and one page at its end. -/
def book : Shape Pattern := ⟨"book", none, [], [page .multiple, page .required], .required, none⟩

def scope : Scope := .ofDefinitions [] ⟨.strict, 8, 100⟩

def leaf : Value := .node ⟨"page", none, [], []⟩

def places : List (Slot Pattern) :=
  [⟨.multiple, some "page", page .multiple⟩, ⟨.required, some "page", page .required⟩]

theorem slots : List.Forall₂ (fun child place => scope.slot child = .ok place) book.children places := by
  have hslot : ∀ occurs, scope.slot (page occurs) = .ok ⟨occurs, some "page", page occurs⟩ := by
    intro occurs
    rw [page, Scope.slot]
  exact .cons (hslot .multiple) (.cons (hslot .required) .nil)

theorem check_leaf (occurs : Occurs) : (page occurs).check leaf scope = .accepted := by
  refine check_element_eq_accepted.mpr ⟨_, ⟨"page", none, [], [], occurs, none⟩, scope, rfl, rfl, ?_, ?_, ?_⟩
  · rw [Scope.resolveType]
  · exact ⟨rfl, by simp [contentAttributes]⟩
  · exact ⟨[], .nil, rfl⟩

theorem mem_places {place : Slot Pattern} (h : place ∈ places) :
    place.name = some "page" ∧ ∃ occurs, place.content = page occurs := by
  obtain rfl | h := List.mem_cons.mp h
  · exact ⟨rfl, _, rfl⟩
  · obtain rfl := List.mem_singleton.mp h
    exact ⟨rfl, _, rfl⟩

theorem sorts : scope.Sorts places := by
  have htext : ∀ place ∈ places, place.isText = false := by
    intro place hp
    simp [Slot.isText, (mem_places hp).1]
  refine ⟨fun place hp _ => ?_, fun a b hs _ => ?_, fun a b c hs => absurd hs.length_le (by simp [places]),
    fun a ha b hb _ _ n => ?_⟩
  · obtain ⟨-, occurs, hpage⟩ := mem_places hp
    rw [hpage]
    exact ⟨_, _, Scope.follow_self rfl⟩
  · exact htext b (hs.subset (by simp))
  · obtain ⟨-, occurs, hpage⟩ := mem_places ha
    obtain ⟨-, other, hother⟩ := mem_places hb
    rw [hpage, hother]
    exact check_withOccurs (p := page other) occurs

end Pages

theorem Shape.checkChildren_fits_pages :
    List.Forall₂ (fun child place => Pages.scope.slot child = .ok place) Pages.book.children
        Pages.places ∧
      Pages.scope.Sorts Pages.places ∧
      Pages.book.checkChildren [Pages.leaf, .text " ", Pages.leaf, Pages.leaf] Pages.scope =
        .accepted := by
  refine ⟨Pages.slots, Pages.sorts, ((checkChildren_fits Pages.slots).2 Pages.sorts).mpr ?_⟩
  have hleaf : ∀ place ∈ Pages.places, Pages.scope.Takes place Pages.leaf := by
    intro place hp
    obtain ⟨hname, occurs, hpage⟩ := Pages.mem_places hp
    rw [Scope.takes_of_name hname, hpage]
    exact Pages.check_leaf occurs
  have heach : ∀ place ∈ Pages.places, ∀ n, ∀ v ∈ List.replicate n Pages.leaf,
      Pages.scope.Takes place v := fun place hp n v hv => List.eq_of_mem_replicate hv ▸ hleaf place hp
  have hlast : Fits Pages.scope.Takes [⟨.required, some "page", Pages.page .required⟩]
      (List.replicate 1 Pages.leaf ++ []) :=
    .segment rfl (heach _ (by simp [Pages.places]) 1) .nil
  have hfits : Fits Pages.scope.Takes Pages.places
      (List.replicate 2 Pages.leaf ++ (List.replicate 1 Pages.leaf ++ [])) :=
    .segment trivial (heach _ (by simp [Pages.places]) 2) hlast
  exact hfits

end PayloadContracts
