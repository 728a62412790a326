import PayloadContracts.Proofs.Depth
import PayloadContracts.Proofs.Derivations

/-!
A reference among the children of an element is as good as what it stands for, unless that is a list.
Main statement: `Pattern.check_child_of_leads`.

The place of a reference has the name and the number that its target brings, but goes on to check
children by the reference. A list gives its place the number of children that it takes, and its item is
the pattern of one of them; the reference to a list is still the pattern of the list.
-/

namespace PayloadContracts

open Pattern

namespace Scope

variable {s t : Scope} {p q : Pattern} {trail : List String} {token : String}

/-- A list is the only pattern that is not the one for a single child in its place. -/
theorem single_of_ne_list (h : ∀ item, p ≠ list item) : p.single = p := by
  cases p with
  | list item => exact absurd rfl (h item)
  | _ => rfl

theorem within_below (s : Scope) (trail : List String) : (s.below trail).Within s :=
  ⟨.inl rfl, .inl rfl, by rw [headroom_below]; exact Nat.sub_le _ _⟩

/-- What belongs in the place of a reference belongs in the place of its target. -/
theorem serves_target (hl : s.Leads (reference token) trail q) (hq : ∀ item, q ≠ list item) :
    s.Serves s (reference token) q := by
  intro place hplace
  obtain ⟨r, inner, part, hf, hpart, rfl⟩ := slot_reference_eq_ok_iff.mp hplace
  obtain ⟨trail', hl', -, -, rfl⟩ := follow_eq_ok_iff.mp hf
  obtain ⟨rfl, rfl⟩ := hl.unique hl'
  refine ⟨part, (within_below s trail).slot hpart, ?_⟩
  have hcontent : part.content = q := (content_slot hpart).trans (single_of_ne_list hq)
  refine placeCheck_admits rfl rfl (fun _ _ => .inl) ?_ fun text htext => ?_
  · rintro v _ rfl h
    rw [hcontent]
    exact (within_below s trail).check ((check_of_leads hl).mp h).2
  · rw [hcontent]
    obtain ⟨r, inner, hf', htext⟩ := checkText_reference_eq_accepted.mp htext
    cases hf.symm.trans hf'
    exact (within_below s trail).checkText htext

/-- What belongs in the place of a target belongs in the place of the reference, with more headroom. -/
theorem serves_reference (hl : t.Leads (reference token) trail q) (hq : ∀ item, q ≠ list item)
    (hroom : trail.length ≤ t.headroom) (h : s.Within (t.below trail)) :
    s.Serves t q (reference token) := by
  intro place hplace
  have hf := follow_of_leads hl hroom
  refine ⟨⟨place.occurs, place.name, reference token⟩, ?_, ?_⟩
  · exact slot_reference_eq_ok_iff.mpr ⟨q, _, place, hf, h.slot hplace, rfl⟩
  · have hcontent : place.content = q := (content_slot hplace).trans (single_of_ne_list hq)
    refine placeCheck_admits rfl rfl (fun _ _ => .inl) ?_ fun text htext => ?_
    · rintro v _ rfl hv
      rw [hcontent] at hv
      exact check_reference_eq_accepted.mpr ⟨q, _, hf, h.check hv⟩
    · rw [hcontent] at htext
      exact checkText_reference_eq_accepted.mpr ⟨q, _, hf, h.checkText htext⟩

end Scope

namespace Pattern

variable {s t : Scope} {p q : Pattern} {trail : List String} {token : String}
  {shape other : Shape Pattern} {before after : List Pattern} {v : Value}

/-- Elements without a type accept the same with children that serve for theirs. -/
theorem check_of_serves (hn : shape.typeRef = none) (ho : other = { shape with children := other.children })
    (h : s.Within t)
    (hserves : List.Forall₂ (s.withEmpty.Serves t.withEmpty) shape.children other.children)
    (hc : (element shape).check v s = .accepted) : (element other).check v t = .accepted := by
  obtain ⟨n, full, inner, rfl, -⟩ := check_element_eq_accepted.mp hc
  obtain ⟨hname, -, hattributes, hchildren⟩ := (check_of_resolves (.plain hn)).mp hc
  have hplain : t.Resolves other [] other := .plain (by rw [ho]; exact hn)
  rw [Scope.below_nil] at hattributes hchildren
  obtain ⟨hnames, htexts⟩ := hattributes.mono h fun entry _ _ => h.withEmpty.checkText
  refine (check_of_resolves hplain).mpr ⟨by rw [ho]; exact hname, Nat.zero_le _, ?_, ?_⟩
  · rw [Scope.below_nil, ho]
    exact ⟨hnames, htexts⟩
  · rw [Scope.below_nil]
    exact hchildren.serves hserves

theorem serves_replaced (h : s.Within t) (hp : s.Serves t p q) :
    List.Forall₂ (s.Serves t) (before ++ p :: after) (before ++ q :: after) := by
  have hself : ∀ children : List Pattern, List.Forall₂ (s.Serves t) children children := fun _ =>
    List.forall₂_same.mpr fun _ _ => h.serves (fun _ => h.check) fun _ => h.checkText
  exact List.rel_append (hself before) (.cons hp (hself after))

/-- A target lets through in place of the reference what this lets through. -/
theorem check_target_of_reference (hn : shape.typeRef = none)
    (hc : shape.children = before ++ reference token :: after)
    (hl : s.withEmpty.Leads (reference token) trail q) (hq : ∀ item, q ≠ list item)
    (h : (element shape).check v s = .accepted) :
    (element { shape with children := before ++ q :: after }).check v s = .accepted := by
  have hself : s.Within s := ⟨.inl rfl, .inl rfl, Nat.le_refl _⟩
  refine check_of_serves hn rfl hself ?_ h
  rw [hc]
  exact serves_replaced hself.withEmpty (Scope.serves_target hl hq)

/-- A reference lets through in place of its target what this lets through, with headroom for the names on
the way. -/
theorem check_reference_of_target (hn : shape.typeRef = none)
    (hc : shape.children = before ++ reference token :: after)
    (hl : s.withEmpty.Leads (reference token) trail q) (hq : ∀ item, q ≠ list item) (hs : s.Loosens t)
    (hroom : s.headroom + trail.length ≤ t.headroom)
    (h : (element { shape with children := before ++ q :: after }).check v s = .accepted) :
    (element shape).check v t = .accepted := by
  have hwithin : s.Within t := ⟨hs.definitions, hs.policy, Nat.le_of_add_right_le hroom⟩
  have hlead : t.withEmpty.Leads (reference token) trail q := hs.withEmpty.leads hl
  have hreplaced : ({ shape with children := before ++ q :: after } : Shape Pattern).typeRef = none := hn
  refine check_of_serves hreplaced rfl hwithin ?_ h
  rw [hc]
  refine serves_replaced hwithin.withEmpty (Scope.serves_reference hlead hq ?_ ?_)
  · rw [Scope.headroom_withEmpty]
    exact Nat.le_of_add_left_le hroom
  · refine ⟨hwithin.withEmpty.definitions, hwithin.withEmpty.policy, ?_⟩
    rw [Scope.headroom_below, Scope.headroom_withEmpty, Scope.headroom_withEmpty]
    exact Nat.le_sub_of_add_le hroom

/-- A child that is a reference is as good as its target, if that is no list and names may be entered often
enough. -/
theorem check_child_of_leads (hn : shape.typeRef = none)
    (hc : shape.children = before ++ reference token :: after)
    (hl : s.withEmpty.Leads (reference token) trail q) (hq : ∀ item, q ≠ list item) (v : Value) :
    ∃ n, ∀ limit, n ≤ limit →
      ((element shape).check v { s with depthLimit := limit } = .accepted ↔
        (element { shape with children := before ++ q :: after }).check v
          { s with depthLimit := limit } = .accepted) := by
  have hlimit : ∀ limit, s.Loosens { s with depthLimit := limit } := fun _ => .congr rfl rfl
  have hforward : ∀ limit, (element shape).check v { s with depthLimit := limit } = .accepted →
      (element { shape with children := before ++ q :: after }).check v { s with depthLimit := limit } =
        .accepted :=
    fun limit => check_target_of_reference hn hc ((hlimit limit).withEmpty.leads hl) hq
  by_cases hever : (element { shape with children := before ++ q :: after }).DeepAccepts v s
  · obtain ⟨m, hm⟩ := hever
    refine ⟨s.path.length + (m + trail.length), fun limit hle => ⟨hforward limit, fun _ => ?_⟩⟩
    have hdeeper : (s.deepened m).Loosens { s with depthLimit := limit } := .congr rfl rfl
    have hlead : (s.deepened m).withEmpty.Leads (reference token) trail q :=
      (Scope.Loosens.congr rfl rfl : s.Loosens (s.deepened m)).withEmpty.leads hl
    apply check_reference_of_target hn hc hlead hq hdeeper ?_ hm
    rw [Scope.headroom_deepened]
    exact Scope.le_headroom hle
  · refine ⟨0, fun limit _ => ⟨hforward limit, fun h => absurd ?_ hever⟩⟩
    exact (deepAccepts_of_check h).loosen (.congr rfl rfl)

end Pattern

namespace Orders

open Pattern

variable {s : Scope}

/-- An item, any number of times. -/
def item : Shape Pattern := ⟨"item", none, [], [], .multiple, none⟩

/-- An entry is another name for an item, and items are a list of them. -/
def scope : Scope :=
  .ofDefinitions [("(Item)", .element item), ("(Entry)", .reference "(Item)"),
    ("(Items)", .list (.reference "(Item)"))] ⟨.strict, 8, 100⟩

def order (child : Pattern) : Shape Pattern := ⟨"order", none, [], [child], .required, none⟩

/-- An order of one item. -/
def one : Value := .node ⟨"order", none, [], [.node ⟨"item", none, [], []⟩]⟩

theorem leads_entry : scope.withEmpty.Leads (.reference "(Entry)") ["(Entry)", "(Item)"] (.element item) :=
  .hop rfl (.hop rfl (.stop rfl))

theorem leads_items : scope.withEmpty.Leads (.reference "(Items)") ["(Items)"]
    (.list (.reference "(Item)")) :=
  .hop rfl (.stop rfl)

end Orders

theorem Pattern.check_child_of_leads_entry :
    (Orders.order (reference "(Entry)")).typeRef = none ∧
      (Orders.order (reference "(Entry)")).children = [] ++ reference "(Entry)" :: [] ∧
      Orders.scope.withEmpty.Leads (reference "(Entry)") ["(Entry)", "(Item)"] (element Orders.item) ∧
      (∀ item, element Orders.item ≠ list item) ∧
      ∃ n, ∀ limit, n ≤ limit →
        ((element (Orders.order (reference "(Entry)"))).check Orders.one
            { Orders.scope with depthLimit := limit } = .accepted ↔
          (element (Orders.order (element Orders.item))).check Orders.one
            { Orders.scope with depthLimit := limit } = .accepted) := by
  have hchildren : (Orders.order (reference "(Entry)")).children = [] ++ reference "(Entry)" :: [] := rfl
  have hnolist : ∀ item, element Orders.item ≠ list item := fun _ h => by cases h
  exact ⟨rfl, hchildren, Orders.leads_entry, hnolist,
    check_child_of_leads rfl hchildren Orders.leads_entry hnolist Orders.one⟩

namespace Orders

open Pattern

theorem lookup_item (hs : scope.Derives s) : s.lookup "(Item)" = .ok (.element item) := by
  rw [hs.lookup_eq (by decide)]
  rfl

theorem lookup_items (hs : scope.Derives s) : s.lookup "(Items)" = .ok (.list (.reference "(Item)")) := by
  rw [hs.lookup_eq (by decide)]
  rfl

theorem follow_item (hs : scope.Derives s) (hroom : 0 < s.headroom) :
    s.follow (.reference "(Item)") = .ok (.element item, s.below ["(Item)"]) :=
  Scope.follow_of_leads (.hop (lookup_item hs) (.stop rfl)) hroom

/-- The list brings the place for many items, and each is checked as an item. -/
theorem slot_list (hs : scope.Derives s) (hroom : 0 < s.headroom) :
    s.slot (.list (.reference "(Item)")) = .ok ⟨.multiple, some "item", .reference "(Item)"⟩ := by
  have hitem : (s.below ["(Item)"]).slot (.element item) = .ok ⟨.multiple, some "item", .element item⟩ := by
    rw [Scope.slot]
    rfl
  rw [Scope.slot, Scope.slot_reference (follow_item hs hroom), hitem]
  rfl

theorem check_item (hs : scope.Derives s) (hroom : 0 < s.headroom) :
    (reference "(Item)").check (.node ⟨"item", none, [], []⟩) s = .accepted := by
  refine check_reference_eq_accepted.mpr ⟨_, _, follow_item hs hroom, ?_⟩
  exact (check_of_resolves (.plain rfl)).mpr
    ⟨rfl, Nat.zero_le _, Shape.allowsAttributes_nil rfl, [], .nil, rfl⟩

theorem check_list_order (hs : scope.Derives s) (hroom : 0 < s.headroom) :
    (element (order (.list (.reference "(Item)")))).check one s = .accepted := by
  have hroom' : 0 < s.withEmpty.headroom := by rwa [Scope.headroom_withEmpty]
  refine (check_only_child rfl rfl rfl).mpr ⟨_, slot_list hs.withEmpty hroom', ?_⟩
  refine (checkSlots_multiple rfl).mpr fun child hchild => ?_
  obtain rfl := List.mem_singleton.mp hchild
  exact ⟨rfl, (Scope.placeCheck_named rfl).mpr (check_item hs.withEmpty hroom')⟩

/-- A child is checked against the whole list, and no element is a list. -/
theorem check_items_order (hs : scope.Derives s) :
    (element (order (.reference "(Items)"))).check one s ≠ .accepted := by
  intro h
  obtain ⟨place, hplace, hslots⟩ := (check_only_child rfl rfl rfl).mp h
  obtain ⟨q, inner, part, hf, hpart, rfl⟩ := Scope.slot_reference_eq_ok_iff.mp hplace
  obtain ⟨trail, hl, -, -, rfl⟩ := Scope.follow_eq_ok_iff.mp hf
  have hitems : s.withEmpty.Leads (.reference "(Items)") ["(Items)"] (.list (.reference "(Item)")) :=
    .hop (lookup_items hs.withEmpty) (.stop rfl)
  obtain ⟨rfl, rfl⟩ := hitems.unique hl
  have hdeep : scope.Derives (s.withEmpty.deepened 1) := hs.withEmpty.congr rfl rfl
  have hd : (s.withEmpty.deepened 1).definitions = (s.withEmpty.below ["(Items)"]).definitions := rfl
  obtain rfl := Scope.slot_unique hd hpart (slot_list hdeep (by simp))
  have hchild := ((checkSlots_multiple rfl).mp hslots _ List.mem_cons_self).2
  rw [Scope.placeCheck_named rfl, check_of_leads hitems, check_list_eq_accepted] at hchild
  obtain ⟨-, items, hv, -⟩ := hchild
  cases hv

end Orders

/-- The place of a reference to a list takes as many children as the list, but checks each of them as the
list. -/
theorem Pattern.not_check_child_of_leads :
    (Orders.order (reference "(Items)")).typeRef = none ∧
      (Orders.order (reference "(Items)")).children = [] ++ reference "(Items)" :: [] ∧
      Orders.scope.withEmpty.Leads (reference "(Items)") ["(Items)"] (list (reference "(Item)")) ∧
      ∀ limit, 0 < limit →
        (element (Orders.order (reference "(Items)"))).check Orders.one
            { Orders.scope with depthLimit := limit } ≠ .accepted ∧
          (element (Orders.order (list (reference "(Item)")))).check Orders.one
            { Orders.scope with depthLimit := limit } = .accepted :=
  ⟨rfl, rfl, Orders.leads_items, fun _ hlimit => ⟨Orders.check_items_order ⟨rfl, rfl⟩,
    Orders.check_list_order ⟨rfl, rfl⟩ hlimit⟩⟩

end PayloadContracts
