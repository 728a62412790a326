import PayloadContracts.Proofs.Closures
import PayloadContracts.Proofs.Untyped

/-!
A pattern stands the comparison with itself, given enough headroom. Main statement:
`Pattern.subsumes_self`.

The proof is by induction on the number of names that are not under comparison with themselves yet,
and on the size of the pattern.
-/

namespace PayloadContracts

open Relation

namespace Pattern

variable {p q : Pattern} {s s' t : Scope} {shape full : Shape Pattern} {token : String}
  {trail : List String}

/-- How many of them there may be does not matter where an element is compared with itself. -/
theorem subsumes_withOccurs_self (h : p.subsumes p s t = .accepted) (occurs : Occurs) :
    (p.withOccurs occurs).subsumes (p.withOccurs occurs) s t = .accepted := by
  cases p with
  | element shape =>
    obtain ⟨-, -, hassumed | ⟨s', full, s₁, full', t₁, ha, hr, hr', hattributes, hchildren⟩⟩ :=
      subsumes_elements.mp h
    · exact subsumes_elements.mpr ⟨Occurs.admits_self _, rfl, .inl hassumed⟩
    · obtain ⟨trail, hfull, hroom, rfl⟩ := Scope.resolveType_eq_ok_iff.mp hr
      obtain ⟨trail', hfull', hroom', rfl⟩ := Scope.resolveType_eq_ok_iff.mp hr'
      refine subsumes_elements.mpr ⟨Occurs.admits_self _, rfl, .inr ⟨s', { full with occurs }, _,
        { full' with occurs }, _, ha, ?_, ?_, hattributes, hchildren⟩⟩
      · exact Scope.resolveType_eq_ok_iff.mpr ⟨trail, hfull.withOccurs occurs, hroom, rfl⟩
      · exact Scope.resolveType_eq_ok_iff.mpr ⟨trail', hfull'.withOccurs occurs, hroom', rfl⟩
  | _ => exact h

theorem compareChild_self (hd : t.definitions = s.definitions) (h : p.subsumes p s t = .accepted) :
    p.compareChild p s t = .accepted := by
  obtain ⟨token, rfl⟩ | hp := eq_reference_or p
  · obtain ha | ⟨q, s', q', t', hf, hf', hsub⟩ := subsumes_references.mp h
    · exact compareChild_eq_accepted.mpr (.inl (if_pos ha))
    · by_cases ha : s.isAssumed token token = true
      · exact compareChild_eq_accepted.mpr (.inl (if_pos ha))
      · obtain ⟨trail, hl, -⟩ := Scope.follow_eq_ok_iff.mp hf
        obtain ⟨trail', hl', -⟩ := Scope.follow_eq_ok_iff.mp hf'
        obtain ⟨-, rfl⟩ := hl.unique (hl'.mono fun name next hn => (Scope.lookup_congr hd.symm name).trans hn)
        exact compareChild_eq_accepted.mpr (.inr ⟨_, _, _, _, _, if_neg ha, hf, hf',
          subsumes_withOccurs_self hsub .required⟩)
  · have ha : s.assumePair p p = some s := by
      cases p <;> first | rfl | cases hp
    exact compareChild_eq_accepted.mpr (.inr ⟨s, p, s, p, t, ha, Scope.follow_self hp,
      Scope.follow_self hp, subsumes_withOccurs_self h .required⟩)

theorem compareText_self (h : p.subsumes p s t = .accepted) :
    compareText (fun text => p.checkText text s) (fun q => p.subsumes q s t) p = .accepted := by
  cases p with
  | literal v =>
    cases v with
    | text x =>
      refine checkText_eq_accepted.mpr ⟨.text x, by rw [read]; rfl, ?_⟩
      exact check_literal_eq_accepted.mpr (Value.same_refl (Value.tidy_text x))
    | _ => exact h
  | _ => exact h

/-- A child compares with itself in its place. -/
theorem placeCompare_self {place : Slot Pattern} (hd : t.definitions = s.definitions)
    (h : place.content.subsumes place.content s t = .accepted) :
    s.placeCompare t place place.content = .accepted := by
  cases hn : place.name with
  | none =>
    rw [Scope.placeCompare_text hn]
    exact compareText_self h
  | some name =>
    rw [Scope.placeCompare_named hn]
    exact compareChild_self hd h

end Pattern

namespace Scope

open Pattern

variable {s t : Scope} {p q : Pattern}

/-- The second pattern is the item of a list or what a reference stands for. -/
inductive Unwraps (s : Scope) : Pattern → Pattern → Prop
  | item (item : Pattern) : Unwraps s (.list item) item
  | target {token : String} {q : Pattern} (h : s.lookup token = .ok q) :
      Unwraps s (.reference token) q

theorem Unwraps.next (h : s.Unwraps p q) : s.Next p q := by
  cases h with
  | item => exact .inl (List.mem_singleton.mpr rfl)
  | target hl => exact .inr ⟨_, rfl, hl⟩

/-- With enough headroom the pattern describes the place. -/
def Places (s : Scope) (p : Pattern) (place : Slot Pattern) : Prop :=
  ∃ n, ∀ u : Scope, u.definitions = s.definitions → n ≤ u.headroom → u.slot p = .ok place

/-- Where references end and nothing leads back to itself each pattern describes a place. -/
theorem exists_places (hacc : Acc (fun q p => TransGen s.Unwraps p q) p)
    (hl : ∀ token, ReflTransGen s.Unwraps p (reference token) →
      ∃ trail q, s.Leads (reference token) trail q) : ∃ place, s.Places p place := by
  induction hacc with
  | intro p _ ih =>
    have ih := fun q hq => ih q hq fun token ht => hl token (hq.to_reflTransGen.trans ht)
    have hplain : (∀ u : Scope, u.slot p = .ok ⟨.required, none, p⟩) → ∃ place, s.Places p place :=
      fun h => ⟨_, 0, fun u _ _ => h u⟩
    cases p with
    | element shape =>
      refine ⟨⟨shape.occurs, some shape.name, element shape⟩, 0, fun u _ _ => ?_⟩
      rw [slot]
    | list item =>
      obtain ⟨place, n, hn⟩ := ih item (.single (.item item))
      refine ⟨⟨.multiple, place.name, item⟩, n, fun u hd hroom => ?_⟩
      rw [slot, hn u hd hroom]
    | reference token =>
      obtain ⟨trail, q, hlead⟩ := hl token .refl
      obtain ⟨place, n, hn⟩ := ih q (hlead.transGen fun _ _ => .target)
      refine ⟨⟨place.occurs, place.name, reference token⟩, n + trail.length, fun u hd hroom => ?_⟩
      have hlead' : u.Leads (reference token) trail q := hlead.mono fun name next hname =>
        (lookup_congr hd name).trans hname
      rw [slot_reference (follow_of_leads hlead' (Nat.le_of_add_left_le hroom)),
        hn (u.below trail) hd (by rw [headroom_below]; omega)]
      rfl
    | _ => exact hplain fun u => by rw [slot] <;> simp

end Scope

namespace Pattern

variable {p q : Pattern} {s s' t : Scope} {shape full : Shape Pattern} {token name : String}
  {trail : List String} {n m : Nat} {assumed : List (String × String)} {v : Value}
  {fields : Entries Pattern} {isOpen : Bool} {ps : List Pattern}

/-- With that much headroom and those pairs under comparison, the pattern stands the comparison. -/
def SelfFrom (n : Nat) (assumed : List (String × String)) (p : Pattern) (s : Scope) : Prop :=
  ∀ s' t : Scope, s'.definitions = s.definitions → t.definitions = s.definitions →
    s'.assumed = assumed → n ≤ s'.headroom → n ≤ t.headroom → p.subsumes p s' t = .accepted

namespace SelfFrom

theorem mono (h : SelfFrom n assumed p s) (hm : n ≤ m) : SelfFrom m assumed p s :=
  fun s' t hs ht ha hs' ht' => h s' t hs ht ha (Nat.le_trans hm hs') (Nat.le_trans hm ht')

theorem withEmpty (h : SelfFrom n assumed p s.withEmpty) (hs : s'.definitions = s.definitions)
    (ht : t.definitions = s.definitions) (ha : s'.assumed = assumed) (hs' : n ≤ s'.headroom)
    (ht' : n ≤ t.headroom) : p.subsumes p s'.withEmpty t.withEmpty = .accepted :=
  h _ _ (Scope.withEmpty_definitions_congr hs) (Scope.withEmpty_definitions_congr ht) (by simpa)
    (by simpa) (by simpa)

theorem literal (h : v.Tidy) : SelfFrom 0 assumed (literal v) s := by
  intro s' t _ _ _ _ _
  rw [subsumes, Value.check, if_pos (Value.same_refl h)]

theorem scalar (kind : Scalar) : SelfFrom 0 assumed (scalar kind) s :=
  fun _ _ _ _ _ _ _ => subsumes_scalar_self kind

theorem record (hd : Entries.Distinct fields)
    (h : ∀ field ∈ fields, SelfFrom n assumed field.2 s.withEmpty) :
    SelfFrom n assumed (record fields isOpen) s := by
  intro s' t hs ht ha hs' ht'
  rw [subsumes]
  refine compareKeys_self (fun hstrict => ?_) hd fun field hf => (h field hf).withEmpty hs ht ha hs' ht'
  cases isOpen with
  | false => rfl
  | true => cases hstrict

theorem union (h : ∀ q ∈ ps, SelfFrom n assumed q s.withEmpty) : SelfFrom n assumed (union ps) s :=
  fun _ _ hs ht ha hs' ht' => (subsumes_union_left rfl).mpr fun q hq =>
    ⟨q, hq, (h q hq).withEmpty hs ht ha hs' ht'⟩

theorem list (h : SelfFrom n assumed p s) : SelfFrom n assumed (list p) s := by
  intro s' t hs ht ha hs' ht'
  rw [subsumes]
  exact h s' t hs ht ha hs' ht'

theorem reference_assumed (h : (token, token) ∈ assumed) : SelfFrom 0 assumed (reference token) s := by
  intro s' t _ _ ha _ _
  refine subsumes_references.mpr (.inl ?_)
  simpa [Scope.isAssumed, ha] using h

theorem reference (hl : s.Leads (reference token) trail q)
    (h : SelfFrom n (assumed ++ [(token, token)]) q s) :
    SelfFrom (n + trail.length) assumed (Pattern.reference token) s := by
  intro s' t hs ht ha hs' ht'
  have hlead : ∀ u : Scope, u.definitions = s.definitions →
      u.Leads (Pattern.reference token) trail q := fun u hu =>
    hl.mono fun name next hn => (Scope.lookup_congr hu name).trans hn
  have hf := Scope.follow_of_leads (s := s'.assuming token token) (hlead _ hs)
    (Nat.le_of_add_left_le hs')
  have hf' := Scope.follow_of_leads (hlead t ht) (Nat.le_of_add_left_le ht')
  refine subsumes_references.mpr (.inr ⟨_, _, _, _, hf, hf', h _ _ hs ht ?_ ?_ ?_⟩)
  · simp [Scope.below, Scope.assuming, ha]
  · rw [Scope.headroom_below, Scope.headroom_assuming]
    omega
  · rw [Scope.headroom_below]
    omega

theorem element_assumed (hn : shape.typeRef = some name) (h : (name, name) ∈ assumed) :
    SelfFrom 0 assumed (element shape) s := by
  intro s' t _ _ ha _ _
  refine subsumes_elements.mpr ⟨Occurs.admits_self _, rfl, .inl ?_⟩
  simp [hn, Scope.assumeTypes, Scope.isAssumed, ha, h]

end SelfFrom

/-- The pairs under comparison below an element. -/
def assumedBelow (assumed : List (String × String)) (shape : Shape Pattern) : List (String × String) :=
  assumed ++ (shape.typeRef.map fun name => (name, name)).toList

theorem exists_assumeTypes (h : ∀ name, shape.typeRef = some name → (name, name) ∉ s.assumed) :
    ∃ s', s.assumeTypes shape.typeRef shape.typeRef = some s' ∧ s'.definitions = s.definitions ∧
      s'.headroom = s.headroom ∧ s'.assumed = assumedBelow s.assumed shape := by
  cases hn : shape.typeRef with
  | none => exact ⟨s, rfl, rfl, rfl, by simp [assumedBelow, hn]⟩
  | some name =>
    have hnew := h name hn
    exact ⟨s.assuming name name, by simp [Scope.assumeTypes, Scope.isAssumed, hnew], rfl, rfl,
      by simp [assumedBelow, hn, Scope.assuming]⟩

/-- With that much headroom the children describe the places. -/
def SlotsFrom (n : Nat) (children : List Pattern) (places : List (Slot Pattern)) (s : Scope) : Prop :=
  ∀ u : Scope, u.definitions = s.definitions → n ≤ u.headroom →
    List.Forall₂ (fun child place => u.slot child = .ok place) children places

theorem SlotsFrom.mono {children : List Pattern} {places : List (Slot Pattern)}
    (h : SlotsFrom n children places s) (hm : n ≤ m) : SlotsFrom m children places s :=
  fun u hd hroom => h u hd (Nat.le_trans hm hroom)

theorem exists_slotsFrom {children : List Pattern} (h : ∀ child ∈ children, ∃ place, s.Places child place) :
    ∃ n places, SlotsFrom n children places s := by
  induction children with
  | nil => exact ⟨0, [], fun _ _ _ => .nil⟩
  | cons child children ih =>
    obtain ⟨place, n, hn⟩ := h child List.mem_cons_self
    obtain ⟨m, places, hm⟩ := ih fun other ho => h other (List.mem_cons_of_mem _ ho)
    refine ⟨max n m, place :: places, fun u hd hroom => .cons (hn u hd ?_) (hm u hd ?_)⟩ <;> omega

theorem SelfFrom.element {places : List (Slot Pattern)} (hr : s.Resolves shape trail full)
    (hnew : ∀ name, shape.typeRef = some name → (name, name) ∉ assumed)
    (hd : Entries.Distinct full.attributes) (hslots : SlotsFrom n full.children places s.withEmpty)
    (hsettled : places.IsChain Slot.Settled)
    (hattributes : ∀ entry ∈ full.attributes,
      SelfFrom n (assumedBelow assumed shape) entry.2 s.withEmpty)
    (hchildren : ∀ child ∈ full.children,
      SelfFrom n (assumedBelow assumed shape) child.single s.withEmpty) :
    SelfFrom (n + trail.length) assumed (element shape) s := by
  intro s' t hs ht ha hs' ht'
  obtain ⟨s₁, hassume, hd₁, hroom₁, ha₁⟩ := exists_assumeTypes (s := s') (ha ▸ hnew)
  rw [ha] at ha₁
  have hresolves : ∀ u : Scope, u.definitions = s.definitions → trail.length ≤ u.headroom →
      u.resolveType shape = .ok (full, u.below trail) := fun u hu hroom =>
    Scope.resolveType_eq_ok_iff.mpr
      ⟨trail, hr.mono fun name next hn => (Scope.lookup_congr hu name).trans hn, hroom, rfl⟩
  have hbelow : n ≤ (s₁.below trail).headroom := by
    rw [Scope.headroom_below]
    omega
  have hbelow' : n ≤ (t.below trail).headroom := by
    rw [Scope.headroom_below]
    omega
  have hs₁ : (s₁.below trail).definitions = s.definitions := hd₁.trans hs
  have hempty : ∀ u : Scope, u.definitions = s.definitions → n ≤ u.headroom →
      List.Forall₂ (fun child place => u.withEmpty.slot child = .ok place) full.children places :=
    fun u hu hroom => hslots _ (Scope.withEmpty_definitions_congr hu) (by simpa)
  refine subsumes_elements.mpr ⟨Occurs.admits_self _, rfl, .inr ⟨s₁, full, _, full, _, hassume,
    hresolves s₁ hs₁ (by omega), hresolves t ht (by omega), ?_, places, places, hempty _ hs₁ hbelow,
    hempty _ ht hbelow', ?_⟩⟩
  · refine Shape.compareAttributes_self hd fun entry he => compareText_self ?_
    exact (hattributes entry he).withEmpty hs₁ ht ha₁ hbelow hbelow'
  · refine compareSlots_self hsettled fun place hp => placeCompare_self ?_ ?_
    · exact Scope.withEmpty_definitions_congr (ht.trans hs₁.symm)
    · obtain ⟨child, hc, hslot⟩ := exists_of_forall₂_right (hempty _ hs₁ hbelow) hp
      rw [Scope.content_slot hslot]
      exact (hchildren child hc).withEmpty hs₁ ht ha₁ hbelow hbelow'

/-- The comparison of the first pattern with itself goes on with the second, each in its scope. -/
inductive Unfolds : Pattern × Scope → Pattern × Scope → Prop
  | field {fields : Entries Pattern} {isOpen : Bool} {s : Scope} {field : String × Pattern}
      (h : field ∈ fields) : Unfolds (record fields isOpen, s) (field.2, s.withEmpty)
  | alternative {ps : List Pattern} {s : Scope} {q : Pattern} (h : q ∈ ps) :
      Unfolds (union ps, s) (q, s.withEmpty)
  | item (item : Pattern) (s : Scope) : Unfolds (list item, s) (item, s)
  | target {token : String} {s : Scope} {q : Pattern} (h : s.lookup token = .ok q) :
      Unfolds (reference token, s) (q, s)
  | entry {shape full : Shape Pattern} {s : Scope} {trail : List String} {entry : String × Pattern}
      (hr : s.Resolves shape trail full) (h : entry ∈ full.attributes) :
      Unfolds (element shape, s) (entry.2, s.withEmpty)
  | child {shape full : Shape Pattern} {s : Scope} {trail : List String} {child : Pattern}
      (hr : s.Resolves shape trail full) (h : child ∈ full.children) :
      Unfolds (element shape, s) (child, s.withEmpty)

theorem reflTransGen_of_leads (h : s.Leads p trail q) : ReflTransGen Unfolds (p, s) (q, s) := by
  induction h with
  | stop => exact .refl
  | hop hn _ ih => exact .head (.target hn) ih

/-- Tables have each name once, references and types resolve, a reference does not lead back to itself
through references and lists alone, and neighbours of one name in an element are required. -/
def IsRegular : Pattern → Scope → Prop
  | literal v, _ => v.Tidy
  | record fields _, _ => Entries.Distinct fields
  | element shape, s =>
    Entries.Distinct shape.attributes ∧ ∃ trail full, s.Resolves shape trail full ∧
      ∀ (u : Scope) places, u.definitions = s.withEmpty.definitions →
        List.Forall₂ (fun child place => u.slot child = .ok place) full.children places →
          places.IsChain Slot.Settled
  | reference token, s =>
    (∃ trail q, s.Leads (reference token) trail q) ∧
      ¬TransGen s.Unwraps (reference token) (reference token)
  | _, _ => True

/-- All that the comparison of a pattern with itself comes to is regular, and is in the set. -/
structure Unrolls (C : Set Pattern) (x : Pattern × Scope) : Prop where
  mem : x.1 ∈ C
  closed : x.2.withEmpty.IsClosed C
  regular : ∀ y, ReflTransGen Unfolds x y → y.1.IsRegular y.2

theorem Unfolds.isClosed {C : Set Pattern} {x y : Pattern × Scope} (h : Unfolds x y) (hmem : x.1 ∈ C)
    (hclosed : x.2.withEmpty.IsClosed C) : y.1 ∈ C ∧ y.2.withEmpty.IsClosed C := by
  cases h with
  | field hf => exact ⟨hclosed.parts _ hmem _ (List.mem_map_of_mem hf), by simpa using hclosed⟩
  | alternative hq => exact ⟨hclosed.parts _ hmem _ hq, by simpa using hclosed⟩
  | item item s => exact ⟨hclosed.parts _ hmem _ (List.mem_singleton.mpr rfl), hclosed⟩
  | target hl => exact ⟨hclosed.lookup _ _ hmem (Scope.lookup_withEmpty hl), hclosed⟩
  | entry hr he =>
    have hresolves := hclosed.resolves hmem (hr.mono fun _ _ => Scope.lookup_withEmpty)
    exact ⟨hresolves.1 _ he, by simpa using hclosed⟩
  | child hr hc =>
    have hresolves := hclosed.resolves hmem (hr.mono fun _ _ => Scope.lookup_withEmpty)
    exact ⟨hresolves.2 _ hc, by simpa using hclosed⟩

namespace Unrolls

variable {C : Set Pattern} {x y : Pattern × Scope}

theorem unfolds (h : Unrolls C x) (hxy : Unfolds x y) : Unrolls C y := by
  obtain ⟨hmem, hclosed⟩ := hxy.isClosed h.mem h.closed
  exact ⟨hmem, hclosed, fun z hz => h.regular z (.head hxy hz)⟩

theorem unwraps (h : Unrolls C (p, s)) (hq : ReflTransGen s.Unwraps p q) : Unrolls C (q, s) := by
  induction hq with
  | refl => exact h
  | tail _ hq ih =>
    cases hq with
    | item => exact ih.unfolds (.item _ s)
    | target hl => exact ih.unfolds (.target hl)

theorem single (h : Unrolls C (p, s)) : Unrolls C (p.single, s) := by
  cases p with
  | list item => exact h.unfolds (.item item s)
  | _ => exact h

theorem exists_places (h : Unrolls C (p, s)) (hC : C.Finite) : ∃ place, s.Places p place := by
  have hreference : ∀ token, ReflTransGen s.Unwraps p (reference token) →
      (∃ trail q, s.Leads (reference token) trail q) ∧
        ¬TransGen s.Unwraps (reference token) (reference token) := fun token ht =>
    (h.unwraps ht).regular _ .refl
  exact Scope.exists_places (Scope.acc_of_next hC h.closed h.mem (fun _ _ hq => hq.next.withEmpty)
    fun token ht => (hreference token ht).2) fun token ht => (hreference token ht).1

end Unrolls

/-- The names that are not under comparison with themselves. -/
def fresh (names : Finset String) (assumed : List (String × String)) : Finset String :=
  names.filter fun name => !(assumed.contains (name, name))

theorem card_fresh_lt {names : Finset String} (hn : name ∈ names) (h : (name, name) ∉ assumed) :
    (fresh names (assumed ++ [(name, name)])).card < (fresh names assumed).card := by
  refine Finset.card_lt_card (Finset.ssubset_iff_of_subset ?_ |>.mpr ⟨name, ?_, ?_⟩)
  · intro other ho
    simp only [fresh, Finset.mem_filter, List.contains_append, Bool.not_or, Bool.and_eq_true] at ho ⊢
    exact ⟨ho.1, ho.2.1⟩
  · simp [fresh, hn, h]
  · simp [fresh]

/-- All names of references and types that patterns of the set have. -/
structure Names (C : Set Pattern) (names : Finset String) : Prop where
  references : ∀ token, reference token ∈ C → token ∈ names
  types : ∀ shape name, element shape ∈ C → shape.typeRef = some name → name ∈ names

theorem exists_names {C : Set Pattern} (hC : C.Finite) : ∃ names, Names C names := by
  have hreferences : (⋃ p ∈ C, {token | p = reference token}).Finite :=
    hC.biUnion fun p _ => by cases p <;> simp
  have htypes : (⋃ p ∈ C, {name | ∃ shape, p = element shape ∧ shape.typeRef = some name}).Finite := by
    refine hC.biUnion fun p _ => ?_
    cases p with
    | element shape => cases hn : shape.typeRef <;> simp [hn]
    | _ => simp
  refine ⟨(hreferences.union htypes).toFinset, fun token ht => ?_, fun shape name hs hn => ?_⟩
  · rw [Set.Finite.mem_toFinset]
    exact .inl (Set.mem_biUnion ht rfl)
  · rw [Set.Finite.mem_toFinset]
    exact .inr (Set.mem_biUnion hs ⟨shape, rfl, hn⟩)

theorem exists_forall_selfFrom {ι : Type} {f : ι → Pattern} {xs : List ι}
    (h : ∀ x ∈ xs, ∃ n, SelfFrom n assumed (f x) s) : ∃ n, ∀ x ∈ xs, SelfFrom n assumed (f x) s :=
  exists_forall_mem (fun _ _ _ hle hself => hself.mono hle) h

/-- An element stands the comparison if what it has with its types does. -/
theorem Unrolls.exists_selfFrom_element {C : Set Pattern} (hC : C.Finite)
    (h : Unrolls C (element shape, s)) (hnew : ∀ name, shape.typeRef = some name → (name, name) ∉ assumed)
    (hparts : ∀ q, Unrolls C (q, s.withEmpty) →
      (shape.typeRef = none → sizeOf q < sizeOf (element shape)) →
        ∃ n, SelfFrom n (assumedBelow assumed shape) q s.withEmpty) :
    ∃ n, SelfFrom n assumed (element shape) s := by
  obtain ⟨hd, trail, full, hr, hsettled⟩ := h.regular _ .refl
  have hpart : ∀ q r : Pattern, r ∈ (element full).parts → sizeOf q ≤ sizeOf r → shape.typeRef = none →
      sizeOf q < sizeOf (element shape) := by
    intro q r hmem hle hn
    rw [hr.eq_of_typeRef hn] at hmem
    exact Nat.lt_of_le_of_lt hle (sizeOf_lt_of_mem_parts hmem)
  obtain ⟨n, hattributes⟩ : ∃ n, ∀ entry ∈ full.attributes,
      SelfFrom n (assumedBelow assumed shape) entry.2 s.withEmpty :=
    exists_forall_selfFrom fun entry he => hparts _ (h.unfolds (.entry hr he))
      (hpart _ _ (List.mem_append_left _ (List.mem_map_of_mem he)) (Nat.le_refl _))
  obtain ⟨m, hchildren⟩ : ∃ m, ∀ child ∈ full.children,
      SelfFrom m (assumedBelow assumed shape) child.single s.withEmpty :=
    exists_forall_selfFrom fun child hc => hparts _ (h.unfolds (.child hr hc)).single
      (hpart _ _ (List.mem_append_right _ hc) child.sizeOf_single_le)
  obtain ⟨k, places, hslots⟩ := exists_slotsFrom fun child hc =>
    (h.unfolds (.child hr hc)).exists_places hC
  have hchain := hsettled (s.withEmpty.deepened k) places rfl (hslots _ rfl (by simp))
  refine ⟨_, .element hr hnew (hr.distinct hd) (hslots.mono (Nat.le_max_right (max n m) k)) hchain
    (fun entry he => (hattributes entry he).mono ?_) fun child hc => (hchildren child hc).mono ?_⟩ <;>
    omega

/-- Patterns in scopes whose comparisons with themselves go on with patterns of the same sort, with names
from the set for references, and where elements stand the comparison if what they have does. -/
structure Selfsame (names : Finset String) (H : Pattern × Scope → Prop) : Prop where
  unfolds : ∀ {x y}, H x → Unfolds x y → H y
  literal : ∀ {v s}, H (literal v, s) → v.Tidy
  record : ∀ {fields isOpen s}, H (record fields isOpen, s) → Entries.Distinct fields
  reference : ∀ {token s}, H (reference token, s) →
    token ∈ names ∧ ∃ trail q, s.Leads (reference token) trail q
  typeName : ∀ {shape s name}, H (element shape, s) → shape.typeRef = some name → name ∈ names
  element : ∀ {shape s assumed}, H (element shape, s) →
    (∀ name, shape.typeRef = some name → (name, name) ∉ assumed) →
    (∀ q, H (q, s.withEmpty) → (shape.typeRef = none → sizeOf q < sizeOf (element shape)) →
      ∃ n, SelfFrom n (assumedBelow assumed shape) q s.withEmpty) →
    ∃ n, SelfFrom n assumed (element shape) s

namespace Selfsame

variable {names : Finset String} {H : Pattern × Scope → Prop}

theorem leads (h : Selfsame names H) (hp : H (p, s)) (hl : s.Leads p trail q) : H (q, s) := by
  induction hl with
  | stop => exact hp
  | hop hn _ ih => exact ih (h.unfolds hp (.target hn))

theorem exists_selfFrom (h : Selfsame names H) (hp : H (p, s)) : ∃ n, SelfFrom n assumed p s := by
  induction hk : (fresh names assumed).card using Nat.strongRecOn generalizing p s assumed with
  | ind k fewer =>
    induction hz : sizeOf p using Nat.strongRecOn generalizing p s with
    | ind z smaller =>
      cases p with
      | literal v => exact ⟨0, .literal (h.literal hp)⟩
      | scalar kind => exact ⟨0, .scalar kind⟩
      | record fields isOpen =>
        obtain ⟨n, hn⟩ := exists_forall_selfFrom (f := Prod.snd) fun field hf =>
          smaller _ (hz ▸ sizeOf_lt_of_mem_parts (List.mem_map_of_mem hf)) (h.unfolds hp (.field hf)) rfl
        exact ⟨n, .record (h.record hp) hn⟩
      | union ps =>
        obtain ⟨n, hn⟩ := exists_forall_selfFrom (f := id) fun q hq =>
          smaller _ (hz ▸ sizeOf_lt_of_mem_parts hq) (h.unfolds hp (.alternative hq)) rfl
        exact ⟨n, .union hn⟩
      | list item =>
        obtain ⟨n, hn⟩ := smaller _ (by rw [← hz]; simp) (h.unfolds hp (.item item s)) rfl
        exact ⟨n, .list hn⟩
      | reference token =>
        by_cases ha : (token, token) ∈ assumed
        · exact ⟨0, .reference_assumed ha⟩
        · obtain ⟨hname, trail, q, hl⟩ := h.reference hp
          have hlt := card_fresh_lt hname ha
          obtain ⟨n, hn⟩ := fewer _ (hk ▸ hlt) (h.leads hp hl) rfl
          exact ⟨n + trail.length, .reference hl hn⟩
      | element shape =>
        cases hn : shape.typeRef with
        | none =>
          refine h.element hp (by simp [hn]) fun q hq hlt => ?_
          rw [assumedBelow, hn, Option.map_none, Option.toList_none, List.append_nil]
          exact smaller _ (hz ▸ hlt hn) hq rfl
        | some name =>
          by_cases ha : (name, name) ∈ assumed
          · exact ⟨0, .element_assumed hn ha⟩
          · have hnew : ∀ other, shape.typeRef = some other → (other, other) ∉ assumed := by
              intro other ho
              obtain rfl := Option.some.inj (hn.symm.trans ho)
              exact ha
            refine h.element hp hnew fun q hq _ => ?_
            rw [assumedBelow, hn, Option.map_some, Option.toList_some]
            have hlt := card_fresh_lt (h.typeName hp hn) ha
            exact fewer _ (hk ▸ hlt) hq rfl

end Selfsame

theorem Unrolls.selfsame {C : Set Pattern} {names : Finset String} (hC : C.Finite)
    (hnames : Names C names) : Selfsame names (Unrolls C) where
  unfolds := unfolds
  literal h := h.regular _ .refl
  record h := h.regular _ .refl
  reference h := ⟨hnames.references _ h.mem, (h.regular _ .refl).1⟩
  typeName h := hnames.types _ _ h.mem
  element h := h.exists_selfFrom_element hC

/-- A pattern subsumes itself in each scope without pairs under comparison, if names may be entered often
enough and all that it comes to is regular. -/
theorem subsumes_self (hfresh : s.assumed = [])
    (h : ∀ x, ReflTransGen Unfolds (p, s) x → x.1.IsRegular x.2) :
    ∃ n, ∀ limit, n ≤ limit →
      p.subsumes p { s with depthLimit := limit } { s with depthLimit := limit } = .accepted := by
  obtain ⟨C, hC, hp, hclosed⟩ := s.withEmpty.exists_isClosed [p]
  obtain ⟨names, hnames⟩ := exists_names hC
  have hunrolls : Unrolls C (p, s) := ⟨hp p List.mem_cons_self, hclosed, h⟩
  obtain ⟨n, hn⟩ : ∃ n, SelfFrom n [] p s := (Unrolls.selfsame hC hnames).exists_selfFrom hunrolls
  refine ⟨s.path.length + n, fun limit hlimit => hn _ _ rfl rfl hfresh ?_ ?_⟩
  · exact Scope.le_headroom hlimit
  · exact Scope.le_headroom hlimit

end Pattern

namespace Forest

open Pattern

variable {x y : Pattern × Scope}

/-- What a comparison in the forest comes to. -/
def patterns : List Pattern :=
  [.element item, .scalar .number, .list (.reference "(Item)"), .reference "(Item)"]

theorem mem_patterns_of_unfolds (hs : scope.Derives x.2) (hx : x.1 ∈ patterns) (h : Unfolds x y) :
    scope.Derives y.2 ∧ y.1 ∈ patterns := by
  have hitem : ∀ {s : Scope} {shape full : Shape Pattern} {trail : List String},
      element shape ∈ patterns → s.Resolves shape trail full → full = item := by
    intro s shape full trail hshape hr
    obtain rfl : shape = item := by simpa [patterns] using hshape
    exact hr.eq_of_typeRef rfl
  cases h with
  | field => simp [patterns] at hx
  | alternative => simp [patterns] at hx
  | item p s =>
    obtain rfl : p = reference "(Item)" := by simpa [patterns] using hx
    exact ⟨hs, by simp [patterns]⟩
  | target hl =>
    obtain rfl : _ = "(Item)" := by simpa [patterns] using hx
    rw [← Scope.lookup_withEmpty_of_ne (by decide), lookup_item hs] at hl
    cases hl
    exact ⟨hs, List.mem_cons_self⟩
  | entry hr he =>
    obtain rfl := hitem hx hr
    obtain rfl := List.mem_singleton.mp he
    exact ⟨hs.withEmpty, by simp [patterns]⟩
  | child hr hc =>
    obtain rfl := hitem hx hr
    obtain rfl := List.mem_singleton.mp hc
    exact ⟨hs.withEmpty, by simp [patterns]⟩

theorem isRegular_of_mem_patterns (hs : scope.Derives x.2) (hx : x.1 ∈ patterns) :
    x.1.IsRegular x.2 := by
  obtain ⟨p, s⟩ := x
  simp only [patterns, List.mem_cons, List.not_mem_nil, or_false] at hx
  obtain rfl | rfl | rfl | rfl := hx
  · refine ⟨List.pairwise_singleton _ _, [], item, .plain rfl, fun u places _ hplaces => ?_⟩
    cases hplaces with
    | cons _ hnil =>
      cases hnil
      exact .singleton _
  · trivial
  · trivial
  · have hl : s.lookup "(Item)" = .ok (element item) := by
      rw [← Scope.lookup_withEmpty_of_ne (by decide), lookup_item hs]
    refine ⟨⟨_, _, .hop hl (.stop rfl)⟩, fun hcycle => ?_⟩
    obtain ⟨q, hq, hrest⟩ := TransGen.head'_iff.mp hcycle
    cases hq with
    | target hl' =>
      cases hl.symm.trans hl'
      obtain he | ⟨r, hr, -⟩ := ReflTransGen.cases_head hrest
      · cases he
      · cases hr

end Forest

theorem Pattern.subsumes_self_item :
    Forest.scope.assumed = [] ∧
      (∀ x, ReflTransGen Unfolds (element Forest.item, Forest.scope) x → x.1.IsRegular x.2) ∧
      ∃ n, ∀ limit, n ≤ limit → (element Forest.item).subsumes (element Forest.item)
        { Forest.scope with depthLimit := limit } { Forest.scope with depthLimit := limit } =
          .accepted := by
  have hregular : ∀ x, ReflTransGen Unfolds (element Forest.item, Forest.scope) x →
      x.1.IsRegular x.2 := by
    intro x hx
    have hmem : Forest.scope.Derives x.2 ∧ x.1 ∈ Forest.patterns := by
      induction hx with
      | refl => exact ⟨.refl _, List.mem_cons_self⟩
      | tail _ hyz ih => exact Forest.mem_patterns_of_unfolds ih.1 ih.2 hyz
    exact Forest.isRegular_of_mem_patterns hmem.1 hmem.2
  exact ⟨rfl, hregular, subsumes_self rfl hregular⟩

end PayloadContracts
