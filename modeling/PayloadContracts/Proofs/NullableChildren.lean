import PayloadContracts.Proofs.NodeSamples
import PayloadContracts.Proofs.FiniteSamples

/-!
A token with a question mark is never a place for an element, even if it names one. Main statement:
`Pattern.check_nullable_child`.

What the token spells is a union, and the place of a union is one for text. So the element may be left
out, but it is not let through where it is there, though samples have it.
-/

namespace PayloadContracts

open Pattern

namespace Pattern

variable {s t : Scope} {p q : Pattern} {shape other : Shape Pattern} {ps : List Pattern} {name : String}
  {v : Value}

theorem ofText_nullable (h : Token.read? (typeToken name) = some p) :
    ofText (typeToken (name ++ "?")) = nullable p := by
  rw [ofText, Token.read?_nullable h]
  rfl

theorem slot_union : s.slot (union ps) = .ok ⟨.required, none, union ps⟩ := by
  rw [Scope.slot] <;> simp

/-- An element with a union as its only child has no elements in it. -/
theorem not_mem_of_check {n : Node Value} (hn : shape.typeRef = none) (hc : shape.children = [union ps])
    (h : (element shape).check (.node n) s = .accepted) (w : Node Value) : .node w ∉ n.children := by
  intro hw
  obtain ⟨-, -, -, places, hplaces, hslots⟩ := (check_of_resolves (.plain hn)).mp h
  rw [hc] at hplaces
  cases hplaces with
  | cons hplace hnil =>
    cases hnil
    cases slot_union.symm.trans hplace
    have hkept : .node w ∈ n.children.filter fun child => !child.isLayout :=
      List.mem_filter.mpr ⟨hw, rfl⟩
    revert hslots hkept
    cases n.children.filter fun child => !child.isLayout with
    | nil => exact fun _ hkept => by cases hkept
    | cons first rest =>
      intro hslots hkept
      obtain ⟨hfirst, hrest⟩ := (checkSlots_required_cons rfl).mp hslots
      obtain rfl := checkSlots_nil_eq_accepted.mp hrest
      obtain rfl := List.mem_singleton.mp hkept
      cases hfirst

/-- Where the token of absent content has its meaning, the child may be absent. -/
theorem check_without_child (hn : shape.typeRef = none) (ha : shape.attributes = [])
    (hc : shape.children = [nullable p]) (hempty : s.withEmpty.lookup emptyToken = .ok (.scalar .empty))
    (hroom : 0 < s.headroom) (qualifier : Option String) :
    (element shape).check (.node ⟨shape.name, qualifier, [], []⟩) s = .accepted := by
  refine (check_only_child hn ha hc).mpr ⟨_, slot_union, ?_⟩
  refine (checkSlots_required_nil rfl).mpr ⟨rfl, ?_, rfl⟩
  have hleads : s.withEmpty.withEmpty.Leads (reference emptyToken) [emptyToken] (scalar .empty) := by
    rw [Scope.withEmpty_withEmpty]
    exact .hop hempty (.stop rfl)
  have hfollow := Scope.follow_of_leads hleads (by simpa [Nat.succ_le_iff] using hroom)
  have htext : (scalar .empty).checkText "" (s.withEmpty.withEmpty.below [emptyToken]) = .accepted :=
    checkText_scalar_eq_accepted.mpr rfl
  exact checkText_union_eq_accepted.mpr ⟨reference emptyToken, List.mem_cons_self,
    checkText_reference_eq_accepted.mpr ⟨_, _, hfollow, htext⟩⟩

/-- A name that is not being expanded is there in samples of the union that allows its absence. -/
theorem sample_nullable {token : String} (htoken : token ≠ emptyToken) (hpath : token ∉ s.path) :
    (nullable (reference token)).sample s = (reference token).sample s.withEmpty := by
  have hlive : (reference token).isEmptyMarker = false := by simpa [isEmptyMarker] using htoken
  have hfresh : (reference token).reenters s.withEmpty = false := by
    rw [reenters, Scope.isExpanding, Scope.withEmpty_path]
    exact decide_eq_false hpath
  have hne : [reference emptyToken, reference token] ≠ [] := List.cons_ne_nil _ _
  obtain ⟨q, hq, hrep, hchosen⟩ := exists_representative (s := s.withEmpty) hne
  have hq : q = reference token := by
    obtain ⟨hcontent, -⟩ | ⟨hback, -⟩ := hchosen
    · obtain rfl | hq := List.mem_cons.mp hq
      · cases hcontent
      · exact List.mem_singleton.mp hq
    · have hreenters := hback (reference token) (by simp) hlive
      cases hfresh.symm.trans hreenters
  rw [nullable, sample]
  split
  · rename_i r hr
    cases hrep.symm.trans hr
    rw [hq]
  · rename_i hr
    cases hrep.symm.trans hr

/-- The child is there in samples, unless its name is being expanded. -/
theorem sample_with_child {token : String} (hn : shape.typeRef = none) (ha : shape.attributes = [])
    (hc : shape.children = [nullable (reference token)]) (hl : s.lookup token = .ok (element other))
    (htoken : token ≠ emptyToken) (hpath : token ∉ s.path) (h : (element shape).sample s = .ok v) :
    ∃ w, v = .node ⟨shape.name, shape.qualifier, [], [.node w]⟩ := by
  obtain ⟨full, inner, pairs, places, chunks, hr, hpairs, hplaces, hchunks, rfl⟩ := node_of_sample h
  obtain ⟨trail, hfull, -, rfl⟩ := Scope.resolveType_eq_ok_iff.mp hr
  obtain ⟨rfl, rfl⟩ := hfull.unique (.plain hn)
  rw [ha] at hpairs
  rw [hc, Scope.below_nil] at hplaces
  rw [Scope.below_nil] at hchunks
  cases hpairs
  cases hplaces with
  | cons hplace hnil =>
    cases hnil
    cases slot_union.symm.trans hplace
    cases hchunks with
    | cons hchunk hnil =>
      cases hnil
      cases hchunk with
      | absent ho => exact absurd rfl ho
      | present hv =>
        have htarget : (nullable (reference token)).sample s.withEmpty = .ok _ := hv
        rw [sample_nullable htoken (by simpa using hpath)] at htarget
        obtain ⟨q, inner, hf, hw⟩ := follow_of_sample htarget
        obtain ⟨trail, hlead, -, -, rfl⟩ := Scope.follow_eq_ok_iff.mp hf
        rw [Scope.withEmpty_withEmpty] at hlead
        obtain ⟨rfl, rfl⟩ := hlead.unique (.hop (Scope.lookup_withEmpty hl) (.stop rfl))
        obtain ⟨-, -, -, -, -, -, -, -, -, rfl⟩ := node_of_sample hw
        exact ⟨_, rfl⟩

/-- The childless element is accepted, and one with a child only if no limit lets the child through. -/
theorem check_nullable_child (hn : shape.typeRef = none) (ha : shape.attributes = [])
    (hread : Token.read? (typeToken name) = some (reference (typeToken name)))
    (hc : shape.children = [ofText (typeToken (name ++ "?"))])
    (hempty : s.withEmpty.lookup emptyToken = .ok (.scalar .empty))
    (hl : s.lookup (typeToken name) = .ok (element other)) (hpath : s.path = []) :
    (∃ n, ∀ limit, n ≤ limit → ∀ qualifier,
        (element shape).check (.node ⟨shape.name, qualifier, [], []⟩) { s with depthLimit := limit } =
          .accepted) ∧
      (∀ (w : Node Value) (qualifier : Option String),
        (∃ n, ∀ limit, n ≤ limit →
          ((element shape).check (.node ⟨shape.name, qualifier, [], [.node w]⟩)
              { s with depthLimit := limit } = .accepted ↔
            (element other).check (.node w) { s with depthLimit := limit } = .accepted)) ↔
          ∀ limit, (element other).check (.node w) { s with depthLimit := limit } ≠ .accepted) ∧
      ∀ limit v, (element shape).sample { s with depthLimit := limit } = .ok v →
        (∃ w, v = .node ⟨shape.name, shape.qualifier, [], [.node w]⟩) ∧
          (element shape).check v { s with depthLimit := limit } ≠ .accepted := by
  rw [ofText_nullable hread] at hc
  have hnever : ∀ (limit : Nat) (w : Node Value) (qualifier : Option String),
      (element shape).check (.node ⟨shape.name, qualifier, [], [.node w]⟩) { s with depthLimit := limit } ≠
        .accepted := fun limit w qualifier h => not_mem_of_check hn hc h w List.mem_cons_self
  have hlimit : ∀ limit, s.Derives { s with depthLimit := limit } := fun _ =>
    (Scope.Derives.refl s).congr rfl rfl
  have htoken : typeToken name ≠ emptyToken := by
    intro h
    rw [h] at hl
    cases (Scope.lookup_withEmpty hl).symm.trans hempty
  refine ⟨⟨1, fun limit hle qualifier => ?_⟩, fun w qualifier => ⟨fun ⟨n, hiff⟩ limit h => ?_, fun h => ?_⟩,
    fun limit v h => ?_⟩
  · refine check_without_child hn ha hc ?_ ?_ qualifier
    · rwa [Scope.lookup_congr (hlimit limit).definitions]
    · rw [Scope.headroom, hpath]
      exact hle
  · have hdeeper : ({ s with depthLimit := limit } : Scope).Within { s with depthLimit := max n limit } :=
      ⟨.inl rfl, .inl rfl, Nat.sub_le_sub_right (Nat.le_max_right n limit) _⟩
    exact hnever _ w qualifier ((hiff _ (Nat.le_max_left n limit)).mpr (hdeeper.check h))
  · exact ⟨0, fun limit _ => iff_of_false (hnever limit w qualifier) (h limit)⟩
  · have hl' : ({ s with depthLimit := limit } : Scope).lookup (typeToken name) = .ok (element other) := hl
    obtain ⟨w, rfl⟩ := sample_with_child hn ha hc hl' htoken (by simp [hpath]) h
    exact ⟨⟨w, rfl⟩, hnever limit w _⟩

end Pattern

namespace Contacts

open Pattern

def address : Shape Pattern := ⟨"address", none, [], [.scalar .string], .required, none⟩

def scope : Scope := .ofDefinitions [("(Address)", .element address)] ⟨.strict, 8, 100⟩

/-- A person with perhaps an address. -/
def person : Shape Pattern := ⟨"person", none, [], [ofText "(Address?)"], .required, none⟩

def home : Node Value := ⟨"address", none, [], [.text "example"]⟩

theorem children_person : person.children = [nullable (reference "(Address)")] := by
  have hread : Token.read? (typeToken "Address") = some (reference "(Address)") := rfl
  exact congrArg (fun p => [p]) (ofText_nullable hread)

theorem check_home (s : Scope) : (element address).check (.node home) s = .accepted := by
  refine (check_only_child rfl rfl rfl).mpr ⟨⟨.required, none, .scalar .string⟩, ?_, ?_⟩
  · rw [Scope.slot] <;> simp
  · have htext : (scalar .string).checkText "example" s.withEmpty = .accepted :=
      checkText_scalar_eq_accepted.mpr rfl
    exact (checkSlots_required_cons rfl).mpr ⟨htext, rfl⟩

theorem sample_address (s : Scope) : (element address).sample s = .ok (.node home) := by
  have hplain : s.resolveType address = .ok (address, s) := by
    rw [Scope.resolveType]
    rfl
  have hchild : sampleChild (.scalar .string) s.withEmpty = .ok [.text "example"] := by
    rw [sampleChild, Scope.slot, single, sample] <;> first | rfl | simp
  refine sample_element_eq_ok.mpr ⟨address, s, [], [[.text "example"]], hplain, rfl, ?_, rfl⟩
  simp only [address, List.map_cons, List.map_nil, collect, hchild]

theorem sample_person : (element person).sample scope = .ok (.node ⟨"person", none, [], [.node home]⟩) := by
  have hplain : scope.resolveType person = .ok (person, scope) := by
    rw [Scope.resolveType]
    rfl
  have hleads : scope.withEmpty.withEmpty.Leads (reference "(Address)") ["(Address)"] (element address) :=
    .hop rfl (.stop rfl)
  have hfollow := Scope.follow_of_leads hleads (by decide)
  have hunion : (nullable (reference "(Address)")).sample scope.withEmpty = .ok (.node home) := by
    rw [sample_nullable (by decide) (by simp [scope, Scope.ofDefinitions]), sample_of_follow hfollow,
      sample_address]
  have hchild : sampleChild (nullable (reference "(Address)")) scope.withEmpty = .ok [.node home] := by
    have hsingle : (nullable (reference "(Address)")).single = nullable (reference "(Address)") := rfl
    rw [sampleChild, hsingle, hunion, nullable, slot_union]
    rfl
  refine sample_element_eq_ok.mpr ⟨person, scope, [], [[.node home]], hplain, rfl, ?_, rfl⟩
  rw [children_person]
  simp only [List.map_cons, List.map_nil, collect, hchild]

end Contacts

theorem Pattern.check_nullable_child_address :
    Contacts.person.typeRef = none ∧ Contacts.person.attributes = [] ∧
      Token.read? (typeToken "Address") = some (reference (typeToken "Address")) ∧
      Contacts.person.children = [ofText (typeToken ("Address" ++ "?"))] ∧
      Contacts.scope.withEmpty.lookup emptyToken = .ok (.scalar .empty) ∧
      Contacts.scope.lookup (typeToken "Address") = .ok (element Contacts.address) ∧
      Contacts.scope.path = [] ∧
      (∃ n, ∀ limit, n ≤ limit → ∀ qualifier,
        (element Contacts.person).check (.node ⟨"person", qualifier, [], []⟩)
          { Contacts.scope with depthLimit := limit } = .accepted) ∧
      ∀ limit v, (element Contacts.person).sample { Contacts.scope with depthLimit := limit } = .ok v →
        (∃ w, v = .node ⟨"person", none, [], [.node w]⟩) ∧
          (element Contacts.person).check v { Contacts.scope with depthLimit := limit } ≠ .accepted := by
  have hread : Token.read? (typeToken "Address") = some (reference (typeToken "Address")) := rfl
  have hchildren : Contacts.person.children = [ofText (typeToken ("Address" ++ "?"))] := rfl
  obtain ⟨hchildless, -, hsample⟩ :=
    check_nullable_child (s := Contacts.scope) rfl rfl hread hchildren rfl rfl rfl
  exact ⟨rfl, rfl, hread, hchildren, rfl, rfl, rfl, hchildless, hsample⟩

/-- A person with an address is a sample, and the address is one, but the person is not accepted. -/
theorem Pattern.not_check_nullable_child :
    Contacts.person.typeRef = none ∧ Contacts.person.attributes = [] ∧
      Contacts.person.children = [ofText "(Address?)"] ∧
      Contacts.scope.lookup "(Address)" = .ok (element Contacts.address) ∧
      (element Contacts.person).sample Contacts.scope =
        .ok (.node ⟨"person", none, [], [.node Contacts.home]⟩) ∧
      ∀ limit,
        (element Contacts.address).check (.node Contacts.home) { Contacts.scope with depthLimit := limit } =
            .accepted ∧
          (element Contacts.person).check (.node ⟨"person", none, [], [.node Contacts.home]⟩)
            { Contacts.scope with depthLimit := limit } ≠ .accepted :=
  ⟨rfl, rfl, rfl, rfl, Contacts.sample_person, fun _ => ⟨Contacts.check_home _, fun h =>
    not_mem_of_check rfl Contacts.children_person h Contacts.home List.mem_cons_self⟩⟩

end PayloadContracts
