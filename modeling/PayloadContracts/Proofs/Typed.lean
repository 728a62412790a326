import PayloadContracts.Proofs.Containment

/-!
Elements with types: what one subsumes it accepts, if each pair that is let through because its types
are under comparison has attributes that compare. An example where they do not is a type that holds
elements of itself with an attribute of their own.
-/

namespace PayloadContracts

open Pattern Relation

/-- Elements with types whose names are no tokens, with some names of attributes and some kinds of
texts. -/
def Dialect.typed (kind : Scalar → Prop) (key : String → Prop) : Dialect :=
  ⟨kind, key, fun name => Token.isToken name = false⟩

/-- Attributes marked at most once, and texts of any kind. -/
def Dialect.typedBigger : Dialect :=
  .typed (fun _ => True) fun key => isOptional (canonical key attributeMark) attributeMark = false

/-- Required attributes, and no text that stands for null. -/
def Dialect.typedSmaller : Dialect :=
  .typed (· ≠ .null) fun key => isOptional key attributeMark = false

/-- What an element accepts where attributes are required, each one that subsumes it accepts with
enough headroom, if all pairs that are let through have attributes that compare. -/
theorem Pattern.check_of_subsumes_typed {shape other : Shape Pattern} {s t : Scope} {v : Value}
    (hp : (element shape).Every (IsMarkup .typedBigger s)) (hs : s.Every (IsMarkup .typedBigger s))
    (hq : (element other).Every (IsMarkup .typedSmaller t)) (ht : t.Every (IsMarkup .typedSmaller t))
    (hfresh : s.assumed = []) (hstrict : s.policy = .strict) (hstrict' : t.policy = .strict)
    (hsound : ElementPair.Sound ⟨shape, other, s, t⟩)
    (h : (element shape).subsumes (element other) s t = .accepted)
    (hv : (element other).check v t = .accepted) :
    ∃ n, ∀ limit, n ≤ limit →
      (element shape).check v { s with depthLimit := limit } = .accepted := by
  have honce : ∀ name, isOptional name attributeMark = false →
      isOptional (canonical name attributeMark) attributeMark = false := by
    intro name hname
    rwa [canonical_of_not_optional hname]
  have hrules : Rules .typedBigger .typedSmaller .strict s t :=
    ⟨hs, ht, hstrict', fun _ hkey => hkey, honce, fun hnull => hnull rfl,
      .inr ⟨rfl, hstrict, fun _ hkey => hkey⟩⟩
  have hsame : s.withPolicy .strict = s := by
    rw [← hstrict]
    rfl
  have hdeep := deepAccepts_of_subsumes hrules hp hq hsound hfresh h hv
  rw [hsame] at hdeep
  exact hdeep.exists_limit

namespace Family

/-- Perhaps a child of the type, with an attribute of its own. -/
def child (kind : Scalar) : Shape Pattern :=
  ⟨"child", none, [("age", .scalar kind)], [], .optional, some "Person"⟩

def person (kind : Scalar) : Shape Pattern :=
  ⟨"person", none, [], [.element (child kind)], .required, none⟩

def root : Shape Pattern := ⟨"root", none, [], [], .required, some "Person"⟩

def scope (kind : Scalar) : Scope :=
  .ofDefinitions [("(Person)", .element (person kind))] ⟨.strict, 8, 100⟩

/-- A family with one child. -/
def one (age : String) : Value :=
  .node ⟨"root", none, [], [.node ⟨"child", none, [("age", age)], []⟩]⟩

variable {d : Dialect} {kind other : Scalar} {s t : Scope} {shape full : Shape Pattern}
  {inner : Scope} {trail : List String}

theorem lookup_person (hs : (scope kind).Derives s) :
    s.lookup (typeToken "Person") = .ok (.element (person kind)) := by
  rw [hs.lookup_eq (by decide)]
  rfl

theorem resolves_person (hs : (scope kind).Derives s) (hn : shape.typeRef = some "Person") :
    s.Resolves shape [typeToken "Person"] (shape.merge (person kind)) :=
  .element hn (.hop (lookup_person hs) (.stop rfl)) (.plain rfl)

theorem resolveType_person (hs : (scope kind).Derives s) (hn : shape.typeRef = some "Person")
    (hroom : 0 < s.headroom) :
    s.resolveType shape = .ok (shape.merge (person kind), s.below [typeToken "Person"]) :=
  Scope.resolveType_eq_ok_iff.mpr ⟨_, resolves_person hs hn, hroom, rfl⟩

theorem headroom_scope (kind : Scalar) : (scope kind).headroom = 8 := rfl

/-- The place of the child in a person. -/
def place (kind : Scalar) : Slot Pattern := ⟨.optional, some "child", .element (child kind)⟩

theorem slots_person (s : Scope) :
    List.Forall₂ (fun child place => s.slot child = .ok place) (person kind).children [place kind] := by
  refine .cons ?_ .nil
  rw [Scope.slot]
  rfl

/-- Two roots compare whatever the ages are, for the types of the children are under comparison. -/
theorem root_subsumes_root (kind other : Scalar) :
    (element root).subsumes (element root) (scope kind) (scope other) = .accepted := by
  have hs : (scope kind).Derives ((scope kind).assuming "Person" "Person") := ⟨rfl, rfl⟩
  have hroot : ((scope kind).assuming "Person" "Person").resolveType root = .ok (root.merge (person kind), _) :=
    resolveType_person hs rfl (headroom_scope kind ▸ by decide)
  have hroot' : (scope other).resolveType root = .ok (root.merge (person other), _) :=
    resolveType_person (.refl _) rfl (headroom_scope other ▸ by decide)
  have hchild : ∀ t, ((element (child kind)).compareChild (element (child other))
      (((scope kind).assuming "Person" "Person").below [typeToken "Person"]).withEmpty t) = .accepted := by
    intro t
    have hassumed : (((scope kind).assuming "Person" "Person").below
        [typeToken "Person"]).withEmpty.isAssumed "Person" "Person" = true := by
      rw [Scope.isAssumed, Scope.withEmpty_assumed]
      simp [Scope.below, Scope.assuming]
    refine compareChild_eq_accepted.mpr (.inr ⟨_, _, _, _, _, rfl, Scope.follow_self rfl,
      Scope.follow_self rfl, ?_⟩)
    refine subsumes_elements.mpr ⟨rfl, rfl, .inl ?_⟩
    simp [Scope.assumeTypes, child, hassumed]
  refine subsumes_elements.mpr ⟨rfl, rfl, .inr ⟨_, _, _, _, _, rfl, hroot, hroot', ?_, [place kind],
    [place other], slots_person _, slots_person _, ?_⟩⟩
  · refine Shape.compareAttributes_self List.nodup_nil fun entry he => ?_
    cases he
  · have hname : (place kind).name = (place other).name := rfl
    refine (compareSlots_together hname fun _ => rfl).mpr ⟨⟨rfl, ?_⟩, rfl⟩
    rw [Scope.placeCompare_named rfl]
    exact hchild _

theorem isMarkupShape_family (hkind : d.kind kind) (hkey : d.key "age") (hname : d.typeName "Person")
    (hshape : shape = root ∨ shape = child kind ∨ shape = person kind) :
    IsMarkupShape d (scope kind) shape := by
  have hcontent : ∀ q, (scope kind).withEmpty.lookup (typeToken "Person") = .ok q →
      IsChild d (scope kind) q := by
    intro q hq
    rw [lookup_person (Scope.Derives.refl _).withEmpty] at hq
    exact Except.ok.inj hq ▸ .one (.element _)
  have hage : IsText d.kind (scope kind) (.scalar kind) :=
    .choice rfl fun q hq => ⟨kind, hkind, List.mem_singleton.mp hq ▸ .scalar kind⟩
  obtain rfl | rfl | rfl := hshape
  · refine ⟨by simp [root], by simp [root], fun u places _ hplaces => ?_, fun name hn => ?_⟩
    · cases hplaces
      exact List.nodup_nil
    · cases hn
      exact ⟨hname, hcontent⟩
  · refine ⟨fun entry he => ?_, by simp [child], fun u places _ hplaces => ?_, fun name hn => ?_⟩
    · obtain rfl := List.mem_singleton.mp he
      exact ⟨hkey, hage⟩
    · cases hplaces
      exact List.nodup_nil
    · cases hn
      exact ⟨hname, hcontent⟩
  · refine ⟨by simp [person], fun child hc => ?_, fun u places _ hplaces => ?_, fun name hn => ?_⟩
    · obtain rfl := List.mem_singleton.mp hc
      exact .one (.element _)
    · cases hplaces with
      | cons _ hnil =>
        cases hnil
        simp
    · cases hn

theorem every_family (hkind : d.kind kind) (hkey : d.key "age") (hname : d.typeName "Person") :
    (element root).Every (IsMarkup d (scope kind)) ∧ (scope kind).Every (IsMarkup d (scope kind)) := by
  have hchild : (element (child kind)).Every (IsMarkup d (scope kind)) := by
    refine every_element.mpr ⟨isMarkupShape_family hkind hkey hname (.inr (.inl rfl)), fun entry he => ?_,
      by simp [child]⟩
    obtain rfl := List.mem_singleton.mp he
    exact every_scalar.mpr trivial
  constructor
  · exact every_element.mpr ⟨isMarkupShape_family hkind hkey hname (.inl rfl), by simp [root], by simp [root]⟩
  · intro entry he
    obtain rfl := List.mem_singleton.mp he
    refine every_element.mpr ⟨isMarkupShape_family hkind hkey hname (.inr (.inr rfl)), by simp [person],
      fun part hp => ?_⟩
    obtain rfl := List.mem_singleton.mp hp
    exact hchild

theorem allowsChildren_person {vs : List Value} :
    (shape.merge (person kind)).AllowsChildren vs s ↔
      checkSlots [s.placeCheck (place kind)] (vs.filter fun child => !child.isLayout) = .accepted := by
  constructor
  · rintro ⟨places, hplaces, h⟩
    obtain rfl := Scope.slots_unique rfl hplaces (slots_person s)
    exact h
  · exact fun h => ⟨[place kind], slots_person s, h⟩

theorem contentAttributes_age {α : Type} (content : α) :
    contentAttributes [("age", content)] = [("age", content)] := by
  have hage : isNamespace "age" = false := by decide
  simp [contentAttributes, hage]

theorem allowsAttributes_child {text : String} :
    ((child kind).merge (person kind)).AllowsAttributes [("age", text)] s ↔
      (kind.value? text).isSome = true := by
  have hage : canonical "age" attributeMark = "age" := canonical_of_not_optional (by decide)
  have hmerge : ((child kind).merge (person kind)).attributes = [("age", .scalar kind)] := rfl
  constructor
  · intro h
    have htext := h.texts
    rw [hmerge, contentAttributes_age, contentAttributes_age, List.forall_mem_singleton, hage] at htext
    exact checkText_scalar_eq_accepted.mp (htext text rfl)
  · intro h
    constructor
    · rw [hmerge, contentAttributes_age, contentAttributes_age, keyMismatch?_eq_none_iff]
      exact ⟨fun name hname _ => hname, fun _ name hname => .inl hname⟩
    · rw [hmerge, contentAttributes_age, contentAttributes_age, List.forall_mem_singleton, hage]
      intro other ho
      cases ho
      exact checkText_scalar_eq_accepted.mpr h

theorem check_child {text : String} (hs : (scope kind).Derives s) :
    (element (child kind)).check (.node ⟨"child", none, [("age", text)], []⟩) s = .accepted ↔
      1 ≤ s.headroom ∧ (kind.value? text).isSome = true := by
  rw [check_of_resolves (resolves_person hs rfl), allowsAttributes_child, allowsChildren_person]
  exact ⟨fun ⟨_, hroom, htext, _⟩ => ⟨hroom, htext⟩, fun ⟨hroom, htext⟩ => ⟨rfl, hroom, htext, rfl⟩⟩

/-- A family is checked by the age of its child. -/
theorem check_one {text : String} (hs : (scope kind).Derives s) :
    (element root).check (one text) s = .accepted ↔
      2 ≤ s.headroom ∧ (kind.value? text).isSome = true := by
  have hattributes : (root.merge (person kind)).AllowsAttributes [] (s.below [typeToken "Person"]) :=
    ⟨keyMismatch?_eq_none_iff.mpr ⟨by rintro name ⟨⟩, by rintro - name ⟨⟩⟩, by rintro entry ⟨⟩⟩
  have hchild := @check_child _ _ text (hs.below [typeToken "Person"]).withEmpty
  rw [Scope.headroom_withEmpty, Scope.headroom_below, List.length_singleton] at hchild
  have hslot : checkSlots [(s.below [typeToken "Person"]).withEmpty.placeCheck (place kind)]
      [.node ⟨"child", none, [("age", text)], []⟩] = .accepted ↔
        1 ≤ s.headroom - 1 ∧ (kind.value? text).isSome = true := by
    have hone : ((s.below [typeToken "Person"]).withEmpty.placeCheck (place kind)).share
        ([] : List (Slot (Value → Verdict))) ([Value.node ⟨"child", none, [("age", text)], []⟩].takeWhile
          ((s.below [typeToken "Person"]).withEmpty.placeCheck (place kind)).accepts).length = 1 := rfl
    rw [← hchild, checkSlots_run (by simp [Scope.placeCheck, place]), hone]
    simp only [List.take_succ_cons, List.take_zero, List.drop_succ_cons, List.drop_zero,
      checkAll_eq_accepted, List.forall_mem_singleton, checkSlots_nil_eq_accepted, and_true]
    rw [Scope.placeCheck, place, checkChild_some]
  rw [one, check_of_resolves (resolves_person hs rfl), allowsChildren_person]
  constructor
  · rintro ⟨-, hroom, -, hchildren⟩
    obtain ⟨hroom', htext⟩ := hslot.mp hchildren
    exact ⟨by omega, htext⟩
  · rintro ⟨hroom, htext⟩
    exact ⟨rfl, Nat.le_of_succ_le hroom, hattributes, hslot.mpr ⟨by omega, htext⟩⟩

/-- Below the two roots only the two children are compared. -/
theorem compares_root {y : ElementPair}
    (h : ElementPair.Compares ⟨root, root, scope kind, scope kind⟩ y) :
    ∃ s t, y = ⟨{ child kind with occurs := .required }, { child kind with occurs := .required }, s, t⟩ ∧
      (scope kind).Derives s ∧ (scope kind).Derives t ∧ 0 < s.headroom ∧ 0 < t.headroom ∧
        s.isAssumed "Person" "Person" = true := by
  have hassuming : (scope kind).Derives ((scope kind).assuming "Person" "Person") := ⟨rfl, rfl⟩
  have hroom : 0 < ((scope kind).below [typeToken "Person"]).headroom := by
    rw [Scope.headroom_below, headroom_scope]
    decide
  cases h with
  | children ha hr hr' hmem hmem' hslot hslot' _ hpair hf hf' =>
    cases ha
    rw [resolveType_person hassuming rfl (headroom_scope kind ▸ by decide)] at hr
    rw [resolveType_person (.refl _) rfl (headroom_scope kind ▸ by decide)] at hr'
    cases hr
    cases hr'
    obtain rfl := List.mem_singleton.mp hmem
    obtain rfl := List.mem_singleton.mp hmem'
    rw [Scope.slot] at hslot hslot'
    cases hslot
    cases hslot'
    cases hpair
    rw [Scope.follow_self rfl] at hf hf'
    cases hf
    cases hf'
    refine ⟨_, _, rfl, (hassuming.below _).withEmpty, ((Scope.Derives.refl _).below _).withEmpty, ?_,
      ?_, ?_⟩
    · rwa [Scope.headroom_withEmpty]
    · rwa [Scope.headroom_withEmpty]
    · rw [Scope.isAssumed, Scope.withEmpty_assumed]
      simp [Scope.below, Scope.assuming]

/-- The two children are let through, and as they are of one family their ages agree. -/
theorem sound_root (kind : Scalar) :
    ElementPair.Sound ⟨root, root, scope kind, scope kind⟩ := by
  intro y hxy hassumed
  cases hxy using ReflTransGen.head_induction_on with
  | refl => cases hassumed
  | head hxz hzy =>
    obtain ⟨s, t, rfl, hs, ht, hs', ht', hpair⟩ := compares_root hxz
    have hnone : s.assumeTypes (some "Person") (some "Person") = none := if_pos hpair
    cases hzy using ReflTransGen.head_induction_on with
    | refl =>
      refine ⟨_, _, _, _, resolveType_person hs rfl hs', resolveType_person ht rfl ht', ?_⟩
      refine Shape.compareAttributes_self (List.pairwise_singleton _ _) fun entry he => ?_
      obtain rfl := List.mem_singleton.mp he
      exact subsumes_scalar_self kind
    | head hzw =>
      cases hzw with
      | children ha => cases hnone.symm.trans ha

theorem every_bigger (kind : Scalar) : (element root).Every (IsMarkup .typedBigger (scope kind)) ∧
    (scope kind).Every (IsMarkup .typedBigger (scope kind)) := by
  have hkey : isOptional (canonical "age" attributeMark) attributeMark = false := by decide
  have hname : Token.isToken "Person" = false := by decide
  exact every_family (d := .typedBigger) trivial hkey hname

theorem every_smaller (hkind : kind ≠ .null) :
    (element root).Every (IsMarkup .typedSmaller (scope kind)) ∧
      (scope kind).Every (IsMarkup .typedSmaller (scope kind)) := by
  have hkey : isOptional "age" attributeMark = false := by decide
  have hname : Token.isToken "Person" = false := by decide
  exact every_family (d := .typedSmaller) hkind hkey hname

end Family

theorem Pattern.check_of_subsumes_typed_family :
    (element Family.root).subsumes (element Family.root) (Family.scope .number) (Family.scope .number) =
        .accepted ∧
      (element Family.root).check (Family.one "7") (Family.scope .number) = .accepted ∧
      ∃ n, ∀ limit, n ≤ limit → (element Family.root).check (Family.one "7")
        { Family.scope .number with depthLimit := limit } = .accepted := by
  have hsubsumes := Family.root_subsumes_root .number .number
  have hcheck : (element Family.root).check (Family.one "7") (Family.scope .number) = .accepted :=
    (Family.check_one (.refl _)).mpr ⟨by decide, by decide⟩
  obtain ⟨hroot, hscope⟩ := Family.every_bigger .number
  obtain ⟨hroot', hscope'⟩ := Family.every_smaller (show Scalar.number ≠ .null by decide)
  refine ⟨hsubsumes, hcheck, ?_⟩
  exact check_of_subsumes_typed hroot hscope hroot' hscope' rfl rfl rfl (Family.sound_root .number)
    hsubsumes hcheck

/-- Ages that are numbers on one side and texts on the other go through: the root subsumes another one
with a child that it does not accept, however many names may be entered. -/
theorem Pattern.not_check_of_subsumes_typed :
    (element Family.root).Every (IsMarkup .typedBigger (Family.scope .number)) ∧
      (Family.scope .number).Every (IsMarkup .typedBigger (Family.scope .number)) ∧
      (element Family.root).Every (IsMarkup .typedSmaller (Family.scope .string)) ∧
      (Family.scope .string).Every (IsMarkup .typedSmaller (Family.scope .string)) ∧
      (element Family.root).subsumes (element Family.root) (Family.scope .number) (Family.scope .string) =
        .accepted ∧
      (element Family.root).check (Family.one "x") (Family.scope .string) = .accepted ∧
      ∀ limit, (element Family.root).check (Family.one "x")
        { Family.scope .number with depthLimit := limit } ≠ .accepted := by
  obtain ⟨hroot, hscope⟩ := Family.every_bigger .number
  obtain ⟨hroot', hscope'⟩ := Family.every_smaller (show Scalar.string ≠ .null by decide)
  refine ⟨hroot, hscope, hroot', hscope', Family.root_subsumes_root .number .string, ?_, ?_⟩
  · exact (Family.check_one (.refl (Family.scope .string))).mpr ⟨by decide, rfl⟩
  · intro limit h
    have hderives : (Family.scope .number).Derives { Family.scope .number with depthLimit := limit } :=
      ⟨rfl, rfl⟩
    have hnumber : (Scalar.number.value? "x").isSome = false := by decide
    have hread := ((Family.check_one hderives).mp h).2
    rw [hnumber] at hread
    cases hread

end PayloadContracts
