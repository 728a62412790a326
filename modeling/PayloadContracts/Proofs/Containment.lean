import PayloadContracts.Proofs.Groups
import PayloadContracts.Proofs.Markup
import Mathlib.Logic.Relation

/-!
An element that subsumes another one accepts all that the other accepts, if each pair of elements
that is let through because its types are under comparison has attributes that compare. Main
statement: `Pattern.deepAccepts_of_subsumes`.

The proof is by induction on the size of the value. A pair of names comes back only below an element,
so pairs under comparison are known to be covered for smaller values.
-/

namespace PayloadContracts

open Relation

/-- Two elements in the scopes in which they are compared. -/
structure ElementPair where
  bigger : Shape Pattern
  smaller : Shape Pattern
  ours : Scope
  theirs : Scope

namespace ElementPair

/-- The types of the elements are under comparison already, so nothing more is compared. -/
def IsAssumed (x : ElementPair) : Prop :=
  x.ours.assumeTypes x.bigger.typeRef x.smaller.typeRef = none

/-- All the attributes that the elements have with their types compare. -/
def AttributesCompare (x : ElementPair) : Prop :=
  ∃ full s full' t, x.ours.resolveType x.bigger = .ok (full, s) ∧
    x.theirs.resolveType x.smaller = .ok (full', t) ∧ full.compareAttributes full' s t = .accepted

/-- The second pair is compared for two children of the first one, in places of one name. -/
inductive Compares : ElementPair → ElementPair → Prop
  | children {x : ElementPair} {s s₁ s₂ s₃ t₁ t₃ : Scope} {full full' b c : Shape Pattern}
      {child child' : Pattern} {place place' : Slot Pattern}
      (assumed : x.ours.assumeTypes x.bigger.typeRef x.smaller.typeRef = some s)
      (bigger : s.resolveType x.bigger = .ok (full, s₁))
      (smaller : x.theirs.resolveType x.smaller = .ok (full', t₁))
      (mem : child ∈ full.children) (mem' : child' ∈ full'.children)
      (slot : s₁.withEmpty.slot child = .ok place) (slot' : t₁.withEmpty.slot child' = .ok place')
      (name : place.name = place'.name)
      (pair : s₁.withEmpty.assumePair place.content place'.content = some s₂)
      (follow : s₂.follow place.content = .ok (.element b, s₃))
      (follow' : t₁.withEmpty.follow place'.content = .ok (.element c, t₃)) :
      Compares x ⟨{ b with occurs := .required }, { c with occurs := .required }, s₃, t₃⟩

/-- Pairs whose types are under comparison have attributes that compare, wherever they come up. -/
def Sound (x : ElementPair) : Prop :=
  ∀ y, ReflTransGen Compares x y → y.IsAssumed → y.AttributesCompare

theorem Sound.of_compares {x y : ElementPair} (h : x.Sound) (hxy : Compares x y) : y.Sound :=
  fun z hyz => h z (.head hxy hyz)

end ElementPair

/-- What is asked of two kinds of markup, of the scopes that define them and of the policy for what
the bigger side does not declare. -/
structure Rules (d e : Dialect) (policy : KeyPolicy) (s t : Scope) : Prop where
  bigger : s.Every (Pattern.IsMarkup d s)
  smaller : t.Every (Pattern.IsMarkup e t)
  strict : t.policy = .strict
  once : ∀ name, d.key name → isOptional (canonical name attributeMark) attributeMark = false
  once' : ∀ name, e.key name → isOptional (canonical name attributeMark) attributeMark = false
  null : ¬e.kind .null
  policy : policy = .permissive ∨ policy = .strict ∧ s.policy = .strict ∧
    ∀ name, e.key name → isOptional name attributeMark = false

open Pattern

variable {d e : Dialect} {policy : KeyPolicy} {s s₁ t t₁ u w : Scope} {p q : Pattern}
  {shape other full full' : Shape Pattern} {n m : Nat} {v : Value} {vs : List Value}
  {attributes : Entries String}

theorem Pattern.DeepAccepts.element {node : Node Value} {trail : List String} (hn : node.name = shape.name)
    (hr : s.Resolves shape trail full)
    (hattributes : ∃ n, full.AllowsAttributes node.attributes (s.deepened n))
    (hchildren : ∃ n, full.AllowsChildren node.children (s.withEmpty.deepened n)) :
    (Pattern.element shape).DeepAccepts (.node node) s := by
  obtain ⟨n, hn'⟩ := hattributes
  obtain ⟨m, hm⟩ := hchildren
  have hroom : ∀ k ≤ max n m,
      (s.deepened k).Within ((s.deepened (max n m + trail.length)).below trail) := by
    intro k hk
    refine ⟨.inl rfl, .inl rfl, ?_⟩
    rw [Scope.headroom_deepened, Scope.headroom_below, Scope.headroom_deepened, Nat.add_sub_cancel]
    exact hk
  have hr' : (s.deepened (max n m + trail.length)).resolveType shape =
      .ok (full, (s.deepened (max n m + trail.length)).below trail) :=
    Scope.resolveType_eq_ok_iff.mpr ⟨trail, hr.mono fun _ _ hl => hl, by simp, rfl⟩
  refine ⟨_, check_element_eq_accepted.mpr ⟨node, full, _, rfl, hn, hr', ?_, ?_⟩⟩
  · have hw := hroom n (Nat.le_max_left n m)
    exact hn'.mono hw fun entry _ text => hw.withEmpty.checkText
  · have hw := (hroom m (Nat.le_max_right n m)).withEmpty
    rw [Scope.deepened_withEmpty] at hm
    exact hm.mono hw fun child _ => ⟨fun v => hw.check, fun text => hw.checkText⟩

namespace Rules

theorem loosens (h : Rules d e policy s t) (hs : s.Derives s₁)
    (hw : (s.withPolicy policy).Derives w) : s₁.withEmpty.Loosens w.withEmpty := by
  have hdefinitions : (s.withPolicy policy).withEmpty.definitions = s.withEmpty.definitions := by
    rw [Scope.withPolicy_withEmpty]
    rfl
  refine ⟨.inl (hw.definitions.trans (hdefinitions.trans hs.definitions.symm)), ?_⟩
  rw [Scope.withEmpty_policy, Scope.withEmpty_policy, hw.policy, hs.policy]
  obtain hp | ⟨hp, hs, -⟩ := h.policy
  · exact .inr hp
  · exact .inl (hp.trans hs.symm)

/-- Names of attributes that the smaller side allows, the bigger one allows when they compare. -/
theorem allowsNames (h : Rules d e policy s t) (hs : s.Derives s₁) (hfull' : IsMarkupShape e t full')
    (hc : full.compareAttributes full' s₁ t₁ = .accepted) (hu : t.Derives u)
    (ha : full'.AllowsAttributes attributes u) :
    keyMismatch? (Entries.names (contentAttributes full.attributes))
      (Entries.names (contentAttributes attributes)) policy attributeMark = none := by
  rw [Shape.compareAttributes, contentAttributes_map, compareKeys_map_eq_accepted] at hc
  obtain ⟨hrequired, hdeclared, -⟩ := hc
  obtain ⟨hpresent, hknown⟩ := keyMismatch?_eq_none_iff.mp ha.names
  refine keyMismatch?_eq_none_iff.mpr ⟨fun name hname ho => ?_, fun hp name hname => ?_⟩
  · exact hpresent name (hrequired name hname ho) ho
  · obtain hperm | ⟨-, hstrict, hkeys⟩ := h.policy
    · cases hperm.symm.trans hp
    · have hplain : ∀ key ∈ Entries.names (contentAttributes full'.attributes),
          isOptional key attributeMark = false := by
        intro key hkey
        obtain ⟨entry, he, rfl⟩ := List.mem_map.mp hkey
        exact hkeys _ (hfull'.attributes entry (List.mem_of_mem_filter he)).1
      have hname' : name ∈ Entries.names (contentAttributes full'.attributes) := by
        refine (hknown (hu.policy.trans h.strict) name hname).resolve_right fun hmarked => ?_
        have := hplain _ hmarked
        rw [isOptional_append] at this
        cases this
      have hsome := (hdeclared (hs.policy.trans hstrict)).2 name hname' (hplain name hname')
      exact mem_names_of_declared? hsome (hplain name hname')

/-- Attributes that the smaller side allows, the bigger one allows when they compare. -/
theorem allowsAttributes (h : Rules d e policy s t) (hs : s.Derives s₁) (ht : t.Derives t₁)
    (hfull : IsMarkupShape d s full) (hfull' : IsMarkupShape e t full')
    (hc : full.compareAttributes full' s₁ t₁ = .accepted) (hu : t.Derives u)
    (ha : full'.AllowsAttributes attributes u) (hw : (s.withPolicy policy).Derives w) :
    ∃ n, full.AllowsAttributes attributes (w.deepened n) := by
  have hnames := h.allowsNames hs hfull' hc hu ha
  rw [Shape.compareAttributes, contentAttributes_map, compareKeys_map_eq_accepted] at hc
  obtain ⟨-, -, hcompare⟩ := hc
  have hknown := (keyMismatch?_eq_none_iff.mp ha.names).2 (hu.policy.trans h.strict)
  have honce : ∀ entry ∈ contentAttributes full'.attributes,
      isOptional (canonical entry.1 attributeMark) attributeMark = false := fun entry he =>
    h.once' _ (hfull'.attributes entry (List.mem_of_mem_filter he)).1
  have htexts : ∀ entry ∈ contentAttributes full.attributes, ∃ n, ∀ text,
      Entries.get? (contentAttributes attributes) (canonical entry.1 attributeMark) = some text →
        entry.2.checkText text (w.withEmpty.deepened n) = .accepted := by
    intro entry he
    cases hget : Entries.get? (contentAttributes attributes) (canonical entry.1 attributeMark) with
    | none => exact ⟨0, fun text ht => by cases ht⟩
    | some text =>
      obtain ⟨q, hq, key, hkey, hcanonical⟩ : ∃ q,
          KeyKind.attributes.declared? (contentAttributes full'.attributes) entry.1 = some q ∧
            ∃ key, (key, q) ∈ contentAttributes full'.attributes ∧
              canonical key attributeMark = canonical entry.1 attributeMark :=
        exists_declared? (h.once _ (hfull.attributes entry (List.mem_of_mem_filter he)).1) honce
          (hknown _ (Entries.mem_names_of_get? hget))
      have hread := ha.texts (key, q) hkey text (hcanonical ▸ hget)
      have hdeep := IsText.reads_of_compareText (hfull.attributes entry (List.mem_of_mem_filter he)).2
        (hfull'.attributes (key, q) (List.mem_of_mem_filter hkey)).2 h.null hs.definitions
        ht.definitions (hcompare entry he q hq) hu.definitions hread
      obtain ⟨n, hn⟩ := hdeep.loosen (h.loosens hs hw)
      exact ⟨n, fun other hother => Option.some.inj hother ▸ hn⟩
  obtain ⟨n, hn⟩ := exists_forall_mem (fun _ _ _ hle hk text ht =>
    ((Scope.Loosens.congr rfl rfl).deepened hle).checkText (hk text ht)) htexts
  refine ⟨n, ⟨?_, fun entry he text ht => ?_⟩⟩
  · rw [show (w.deepened n).policy = policy from hw.policy]
    exact hnames
  · rw [← Scope.deepened_withEmpty]
    exact hn entry he text ht

end Rules

namespace Pattern

/-- Up to a size, what the second pattern accepts inside an element, the first accepts. -/
def CoversUpTo (policy : KeyPolicy) (n : Nat) (p q : Pattern) (s t : Scope) : Prop :=
  ∀ v u, sizeOf v ≤ n → u.definitions = t.withEmpty.definitions → u.policy = t.policy →
    q.check v u = .accepted → p.DeepAccepts v (s.withPolicy policy).withEmpty

/-- Children below a size that the second element allows, the first allows. -/
def ChildrenUpTo (policy : KeyPolicy) (n : Nat) (full full' : Shape Pattern) (s t : Scope) : Prop :=
  ∀ vs u, (∀ v ∈ vs, sizeOf v < n) → u.definitions = t.withEmpty.definitions → u.policy = t.policy →
    full'.AllowsChildren vs u →
      ∃ m, full.AllowsChildren vs ((s.withPolicy policy).withEmpty.deepened m)

/-- Children below a size that elements of the second type allow, elements of the first type allow. -/
def TypesUpTo (policy : KeyPolicy) (n : Nat) (b c : String) (s t : Scope) : Prop :=
  ∀ shape trail full other trail' full', shape.typeRef = some b → other.typeRef = some c →
    s.withEmpty.Resolves shape trail full → t.withEmpty.Resolves other trail' full' →
      ChildrenUpTo policy n full full' s t

/-- The pairs under comparison are covered, types up to the first bound and references below the
second. -/
structure PairsUpTo (d : Dialect) (policy : KeyPolicy) (n m : Nat) (assumed : List (String × String))
    (s t : Scope) : Prop where
  types : ∀ pair ∈ assumed, d.typeName pair.1 → TypesUpTo policy n pair.1 pair.2 s t
  references : ∀ pair ∈ assumed, ¬d.typeName pair.1 → ∀ k < m,
    CoversUpTo policy k (.reference pair.1) (.reference pair.2) s t

theorem ChildrenUpTo.mono (h : ChildrenUpTo policy n full full' s t) (hm : m ≤ n) :
    ChildrenUpTo policy m full full' s t :=
  fun vs u hvs => h vs u fun v hv => Nat.lt_of_lt_of_le (hvs v hv) hm

theorem ChildrenUpTo.congr {shape shape' : Shape Pattern} (h : ChildrenUpTo policy n full full' s t)
    (hc : shape.children = full.children) (hc' : shape'.children = full'.children) :
    ChildrenUpTo policy n shape shape' s t := by
  simp only [ChildrenUpTo, Shape.AllowsChildren, hc, hc'] at h ⊢
  exact h

theorem PairsUpTo.mono {assumed : List (String × String)} {k l : Nat}
    (h : PairsUpTo d policy n m assumed s t) (hk : k ≤ n) (hl : l ≤ m) :
    PairsUpTo d policy k l assumed s t :=
  ⟨fun pair hp hn shape trail full other trail' full' hb hc hr hr' =>
    (h.types pair hp hn shape trail full other trail' full' hb hc hr hr').mono hk,
    fun pair hp hn k hk => h.references pair hp hn k (Nat.lt_of_lt_of_le hk hl)⟩

theorem PairsUpTo.append_reference {assumed : List (String × String)} {b c : String}
    (h : PairsUpTo d policy n m assumed s t) (hb : ¬d.typeName b)
    (hbc : ∀ k < m, CoversUpTo policy k (.reference b) (.reference c) s t) :
    PairsUpTo d policy n m (assumed ++ [(b, c)]) s t := by
  constructor
  · intro pair hp hn
    obtain hp | hp := List.mem_append.mp hp
    · exact h.types pair hp hn
    · obtain rfl := List.mem_singleton.mp hp
      exact absurd hn hb
  · intro pair hp hn
    obtain hp | hp := List.mem_append.mp hp
    · exact h.references pair hp hn
    · obtain rfl := List.mem_singleton.mp hp
      exact hbc

theorem PairsUpTo.append_type {assumed : List (String × String)} {b c : String}
    (h : PairsUpTo d policy n m assumed s t) (hb : d.typeName b) (hbc : TypesUpTo policy n b c s t) :
    PairsUpTo d policy n m (assumed ++ [(b, c)]) s t := by
  constructor
  · intro pair hp hn
    obtain hp | hp := List.mem_append.mp hp
    · exact h.types pair hp hn
    · obtain rfl := List.mem_singleton.mp hp
      exact hbc
  · intro pair hp hn
    obtain hp | hp := List.mem_append.mp hp
    · exact h.references pair hp hn
    · obtain rfl := List.mem_singleton.mp hp
      exact absurd hb hn

/-- A child is as its element is, once it is seen through references. -/
theorem every_place {place : Slot Pattern} {child : Pattern} (hs : s.Every (IsMarkup d s))
    (hp : (element shape).Every (IsMarkup d s)) (hu : s.Derives u) (hr : u.resolveType shape = .ok (full, s₁))
    (hmem : child ∈ full.children) (hslot : s₁.withEmpty.slot child = .ok place) :
    place.content.Every (IsMarkup d s) := by
  obtain ⟨names, hfull, -, rfl⟩ := Scope.resolveType_eq_ok_iff.mp hr
  rw [Scope.content_slot hslot]
  exact every_single ((hp.resolves (hu.every hs spelled_isMarkup) spelled_isMarkup hfull).2 child hmem)

theorem every_follow {b : Shape Pattern} (hs : s.Every (IsMarkup d s)) (hp : p.Every (IsMarkup d s))
    (hu : s.Derives u) (hf : u.follow p = .ok (element b, s₁)) (occurs : Occurs) :
    (element { b with occurs }).Every (IsMarkup d s) := by
  obtain ⟨names, hl, -, -, rfl⟩ := Scope.follow_eq_ok_iff.mp hf
  exact every_withOccurs ((hu.every hs spelled_isMarkup).leads spelled_isMarkup hp hl)

end Pattern

namespace Rules

variable {place place' : Slot Pattern}

/-- A place for text allows what a place that it compares with allows. -/
theorem text_allowed (h : Rules d e policy s t) (hs : s.Derives s₁) (ht : t.Derives t₁)
    (hname : place.name = none) (hname' : place'.name = none)
    (hp : IsText d.kind s place.content) (hq : IsText e.kind t place'.content)
    (hc : s₁.withEmpty.placeCompare t₁.withEmpty place place'.content = .accepted)
    (hu : u.definitions = t.withEmpty.definitions)
    (hv : (u.placeCheck place').content v = .accepted) :
    ∃ m, (((s.withPolicy policy).withEmpty.deepened m).placeCheck place).content v = .accepted := by
  have hloosens := h.loosens hs (.refl (s.withPolicy policy))
  rw [Scope.placeCompare_text hname] at hc
  simp only [Scope.placeCheck, hname, hname'] at hv ⊢
  have haccepts : (∀ text, v ≠ .text text) → place'.content.check v u = .accepted →
      place.content.DeepAccepts v (s.withPolicy policy).withEmpty := fun hnone hv =>
    (hp.accepts_of_compareText hq hs.definitions ht.definitions hc hu hnone hv).loosen hloosens
  cases v with
  | text x =>
    exact (hp.reads_of_compareText hq h.null hs.definitions ht.definitions hc hu hv).loosen hloosens
  | node => cases hv
  | _ => exact haccepts (by simp) hv

/-- Children that are all right in their places are allowed with enough headroom. -/
theorem allowsChildren_of_fits {places : List (Slot Pattern)} (hfull : IsMarkupShape d s full)
    (hu : s.Derives u) (hempty : u.definitions = s.withEmpty.definitions)
    (hd : w.definitions = u.definitions) (hl : u.Loosens w)
    (hplaces : List.Forall₂ (fun child place => u.slot child = .ok place) full.children places)
    (hfits : Fits (fun place v => ∃ m, ((w.deepened m).placeCheck place).content v = .accepted)
      places (vs.filter fun child => !child.isLayout)) :
    ∃ m, full.AllowsChildren vs (w.deepened m) := by
  have hmono : ∀ (k l : Nat) (place : Slot Pattern) (v : Value), k ≤ l →
      ((w.deepened k).placeCheck place).content v = .accepted →
        ((w.deepened l).placeCheck place).content v = .accepted :=
    fun k l place v hkl hk => (Scope.placeCheck_deepened hkl).content v v rfl hk
  obtain ⟨m, hm⟩ := Fits.exists_bound
    (P := fun m place v => ((w.deepened m).placeCheck place).content v = .accepted) hmono hfits
  have hslots : List.Forall₂ (fun child place =>
      (w.deepened (max m u.headroom)).slot child = .ok place) full.children places := by
    have hself : u.Within (u.deepened u.headroom) := ⟨.inl rfl, .inl rfl, by simp⟩
    refine hplaces.imp fun child place hs => ?_
    exact (hl.deepened (Nat.le_max_right m u.headroom)).slot (hself.slot hs)
  have hall := hm.mono fun place _ v hv => hmono _ (max m u.headroom) place v (Nat.le_max_left _ _) hv
  refine ⟨max m u.headroom, places, hslots, Fits.checkSlots hall (hfull.apart u _ hempty hplaces) ?_⟩
  intro place hp v hv
  obtain ⟨child, hmem, hslot⟩ := exists_of_forall₂_right hplaces hp
  have hd' : (w.deepened (max m u.headroom)).definitions = u.definitions := hd
  exact (hfull.children child hmem).accepts hu hslot hd' hv

theorem childrenUpTo (h : Rules d e policy s t) (hs : s.Derives s₁) (ht : t.Derives t₁)
    (hfull : IsMarkupShape d s full) (hfull' : IsMarkupShape e t full')
    (hc : full.ComparesChildren full' s₁ t₁)
    (hchild : ∀ child ∈ full.children, ∀ child' ∈ full'.children, ∀ place place',
      s₁.withEmpty.slot child = .ok place → t₁.withEmpty.slot child' = .ok place' →
        place.name = place'.name → IsElement d s place.content → IsElement e t place'.content →
          place.content.compareChild place'.content s₁.withEmpty t₁.withEmpty = .accepted →
            ∀ m < n, CoversUpTo policy m place.content place'.content s t) :
    ChildrenUpTo policy n full full' s t := by
  intro vs u hvs hu hpolicy hallow
  obtain ⟨places, others, hplaces, hothers, hcompare⟩ := hc
  obtain ⟨others', hothers', hslots⟩ := hallow
  obtain rfl := Scope.slots_unique (hu.trans ht.definitions.symm) hothers hothers'
  have hdefinitions : (s.withPolicy policy).withEmpty.definitions = s₁.withEmpty.definitions := by
    rw [Scope.withPolicy_withEmpty]
    exact hs.definitions.symm
  refine allowsChildren_of_fits hfull hs.withEmpty hs.definitions hdefinitions
    (h.loosens hs (.refl (s.withPolicy policy))) hplaces ?_
  have hfits : Fits (fun place v => (u.placeCheck place).content v = .accepted) others
      (vs.filter fun child => !child.isLayout) := fits_of_checkSlots hslots
  refine hfits.of_compareSlots (hfull.apart _ _ hs.definitions hplaces)
    (hfull'.apart _ _ ht.definitions hothers) hcompare ?_ ?_
  · intro place hp place' hp' hname hc v hv hok
    obtain ⟨child, hmem, hslot⟩ := exists_of_forall₂_right hplaces hp
    obtain ⟨child', hmem', hslot'⟩ := exists_of_forall₂_right hothers hp'
    obtain ⟨hnone, htext⟩ | ⟨shape, trail, hsome, helement, hl⟩ :=
      (hfull.children child hmem).place hs.withEmpty hslot
    · obtain ⟨hnone', htext'⟩ | ⟨shape', trail', hsome', -⟩ :=
        (hfull'.children child' hmem').place ht.withEmpty hslot'
      · exact h.text_allowed hs ht hnone hnone' htext htext' hc hu hok
      · cases hnone.symm.trans (hname.trans hsome')
    · obtain ⟨hnone', -⟩ | ⟨shape', trail', hsome', helement', hl'⟩ :=
        (hfull'.children child' hmem').place ht.withEmpty hslot'
      · cases hsome.symm.trans (hname.trans hnone')
      · rw [Scope.placeCompare_named hsome] at hc
        rw [Scope.placeCheck_named hsome'] at hok
        have hsize : sizeOf v < n := by
          obtain rfl | hv := hv
          · obtain ⟨node, hnode, -⟩ := node_of_leads hl' (hu.trans ht.definitions.symm) hok
            cases hnode
          · exact hvs v (List.mem_of_mem_filter hv)
        have hcovers := hchild child hmem child' hmem' place place' hslot hslot' hname helement
          helement' hc _ hsize v u (Nat.le_refl _) hu hpolicy hok
        obtain ⟨m, hm⟩ := hcovers
        refine ⟨m, ?_⟩
        exact (Scope.placeCheck_named hsome).mpr hm
  · intro place hp ht hc
    obtain ⟨child, hmem, hslot⟩ := exists_of_forall₂_right hplaces hp
    have hname : place.name = none := by simpa [Slot.isText] using ht
    rw [Scope.placeCompare_text hname] at hc
    obtain ⟨m, hm⟩ := (deepReads_of_checkText hc).loosen (h.loosens hs (.refl (s.withPolicy policy)))
    refine ⟨m, ?_⟩
    simp only [Scope.placeCheck, hname]
    exact hm

end Rules

namespace ElementPair

variable {x y : ElementPair}

/-- The elements are as the two kinds of markup have them, and so are their scopes. -/
structure Meets (d e : Dialect) (s t : Scope) (x : ElementPair) : Prop where
  bigger : (element x.bigger).Every (IsMarkup d s)
  smaller : (element x.smaller).Every (IsMarkup e t)
  ours : s.Derives x.ours
  theirs : t.Derives x.theirs

/-- Elements that are compared for children are as the kinds of markup have them too. -/
theorem Meets.of_compares (hx : x.Meets d e s t) (hs : s.Every (IsMarkup d s))
    (ht : t.Every (IsMarkup e t)) (hxy : Compares x y) : y.Meets d e s t := by
  cases hxy with
  | children ha hr hr' hmem hmem' hslot hslot' _ hpair hf hf' =>
    have hs' := hx.ours.assumeTypes ha
    have hp := every_place hs hx.bigger hs' hr hmem hslot
    have hq := every_place ht hx.smaller hx.theirs hr' hmem' hslot'
    have hs₂ := (hs'.resolveType hr).withEmpty.assumePair hpair
    have ht₁ := (hx.theirs.resolveType hr').withEmpty
    exact ⟨every_follow hs hp hs₂ hf .required, every_follow ht hq ht₁ hf' .required, hs₂.follow hf,
      ht₁.follow hf'⟩

/-- The comparison accepts. -/
def Accepts (x : ElementPair) : Prop :=
  (element x.bigger).subsumes (element x.smaller) x.ours x.theirs = .accepted

/-- Wherever a comparison accepts, attributes have been compared or are known to compare. -/
theorem Accepts.exists_compareAttributes (h : x.Accepts) (hsound : x.Sound)
    (hx : x.Meets d e s t) :
    ∃ trail full s₁ trail' full' t₁, x.ours.Resolves x.bigger trail full ∧
      x.theirs.Resolves x.smaller trail' full' ∧ s.Derives s₁ ∧ t.Derives t₁ ∧
        full.compareAttributes full' s₁ t₁ = .accepted := by
  have hresolved : ∀ {s' s₁ t₁ full full'}, s.Derives s' → s'.definitions = x.ours.definitions →
      s'.resolveType x.bigger = .ok (full, s₁) → x.theirs.resolveType x.smaller = .ok (full', t₁) →
        full.compareAttributes full' s₁ t₁ = .accepted →
          ∃ trail full s₁ trail' full' t₁, x.ours.Resolves x.bigger trail full ∧
            x.theirs.Resolves x.smaller trail' full' ∧ s.Derives s₁ ∧ t.Derives t₁ ∧
              full.compareAttributes full' s₁ t₁ = .accepted := by
    intro s' s₁ t₁ full full' hs hd hr hr' hc
    obtain ⟨trail, hfull, -, rfl⟩ := Scope.resolveType_eq_ok_iff.mp hr
    obtain ⟨trail', hfull', -, rfl⟩ := Scope.resolveType_eq_ok_iff.mp hr'
    have hours := hfull.mono fun name next hl => (Scope.lookup_congr hd.symm name).trans hl
    exact ⟨trail, full, _, trail', full', _, hours, hfull', hs.below trail, hx.theirs.below trail', hc⟩
  obtain ⟨-, -, hassumed | ⟨s', full, s₁, full', t₁, ha, hr, hr', hc, -⟩⟩ := subsumes_elements.mp h
  · obtain ⟨full, s₁, full', t₁, hr, hr', hc⟩ := hsound x .refl hassumed
    exact hresolved hx.ours rfl hr hr' hc
  · exact hresolved (hx.ours.assumeTypes ha) (Scope.definitions_assumeTypes ha) hr hr' hc

end ElementPair

namespace Rules

variable {x : ElementPair}

/-- An element accepts what one does that it compares with, if their children are covered. -/
theorem deepAccepts (h : Rules d e policy s t) (hx : x.Meets d e s t) (hsound : x.Sound)
    (haccepts : x.Accepts)
    (hchildren : ∀ trail full trail' full', s.withEmpty.Resolves x.bigger trail full →
      t.withEmpty.Resolves x.smaller trail' full' → ChildrenUpTo policy (sizeOf v) full full' s t)
    (hu : t.Derives u) (hv : (Pattern.element x.smaller).check v u = .accepted)
    (hw : (s.withPolicy policy).Derives w)
    (hl : ∀ name next, x.ours.lookup name = .ok next → w.lookup name = .ok next) :
    (Pattern.element x.bigger).DeepAccepts v w := by
  obtain ⟨node, full', inner, rfl, hname, hr', hattributes, hallow⟩ := check_element_eq_accepted.mp hv
  obtain ⟨trail', hfull', -, rfl⟩ := Scope.resolveType_eq_ok_iff.mp hr'
  obtain ⟨-, hnames, -⟩ := subsumes_elements.mp haccepts
  obtain ⟨trail, full, s₁, trail'', full'', t₁, hfull, hfull'', hs₁, ht₁, hc⟩ :=
    haccepts.exists_compareAttributes hsound hx
  obtain ⟨rfl, rfl⟩ := (hu.resolves hfull').unique (hx.theirs.resolves hfull'')
  have hmarkup := hx.bigger.self.resolves (h.bigger.withEmpty spelled_isMarkup)
    (Scope.Derives.refl s).withEmpty (hx.ours.resolves hfull)
  have hmarkup' := hx.smaller.self.resolves (h.smaller.withEmpty spelled_isMarkup)
    (Scope.Derives.refl t).withEmpty (hu.resolves hfull')
  have hinner := hu.below trail'
  have hsize : ∀ child ∈ node.children, sizeOf child < sizeOf (Value.node node) := by
    intro child hchild
    have := List.sizeOf_lt_of_mem hchild
    have := node.sizeOf_children_lt
    simp only [Value.node.sizeOf_spec]
    omega
  obtain ⟨m, hm⟩ := hchildren trail full trail' full' (hx.ours.resolves hfull) (hu.resolves hfull')
    node.children _ hsize hinner.definitions hinner.withEmpty.policy hallow
  have hpolicy : w.withEmpty.policy = (s.withPolicy policy).withEmpty.policy := by
    rw [Scope.withEmpty_policy, Scope.withEmpty_policy, hw.policy]
  have hwithin : ((s.withPolicy policy).withEmpty.deepened m).Within (w.withEmpty.deepened m) :=
    (Scope.Loosens.congr hw.definitions hpolicy).deepened (Nat.le_refl m)
  refine .element (hname.trans hnames.symm) (hfull.mono hl) ?_ ⟨m, ?_⟩
  · exact h.allowsAttributes hs₁ ht₁ hmarkup hmarkup' hc hinner hattributes hw
  · exact hm.mono hwithin fun child _ => ⟨fun v => hwithin.check, fun text => hwithin.checkText⟩

/-- Children below a size are covered for all pairs of elements that compare. -/
def CoversElements (d e : Dialect) (policy : KeyPolicy) (s t : Scope) (n : Nat) : Prop :=
  ∀ x : ElementPair, x.Meets d e s t → x.Sound → x.Accepts →
    PairsUpTo d policy n n x.ours.assumed s t → ∀ trail full trail' full',
      s.withEmpty.Resolves x.bigger trail full → t.withEmpty.Resolves x.smaller trail' full' →
        ChildrenUpTo policy n full full' s t

/-- Values up to a size are covered for all pairs of children that compare. -/
def CoversChildren (d e : Dialect) (policy : KeyPolicy) (s t : Scope) (n : Nat) : Prop :=
  ∀ p q s' t', IsElement d s p → IsElement e t q → p.Every (IsMarkup d s) → q.Every (IsMarkup e t) →
    s.Derives s' → t.Derives t' → s'.withEmpty = s' → t'.withEmpty = t' →
    (∀ s₂ b s₃ c t₃, s'.assumePair p q = some s₂ → s₂.follow p = .ok (.element b, s₃) →
      t'.follow q = .ok (.element c, t₃) →
        ElementPair.Sound ⟨{ b with occurs := .required }, { c with occurs := .required }, s₃, t₃⟩) →
    p.compareChild q s' t' = .accepted → PairsUpTo d policy n (n + 1) s'.assumed s t →
      CoversUpTo policy n p q s t

theorem coversElements (h : Rules d e policy s t) (below : ∀ m < n, CoversElements d e policy s t m)
    (below' : ∀ m < n, CoversChildren d e policy s t m) : CoversElements d e policy s t n := by
  intro x hx hsound haccepts hpairs trail full trail' full' hfull hfull'
  obtain ⟨-, -, hassumed | ⟨s', full₁, s₁, full₁', t₁, ha, hr, hr', -, hcompare⟩⟩ :=
    subsumes_elements.mp haccepts
  · obtain ⟨b, c, hb, hc, hmem⟩ := Scope.assumeTypes_eq_none hassumed
    exact hpairs.types (b, c) hmem (hx.bigger.self.typeName b hb).1 x.bigger trail full x.smaller
      trail' full' hb hc hfull hfull'
  · have hs' := hx.ours.assumeTypes ha
    obtain ⟨names, hfull₁, -, rfl⟩ := Scope.resolveType_eq_ok_iff.mp hr
    obtain ⟨names', hfull₁', -, rfl⟩ := Scope.resolveType_eq_ok_iff.mp hr'
    obtain ⟨rfl, rfl⟩ := (hs'.resolves hfull₁).unique hfull
    obtain ⟨rfl, rfl⟩ := (hx.theirs.resolves hfull₁').unique hfull'
    -- Below the element its types are under comparison too, and covered for smaller values.
    have hpairs' : ∀ m < n, PairsUpTo d policy m (m + 1) s'.assumed s t := by
      intro m hm
      have hold := hpairs.mono (Nat.le_of_lt hm) hm
      obtain rfl | ⟨b, c, hb, hc, -, rfl⟩ := Scope.assumeTypes_eq_some ha
      · exact hold
      · refine hold.append_type (hx.bigger.self.typeName b hb).1 ?_
        intro shape _ g other _ g' hb' hc' hg hg'
        have hcovered := below m hm x hx hsound haccepts
          (hpairs.mono (Nat.le_of_lt hm) (Nat.le_of_lt hm)) _ _ _ _ hfull hfull'
        exact hcovered.congr (hg.children_eq hfull hb' hb) (hg'.children_eq hfull' hc' hc)
    have hmarkup := hx.bigger.self.resolves (h.bigger.withEmpty spelled_isMarkup)
      (Scope.Derives.refl s).withEmpty hfull
    have hmarkup' := hx.smaller.self.resolves (h.smaller.withEmpty spelled_isMarkup)
      (Scope.Derives.refl t).withEmpty hfull'
    refine h.childrenUpTo (hs'.below names) (hx.theirs.below names') hmarkup hmarkup' hcompare ?_
    intro child hmem child' hmem' place place' hslot hslot' hname helement helement' hc m hm
    have hevery := every_place h.bigger hx.bigger hs' hr hmem hslot
    have hevery' := every_place h.smaller hx.smaller hx.theirs hr' hmem' hslot'
    refine below' m hm _ _ _ _ helement helement' hevery hevery' (hs'.below names).withEmpty
      (hx.theirs.below names').withEmpty (Scope.withEmpty_withEmpty _) (Scope.withEmpty_withEmpty _) ?_
      hc ?_
    · intro s₂ b s₃ c t₃ hpair hf hf'
      exact hsound.of_compares (.children ha hr hr' hmem hmem' hslot hslot' hname hpair hf hf')
    · rw [Scope.withEmpty_assumed]
      exact hpairs' m hm

theorem coversChildren (h : Rules d e policy s t) (below : ∀ m < n, CoversChildren d e policy s t m)
    (hn : CoversElements d e policy s t n) : CoversChildren d e policy s t n := by
  intro p q s' t' hp hq hevery hevery' hs ht hs' ht' hsound hc hpairs v u hsize hu hpolicy hv
  obtain hnone | ⟨s₂, b, s₁, c, t₁, ha, hf, hf', hsub⟩ := compareChild_eq_accepted.mp hc
  · obtain ⟨b, c, rfl, rfl, hmem⟩ := Scope.assumePair_eq_none hnone
    cases hp with
    | reference hb =>
      exact hpairs.references (b, c) hmem hb.1 n (Nat.lt_succ_self n) v u hsize hu hpolicy hv
  · have hs₂ := hs.assumePair ha
    obtain ⟨names, hl, -, -, rfl⟩ := Scope.follow_eq_ok_iff.mp hf
    obtain ⟨names', hl', -, -, rfl⟩ := Scope.follow_eq_ok_iff.mp hf'
    obtain ⟨b, rfl⟩ := hp.leads hs₂ hl
    obtain ⟨c, rfl⟩ := hq.leads ht hl'
    have hx : ElementPair.Meets d e s t
        ⟨{ b with occurs := .required }, { c with occurs := .required }, s₂.below names,
          t'.below names'⟩ :=
      ⟨every_follow h.bigger hevery hs₂ hf .required, every_follow h.smaller hevery' ht hf' .required,
        hs₂.below names, ht.below names'⟩
    have hpairs' : PairsUpTo d policy n n s₂.assumed s t := by
      have hold := hpairs.mono (Nat.le_refl n) (Nat.le_succ n)
      obtain rfl | ⟨b, c, rfl, rfl, -, rfl⟩ := Scope.assumePair_eq_some ha
      · exact hold
      · cases hp with
        | reference hb =>
          refine hold.append_reference hb.1 fun k hk => ?_
          exact below k hk _ _ s' t' (.reference hb) hq hevery hevery' hs ht hs' ht' hsound hc
            (hpairs.mono (Nat.le_of_lt hk) (Nat.succ_le_succ (Nat.le_of_lt hk)))
    have hsx := hsound s₂ b _ c _ ha hf hf'
    have hlookup : ∀ name next, s₂.lookup name = .ok next →
        (s.withPolicy policy).withEmpty.lookup name = .ok next := by
      intro name next hname
      rw [Scope.withPolicy_withEmpty]
      exact hs₂.lookup hname
    have hu' : t.Derives (u.below names') := by
      refine ((Scope.Derives.refl t).withEmpty.congr hu ?_).below names'
      rw [hpolicy, Scope.withEmpty_policy]
    have hl'' : u.Leads q names' (element c) := by
      refine hl'.mono fun name next hname => ?_
      rw [Scope.lookup_congr hu]
      exact ht.lookup hname
    have hv' : (Pattern.element { c with occurs := .required }).check v (u.below names') = .accepted :=
      (check_withOccurs (p := element c) .required).mpr ((check_of_leads hl'').mp hv).2
    obtain ⟨m, hm⟩ := h.deepAccepts hx hsx hsub (fun _ _ _ _ hfull hfull' =>
      (hn _ hx hsx hsub hpairs' _ _ _ _ hfull hfull').mono hsize) hu' hv'
      (Scope.Derives.refl (s.withPolicy policy)).withEmpty hlookup
    refine .of_leads (hl.mono hlookup) ⟨m, ?_⟩
    exact (check_withOccurs (p := element b) .required).mp hm

theorem covers (h : Rules d e policy s t) (n : Nat) :
    CoversElements d e policy s t n ∧ CoversChildren d e policy s t n := by
  induction n using Nat.strongRecOn with
  | ind n ih =>
    have helements := h.coversElements (fun m hm => (ih m hm).1) fun m hm => (ih m hm).2
    exact ⟨helements, h.coversChildren (fun m hm => (ih m hm).2) helements⟩

end Rules

/-- What an element subsumes it accepts, with enough headroom. -/
theorem Pattern.deepAccepts_of_subsumes (h : Rules d e policy s t)
    (hp : (element shape).Every (IsMarkup d s)) (hq : (element other).Every (IsMarkup e t))
    (hsound : ElementPair.Sound ⟨shape, other, s, t⟩) (hfresh : s.assumed = [])
    (hsub : (element shape).subsumes (element other) s t = .accepted)
    (hv : (element other).check v t = .accepted) :
    (element shape).DeepAccepts v (s.withPolicy policy) := by
  have hx : ElementPair.Meets d e s t ⟨shape, other, s, t⟩ := ⟨hp, hq, .refl s, .refl t⟩
  have hpairs : PairsUpTo d policy (sizeOf v) (sizeOf v) s.assumed s t := by
    rw [hfresh]
    exact ⟨by simp, by simp⟩
  exact h.deepAccepts hx hsound hsub ((h.covers (sizeOf v)).1 _ hx hsound hsub hpairs) (.refl t) hv
    (.refl _) fun _ _ hl => hl

end PayloadContracts
