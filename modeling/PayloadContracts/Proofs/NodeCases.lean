import PayloadContracts.Proofs.Cases
import PayloadContracts.Proofs.NodeSamples

/-!
Samples of the cases of plain markup without types are accepted by the pattern, if places of one name
are kept apart by places that no case leaves out. Main statement: `Pattern.check_of_node_case`.

A case leaves out optional children, so places that were apart in the pattern come to stand side by
side in it. Children are therefore laid out over the places of the pattern and not over those of the
case.
-/

namespace PayloadContracts

namespace Pattern

variable {ofToken : Pattern → Scope → Outcome (List Pattern)} {row : Row} {kinds : Scalar → Prop}
  {kind : Scalar} {s s₀ t u : Scope} {p q S T : Pattern} {v w : Value} {cs : List Pattern}
  {shape : Shape Pattern} {place : Slot Pattern} {chunk : List Value}

/-- No element has a type. -/
def IsUntyped : Pattern → Prop
  | element shape => shape.typeRef = none
  | _ => True

/-- Plain markup without types in which places of one name are kept apart. -/
def IsPlainUntyped (s : Scope) (p : Pattern) : Prop :=
  IsPlain (KeptApart Slot.IsKept) s p ∧ p.IsUntyped

theorem spelled_isPlainUntyped : Spelled (IsPlainUntyped s) :=
  spelled_isPlain.and ⟨fun _ => trivial, fun _ => trivial, fun _ => trivial, fun _ => trivial⟩

section Texts

/-- The cases of what stands for a kind stand for the kind. -/
theorem Denotes.of_mem_cases (h : Denotes s p kind) (hu : u.definitions = s.withEmpty.definitions)
    (hcases : p.casesWith ofToken row u = .done cs) (hS : S ∈ cs) : Denotes s S kind := by
  cases h with
  | scalar kind =>
    rw [casesWith] at hcases
    cases hcases
    exact List.mem_singleton.mp hS ▸ .scalar kind
  | absent h =>
    obtain rfl | ⟨q, inner, hf, hcases⟩ := follow_of_casesWith hcases
    · exact List.mem_singleton.mp hS ▸ .absent h
    · obtain rfl := eq_of_follow h hu hf
      rw [casesWith] at hcases
      cases hcases
      exact List.mem_singleton.mp hS ▸ .scalar .empty

theorem Denotes.occurs_of_slot (h : Denotes s p kind) (hu : u.definitions = s.withEmpty.definitions)
    (hslot : u.slot p = .ok place) : place.occurs = .required := by
  cases h with
  | scalar kind =>
    rw [Scope.slot] at hslot
    · cases hslot
      rfl
    all_goals simp
  | absent h =>
    rw [Scope.slot] at hslot
    split at hslot
    · cases hslot
    · rename_i hf
      obtain rfl := eq_of_follow h hu hf
      rw [Scope.slot] at hslot
      · cases hslot
        rfl
      all_goals simp

/-- A case of a text is the text itself if that is literal, else it stands for a kind of the text. -/
theorem IsText.of_mem_cases (h : IsText kinds s p) (hu : u.definitions = s.withEmpty.definitions)
    (hcases : p.casesWith ofToken row u = .done cs) (hS : S ∈ cs) :
    (S = p ∧ ∃ text, p = Pattern.literal (.text text)) ∨
      ∃ kind, Offers s p kind ∧ Denotes s S kind := by
  cases h with
  | literal text =>
    rw [casesWith] at hcases
    cases hcases
    exact .inl ⟨List.mem_singleton.mp hS, text, rfl⟩
  | choice hp h =>
    obtain ⟨q, hq, more, hcases, hS⟩ : ∃ q ∈ p.alternatives, ∃ more,
        q.casesWith ofToken row u = .done more ∧ S ∈ more := by
      obtain ⟨ps, rfl⟩ | hp := eq_union_or hp
      · obtain ⟨q, hq, hcases⟩ := alternative_of_casesWith hcases hS
        rw [withEmpty_eq hu] at hcases
        exact ⟨q, hq, hcases⟩
      · exact ⟨p, by simp [alternatives_of_isPlain hp], cs, hcases, hS⟩
    obtain ⟨kind, -, hk⟩ := h q hq
    exact .inr ⟨kind, ⟨q, hq, hk⟩, hk.of_mem_cases hu hcases hS⟩

/-- Each case of a text is a child that has to be there. -/
theorem IsText.required_of_mem_cases (h : IsText kinds s p)
    (hu : u.definitions = s.withEmpty.definitions)
    (hcases : p.casesWith ofToken row u = .done cs) (hS : S ∈ cs) :
    S.single = S ∧ S.withOccurs .required = S ∧ ∀ {u' : Scope} {place : Slot Pattern},
      u'.definitions = s.withEmpty.definitions → u'.slot S = .ok place → place.occurs = .required := by
  obtain ⟨rfl, text, rfl⟩ | ⟨kind, -, hk⟩ := h.of_mem_cases hu hcases hS
  · refine ⟨rfl, rfl, fun _ hslot => ?_⟩
    cases h.slot.symm.trans hslot
    rfl
  · refine ⟨?_, ?_, fun hu' hslot => hk.occurs_of_slot hu' hslot⟩ <;> cases hk <;> rfl

/-- Samples of the second pattern are literal text of the first, or those of kinds, and the first reads
them. -/
def ReadsSamples (s : Scope) (p S : Pattern) (t : Scope) : Prop :=
  ∀ s₀ v, s₀.definitions = s.withEmpty.definitions → s₀.policy = t.policy → S.sample s₀ = .ok v →
    ((∃ text, p = literal (.text text) ∧ v = .text text) ∨ ∃ kind, v = Scalar.sample kind) ∧
      p.DeepReads v.toText t

theorem IsText.reads_samples (h : IsText kinds s p) (hu : u.definitions = s.withEmpty.definitions) :
    ReadsSamples s p p u := by
  intro s₀ v hd hp hv
  obtain ⟨hform, hread⟩ := h.reads_sample hd hv
  exact ⟨hform, (deepReads_of_checkText hread).loosen (.congr (hu.trans hd.symm) hp.symm)⟩

theorem IsText.reads_samples_of_mem_cases (h : IsText kinds s p)
    (hu : u.definitions = s.withEmpty.definitions)
    (hcases : p.casesWith ofToken row u = .done cs) (hS : S ∈ cs) : ReadsSamples s p S u := by
  obtain ⟨rfl, -⟩ | ⟨kind, hoffers, hk⟩ := h.of_mem_cases hu hcases hS
  · exact h.reads_samples hu
  · intro s₀ v hd hp hv
    obtain ⟨rfl, hread⟩ := hk.reads_sample hd hv
    refine ⟨.inr ⟨kind, rfl⟩, ?_⟩
    cases h with
    | literal => exact absurd hoffers not_offers_literal
    | choice _ h =>
      refine (deepReads_iff h hu).mpr ⟨kind, hoffers, (hk.deepReads_iff hd).mp ?_⟩
      exact deepReads_of_checkText hread

end Texts

section Attributes

variable {attributes : Entries Pattern} {tables : List (Entries Pattern)} {pairs : Entries String}
  {limit : Nat}

/-- Samples of the attributes of a case are allowed as attributes. -/
theorem allowsAttributes_of_case
    (hkeys : ((Entries.names shape.attributes).map fun name => canonical name attributeMark).Nodup)
    (htexts : ∀ entry ∈ shape.attributes, IsText kinds s entry.2) (ht : s.Derives t)
    (hs₀ : s.Derives s₀)
    (htables : keyCombinations (shape.attributes.map fun entry => (entry.1, fun _ =>
        if isNamespace entry.1 then .done [entry.2]
        else entry.2.partCases ofToken [] (canonical entry.1 attributeMark) t.withEmpty))
      [] attributeMark limit = .done tables) (hmem : attributes ∈ tables)
    (hpairs : List.Forall₂ (SampledAttribute s₀.withEmpty) attributes pairs) :
    ∃ n, shape.AllowsAttributes (Entries.ofList pairs) (t.deepened n) := by
  obtain ⟨hsub, hkept, hchoices⟩ := mem_fieldCombinations (List.Nodup.of_map _ hkeys) htables hmem
  have hnames := names_of_sampled hpairs
  have hdistinct : Entries.Distinct pairs := by
    rw [Entries.Distinct, hnames]
    exact (hsub.map _).nodup hkeys
  rw [Entries.ofList_of_distinct hdistinct]
  have hread : ∀ pair ∈ pairs, ∃ n, ∃ entry ∈ shape.attributes,
      pair.1 = canonical entry.1 attributeMark ∧
        entry.2.checkText pair.2 (t.withEmpty.deepened n) = .accepted := by
    intro pair hp
    obtain ⟨choice, hc, w, hw, rfl⟩ := exists_of_forall₂_right hpairs hp
    obtain ⟨entry, he, heq, choices, hdone, hchoice⟩ := hchoices choice hc
    have hsamples : ReadsSamples s entry.2 choice.2 t.withEmpty := by
      split at hdone
      · cases hdone
        rw [List.mem_singleton.mp hchoice]
        exact (htexts entry he).reads_samples ht.definitions
      · rw [partCases_of_none rfl] at hdone
        exact (htexts entry he).reads_samples_of_mem_cases ht.definitions hdone hchoice
    obtain ⟨n, hn⟩ := (hsamples _ w hs₀.definitions (by simp [hs₀.policy, ht.policy]) hw).2
    exact ⟨n, entry, he, by rw [heq], hn⟩
  obtain ⟨n, hn⟩ := exists_forall_mem (fun _ _ _ hle hpair => hpair.imp fun entry h =>
    ⟨h.1, h.2.1, ((Scope.Loosens.congr rfl rfl).deepened hle).checkText h.2.2⟩) hread
  refine ⟨n, Shape.allowsAttributes_of_pairs hkeys (fun pair hp => ?_) fun entry he ho => ?_⟩
  · rw [← Scope.deepened_withEmpty]
    exact hn pair hp
  · have hfree : isFree [] attributeMark entry.1 = false := by rw [isFree, ho, Bool.false_and]
    rw [hnames]
    exact List.mem_map.mpr ⟨entry.1, hkept entry he hfree, canonical_of_not_optional ho⟩

end Attributes

section Children

theorem sample_withOccurs (hn : shape.typeRef = none) (occurs : Occurs) :
    (element { shape with occurs }).sample u = (element shape).sample u := by
  have hr : u.resolveType shape = .ok (shape, u) := by rw [Scope.resolveType, hn]
  have hr' : u.resolveType { shape with occurs } = .ok ({ shape with occurs }, u) := by
    rw [Scope.resolveType, hn]
  rw [sample, sample]
  split
  · rename_i h
    cases hr'.symm.trans h
  · rename_i h
    cases hr'.symm.trans h
    split
    · rename_i h
      cases hr.symm.trans h
    · rename_i h
      cases hr.symm.trans h
      rfl

/-- A case of an element, in a scope: an element without a type, or a name that is left as it is. The
element accepts its samples. -/
structure IsNodeCase (s : Scope) (p S : Pattern) (t : Scope) : Prop where
  form : (S = p ∧ p.isReference = true) ∨ ∃ shape, S = element shape ∧ shape.typeRef = none
  accepts : ∀ s₀ v, s.Derives s₀ → s₀.Loosens t → S.sample s₀ = .ok v → p.DeepAccepts v t

/-- What stands for a child in a case: a case of one such child, which is left as it is if it is a
name. -/
structure IsChoice (s : Scope) (child T : Pattern) (t : Scope) : Prop where
  isCase : IsNodeCase s child.single T.single t
  eq_of_isReference : T.single.isReference = true → T = child

theorem IsNodeCase.withOccurs (h : IsNodeCase s p S t) (occurs : Occurs) :
    IsNodeCase s p (S.withOccurs occurs) t := by
  obtain ⟨rfl, hp⟩ | ⟨shape, rfl, hn⟩ := h.form
  · cases S <;> first | exact h | cases hp
  · refine ⟨.inr ⟨_, rfl, hn⟩, fun s₀ v hd hl hv => h.accepts s₀ v hd hl ?_⟩
    rwa [Pattern.withOccurs, sample_withOccurs hn] at hv

theorem IsNodeCase.single (h : IsNodeCase s p S t) : S.single = S ∧ (S.isReference = true → S = p) := by
  obtain ⟨rfl, hp⟩ | ⟨shape, rfl, -⟩ := h.form
  · refine ⟨?_, fun _ => rfl⟩
    cases S <;> first | rfl | cases hp
  · exact ⟨rfl, fun h => by cases h⟩

theorem IsChoice.withOccurs (h : IsChoice s p T t) (occurs : Occurs) :
    IsChoice s p (T.withOccurs occurs) t := by
  cases T with
  | element shape => exact ⟨h.isCase.withOccurs occurs, fun h => by cases h⟩
  | _ => exact h

/-- The cases of an element or of a list of elements are made of cases of the element. -/
theorem isChoice_of_mem_cases {child : Pattern} (he : IsElement .plain s child ∨
    ∃ p, child = list p ∧ IsElement .plain s p)
    (ih : ∀ {cs S}, child.single.casesWith ofToken row t = .done cs → S ∈ cs →
      IsNodeCase s child.single S t)
    (hcases : child.casesWith ofToken row t = .done cs) (hS : S ∈ cs) : IsChoice s child S t := by
  obtain h | ⟨p, rfl, h⟩ := he
  · have hsingle := h.single_eq
    rw [hsingle] at ih
    have hcase := ih hcases hS
    obtain ⟨hS', heq⟩ := hcase.single
    refine ⟨?_, ?_⟩
    · rwa [hsingle, hS']
    · rwa [hS']
  · obtain ⟨more, hmore, T, hT, rfl⟩ := item_of_casesWith hcases hS
    have hcase := ih hmore hT
    exact ⟨hcase, fun hr => congrArg list (hcase.single.2 hr)⟩

/-- A sample of what stands for a child goes into the place of the child. -/
theorem IsChoice.exists_chunk {child : Pattern} {place' : Slot Pattern} (h : IsChoice s child T t.withEmpty)
    (he : IsElement .plain s child ∨ ∃ p, child = list p ∧ IsElement .plain s p) (ht : s.Derives t)
    (hs₀ : s.Derives s₀) (hl : s₀.Loosens t) (hslot : t.withEmpty.slot child = .ok place)
    (hslot' : s₀.withEmpty.slot T = .ok place') (hsampled : SampledPlace s₀.withEmpty place' chunk) :
    ∃ n, Chunk Slot.IsKept (t.withEmpty.deepened n).Takes place chunk := by
  have hd : s₀.withEmpty.definitions = t.withEmpty.definitions :=
    hs₀.definitions.trans ht.definitions.symm
  have hcontent := Scope.content_slot hslot
  obtain ⟨shape, trail, hname, -, hleads⟩ := IsElement.place he ht.withEmpty hslot
  cases hsampled with
  | absent ho hr =>
    rw [Scope.content_slot hslot'] at hr
    obtain ⟨heq, href⟩ | ⟨other, heq, hn⟩ := h.isCase.form
    -- A name is left out only if it is being expanded, and stands in the same place in the pattern.
    · obtain rfl := h.eq_of_isReference (heq ▸ href)
      obtain rfl := Scope.slot_unique hd hslot hslot'
      refine ⟨0, .absent ho ?_⟩
      rintro (hrequired | ⟨-, other, he, -⟩)
      · exact ho hrequired
      · rw [← hcontent, he] at href
        cases href
    · rw [heq, reenters, hn] at hr
      cases hr
  | @present w hv =>
    rw [Scope.content_slot hslot'] at hv
    obtain ⟨n, hn⟩ := h.isCase.accepts _ w hs₀.withEmpty hl.withEmpty hv
    rw [hcontent] at hleads
    obtain ⟨node, rfl, -⟩ := node_of_leads (w := t.withEmpty.deepened n) hleads rfl hn
    exact ⟨n, .present ((Scope.takes_of_name hname).mpr (hcontent ▸ hn))⟩

/-- What there is for those that are chosen, with nothing for the others. -/
theorem exists_flatten {α β : Type} {R : α → List β → Prop} {selection : List (Option α)}
    {chunks : List (List β)} (h : List.Forall₂ R (selection.filterMap id) chunks) :
    ∃ all : List (List β), all.flatten = chunks.flatten ∧ List.Forall₂ (fun choice chunk =>
      (choice = none ∧ chunk = []) ∨ ∃ x, choice = some x ∧ R x chunk) selection all := by
  induction selection generalizing chunks with
  | nil =>
    cases h
    exact ⟨[], rfl, .nil⟩
  | cons choice selection ih =>
    cases choice with
    | none =>
      obtain ⟨all, hflatten, hall⟩ := ih h
      exact ⟨[] :: all, hflatten, .cons (.inl ⟨rfl, rfl⟩) hall⟩
    | some x =>
      obtain ⟨chunk, rest, hR, hrest, rfl⟩ := List.forall₂_cons_left_iff.mp h
      obtain ⟨all, hflatten, hall⟩ := ih hrest
      exact ⟨chunk :: all, by simp [hflatten], .cons (.inr ⟨x, rfl, hR⟩) hall⟩

variable {choices : List (List (Option Pattern))} {selection : List (Option Pattern)}
  {places : List (Slot Pattern)} {chunks : List (List Value)}

/-- Samples of the elements that a case has are allowed as children. -/
theorem allowsChildren_of_case (ht : s.Derives t) (hs₀ : s.Derives s₀) (hl : s₀.Loosens t)
    (hchild : ∀ child ∈ shape.children, IsElement .plain s child ∨
      ∃ p, child = list p ∧ IsElement .plain s p)
    (happart : ∀ places, List.Forall₂ (fun child place => t.withEmpty.slot child = .ok place)
      shape.children places → KeptApart Slot.IsKept places)
    (ih : ∀ child ∈ shape.children, ∀ {cs S}, child.single.casesWith ofToken [] t.withEmpty = .done cs →
      S ∈ cs → IsNodeCase s child.single S t.withEmpty)
    (hchoices : List.Forall₂ (fun child options => childCases child [] t.withEmpty
      (fun _ => child.casesWith ofToken [] t.withEmpty) = .done options) shape.children choices)
    (hselection : List.Forall₂ (fun choice options => choice ∈ options) selection choices)
    (hslots : List.Forall₂ (fun child place => s₀.withEmpty.slot child = .ok place)
      (selection.filterMap id) places)
    (hchunks : List.Forall₂ (SampledPlace s₀.withEmpty) places chunks) :
    ∃ n, shape.AllowsChildren chunks.flatten (t.withEmpty.deepened n) := by
  obtain ⟨all, hflatten, hall⟩ := exists_flatten (forall₂_trans hslots hchunks)
  have hplaced : List.Forall₂ (fun child chunk => ∃ place, t.withEmpty.slot child = .ok place ∧
      ∃ n, Chunk Slot.IsKept (t.withEmpty.deepened n).Takes place chunk) shape.children all := by
    have hchosen := forall₂_trans (forall₂_trans hchoices hselection.flip) hall
    refine ((List.forall₂_and_left _ _).mpr ⟨fun child hc => hc, hchosen⟩).imp ?_
    rintro child chunk ⟨hc, choice, ⟨options, hoptions, hmem⟩, hchunk⟩
    obtain ⟨place, cases, hslot, hcases, hall⟩ := childCases_eq_done (fun _ => rfl) hoptions
    refine ⟨place, hslot, ?_⟩
    obtain ⟨rfl, ho⟩ | ⟨S, hS, hchoice⟩ := hall choice hmem
    · obtain ⟨-, rfl⟩ | ⟨_, h, -⟩ := hchunk
      · refine ⟨0, .absent (by simp [ho]) ?_⟩
        rintro (hr | ⟨hm, -⟩) <;> simp [ho] at *
      · cases h
    · have hcase := isChoice_of_mem_cases (hchild child hc) (ih child hc) hcases hS
      obtain ⟨T, rfl, hT⟩ : ∃ T, choice = some T ∧ IsChoice s child T t.withEmpty := by
        obtain rfl | rfl := hchoice
        · exact ⟨S, rfl, hcase⟩
        · exact ⟨_, rfl, hcase.withOccurs .required⟩
      obtain ⟨h, -⟩ | ⟨_, h, place', hslot', hsampled⟩ := hchunk
      · cases h
      · cases h
        exact hT.exists_chunk (hchild child hc) ht hs₀ hl hslot hslot' hsampled
  obtain ⟨places, hslots, hplaced⟩ := exists_between hplaced
  have hmono : ∀ n m place chunk, n ≤ m →
      Chunk Slot.IsKept (t.withEmpty.deepened n).Takes place chunk →
        Chunk Slot.IsKept (t.withEmpty.deepened m).Takes place chunk := fun n m place chunk hle h =>
    h.imp fun v hv => (Scope.placeCheck_deepened hle).content v v rfl hv
  obtain ⟨n, hn⟩ := exists_forall₂ hmono hplaced
  have hwithin : t.withEmpty.Within (t.withEmpty.deepened (max n t.headroom)) := by
    refine ⟨.inl rfl, .inl rfl, ?_⟩
    rw [Scope.headroom_withEmpty, Scope.headroom_deepened]
    exact Nat.le_max_right _ _
  refine ⟨max n t.headroom, hflatten ▸ allowsChildren_of_chunks hchild (ht.withEmpty.congr rfl rfl)
    (hslots.imp fun _ _ hslot => hwithin.slot hslot) (happart places hslots) ?_⟩
  exact hn.imp fun place chunk => hmono n _ place chunk (Nat.le_max_left _ _)

/-- The sample of the one text that a case has is allowed as content. -/
theorem allowsChildren_of_text_case (ht : s.Derives t) (hs₀ : s.Derives s₀)
    (hc : shape.children = [p]) (htext : IsText kinds s p) (hsolid : (element shape).Solid)
    (hchoices : List.Forall₂ (fun child options => childCases child [] t.withEmpty
      (fun _ => child.casesWith ofToken [] t.withEmpty) = .done options) shape.children choices)
    (hselection : List.Forall₂ (fun choice options => choice ∈ options) selection choices)
    (hslots : List.Forall₂ (fun child place => s₀.withEmpty.slot child = .ok place)
      (selection.filterMap id) places)
    (hchunks : List.Forall₂ (SampledPlace s₀.withEmpty) places chunks) :
    ∃ n, shape.AllowsChildren chunks.flatten (t.withEmpty.deepened n) := by
  rw [hc] at hchoices
  obtain ⟨options, _, hoptions, hnil, rfl⟩ := List.forall₂_cons_left_iff.mp hchoices
  cases hnil
  obtain ⟨choice, _, hmem, hnil, rfl⟩ := List.forall₂_cons_right_iff.mp hselection
  cases hnil
  obtain ⟨place, cases, hslot, hcases, hall⟩ := childCases_eq_done (fun _ => rfl) hoptions
  cases htext.slot.symm.trans hslot
  obtain ⟨-, ho⟩ | ⟨S, hS, hchoice⟩ := hall choice hmem
  · cases ho
  have hsamples := htext.reads_samples_of_mem_cases ht.definitions hcases hS
  obtain ⟨hsingle, hkeep, hrequired⟩ := htext.required_of_mem_cases ht.definitions hcases hS
  have hchoice : choice = some S := by
    obtain h | h := hchoice
    · exact h
    · rw [h, hkeep]
  rw [hchoice] at hslots
  obtain ⟨place, _, hslot', hnil, rfl⟩ := List.forall₂_cons_left_iff.mp hslots
  cases hnil
  obtain ⟨chunk, _, hchunk, hnil, rfl⟩ := List.forall₂_cons_left_iff.mp hchunks
  cases hnil
  cases hchunk with
  | absent ho => exact absurd (hrequired hs₀.definitions hslot') ho
  | @present v hv =>
    rw [Scope.content_slot hslot', hsingle] at hv
    obtain ⟨hform, n, hn⟩ := hsamples _ v hs₀.definitions (by simp [hs₀.policy, ht.policy]) hv
    obtain ⟨hchild, hblank⟩ := asChild_of_text hsolid hc hform
    rw [hchild]
    exact ⟨n, allowsChildren_of_text hc htext.slot hn hblank⟩

end Children

/-- Samples of the cases of an element are accepted where places are kept apart. -/
theorem isNodeCase_of_mem_cases (hs : s.Every (IsPlainUntyped s)) (hs' : s.Every Solid)
    (ht : s.Derives t) (hp : p.Every (IsPlainUntyped s)) (hp' : p.Every Solid)
    (he : IsElement .plain s p) (h : p.casesWith ofToken [] t = .done cs) (hS : S ∈ cs) :
    IsNodeCase s p S t := by
  induction p, t using scopeInduction generalizing S cs with
  | literal | scalar | record | union | list => cases he
  | reference token t ih =>
    obtain rfl | ⟨q, inner, hf, hcases⟩ := follow_of_casesWith h
    · obtain rfl := List.mem_singleton.mp hS
      refine ⟨.inl ⟨rfl, rfl⟩, fun s₀ v hs₀ hl hv => ?_⟩
      have hplain : s.Every (IsPlain (KeptApart Slot.IsKept) s) := hs.imp fun _ h => h.1
      have hp := hp.imp fun _ h => h.1
      have hcheck := IsElement.accepts_sample (fun _ => id) hplain hs' hs₀ hp hp' he hv
      exact (deepAccepts_of_check hcheck).loosen hl
    · obtain ⟨trail, hleads, -, -, rfl⟩ := Scope.follow_eq_ok_iff.mp hf
      obtain ⟨shape, rfl⟩ := he.leads ht hleads
      have hq := (ht.every hs spelled_isPlainUntyped).leads spelled_isPlainUntyped hp hleads
      have hq' := (ht.every hs' spelled_solid).leads spelled_solid hp' hleads
      have hcase := ih _ _ hf (ht.below trail) hq hq' (.element shape) hcases hS
      obtain ⟨-, hr⟩ | hform := hcase.form
      · cases hr
      · exact ⟨.inr hform, fun s₀ v hs₀ hl hv => .reference hf (hcase.accepts s₀ v hs₀ (hl.follow hf) hv)⟩
  | element shape t ih =>
    obtain ⟨⟨hplain, hn⟩, hparts⟩ := every_element.mp hp
    have hn : shape.typeRef = none := hn
    obtain ⟨tables, attributes, choices, selection, htables, hmem, hchoices, hselection, rfl⟩ :=
      element_of_casesWith hn h hS
    refine ⟨.inr ⟨_, rfl, rfl⟩, fun s₀ v hs₀ hl hv => ?_⟩
    obtain ⟨full, inner, pairs, places, chunks, hr, hpairs, hslots, hchunks, rfl⟩ := node_of_sample hv
    have hr' : t.resolveType shape = .ok (shape, t) := by rw [Scope.resolveType, hn]
    rw [Scope.resolveType] at hr
    cases hr
    have hchoices := childrenCases_eq_done (fun _ => rfl) hchoices
    refine .element rfl (.plain hn) ?_ ?_
    · exact allowsAttributes_of_case (hplain.nodup hn) hplain.attributes ht hs₀ htables hmem hpairs
    · obtain ⟨p, hc, htext⟩ | hchild := hplain.content.text_or
      · exact allowsChildren_of_text_case ht hs₀ hc htext hp'.self hchoices hselection hslots hchunks
      · refine allowsChildren_of_case ht hs₀ hl hchild (fun places => hplain.places _ places ht.definitions)
          (fun child hc {cs S} hcases hS => ?_) hchoices hselection hslots hchunks
        exact (ih shape t hr').2 child hc ht.withEmpty (every_single (hparts.2 child hc))
          (every_single ((every_element.mp hp').2.2 child hc)) (.single (hchild child hc)) hcases hS

/-- Samples of the cases of plain markup without types are accepted with enough headroom. -/
theorem check_of_node_case (hread : p.IsRead) (hsread : ∀ entry ∈ s.definitions, entry.2.IsRead)
    (hp : p.Every (IsPlainUntyped s)) (hs : s.Every (IsPlainUntyped s)) (h : p.cases [] s = .done cs)
    (hS : S ∈ cs) (hv : S.sample s = .ok v) :
    ∃ n, ∀ limit, n ≤ limit → p.check v { s with depthLimit := limit } = .accepted := by
  obtain ⟨shape, rfl⟩ := hread.eq_element
  obtain ⟨ofToken, hcases⟩ := exists_cases_eq (element shape) [] s
  rw [hcases] at h
  have hs' : s.Every Solid := fun entry he => (hsread entry he).every_solid
  have hcase := isNodeCase_of_mem_cases hs hs' (.refl s) hp hread.every_solid (.element shape) h hS
  exact (hcase.accepts s v (.refl s) (.congr rfl rfl) hv).exists_limit

end Pattern

namespace Sheets

open Pattern

/-- An element without content. -/
def sheet (name : String) (occurs : Occurs) : Pattern := .element ⟨name, none, [], [], occurs, none⟩

/-- A page that may be missing, notes, and a page. -/
def folder (notes : Occurs) : Shape Pattern :=
  ⟨"folder", none, [], [sheet "page" .optional, sheet "note" notes, sheet "page" .required], .required,
    none⟩

def scope : Scope := .ofDefinitions [] ⟨.strict, 8, 100⟩

def blank (name : String) : Value := .node ⟨name, none, [], []⟩

/-- The case that has no element that may be missing. -/
def shortest (notes : Occurs) : Pattern :=
  .element { folder notes with
    children := if notes = .optional then [sheet "page" .required]
      else [sheet "note" notes, sheet "page" .required] }

def places (notes : Occurs) : List (Slot Pattern) :=
  [⟨.optional, some "page", sheet "page" .optional⟩, ⟨notes, some "note", sheet "note" notes⟩,
    ⟨.required, some "page", sheet "page" .required⟩]

variable {ofToken : Pattern → Scope → Outcome (List Pattern)} {s t : Scope} {name : String}
  {notes occurs : Occurs} {arranged : List (Slot Pattern) → Prop}

theorem slot_sheet : t.slot (sheet name occurs) = .ok ⟨occurs, some name, sheet name occurs⟩ := by
  rw [sheet, Scope.slot]

theorem slots_folder (notes : Occurs) (t : Scope) :
    List.Forall₂ (fun child place => t.slot child = .ok place) (folder notes).children (places notes) :=
  .cons slot_sheet (.cons slot_sheet (.cons slot_sheet .nil))

theorem sheet_cases (ht : t.caseLimit = 100) :
    (sheet name occurs).casesWith ofToken [] t = .done [sheet name occurs] := by
  rw [sheet, casesWith_element (by simp) (by rw [Scope.resolveType]), ht]
  rfl

theorem folder_cases (notes : Occurs) :
    ∃ cs, (element (folder notes)).cases [] scope = .done (shortest notes :: cs) := by
  obtain ⟨ofToken, hcases⟩ := exists_cases_eq (element (folder notes)) [] scope
  have hsheet : ∀ name occurs, (sheet name occurs).casesWith ofToken [] scope.withEmpty =
    .done [sheet name occurs] := fun name occurs => sheet_cases rfl
  rw [hcases, casesWith_element (by simp [folder]) (by rw [Scope.resolveType, folder])]
  simp only [childrenCases, folder, onlyText?, childCases, List.zipIdx_cons, List.zipIdx_nil,
    List.map_cons, List.map_nil, slot_sheet, hsheet]
  cases notes <;> exact ⟨_, rfl⟩

theorem sample_sheet : (sheet name occurs).sample t = .ok (blank name) := by
  rw [sheet, sample]
  split
  · rename_i h
    rw [Scope.resolveType] at h
    cases h
  · rename_i h
    rw [Scope.resolveType] at h
    cases h
    rfl

theorem sample_shortest (notes : Occurs) (hnotes : notes ≠ .required) : (shortest notes).sample scope =
    .ok (.node ⟨"folder", none, [], if notes = .optional then [blank "page"]
      else [blank "note", blank "page"]⟩) := by
  rw [shortest, sample]
  split
  · rename_i h
    rw [folder, Scope.resolveType] at h
    cases h
  · rename_i h
    rw [folder, Scope.resolveType] at h
    cases h
    have hsingle : ∀ name occurs, (sheet name occurs).single = sheet name occurs := fun _ _ => rfl
    have hreenters : ∀ name occurs t, (sheet name occurs).reenters t = false := fun _ _ _ => by
      rw [sheet, reenters]
    cases notes
    · exact absurd rfl hnotes
    all_goals
      simp only [List.map_attach_eq_pmap, List.pmap_eq_map, reduceCtorEq, if_true, if_false,
        List.map_cons, List.map_nil, slot_sheet, hsingle, hreenters, sample_sheet]
      rfl

theorem isRead_folder (notes : Occurs) (hnotes : notes ≠ .required) : (element (folder notes)).IsRead := by
  refine ⟨⟨"folder", none, [], [.node ⟨"page", none, [("contract_occurs", "optional")], []⟩,
    .node ⟨"note", none, [("contract_occurs", if notes = .optional then "optional" else "multiple")], []⟩,
    .node ⟨"page", none, [], []⟩]⟩, ?_⟩
  rw [ofNode]
  simp only [List.map_cons, List.map_nil]
  rw [ofChild, ofChild, ofChild, ofNode, ofNode, ofNode]
  cases notes
  · exact absurd rfl hnotes
  all_goals rfl

theorem isPlain_sheet (h : arranged []) : IsPlain arranged s (sheet name occurs) := by
  refine ⟨by simp, .elements (by simp), fun u places _ hplaces => ?_, by simp, fun trail full hr => ?_⟩
  · cases hplaces
    exact h
  · obtain rfl := hr.eq_of_typeRef rfl
    exact List.nodup_nil

theorem isPlain_folder (h : arranged (places notes)) : IsPlain arranged s (element (folder notes)) := by
  refine ⟨by simp [folder], .elements fun child hc => .inl ?_, fun u others _ hplaces => ?_,
    by simp [folder], fun trail full hr => ?_⟩
  · simp only [folder, List.mem_cons, List.not_mem_nil, or_false] at hc
    obtain rfl | rfl | rfl := hc <;> exact .element _
  · rwa [Scope.slots_unique rfl hplaces (slots_folder notes u)]
  · obtain rfl := hr.eq_of_typeRef rfl
    exact List.nodup_nil

theorem every_folder (h : arranged []) (h' : arranged (places notes)) :
    (element (folder notes)).Every fun p => IsPlain arranged s p ∧ p.IsUntyped := by
  refine every_element.mpr ⟨⟨isPlain_folder h', rfl⟩, by simp [folder], fun child hc => ?_⟩
  have hsheet : ∀ name occurs, (sheet name occurs).Every fun p => IsPlain arranged s p ∧ p.IsUntyped :=
    fun _ _ => every_element.mpr ⟨⟨isPlain_sheet h, rfl⟩, by simp, by simp⟩
  simp only [folder, List.mem_cons, List.not_mem_nil, or_false] at hc
  obtain rfl | rfl | rfl := hc <;> exact hsheet _ _

theorem keptApart_places : KeptApart Slot.IsKept (places .multiple) := by
  have hnote : Slot.IsKept ⟨.multiple, some "note", sheet "note" .multiple⟩ := .inr ⟨rfl, _, rfl, rfl⟩
  refine keptApart_cons.mpr ⟨.inr (shielded_cons.mpr ⟨by decide, .inl hnote⟩), ?_⟩
  refine keptApart_cons.mpr ⟨.inr (shielded_cons.mpr ⟨by decide, .inl (.inl rfl)⟩), ?_⟩
  exact keptApart_of_nodup (List.nodup_singleton _)

/-- The page is taken for the one that may be missing, so that there is none left. -/
theorem not_check_folder :
    (element (folder .optional)).check (.node ⟨"folder", none, [], [blank "page"]⟩) s ≠ .accepted := by
  intro h
  obtain ⟨n, full, inner, hv, -, hr, -, others, hslots, hchecked⟩ := check_element_eq_accepted.mp h
  cases hv
  rw [Scope.resolveType, folder] at hr
  cases hr
  rw [Scope.slots_unique rfl hslots (slots_folder .optional _)] at hchecked
  have hmissing : Occurs.optional ≠ .required := by decide
  have hpage := ((checkSlots_run hmissing).mp hchecked).2
  have hnote := ((checkSlots_run hmissing).mp hpage).2
  cases ((checkSlots_required_nil rfl).mp hnote).1

end Sheets

theorem Pattern.check_of_node_case_folder :
    (element (Sheets.folder .multiple)).IsRead ∧
      (element (Sheets.folder .multiple)).Every (IsPlainUntyped Sheets.scope) ∧
      ∃ cs, (element (Sheets.folder .multiple)).cases [] Sheets.scope =
          .done (Sheets.shortest .multiple :: cs) ∧
        (Sheets.shortest .multiple).sample Sheets.scope =
          .ok (.node ⟨"folder", none, [], [Sheets.blank "note", Sheets.blank "page"]⟩) ∧
        ∃ n, ∀ limit, n ≤ limit → (element (Sheets.folder .multiple)).check
          (.node ⟨"folder", none, [], [Sheets.blank "note", Sheets.blank "page"]⟩)
          { Sheets.scope with depthLimit := limit } = .accepted := by
  have hread := Sheets.isRead_folder .multiple (by decide)
  have hplain : (element (Sheets.folder .multiple)).Every (IsPlainUntyped Sheets.scope) :=
    Sheets.every_folder (keptApart_of_nodup List.nodup_nil) Sheets.keptApart_places
  have hsample := Sheets.sample_shortest .multiple (by decide)
  obtain ⟨cs, hcases⟩ := Sheets.folder_cases .multiple
  exact ⟨hread, hplain, cs, hcases, hsample,
    check_of_node_case hread (by simp [Sheets.scope, Scope.ofDefinitions]) hplain
      (by simp [Scope.Every, Sheets.scope, Scope.ofDefinitions]) hcases List.mem_cons_self hsample⟩

/-- Places side by side have different names, but the case that leaves out the notes, which may be
missing, has a page that the folder does not accept, however many names may be entered. -/
theorem Pattern.not_check_of_node_case :
    (element (Sheets.folder .optional)).IsRead ∧
      (element (Sheets.folder .optional)).Every (fun p =>
        IsPlain (List.IsChain fun a b => a.name ≠ b.name) Sheets.scope p ∧ p.IsUntyped) ∧
      ∃ cs, (element (Sheets.folder .optional)).cases [] Sheets.scope =
          .done (Sheets.shortest .optional :: cs) ∧
        (Sheets.shortest .optional).sample Sheets.scope =
          .ok (.node ⟨"folder", none, [], [Sheets.blank "page"]⟩) ∧
        ∀ limit, (element (Sheets.folder .optional)).check
          (.node ⟨"folder", none, [], [Sheets.blank "page"]⟩)
          { Sheets.scope with depthLimit := limit } ≠ .accepted := by
  obtain ⟨cs, hcases⟩ := Sheets.folder_cases .optional
  refine ⟨Sheets.isRead_folder .optional (by decide), Sheets.every_folder .nil ?_, cs, hcases,
    Sheets.sample_shortest .optional (by decide), fun limit => Sheets.not_check_folder⟩
  simp [Sheets.places]

end PayloadContracts
