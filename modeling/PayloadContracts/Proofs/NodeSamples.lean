import PayloadContracts.Proofs.Children
import PayloadContracts.Proofs.Plain
import PayloadContracts.Proofs.Samples
import PayloadContracts.Proofs.Untyped

/-!
Samples of plain markup are elements that the patterns accept. Main statement:
`Pattern.check_of_node_sample`.
-/

namespace PayloadContracts

theorem isNamespace_iff {name : String} :
    isNamespace name = true ↔ name = "xmlns" ∨ "xmlns:".toList <+: name.toList := by
  rw [isNamespace, Text.startsWith, Bool.or_eq_true, beq_iff_eq, List.isPrefixOf_iff_prefix]

/-- The mark has no part in what makes a name bind a name space. -/
theorem isNamespace_of_append {base : String} (h : isNamespace (base ++ attributeMark) = true) :
    isNamespace base = true := by
  refine isNamespace_iff.mpr (.inr ?_)
  obtain h | h := isNamespace_iff.mp h
  · have hlast := congrArg (fun name => name.toList.getLast?) h
    simp [attributeMark] at hlast
  · rw [String.toList_append] at h
    by_cases hlen : "xmlns:".toList.length ≤ base.toList.length
    · exact List.prefix_of_prefix_length_le h (List.prefix_append _ _) hlen
    · have hdot : base.toList ++ ['.'] <+: base.toList ++ attributeMark.toList :=
        (List.prefix_append_right_inj _).mpr ⟨_, rfl⟩
      have hmem := (List.prefix_of_prefix_length_le hdot h (by simp at hlen ⊢; omega)).subset
        (List.mem_append_right _ (List.mem_singleton.mpr rfl))
      exact absurd hmem (by decide)

theorem isNamespace_canonical {name : String} (h : isNamespace name = true) :
    isNamespace (canonical name attributeMark) = true := by
  cases ho : isOptional name attributeMark with
  | false => rwa [canonical_of_not_optional ho]
  | true =>
    rw [eq_canonical_append ho] at h
    exact isNamespace_of_append h

namespace Scalar

variable {kind : Scalar}

theorem isSome_value?_sample (kind : Scalar) : (kind.value? kind.sample.toText).isSome = true := by
  cases kind <;> decide

/-- Only absent content has a blank text. -/
theorem toText_sample_of_blank (h : Text.isBlankText kind.sample.toText = true) :
    kind.sample.toText = "" := by
  revert h
  cases kind <;> decide

end Scalar

namespace Shape

variable {full : Shape Pattern} {pairs : Entries String} {s : Scope}

/-- Texts for attributes of names of their own are allowed if each is one that its attribute reads and
all attributes that are required have one. -/
theorem allowsAttributes_of_pairs
    (hkeys : ((Entries.names full.attributes).map fun name => canonical name attributeMark).Nodup)
    (hpairs : ∀ pair ∈ pairs, ∃ entry ∈ full.attributes, pair.1 = canonical entry.1 attributeMark ∧
      entry.2.checkText pair.2 s.withEmpty = .accepted)
    (hrequired : ∀ entry ∈ full.attributes, isOptional entry.1 attributeMark = false →
      entry.1 ∈ Entries.names pairs) :
    full.AllowsAttributes pairs s := by
  have hcontent : ∀ pair ∈ contentAttributes pairs, ∃ entry ∈ contentAttributes full.attributes,
      pair.1 = canonical entry.1 attributeMark ∧
        entry.2.checkText pair.2 s.withEmpty = .accepted := by
    intro pair hp
    obtain ⟨hmem, hname⟩ := List.mem_filter.mp hp
    obtain ⟨entry, he, heq, hread⟩ := hpairs pair hmem
    refine ⟨entry, List.mem_filter.mpr ⟨he, ?_⟩, heq, hread⟩
    by_contra hns
    have hnamespace : isNamespace entry.1 = true := by simpa using hns
    have hcanonical := isNamespace_canonical hnamespace
    rw [← heq] at hcanonical
    simp [hcanonical] at hname
  refine ⟨keyMismatch?_of_parts (fun entry he ho => ?_) fun pair hp => ?_, fun entry he text ht => ?_⟩
  · obtain ⟨hmem, hcontent⟩ := List.mem_filter.mp he
    obtain ⟨pair, hp, heq⟩ := List.mem_map.mp (hrequired entry hmem ho)
    exact List.mem_map.mpr ⟨pair, List.mem_filter.mpr ⟨hp, by rwa [heq]⟩, heq⟩
  · obtain ⟨entry, he, heq, -⟩ := hcontent pair hp
    exact ⟨entry, he, heq⟩
  · obtain ⟨other, ho, heq, hread⟩ := hcontent _ (Entries.mem_of_get? ht)
    rw [Entries.names, List.map_map] at hkeys
    obtain rfl := List.inj_on_of_nodup_map hkeys (List.mem_of_mem_filter he)
      (List.mem_of_mem_filter ho) heq
    exact hread

end Shape

namespace Pattern

variable {arranged : List (Slot Pattern) → Prop} {kinds : Scalar → Prop} {s t u inner : Scope}
  {p q : Pattern} {kind : Scalar} {shape full : Shape Pattern} {v : Value} {place : Slot Pattern}

/-- A pattern that stands for a kind has the sample of the kind, and reads its text. -/
theorem Denotes.reads_sample (h : Denotes s p kind) (hu : u.definitions = s.withEmpty.definitions)
    (hv : p.sample u = .ok v) : v = kind.sample ∧ p.checkText v.toText u = .accepted := by
  cases h with
  | scalar kind =>
    rw [sample] at hv
    cases hv
    exact ⟨rfl, checkText_scalar_eq_accepted.mpr (Scalar.isSome_value?_sample kind)⟩
  | absent h =>
    obtain ⟨q, inner, hf, hv⟩ := follow_of_sample hv
    obtain rfl := eq_of_follow h hu hf
    rw [sample] at hv
    cases hv
    exact ⟨rfl, checkText_reference_eq_accepted.mpr
      ⟨_, inner, hf, checkText_scalar_eq_accepted.mpr (Scalar.isSome_value?_sample .empty)⟩⟩

/-- The sample of a text is literal, or that of a kind, and its text is read. -/
theorem IsText.reads_sample (h : IsText kinds s p) (hu : u.definitions = s.withEmpty.definitions)
    (hv : p.sample u = .ok v) :
    ((∃ text, p = Pattern.literal (.text text) ∧ v = .text text) ∨ ∃ kind, v = Scalar.sample kind) ∧
      p.checkText v.toText u = .accepted := by
  cases h with
  | literal text =>
    rw [sample] at hv
    cases hv
    refine ⟨.inl ⟨text, rfl, rfl⟩, checkText_eq_accepted.mpr ⟨.text text, ?_, ?_⟩⟩
    · rw [read]
      rfl
    · exact check_literal_eq_accepted.mpr (by simp [Value.same])
  | choice hp h =>
    obtain ⟨ps, rfl⟩ | hp := eq_union_or hp
    · obtain ⟨q, hq, hv⟩ := representative_of_sample hv
      obtain ⟨kind, -, hk⟩ := h q hq
      rw [withEmpty_eq hu] at hv
      obtain ⟨rfl, hread⟩ := hk.reads_sample hu hv
      refine ⟨.inr ⟨kind, rfl⟩, checkText_union_eq_accepted.mpr ⟨q, hq, ?_⟩⟩
      rwa [withEmpty_eq hu]
    · obtain ⟨kind, -, hk⟩ := h p (by simp [alternatives_of_isPlain hp])
      obtain ⟨rfl, hread⟩ := hk.reads_sample hu hv
      exact ⟨.inr ⟨kind, rfl⟩, hread⟩

/-- The text that is the content of an element, and samples of kinds, are not taken for layout. -/
theorem asChild_of_text (hsolid : (element full).Solid) (hc : full.children = [p])
    (h : (∃ text, p = Pattern.literal (.text text) ∧ v = .text text) ∨ ∃ kind, v = Scalar.sample kind) :
    asChild v = .text v.toText ∧ (Text.isBlankText v.toText = true → v.toText = "") := by
  obtain ⟨text, rfl, rfl⟩ | ⟨kind, rfl⟩ := h
  · refine ⟨rfl, fun hblank => ?_⟩
    have hmem : Pattern.literal (.text text) ∈ full.children := hc ▸ List.mem_singleton.mpr rfl
    cases (hsolid text hmem).symm.trans hblank
  · refine ⟨?_, Scalar.toText_sample_of_blank⟩
    cases kind <;> rfl

/-- What a sample of an element has for an attribute. -/
def SampledAttribute (u : Scope) (entry : String × Pattern) (pair : String × String) : Prop :=
  ∃ w, entry.2.sample u = .ok w ∧ pair = (canonical entry.1 attributeMark, w.toText)

theorem names_of_sampled {attributes : Entries Pattern} {pairs : Entries String}
    (h : List.Forall₂ (SampledAttribute u) attributes pairs) :
    Entries.names pairs = (Entries.names attributes).map fun name => canonical name attributeMark := by
  induction h with
  | nil => rfl
  | cons hpair _ ih =>
    obtain ⟨w, -, rfl⟩ := hpair
    exact congrArg _ ih

/-- What a sample of an element has in a place: nothing where it would go back into a name being
expanded and need not. -/
inductive SampledPlace (u : Scope) (place : Slot Pattern) : List Value → Prop
  | absent (ho : place.occurs ≠ .required) (hr : place.content.reenters u = true) :
    SampledPlace u place []
  | present {v : Value} (h : place.content.sample u = .ok v) : SampledPlace u place [asChild v]

theorem locateUnder_eq_ok_iff {α : Type} {name : Option String} {r : Except ContractError α} {x : α} :
    locateUnder name r = .ok x ↔ r = .ok x := by
  cases name with
  | none => rfl
  | some name => exact locate_eq_ok_iff

/-- The name and the text of an attribute in a sample. The equations here and in `sampleChild` are
those of the sample that these are parts of. -/
def sampleAttribute (entry : String × Pattern) (s : Scope) : Except ContractError (String × String) :=
  (locate (.key (canonical entry.1 attributeMark)) (entry.2.sample s)).map fun v =>
    (canonical entry.1 attributeMark, v.toText)

/-- What a sample has for a child. -/
def sampleChild (child : Pattern) (s : Scope) : Except ContractError (List Value) :=
  match s.slot child with
  | .error e => .error e
  | .ok slot =>
    if slot.occurs != .required && child.single.reenters s then .ok []
    else (locateUnder slot.name (child.single.sample s)).map fun v => [asChild v]

theorem sample_element_eq_ok :
    (element shape).sample s = .ok v ↔
      ∃ full inner pairs chunks, s.resolveType shape = .ok (full, inner) ∧
        collect (full.attributes.map fun entry _ => sampleAttribute entry inner.withEmpty) =
          .ok pairs ∧
        collect (full.children.map fun child _ => sampleChild child inner.withEmpty) = .ok chunks ∧
        .node ⟨shape.name, shape.qualifier, Entries.ofList pairs, chunks.flatten⟩ = v := by
  rw [sample]
  split
  · rename_i hr
    simp [hr]
  · rename_i full inner hr
    simp only [List.map_attach_eq_pmap, List.pmap_eq_map]
    constructor
    · intro h
      split at h
      · cases h
      · rename_i pairs hpairs
        obtain ⟨chunks, hchunks, rfl⟩ := exceptMap_eq_ok_iff.mp h
        exact ⟨full, inner, pairs, chunks, hr, hpairs, hchunks, rfl⟩
    · rintro ⟨full', inner', pairs, chunks, hr', hpairs, hchunks, rfl⟩
      cases hr.symm.trans hr'
      split
      · rename_i he
        cases hpairs.symm.trans he
      · rename_i hpairs'
        cases hpairs.symm.trans hpairs'
        exact exceptMap_eq_ok_iff.mpr ⟨chunks, hchunks, rfl⟩

/-- What a sample of an element is made of. -/
theorem node_of_sample (h : (element shape).sample s = .ok v) :
    ∃ full inner pairs places chunks, s.resolveType shape = .ok (full, inner) ∧
      List.Forall₂ (SampledAttribute inner.withEmpty) full.attributes pairs ∧
      List.Forall₂ (fun child place => inner.withEmpty.slot child = .ok place) full.children places ∧
      List.Forall₂ (SampledPlace inner.withEmpty) places chunks ∧
      v = .node ⟨shape.name, shape.qualifier, Entries.ofList pairs, chunks.flatten⟩ := by
  obtain ⟨full, inner, pairs, chunks, hr, hpairs, hchunks, rfl⟩ := sample_element_eq_ok.mp h
  rw [collect_eq_ok_iff, List.forall₂_map_left_iff] at hpairs hchunks
  have hplaces : List.Forall₂ (fun child chunk => ∃ place,
      inner.withEmpty.slot child = .ok place ∧ SampledPlace inner.withEmpty place chunk)
      full.children chunks := by
    refine hchunks.imp fun child chunk hchunk => ?_
    rw [sampleChild] at hchunk
    split at hchunk
    · cases hchunk
    · rename_i place hslot
      refine ⟨place, hslot, ?_⟩
      rw [← Scope.content_slot hslot] at hchunk
      split at hchunk
      · rename_i hleft
        cases hchunk
        simp only [Bool.and_eq_true, bne_iff_ne] at hleft
        exact .absent hleft.1 hleft.2
      · obtain ⟨w, hw, rfl⟩ := exceptMap_eq_ok_iff.mp hchunk
        exact .present (locateUnder_eq_ok_iff.mp hw)
  obtain ⟨places, hslots, hsampled⟩ := exists_between hplaces
  refine ⟨full, inner, pairs, places, chunks, hr, hpairs.imp fun entry pair hpair => ?_, hslots,
    hsampled, rfl⟩
  obtain ⟨w, hw, rfl⟩ := exceptMap_eq_ok_iff.mp hpair
  exact ⟨w, locate_eq_ok_iff.mp hw, rfl⟩

/-- Children that elements have in places which are kept apart are allowed. -/
theorem allowsChildren_of_chunks {places : List (Slot Pattern)} {chunks : List (List Value)}
    (hchild : ∀ child ∈ full.children, IsElement .plain s child ∨
      ∃ p, child = list p ∧ IsElement .plain s p) (hu : s.Derives u)
    (hslots : List.Forall₂ (fun child place => u.slot child = .ok place) full.children places)
    (happart : KeptApart Slot.IsKept places)
    (hchunks : List.Forall₂ (Chunk Slot.IsKept u.Takes) places chunks) :
    full.AllowsChildren chunks.flatten u := by
  have hplace : ∀ place ∈ places, ∃ shape trail, place.name = some shape.name ∧
      IsElement .plain s place.content ∧ u.Leads place.content trail (element shape) := by
    intro place hp
    obtain ⟨child, hc, hslot⟩ := exists_of_forall₂_right hslots hp
    exact IsElement.place (hchild child hc) hu hslot
  have hnodes : ∀ v ∈ chunks.flatten, (!v.isLayout) = true := by
    intro v hv
    obtain ⟨chunk, hc, hv⟩ := List.mem_flatten.mp hv
    obtain ⟨place, hp, hchunk⟩ := exists_of_forall₂_right hchunks hc
    obtain ⟨shape, trail, hname, -, hl⟩ := hplace place hp
    have htakes := hchunk.each.1 v hv
    rw [Scope.takes_of_name hname] at htakes
    obtain ⟨node, rfl, -⟩ := node_of_leads hl rfl htakes
    rfl
  refine ⟨places, hslots, ?_⟩
  rw [List.filter_eq_self.mpr hnodes]
  refine checkSlots_of_chunks hchunks happart fun place hp v hv => accepts_of_placeCheck rfl ?_ hv
  obtain ⟨shape, trail, hname, -, hl⟩ := hplace place hp
  exact .inr ⟨shape, trail, hname, hl⟩

/-- A text that is read is allowed as all of the content, if it is not taken for layout. -/
theorem allowsChildren_of_text {text : String} (hc : full.children = [p])
    (hslot : u.slot p = .ok ⟨.required, none, p⟩) (hread : p.checkText text u = .accepted)
    (hblank : Text.isBlankText text = true → text = "") :
    full.AllowsChildren [.text text] u := by
  refine ⟨[⟨.required, none, p⟩], hc ▸ .cons hslot .nil, ?_⟩
  cases hlayout : Text.isBlankText text with
  | true =>
    obtain rfl := hblank hlayout
    exact (checkSlots_required_nil rfl).mpr ⟨rfl, hread, rfl⟩
  | false =>
    have hfilter : [Value.text text].filter (fun child => !child.isLayout) = [.text text] := by
      simp [Value.isLayout, hlayout]
    rw [hfilter]
    exact (checkSlots_required_cons rfl).mpr ⟨hread, rfl⟩

/-- What a sample has in a place is what the place takes, if samples of its content are accepted. -/
theorem SampledPlace.chunk {chunk : List Value} (h : SampledPlace u place chunk)
    (hname : place.name ≠ none)
    (hcheck : ∀ v, place.content.sample u = .ok v →
      place.content.check v u = .accepted ∧ ∃ n, v = .node n) :
    Chunk Slot.IsKept u.Takes place chunk := by
  obtain ⟨name, hname⟩ := Option.ne_none_iff_exists'.mp hname
  cases h with
  | absent ho hr =>
    refine .absent ho ?_
    rintro (hrequired | ⟨-, shape, hcontent, hn⟩)
    · exact ho hrequired
    · rw [hcontent, reenters, hn] at hr
      cases hr
  | present hv =>
    obtain ⟨hc, n, rfl⟩ := hcheck _ hv
    exact .present ((Scope.takes_of_name hname).mpr hc)

/-- Samples of texts are allowed as the attributes that they are taken for. -/
theorem allowsAttributes_of_sampled {pairs : Entries String}
    (hu : u.withEmpty.definitions = s.withEmpty.definitions)
    (hkeys : ((Entries.names full.attributes).map fun name => canonical name attributeMark).Nodup)
    (htexts : ∀ entry ∈ full.attributes, IsText kinds s entry.2)
    (hpairs : List.Forall₂ (SampledAttribute u.withEmpty) full.attributes pairs) :
    full.AllowsAttributes (Entries.ofList pairs) u := by
  have hdistinct : Entries.Distinct pairs := by rwa [Entries.Distinct, names_of_sampled hpairs]
  rw [Entries.ofList_of_distinct hdistinct]
  refine Shape.allowsAttributes_of_pairs hkeys (fun pair hpair => ?_) fun entry he ho => ?_
  · obtain ⟨entry, he, w, hw, rfl⟩ := exists_of_forall₂_right hpairs hpair
    exact ⟨entry, he, rfl, ((htexts entry he).reads_sample hu hw).2⟩
  · rw [names_of_sampled hpairs]
    exact List.mem_map.mpr ⟨entry.1, Entries.mem_names he, canonical_of_not_optional ho⟩

/-- The sample of the one text of an element is allowed as its content. -/
theorem allowsChildren_of_sampled_text {places : List (Slot Pattern)} {chunks : List (List Value)}
    (hu : u.definitions = s.withEmpty.definitions) (hc : full.children = [p])
    (htext : IsText kinds s p) (hsolid : (element full).Solid)
    (hslots : List.Forall₂ (fun child place => u.slot child = .ok place) full.children places)
    (hchunks : List.Forall₂ (SampledPlace u) places chunks) :
    full.AllowsChildren chunks.flatten u := by
  rw [hc] at hslots
  obtain ⟨place, _, hslot, hnil, rfl⟩ := List.forall₂_cons_left_iff.mp hslots
  cases hnil
  cases htext.slot.symm.trans hslot
  obtain ⟨chunk, _, hchunk, hnil, rfl⟩ := List.forall₂_cons_left_iff.mp hchunks
  cases hnil
  cases hchunk with
  | absent ho => exact absurd rfl ho
  | present hv =>
    obtain ⟨hform, hread⟩ := htext.reads_sample hu hv
    obtain ⟨hchild, hblank⟩ := asChild_of_text hsolid hc hform
    rw [hchild]
    exact allowsChildren_of_text hc htext.slot hread hblank

/-- Samples of plain elements are accepted where places are kept apart. -/
theorem IsElement.accepts_sample
    (harranged : ∀ places, arranged places → KeptApart Slot.IsKept places)
    (hs : s.Every (IsPlain arranged s)) (hs' : s.Every Solid) (ht : s.Derives t)
    (hp : p.Every (IsPlain arranged s)) (hp' : p.Every Solid) (he : IsElement .plain s p)
    (h : p.sample t = .ok v) : p.check v t = .accepted := by
  induction p, t using scopeInduction generalizing v with
  | literal | scalar | record | union | list => cases he
  | reference token t ih =>
    obtain ⟨q, inner, hf, hv⟩ := follow_of_sample h
    obtain ⟨trail, hl, -, -, rfl⟩ := Scope.follow_eq_ok_iff.mp hf
    obtain ⟨shape, rfl⟩ := he.leads ht hl
    have hq := (ht.every hs spelled_isPlain).leads spelled_isPlain hp hl
    have hq' := (ht.every hs' spelled_solid).leads spelled_solid hp' hl
    exact check_reference_eq_accepted.mpr
      ⟨_, _, hf, ih _ _ hf (ht.below trail) hq hq' (.element shape) hv⟩
  | element shape t ih =>
    obtain ⟨full, inner, pairs, places, chunks, hr, hpairs, hslots, hchunks, rfl⟩ := node_of_sample h
    obtain ⟨trail, hfull, -, rfl⟩ := Scope.resolveType_eq_ok_iff.mp hr
    have hts := ht.every hs spelled_isPlain
    have hts' := ht.every hs' spelled_solid
    obtain ⟨hplain, hsolid, hnone⟩ := IsPlainShape.resolves hp.self hp'.self hts hts' ht hfull
    have hu : s.Derives (t.below trail).withEmpty := (ht.below trail).withEmpty
    have hempty := (ht.below trail).definitions
    refine check_element_eq_accepted.mpr ⟨_, full, _, rfl, rfl, hr, ?_, ?_⟩
    · exact allowsAttributes_of_sampled hempty (hplain.nodup hnone) hplain.attributes hpairs
    · obtain ⟨p, hc, htext⟩ | hchild := hplain.content.text_or
      · exact allowsChildren_of_sampled_text hempty hc htext hsolid hslots hchunks
      · have hplace : ∀ place ∈ places, place.name ≠ none ∧ ∀ w,
            place.content.sample (t.below trail).withEmpty = .ok w →
              place.content.check w (t.below trail).withEmpty = .accepted ∧ ∃ n, w = .node n := by
          intro place hmem
          obtain ⟨child, hmem, hslot⟩ := exists_of_forall₂_right hslots hmem
          obtain ⟨other, names, hname, helement, hl⟩ := IsElement.place (hchild child hmem) hu hslot
          refine ⟨by simp [hname], fun w hw => ?_⟩
          rw [Scope.content_slot hslot] at helement hl hw ⊢
          have hpart := (hp.resolves hts spelled_isPlain hfull).2 child hmem
          have hpart' := (hp'.resolves hts' spelled_solid hfull).2 child hmem
          have hcheck := (ih full _ hr).2 child hmem hu (every_single hpart) (every_single hpart')
            helement hw
          obtain ⟨n, hn, -⟩ := node_of_leads hl rfl hcheck
          exact ⟨hcheck, n, hn⟩
        refine allowsChildren_of_chunks hchild hu hslots
          (harranged places (hplain.places _ places hempty hslots)) ?_
        exact ((List.forall₂_and_left places chunks).mpr ⟨hplace, hchunks⟩).imp
          fun place chunk h => h.2.chunk h.1.1 h.1.2

/-- Plain markup in which no two places for children of an element have the same name. -/
def IsPlainApart (s : Scope) : Pattern → Prop :=
  IsPlain (fun places => (places.map Slot.name).Nodup) s

/-- A sample of plain markup is accepted by the pattern in the scope it was taken in. -/
theorem check_of_node_sample (hread : p.IsRead) (hsread : ∀ entry ∈ s.definitions, entry.2.IsRead)
    (hp : p.Every (IsPlainApart s)) (hs : s.Every (IsPlainApart s)) (h : p.sample s = .ok v) :
    p.check v s = .accepted := by
  obtain ⟨shape, rfl⟩ := hread.eq_element
  have hs' : s.Every Solid := fun entry he => (hsread entry he).every_solid
  exact IsElement.accepts_sample (fun _ => keptApart_of_nodup) hs hs' (.refl s) hp hread.every_solid
    (.element shape) h

end Pattern

namespace Forest

open Pattern

/-- An element that has the attributes and children of an item. -/
def root : Shape Pattern := ⟨"root", none, [], [], .required, some "Item"⟩

def tree : Value := .node ⟨"root", none, [("id", "1")], []⟩

theorem isRead_root : (element root).IsRead := by
  refine ⟨⟨"root", none, [("contract_type", "Item")], []⟩, ?_⟩
  rw [ofNode]
  rfl

theorem isRead_item : (element item).IsRead := by
  refine ⟨⟨"item", none, [("id", "(number)")], [.text "(Item*)"]⟩, ?_⟩
  rw [ofNode]
  simp only [List.map_cons, List.map_nil]
  rw [ofChild]
  rfl

theorem resolves_root : scope.Resolves root [typeToken "Item"] (root.merge item) :=
  .element rfl (.hop rfl (.stop rfl)) (.plain rfl)

theorem isElement_item : IsElement .plain scope (reference "(Item)") := by
  refine .reference ⟨id, fun q hq => ⟨item, ?_⟩⟩
  rw [lookup_item (.refl scope)] at hq
  exact (Except.ok.inj hq).symm

theorem every_item_isPlainApart : (element item).Every (IsPlainApart scope) := by
  refine every_element.mpr ⟨⟨fun entry he => ?_, ?_, fun u places _ hplaces => ?_, ?_, ?_⟩,
    fun entry he => ?_, fun child hc => ?_⟩
  · obtain rfl := List.mem_singleton.mp he
    exact .choice rfl fun q hq => ⟨.number, trivial, List.mem_singleton.mp hq ▸ .scalar .number⟩
  · refine .elements fun child hc => .inr ⟨_, List.mem_singleton.mp hc, isElement_item⟩
  · cases hplaces with
    | cons _ hnil =>
      cases hnil
      simp
  · intro name hn
    cases hn
  · intro trail full hr
    obtain rfl := hr.eq_of_typeRef rfl
    simp [item, Entries.names]
  · obtain rfl := List.mem_singleton.mp he
    exact every_scalar.mpr trivial
  · obtain rfl := List.mem_singleton.mp hc
    exact every_list.mpr ⟨trivial, every_reference.mpr trivial⟩

theorem every_root : (element root).Every (IsPlainApart scope) := by
  refine every_element.mpr ⟨⟨by simp [root], .elements (by simp [root]), fun u places _ hplaces => ?_,
    ?_, ?_⟩, by simp [root], by simp [root]⟩
  · cases hplaces
    exact List.nodup_nil
  · intro name hn
    cases hn
    exact isElement_item
  · intro trail full hr
    obtain ⟨-, rfl⟩ := hr.unique (resolves_root.mono fun _ _ => Scope.lookup_withEmpty)
    simp [Shape.merge, root, item, Entries.names, Entries.extend, Entries.insert]

theorem sample_root : (element root).sample scope = .ok tree := by
  have hr : scope.resolveType root = .ok (root.merge item, scope.below ["(Item)"]) :=
    Scope.resolveType_eq_ok_iff.mpr ⟨_, resolves_root, by decide, rfl⟩
  have hslot := slot_items (s := scope.below ["(Item)"]) ((Scope.Derives.refl scope).below _) (by decide)
  have hreenters : (reference "(Item)").reenters (scope.below ["(Item)"]).withEmpty = true := by
    rw [reenters, Scope.isExpanding, Scope.withEmpty_path]
    rfl
  rw [sample]
  split
  · rename_i h
    cases hr.symm.trans h
  · rename_i h
    cases hr.symm.trans h
    have hattributes : (root.merge item).attributes = [("id", .scalar .number)] := rfl
    have hchildren : (root.merge item).children = [.list (.reference "(Item)")] := rfl
    have hsingle : (list (reference "(Item)")).single = reference "(Item)" := rfl
    simp only [List.map_attach_eq_pmap, List.pmap_eq_map, hattributes, hchildren, List.map_cons,
      List.map_nil, hslot, hsingle, hreenters, sample]
    rfl

end Forest

theorem Pattern.check_of_node_sample_root :
    (element Forest.root).IsRead ∧ (∀ entry ∈ Forest.scope.definitions, entry.2.IsRead) ∧
      (element Forest.root).Every (IsPlainApart Forest.scope) ∧
      Forest.scope.Every (IsPlainApart Forest.scope) ∧
      (element Forest.root).sample Forest.scope = .ok Forest.tree ∧
      (element Forest.root).check Forest.tree Forest.scope = .accepted := by
  have hread : ∀ entry ∈ Forest.scope.definitions, entry.2.IsRead := fun entry he =>
    List.mem_singleton.mp he ▸ Forest.isRead_item
  have hscope : Forest.scope.Every (IsPlainApart Forest.scope) := fun entry he =>
    List.mem_singleton.mp he ▸ Forest.every_item_isPlainApart
  exact ⟨Forest.isRead_root, hread, Forest.every_root, hscope, Forest.sample_root,
    check_of_node_sample Forest.isRead_root hread Forest.every_root hscope Forest.sample_root⟩

end PayloadContracts
