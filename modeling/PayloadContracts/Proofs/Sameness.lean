import PayloadContracts.Pattern.Same
import PayloadContracts.Proofs.Chain
import PayloadContracts.Proofs.Congruence
import PayloadContracts.Proofs.Types

/-!
Checks tell neither equal patterns nor equal values apart. Main statement:
`Pattern.check_iff_of_same`.
-/

namespace PayloadContracts

namespace Pattern

variable {p q : Pattern} {v : Value}

/-- Names stand once in a record, in an element and in literal values, as tables of the reader have
them. -/
def Tidy : Pattern → Prop
  | literal v => v.Tidy
  | record fields _ => Entries.Distinct fields
  | element shape => Entries.Distinct shape.attributes
  | _ => True

section Parts

variable {fields : Entries Pattern} {isOpen : Bool} {shape : Shape Pattern} {ps : List Pattern}

theorem same_literal : (literal v).same q = true ↔ ∃ w, q = literal w ∧ v.same w = true := by
  cases q <;> simp [same]

theorem same_scalar {kind : Scalar} : (scalar kind).same q = true ↔ q = scalar kind := by
  cases q with
  | scalar other => rw [same, beq_iff_eq, scalar.injEq, eq_comm]
  | _ => simp [same]

theorem same_record :
    (record fields isOpen).same q = true ↔
      ∃ others, q = record others isOpen ∧
        Entries.Agrees (fun p q => p.same q = true) fields others := by
  cases q with
  | record others othersOpen =>
    simp only [same, Entries.agree_map_iff, Bool.and_eq_true, beq_iff_eq, record.injEq]
    constructor
    · rintro ⟨h, rfl⟩
      exact ⟨others, ⟨rfl, rfl⟩, h⟩
    · rintro ⟨_, ⟨rfl, rfl⟩, h⟩
      exact ⟨h, rfl⟩
  | _ => simp [same]

theorem same_element :
    (element shape).same q = true ↔
      ∃ other, q = element other ∧ shape.name = other.name ∧ shape.qualifier = other.qualifier ∧
        Entries.Agrees (fun p q => p.same q = true) shape.attributes other.attributes ∧
        List.Forall₂ (fun p q => p.same q = true) shape.children other.children ∧
        shape.occurs = other.occurs ∧ shape.typeRef = other.typeRef := by
  cases q <;> simp [same, Entries.agree_map_iff, Entries.Agrees, agree_map_iff, and_assoc]

theorem same_union :
    (union ps).same q = true ↔
      ∃ qs, q = union qs ∧ List.Forall₂ (fun p q => p.same q = true) ps qs := by
  cases q <;> simp [same, agree_map_iff]

theorem same_reference {token : String} :
    (reference token).same q = true ↔ q = reference token := by
  cases q with
  | reference other => rw [same, beq_iff_eq, reference.injEq, eq_comm]
  | _ => simp [same]

theorem same_list {item : Pattern} :
    (list item).same q = true ↔ ∃ other, q = list other ∧ item.same other = true := by
  cases q <;> simp [same]

end Parts

theorem every_tidy_of_same (ht : p.Every Tidy) (h : p.same q = true) : q.Every Tidy := by
  induction p using partsInduction generalizing q with
  | literal v =>
    obtain ⟨w, rfl, hw⟩ := same_literal.mp h
    exact every_literal.mpr ((every_literal.mp ht).of_same hw)
  | scalar kind => exact same_scalar.mp h ▸ ht
  | record fields isOpen ih =>
    obtain ⟨others, rfl, ho⟩ := same_record.mp h
    obtain ⟨hd, hfields⟩ := every_record.mp ht
    refine every_record.mpr ⟨ho.distinct hd, fun other hother => ?_⟩
    obtain ⟨x, hx, hsame⟩ := ho.exists_of_mem hd hother
    exact ih _ hx (hfields _ hx) hsame
  | element shape ihAttributes ihChildren =>
    obtain ⟨other, rfl, -, -, ha, hc, -, -⟩ := same_element.mp h
    obtain ⟨hd, hattributes, hchildren⟩ := every_element.mp ht
    refine every_element.mpr ⟨ha.distinct hd, fun entry he => ?_, fun child hchild => ?_⟩
    · obtain ⟨x, hx, hsame⟩ := ha.exists_of_mem hd he
      exact ihAttributes _ hx (hattributes _ hx) hsame
    · obtain ⟨x, hx, hsame⟩ := exists_of_forall₂_right hc hchild
      exact ihChildren x hx (hchildren x hx) hsame
  | union ps ih =>
    obtain ⟨qs, rfl, hq⟩ := same_union.mp h
    refine every_union.mpr ⟨trivial, fun q hmem => ?_⟩
    obtain ⟨p, hp, hsame⟩ := exists_of_forall₂_right hq hmem
    exact ih p hp ((every_union.mp ht).2 p hp) hsame
  | reference token => exact same_reference.mp h ▸ ht
  | list item ih =>
    obtain ⟨other, rfl, ho⟩ := same_list.mp h
    exact every_list.mpr ⟨trivial, ih (every_list.mp ht).2 ho⟩

theorem same_symm (ht : p.Every Tidy) (h : p.same q = true) : q.same p = true := by
  induction p using partsInduction generalizing q with
  | literal v =>
    obtain ⟨w, rfl, hw⟩ := same_literal.mp h
    exact same_literal.mpr ⟨v, rfl, Value.same_symm (every_literal.mp ht) hw⟩
  | scalar kind => exact same_scalar.mp h ▸ h
  | record fields isOpen ih =>
    obtain ⟨others, rfl, ho⟩ := same_record.mp h
    obtain ⟨hd, hfields⟩ := every_record.mp ht
    exact same_record.mpr ⟨fields, rfl, ho.symm hd fun field hf _ => ih field hf (hfields field hf)⟩
  | element shape ihAttributes ihChildren =>
    obtain ⟨other, rfl, hname, hqualifier, ha, hc, hoccurs, htype⟩ := same_element.mp h
    obtain ⟨hd, hattributes, hchildren⟩ := every_element.mp ht
    exact same_element.mpr ⟨shape, rfl, hname.symm, hqualifier.symm,
      ha.symm hd fun entry he _ => ihAttributes entry he (hattributes entry he),
      forall₂_symm hc fun child hchild _ => ihChildren child hchild (hchildren child hchild),
      hoccurs.symm, htype.symm⟩
  | union ps ih =>
    obtain ⟨qs, rfl, hq⟩ := same_union.mp h
    exact same_union.mpr
      ⟨ps, rfl, forall₂_symm hq fun p hp _ => ih p hp ((every_union.mp ht).2 p hp)⟩
  | reference token => exact same_reference.mp h ▸ h
  | list item ih =>
    obtain ⟨other, rfl, ho⟩ := same_list.mp h
    exact same_list.mpr ⟨item, rfl, ih (every_list.mp ht).2 ho⟩

/-- Equal where the first is tidy, or one and the same. -/
def Alike (p q : Pattern) : Prop := p = q ∨ p.Every Tidy ∧ p.same q = true

theorem same_single (h : p.same q = true) : p.single.same q.single = true := by
  cases p with
  | list item =>
    obtain ⟨other, rfl, ho⟩ := same_list.mp h
    exact ho
  | _ => cases q <;> first | exact h | simp [same] at h

theorem Alike.single (h : p.Alike q) : p.single.Alike q.single := by
  obtain rfl | ⟨ht, hsame⟩ := h
  · exact .inl rfl
  · exact .inr ⟨every_single ht, same_single hsame⟩

end Pattern

namespace Shape

open Pattern

/-- Both name the same type, and attributes and children are alike. -/
structure Alike (shape other : Shape Pattern) : Prop where
  distinct : Entries.Distinct shape.attributes
  attributes : Entries.Agrees Pattern.Alike shape.attributes other.attributes
  children : List.Forall₂ Pattern.Alike shape.children other.children
  typeRef : shape.typeRef = other.typeRef

variable {shape other full full' : Shape Pattern} {s : Scope} {trail : List String}

theorem Alike.of_same (ht : (element shape).Every Tidy)
    (h : (element shape).same (element other) = true) : shape.Alike other := by
  obtain ⟨_, hother, -, -, ha, hc, -, htype⟩ := same_element.mp h
  cases hother
  obtain ⟨hd, hattributes, hchildren⟩ := every_element.mp ht
  refine ⟨hd, ⟨ha.1, fun entry he => ?_⟩, ?_, htype⟩
  · obtain ⟨q, hq, hsame⟩ := ha.2 entry he
    exact ⟨q, hq, .inr ⟨hattributes entry he, hsame⟩⟩
  · exact ((List.forall₂_and_left _ _).mpr ⟨hchildren, hc⟩).imp fun _ _ hboth => .inr hboth

theorem Alike.merge (h : shape.Alike other) (type : Shape Pattern) :
    (shape.merge type).Alike (other.merge type) :=
  ⟨h.distinct.extend type.attributes, h.attributes.extend h.distinct fun _ _ => .inl rfl,
    List.forall₂_same.mpr fun _ _ => .inl rfl, rfl⟩

theorem Alike.holding (h : shape.Alike other) (content : Pattern) :
    (shape.holding content).Alike (other.holding content) :=
  ⟨h.distinct, h.attributes, .cons (.inl rfl) .nil, rfl⟩

/-- Types bring the same to elements that are alike. -/
theorem Alike.resolves (h : shape.Alike other) (hr : s.Resolves shape trail full) :
    ∃ full', s.Resolves other trail full' ∧ full.Alike full' := by
  induction hr generalizing other with
  | plain hn => exact ⟨other, .plain (h.typeRef ▸ hn), h⟩
  | @element _ type _ _ _ _ hn hl _ ih =>
    obtain ⟨full', hfull, halike⟩ := ih (h.merge type)
    exact ⟨full', .element (h.typeRef ▸ hn) hl hfull, halike⟩
  | @content _ _ _ content hn hl hc =>
    exact ⟨other.holding content, .content (h.typeRef ▸ hn) hl hc, h.holding content⟩

/-- Texts that attributes accept, attributes that are alike accept. -/
theorem AllowsAttributes.alike {attributes : Entries String} (h : full.Alike full')
    (hparts : ∀ entry ∈ full.attributes, ∀ q, entry.2.Alike q → ∀ text,
      entry.2.checkText text s.withEmpty = .accepted → q.checkText text s.withEmpty = .accepted)
    (ha : full.AllowsAttributes attributes s) : full'.AllowsAttributes attributes s := by
  refine ⟨keyMismatch?_congr (fun name => ?_) (fun _ => Iff.rfl) ha.names, fun entry he text ht => ?_⟩
  · have hnames := (h.attributes.names_perm h.distinct).mem_iff (a := name)
    rw [mem_names_iff_get?, mem_names_iff_get?] at hnames
    rw [mem_names_iff_get?, mem_names_iff_get?, get?_contentAttributes, get?_contentAttributes]
    split
    · exact hnames
    · exact Iff.rfl
  · obtain ⟨hmem, hcontent⟩ := List.mem_filter.mp he
    obtain ⟨x, hx, halike⟩ := h.attributes.exists_of_mem h.distinct hmem
    refine hparts _ hx _ halike text (ha.texts _ (List.mem_filter.mpr ⟨hx, hcontent⟩) text ht)

end Shape

namespace Scope

open Pattern

variable {s : Scope} {p q : Pattern}

/-- Equal patterns have places of the same name and number. -/
theorem slot_of_same {place : Slot Pattern} (h : p.same q = true) (hs : s.slot p = .ok place) :
    ∃ place', s.slot q = .ok place' ∧ place.occurs = place'.occurs ∧ place.name = place'.name := by
  induction p using partsInduction generalizing q place with
  | element shape =>
    obtain ⟨other, rfl, hname, -, -, -, hoccurs, -⟩ := same_element.mp h
    rw [slot] at hs ⊢
    cases hs
    exact ⟨_, rfl, hoccurs, congrArg some hname⟩
  | list item ih =>
    obtain ⟨other, rfl, ho⟩ := same_list.mp h
    rw [slot] at hs ⊢
    split at hs
    · cases hs
    · rename_i part hpart
      cases hs
      obtain ⟨part', hpart', -, hname⟩ := ih ho hpart
      rw [hpart']
      exact ⟨_, rfl, rfl, hname⟩
  | reference token =>
    obtain rfl := same_reference.mp h
    exact ⟨place, hs, rfl, rfl⟩
  | literal | scalar | record | union =>
    cases q <;> simp only [same, Bool.false_eq_true] at h
    all_goals
      rw [slot] at hs ⊢
      · cases hs
        exact ⟨_, rfl, rfl, rfl⟩
      all_goals simp

/-- A place serves for one that is alike, if what it stands for accepts as much. -/
theorem serves_of_alike (h : p.Alike q)
    (hcheck : ∀ v, p.single.check v s = .accepted → q.single.check v s = .accepted)
    (htext : ∀ text, p.single.checkText text s = .accepted → q.single.checkText text s = .accepted) :
    s.Serves s p q := by
  intro place hplace
  obtain ⟨place', hplace', hoccurs, hname⟩ : ∃ place', s.slot q = .ok place' ∧
      place.occurs = place'.occurs ∧ place.name = place'.name := by
    obtain rfl | ⟨-, hsame⟩ := h
    · exact ⟨place, hplace, rfl, rfl⟩
    · exact slot_of_same hsame hplace
  refine ⟨place', hplace', placeCheck_admits hoccurs hname (fun _ _ => .inl) ?_ ?_⟩
  · rintro v _ rfl hv
    rw [content_slot hplace] at hv
    rw [content_slot hplace']
    exact hcheck v hv
  · intro text ht
    rw [content_slot hplace] at ht
    rw [content_slot hplace']
    exact htext text ht

end Scope

section Reading

variable {field other text : String} {v e e' : Value}

theorem readDocument_congr (h : readDocument text field = .ok v) :
    readDocument text other = .ok v := by
  unfold readDocument at h ⊢
  split at h <;> simp_all

theorem readItems_congr (h : readItems field text = .ok v) : readItems other text = .ok v := by
  unfold readItems at h
  split at h
  · rename_i items hitems
    rw [readItems, readDocument_congr hitems]
    exact h
  · cases h
  · cases h

/-- Equal values read text as the same value. -/
theorem Value.read_of_same (h : e.same e' = true) (hread : e.read text = .ok v) :
    e'.read text = .ok v := by
  cases e <;> cases e' <;> simp only [same, Bool.false_eq_true] at h
  case number.number | boolean.boolean =>
    -- the value itself is named only where the text cannot be read
    unfold read at hread ⊢
    simp only at hread ⊢
    split at hread
    · exact hread
    · cases hread
  case object.object | list.list =>
    unfold read at hread ⊢
    exact readDocument_congr hread
  case node.node =>
    unfold read at hread
    cases hread
  case null.null | text.text => exact hread

end Reading

namespace Pattern

variable {p q : Pattern} {s : Scope} {v w : Value}

/-- What a pattern accepts, each pattern equal to it accepts. -/
theorem checks_of_same (ht : p.Every Tidy) (h : p.same q = true) :
    (∀ v, p.check v s = .accepted → q.check v s = .accepted) ∧
      ∀ text, p.checkText text s = .accepted → q.checkText text s = .accepted := by
  induction p, s using scopeInduction generalizing q with
  | literal e s =>
    obtain ⟨e', rfl, he⟩ := same_literal.mp h
    have hcheck : ∀ v, (literal e).check v s = .accepted → (literal e').check v s = .accepted := by
      intro v hv
      have hback := Value.same_symm (every_literal.mp ht) he
      exact check_literal_eq_accepted.mpr (Value.same_trans hback (check_literal_eq_accepted.mp hv))
    refine ⟨hcheck, fun text => checkText_of_read (fun v hv => ?_) hcheck⟩
    rw [read] at hv ⊢
    exact Value.read_of_same he hv
  | scalar kind s =>
    obtain rfl := same_scalar.mp h
    exact ⟨fun _ => id, fun _ => id⟩
  | record fields isOpen s ih =>
    obtain ⟨others, rfl, ho⟩ := same_record.mp h
    obtain ⟨hd, hfields⟩ := every_record.mp ht
    have hcheck : ∀ v, (record fields isOpen).check v s = .accepted →
        (record others isOpen).check v s = .accepted := by
      intro v hv
      obtain ⟨parts, rfl, hkeys, hparts⟩ := check_record_eq_accepted.mp hv
      refine check_record_eq_accepted.mpr ⟨parts, rfl, ?_, fun other hother part hpart => ?_⟩
      · exact keyMismatch?_congr (fun _ => (ho.names_perm hd).mem_iff) (fun _ => Iff.rfl) hkeys
      · obtain ⟨x, hx, hsame⟩ := ho.exists_of_mem hd hother
        exact (ih _ hx (hfields _ hx) hsame).1 part (hparts _ hx part hpart)
    exact ⟨hcheck, fun text => checkText_of_read (fun v hv => by rwa [read] at hv ⊢) hcheck⟩
  | element shape s ih =>
    refine ⟨fun v hv => ?_, fun text htext => absurd htext checkText_element⟩
    obtain ⟨other, rfl, hname, -⟩ := same_element.mp h
    obtain ⟨n, full, inner, rfl, hn, hr, hattributes, hchildren⟩ := check_element_eq_accepted.mp hv
    obtain ⟨ihAttributes, ihChildren⟩ := ih full inner hr
    obtain ⟨trail, hresolves, hroom, rfl⟩ := Scope.resolveType_eq_ok_iff.mp hr
    obtain ⟨full', hresolves', halike⟩ := (Shape.Alike.of_same ht h).resolves hresolves
    have hr' : s.resolveType other = .ok (full', s.below trail) :=
      Scope.resolveType_eq_ok_iff.mpr ⟨trail, hresolves', hroom, rfl⟩
    refine check_element_eq_accepted.mpr ⟨n, full', _, rfl, hn.trans hname, hr', ?_, ?_⟩
    · refine hattributes.alike halike fun entry he q hq text htext => ?_
      obtain rfl | ⟨htidy, hsame⟩ := hq
      · exact htext
      · exact (ihAttributes entry he htidy hsame).2 text htext
    · refine hchildren.serves ?_
      refine List.Forall₂.imp (fun p q hpq => ?_)
        ((List.forall₂_and_left _ _).mpr ⟨fun _ => id, halike.children⟩)
      obtain ⟨hmem, hpq⟩ := hpq
      have hparts : (∀ v, p.single.check v (s.below trail).withEmpty = .accepted →
          q.single.check v (s.below trail).withEmpty = .accepted) ∧
            ∀ text, p.single.checkText text (s.below trail).withEmpty = .accepted →
              q.single.checkText text (s.below trail).withEmpty = .accepted := by
        obtain heq | ⟨htidy, hsame⟩ := hpq.single
        · rw [heq]
          exact ⟨fun _ => id, fun _ => id⟩
        · exact ihChildren p hmem htidy hsame
      exact Scope.serves_of_alike hpq hparts.1 hparts.2
  | union ps s ih =>
    obtain ⟨qs, rfl, hqs⟩ := same_union.mp h
    have hps := (every_union.mp ht).2
    constructor
    · intro v hv
      obtain ⟨p, hp, hc⟩ := check_union_eq_accepted.mp hv
      obtain ⟨q, hq, hsame⟩ := exists_of_forall₂_left hqs hp
      exact check_union_eq_accepted.mpr ⟨q, hq, (ih p hp (hps p hp) hsame).1 v hc⟩
    · intro text htext
      obtain ⟨p, hp, hc⟩ := checkText_union_eq_accepted.mp htext
      obtain ⟨q, hq, hsame⟩ := exists_of_forall₂_left hqs hp
      exact checkText_union_eq_accepted.mpr ⟨q, hq, (ih p hp (hps p hp) hsame).2 text hc⟩
  | reference token s ih =>
    obtain rfl := same_reference.mp h
    exact ⟨fun _ => id, fun _ => id⟩
  | list item s ih =>
    obtain ⟨other, rfl, ho⟩ := same_list.mp h
    have hcheck : ∀ v, (list item).check v s = .accepted → (list other).check v s = .accepted := by
      intro v hv
      obtain ⟨items, rfl, hitems⟩ := check_list_eq_accepted.mp hv
      exact check_list_eq_accepted.mpr
        ⟨items, rfl, fun w hw => (ih (every_list.mp ht).2 ho).1 w (hitems w hw)⟩
    refine ⟨hcheck, fun text => checkText_of_read (fun v hv => ?_) hcheck⟩
    rw [read] at hv ⊢
    exact readItems_congr hv

/-- Whether a pattern accepts a value depends on neither the order of names nor the spelling of numbers
in the pattern and in the value. -/
theorem check_iff_of_same (hp : p.Every Tidy) (hv : v.Tidy) (hpq : p.same q = true)
    (hvw : v.same w = true) : p.check v s = .accepted ↔ q.check w s = .accepted := by
  have hpq' := same_symm hp hpq
  have hvw' := Value.same_symm hv hvw
  constructor
  · intro h
    exact check_of_same hv hvw ((checks_of_same hp hpq).1 v h)
  · intro h
    have hq := every_tidy_of_same hp hpq
    exact check_of_same (hv.of_same hvw) hvw' ((checks_of_same hq hpq').1 w h)

/-- Fields, texts of a literal object and the sign of zero may change. -/
theorem check_iff_of_same_swapped :
    let p : Pattern := record [("balance", literal (.number (.finite false 0 0))),
      ("owner?", literal (.object [("first", .text "A"), ("last", .null)]))] false
    let q : Pattern := record [("owner?", literal (.object [("last", .null), ("first", .text "A")])),
      ("balance", literal (.number (.finite true 0 0)))] false
    let v : Value := .object [("balance", .number (.finite true 0 0)),
      ("owner", .object [("first", .text "A"), ("last", .null)])]
    let w : Value := .object [("owner", .object [("last", .null), ("first", .text "A")]),
      ("balance", .number (.finite false 0 0))]
    p.Every Tidy ∧ v.Tidy ∧ p.same q = true ∧ v.same w = true ∧
      (p.check v Chain.scope = .accepted ↔ q.check w Chain.scope = .accepted) := by
  intro p q v w
  have hpq : p.same q = true := by
    simp [p, q, same, Value.same, Entries.agree, Entries.get?, Number.same]
  have hvw : v.same w = true := by
    simp [v, w, Value.same, Entries.agree, Entries.get?, Number.same]
  have howner : (Value.object [("first", .text "A"), ("last", .null)]).Tidy := by
    simp [Value.Tidy, Entries.Distinct, Entries.names]
  have hv : v.Tidy := by
    simp [v, Value.Tidy, Entries.Distinct, Entries.names]
  have hp : p.Every Tidy := by
    simp [p, every_record, every_literal, Tidy, howner, Value.Tidy, Entries.Distinct, Entries.names]
  exact ⟨hp, hv, hpq, hvw, check_iff_of_same hp hv hpq hvw⟩

end Pattern

end PayloadContracts
