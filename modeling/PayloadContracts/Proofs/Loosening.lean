import PayloadContracts.Proofs.Acceptance
import PayloadContracts.Proofs.Equality

/-!
A looser scope accepts at least as much. Main statements: `Scope.Within.check` for values and
`Scope.Within.checkText` for text, which a looser scope may read as another value.
-/

namespace PayloadContracts

open Pattern

theorem readUnion_eq_some {text : String} {v : Value}
    {alternatives : List ((String → Except ContractError Value) × (Value → Verdict))}
    (h : readUnion text alternatives = some v) :
    ∃ q ∈ alternatives, q.1 text = .ok v ∧ q.2 v = .accepted := by
  induction alternatives with
  | nil => cases h
  | cons q rest ih =>
    rw [readUnion] at h
    split at h
    · rename_i w hw
      split at h
      · rename_i hq
        cases h
        exact ⟨q, List.mem_cons_self, hw, Verdict.isAccepted_iff.mp hq⟩
      · obtain ⟨r, hr, hread⟩ := ih h
        exact ⟨r, List.mem_cons_of_mem _ hr, hread⟩
    · obtain ⟨r, hr, hread⟩ := ih h
      exact ⟨r, List.mem_cons_of_mem _ hr, hread⟩

theorem exists_readUnion_eq_some {text : String} {w : Value}
    {alternatives : List ((String → Except ContractError Value) × (Value → Verdict))}
    {q : (String → Except ContractError Value) × (Value → Verdict)} (hq : q ∈ alternatives)
    (hread : q.1 text = .ok w) (hcheck : q.2 w = .accepted) :
    ∃ v, readUnion text alternatives = some v := by
  induction alternatives with
  | nil => cases hq
  | cons r rest ih =>
    rw [readUnion]
    split
    · rename_i u hu
      split
      · exact ⟨u, rfl⟩
      · rename_i hr
        obtain rfl | hq := List.mem_cons.mp hq
        · rw [hread] at hu
          cases hu
          exact absurd (Verdict.isAccepted_iff.mpr hcheck) hr
        · exact ih hq
    · rename_i e he
      obtain rfl | hq := List.mem_cons.mp hq
      · rw [hread] at he
        cases he
      · exact ih hq

namespace Pattern

variable {s inner : Scope} {text : String} {p q : Pattern} {v : Value}

theorem checkText_eq_accepted :
    p.checkText text s = .accepted ↔ ∃ v, p.read text s = .ok v ∧ p.check v s = .accepted := by
  rw [checkText, checkReading]
  cases p.read text s <;> simp [Verdict.mismatch, Verdict.reject]

theorem read_union {ps : List Pattern} :
    (union ps).read text s = .ok v ↔
      readUnion text (ps.map fun q =>
        (fun t => q.read t s.withEmpty, fun w => q.check w s.withEmpty)) = some v := by
  rw [read]
  split <;> simp_all

theorem checkText_union_eq_accepted {ps : List Pattern} :
    (union ps).checkText text s = .accepted ↔
      ∃ q ∈ ps, q.checkText text s.withEmpty = .accepted := by
  simp only [checkText_eq_accepted, read_union]
  constructor
  · rintro ⟨v, hr, -⟩
    obtain ⟨_, hmem, hread, hcheck⟩ := readUnion_eq_some hr
    obtain ⟨q, hq, rfl⟩ := List.mem_map.mp hmem
    exact ⟨q, hq, v, hread, hcheck⟩
  · rintro ⟨q, hq, w, hread, hcheck⟩
    have hmem := List.mem_map_of_mem (f := fun q : Pattern =>
      (fun t => q.read t s.withEmpty, fun w => q.check w s.withEmpty)) hq
    obtain ⟨v, hv⟩ := exists_readUnion_eq_some hmem hread hcheck
    obtain ⟨_, hmem, -, haccept⟩ := readUnion_eq_some hv
    obtain ⟨r, hr, rfl⟩ := List.mem_map.mp hmem
    exact ⟨v, hv, check_union_eq_accepted.mpr ⟨r, hr, haccept⟩⟩

theorem read_reference {token : String} (h : s.follow (.reference token) = .ok (q, inner)) :
    (reference token).read text s = q.read text inner := by
  rw [read]
  split
  · simp_all
  · rename_i hf
    cases h.symm.trans hf
    rfl

theorem checkText_reference_eq_accepted {token : String} :
    (reference token).checkText text s = .accepted ↔
      ∃ q inner, s.follow (.reference token) = .ok (q, inner) ∧
        q.checkText text inner = .accepted := by
  simp only [checkText_eq_accepted]
  constructor
  · rintro ⟨v, hr, hc⟩
    obtain ⟨q, inner, hf, hc⟩ := check_reference_eq_accepted.mp hc
    exact ⟨q, inner, hf, v, read_reference hf ▸ hr, hc⟩
  · rintro ⟨q, inner, hf, v, hr, hc⟩
    exact ⟨v, (read_reference hf).trans hr, (check_reference hf).trans hc⟩

/-- A chain of references reads what it leads to reads, if there is headroom for its names. -/
theorem checkText_of_leads {trail : List String} (h : s.Leads p trail q) :
    p.checkText text s = .accepted ↔
      trail.length ≤ s.headroom ∧ q.checkText text (s.below trail) = .accepted := by
  cases h with
  | stop => simp
  | hop hn rest => rw [checkText_reference_eq_accepted, Scope.exists_follow_iff (.hop hn rest)]

theorem checkText_element {shape : Shape Pattern} :
    (element shape).checkText text s ≠ .accepted := by
  rw [Ne, checkText_eq_accepted]
  rintro ⟨v, hr, -⟩
  rw [read] at hr
  cases hr

end Pattern

/-- A place admits what another one does of the same name and number, if its content does. -/
theorem Scope.placeCheck_admits {s t : Scope} {place place' : Slot Pattern} {R : Value → Value → Prop}
    (ho : place.occurs = place'.occurs) (hname : place.name = place'.name)
    (hR : ∀ v w, R v w → v = w ∨ v.same w = true)
    (hcheck : ∀ v w, R v w → place.content.check v s = .accepted → place'.content.check w t = .accepted)
    (htext : ∀ text, place.content.checkText text s = .accepted →
      place'.content.checkText text t = .accepted) :
    Slot.Admits R (s.placeCheck place) (t.placeCheck place') := by
  refine ⟨ho, hname, fun v w hvw h => ?_⟩
  simp only [placeCheck] at h ⊢
  cases hn : place.name with
  | some name =>
    rw [hn, checkChild_some] at h
    rw [← hname, hn]
    exact checkChild_some.mpr (hcheck v w hvw h)
  | none =>
    rw [hn] at h
    rw [← hname, hn]
    obtain rfl | hsame := hR v w hvw
    · cases v with
      | text x => exact htext x h
      | node n => simp [checkChild, Verdict.mismatch, Verdict.reject] at h
      | _ => exact hcheck _ _ hvw h
    · cases v with
      | text x =>
        cases w <;> simp only [Value.same, Bool.false_eq_true, beq_iff_eq] at hsame
        exact hsame ▸ htext x h
      | node n => simp [checkChild, Verdict.mismatch, Verdict.reject] at h
      | _ =>
        cases w <;> simp only [Value.same, Bool.false_eq_true] at hsame
        exact hcheck _ _ hvw h

/-- What belongs in the place of the first pattern in the one scope belongs in the place of the second in
the other. -/
def Scope.Serves (s t : Scope) (p q : Pattern) : Prop :=
  ∀ place, s.slot p = .ok place →
    ∃ place', t.slot q = .ok place' ∧ Slot.Admits Eq (s.placeCheck place) (t.placeCheck place')

theorem Scope.Within.serves {s t : Scope} (h : s.Within t) {p : Pattern}
    (hcheck : ∀ v, p.single.check v s = .accepted → p.single.check v t = .accepted)
    (htext : ∀ text, p.single.checkText text s = .accepted → p.single.checkText text t = .accepted) :
    s.Serves t p p := by
  intro place hplace
  refine ⟨place, h.slot hplace, ?_⟩
  rw [← Scope.content_slot hplace] at hcheck htext
  exact Scope.placeCheck_admits rfl rfl (fun v w => Or.inl) (by rintro v _ rfl; exact hcheck v) htext

theorem Scope.exists_places_of_serves {s t : Scope} {ps qs : List Pattern} {places : List (Slot Pattern)}
    (h : List.Forall₂ (s.Serves t) ps qs)
    (hplaces : List.Forall₂ (fun child place => s.slot child = .ok place) ps places) :
    ∃ places', List.Forall₂ (fun child place => t.slot child = .ok place) qs places' ∧
      List.Forall₂ (fun place place' => Slot.Admits Eq (s.placeCheck place) (t.placeCheck place'))
        places places' := by
  induction h generalizing places with
  | nil =>
    cases hplaces
    exact ⟨[], .nil, .nil⟩
  | cons hserves _ ih =>
    cases hplaces with
    | cons hplace hrest =>
      obtain ⟨place', hplace', hadmit⟩ := hserves _ hplace
      obtain ⟨places', hplaces', hadmits⟩ := ih hrest
      exact ⟨place' :: places', .cons hplace' hplaces', .cons hadmit hadmits⟩

theorem Scope.Within.policyFor {s t : Scope} (h : s.Within t) (isOpen : Bool)
    (ht : t.policyFor isOpen = .strict) : s.policyFor isOpen = .strict := by
  cases isOpen with
  | true => cases ht
  | false =>
    obtain hp | hp := h.policy
    · simpa [Scope.policyFor, hp] using ht
    · simp [Scope.policyFor, hp] at ht

theorem Pattern.checkText_of_read {s t : Scope} {p q : Pattern} {text : String}
    (hread : ∀ v, p.read text s = .ok v → q.read text t = .ok v)
    (hcheck : ∀ v, p.check v s = .accepted → q.check v t = .accepted)
    (h : p.checkText text s = .accepted) : q.checkText text t = .accepted := by
  obtain ⟨v, hv, hc⟩ := checkText_eq_accepted.mp h
  exact checkText_eq_accepted.mpr ⟨v, hread v hv, hcheck v hc⟩

theorem Pattern.checkText_of_read_eq {s t : Scope} {p : Pattern} {text : String}
    (hread : p.read text t = p.read text s)
    (hcheck : ∀ v, p.check v s = .accepted → p.check v t = .accepted)
    (h : p.checkText text s = .accepted) : p.checkText text t = .accepted :=
  checkText_of_read (fun _ hv => hread.trans hv) hcheck h

theorem Scope.Within.keys {s t : Scope} (h : s.Within t) (isOpen : Bool)
    {declared present : List String} {mark : String}
    (hk : keyMismatch? declared present (s.policyFor isOpen) mark = none) :
    keyMismatch? declared present (t.policyFor isOpen) mark = none := by
  obtain ⟨hrequired, hstrict⟩ := keyMismatch?_eq_none_iff.mp hk
  exact keyMismatch?_eq_none_iff.mpr ⟨hrequired, fun ht => hstrict (h.policyFor isOpen ht)⟩

namespace Shape

variable {full : Shape Pattern} {s t : Scope}

theorem AllowsAttributes.mono {attributes : Entries String} (h : s.Within t)
    (hparts : ∀ entry ∈ full.attributes, ∀ text, entry.2.checkText text s.withEmpty = .accepted →
      entry.2.checkText text t.withEmpty = .accepted)
    (ha : full.AllowsAttributes attributes s) : full.AllowsAttributes attributes t :=
  ⟨h.keys false ha.names, fun entry he text ht =>
    hparts entry (List.mem_of_mem_filter he) text (ha.texts entry he text ht)⟩

/-- Children fit the places of an element if they fit those that these serve for. -/
theorem AllowsChildren.serves {full' : Shape Pattern} {children : List Value}
    (h : List.Forall₂ (s.Serves t) full.children full'.children)
    (hc : full.AllowsChildren children s) : full'.AllowsChildren children t := by
  obtain ⟨places, hplaces, hslots⟩ := hc
  obtain ⟨places', hplaces', hadmits⟩ := Scope.exists_places_of_serves h hplaces
  refine ⟨places', hplaces', ?_⟩
  apply Slot.Admits.checkSlots (R := Eq) _ rfl _ (List.forall₂_refl _) hslots
  · rintro v w rfl slot
    rfl
  · rwa [List.forall₂_map_left_iff, List.forall₂_map_right_iff]

theorem AllowsChildren.mono {children : List Value} (h : s.Within t)
    (hparts : ∀ child ∈ full.children,
      (∀ v, child.single.check v s = .accepted → child.single.check v t = .accepted) ∧
        ∀ text, child.single.checkText text s = .accepted → child.single.checkText text t = .accepted)
    (hc : full.AllowsChildren children s) : full.AllowsChildren children t :=
  hc.serves (List.forall₂_same.mpr fun child hmem => h.serves (hparts child hmem).1 (hparts child hmem).2)

end Shape

theorem Scope.Within.checks {s t : Scope} (h : s.Within t) (p : Pattern) :
    (∀ v, p.check v s = .accepted → p.check v t = .accepted) ∧
      ∀ text, p.checkText text s = .accepted → p.checkText text t = .accepted := by
  induction p, s using scopeInduction generalizing t with
  | literal e s =>
    have hcheck : ∀ v, (literal e).check v s = .accepted → (literal e).check v t = .accepted :=
      fun v hv => by rwa [check_literal] at hv ⊢
    exact ⟨hcheck, fun text => checkText_of_read_eq (by rw [Pattern.read, Pattern.read]) hcheck⟩
  | scalar kind s =>
    have hcheck : ∀ v, (scalar kind).check v s = .accepted → (scalar kind).check v t = .accepted :=
      fun v hv => check_scalar_eq_accepted.mpr (check_scalar_eq_accepted.mp hv)
    exact ⟨hcheck, fun text => checkText_of_read_eq (by rw [Pattern.read, Pattern.read]) hcheck⟩
  | record fields isOpen s ih =>
    have hcheck : ∀ v, (record fields isOpen).check v s = .accepted →
        (record fields isOpen).check v t = .accepted := by
      intro v hv
      obtain ⟨parts, rfl, hkeys, hparts⟩ := check_record_eq_accepted.mp hv
      refine check_record_eq_accepted.mpr ⟨parts, rfl, h.keys isOpen hkeys, fun field hf part hpart => ?_⟩
      exact (ih field hf h.withEmpty).1 part (hparts field hf part hpart)
    exact ⟨hcheck, fun text => checkText_of_read_eq (by rw [Pattern.read, Pattern.read]) hcheck⟩
  | element shape s ih =>
    refine ⟨fun v hv => ?_, fun text ht => absurd ht checkText_element⟩
    obtain ⟨n, full, inner, rfl, hn, hr, hattributes, hchildren⟩ := check_element_eq_accepted.mp hv
    obtain ⟨inner', hr', hw⟩ := h.resolveType hr
    obtain ⟨ihAttributes, ihChildren⟩ := ih full inner hr
    refine check_element_eq_accepted.mpr ⟨n, full, inner', rfl, hn, hr', ?_, ?_⟩
    · exact hattributes.mono hw fun entry he => (ihAttributes entry he hw.withEmpty).2
    · exact hchildren.mono hw.withEmpty fun child hc => ihChildren child hc hw.withEmpty
  | union ps s ih =>
    constructor
    · intro v hv
      obtain ⟨q, hq, hc⟩ := check_union_eq_accepted.mp hv
      exact check_union_eq_accepted.mpr ⟨q, hq, (ih q hq h.withEmpty).1 v hc⟩
    · intro text ht
      obtain ⟨q, hq, hc⟩ := checkText_union_eq_accepted.mp ht
      exact checkText_union_eq_accepted.mpr ⟨q, hq, (ih q hq h.withEmpty).2 text hc⟩
  | reference token s ih =>
    constructor
    · intro v hv
      obtain ⟨q, inner, hf, hc⟩ := check_reference_eq_accepted.mp hv
      obtain ⟨inner', hf', hw⟩ := h.follow hf
      exact check_reference_eq_accepted.mpr ⟨q, inner', hf', (ih q inner hf hw).1 v hc⟩
    · intro text ht
      obtain ⟨q, inner, hf, hc⟩ := checkText_reference_eq_accepted.mp ht
      obtain ⟨inner', hf', hw⟩ := h.follow hf
      exact checkText_reference_eq_accepted.mpr ⟨q, inner', hf', (ih q inner hf hw).2 text hc⟩
  | list item s ih =>
    have hcheck : ∀ v, (list item).check v s = .accepted → (list item).check v t = .accepted := by
      intro v hv
      obtain ⟨items, rfl, hitems⟩ := check_list_eq_accepted.mp hv
      exact check_list_eq_accepted.mpr ⟨items, rfl, fun w hw => (ih h).1 w (hitems w hw)⟩
    exact ⟨hcheck, fun text => checkText_of_read_eq (by rw [Pattern.read, Pattern.read]) hcheck⟩

/-- A looser scope accepts every value that a scope accepts. -/
theorem Scope.Within.check {s t : Scope} (h : s.Within t) {p : Pattern} {v : Value}
    (hv : p.check v s = .accepted) : p.check v t = .accepted :=
  (h.checks p).1 v hv

/-- A looser scope accepts every text that a scope accepts. -/
theorem Scope.Within.checkText {s t : Scope} (h : s.Within t) {p : Pattern} {text : String}
    (ht : p.checkText text s = .accepted) : p.checkText text t = .accepted :=
  (h.checks p).2 text ht

end PayloadContracts
