import PayloadContracts.Proofs.Parts
import PayloadContracts.Proofs.Scopes

/-!
The type that an element names brings attributes and children along, and perhaps a type of its own.
Main statement: `Scope.resolveType_eq_ok_iff`.
-/

namespace PayloadContracts

open Pattern

namespace Shape

variable {α : Type}

/-- The element with the attributes, children and type of another one. -/
def merge (shape other : Shape α) : Shape α :=
  { shape with
    attributes := Entries.extend shape.attributes other.attributes
    children := other.children
    typeRef := other.typeRef }

/-- The element with some content and no type. -/
def holding (shape : Shape α) (content : α) : Shape α :=
  { shape with children := [content], typeRef := none }

end Shape

namespace Scope

variable {s t inner : Scope} {shape other full full' : Shape Pattern} {trail trail' : List String}
  {name : String} {q : Pattern}

/-- Going through the names leads from an element to the element with all that its types bring. -/
inductive Resolves (s : Scope) : Shape Pattern → List String → Shape Pattern → Prop
  | plain {shape : Shape Pattern} (hn : shape.typeRef = none) : Resolves s shape [] shape
  | element {shape other full : Shape Pattern} {name : String} {trail more : List String}
      (hn : shape.typeRef = some name)
      (hl : s.Leads (.reference (typeToken name)) trail (.element other))
      (rest : Resolves s (shape.merge other) more full) : Resolves s shape (trail ++ more) full
  | content {shape : Shape Pattern} {name : String} {trail : List String} {content : Pattern}
      (hn : shape.typeRef = some name)
      (hl : s.Leads (.reference (typeToken name)) trail content)
      (hc : ∀ other, content ≠ .element other) : Resolves s shape trail (shape.holding content)

namespace Resolves

theorem mono (h : s.Resolves shape trail full)
    (hl : ∀ name next, s.lookup name = .ok next → t.lookup name = .ok next) :
    t.Resolves shape trail full := by
  induction h with
  | plain hn => exact .plain hn
  | element hn h _ ih => exact .element hn (h.mono hl) ih
  | content hn h hc => exact .content hn (h.mono hl) hc

theorem unique (h : s.Resolves shape trail full) (h' : s.Resolves shape trail' full') :
    trail = trail' ∧ full = full' := by
  induction h generalizing trail' with
  | plain hn =>
    cases h' with
    | plain => exact ⟨rfl, rfl⟩
    | element hn' => simp [hn] at hn'
    | content hn' => simp [hn] at hn'
  | element hn hl _ ih =>
    cases h' with
    | plain hn' => simp [hn] at hn'
    | element hn' hl' rest =>
      cases hn.symm.trans hn'
      obtain ⟨rfl, hq⟩ := hl.unique hl'
      cases hq
      obtain ⟨rfl, rfl⟩ := ih rest
      exact ⟨rfl, rfl⟩
    | content hn' hl' hc =>
      cases hn.symm.trans hn'
      exact absurd (hl.unique hl').2.symm (hc _)
  | content hn hl hc =>
    cases h' with
    | plain hn' => simp [hn] at hn'
    | element hn' hl' =>
      cases hn.symm.trans hn'
      exact absurd (hl.unique hl').2 (hc _)
    | content hn' hl' =>
      cases hn.symm.trans hn'
      obtain ⟨rfl, rfl⟩ := hl.unique hl'
      exact ⟨rfl, rfl⟩

theorem withOccurs (h : s.Resolves shape trail full) (occurs : Occurs) :
    s.Resolves { shape with occurs } trail { full with occurs } := by
  induction h with
  | plain hn => exact .plain hn
  | element hn hl _ ih => exact .element hn hl ih
  | content hn hl hc => exact .content hn hl hc

theorem distinct (h : s.Resolves shape trail full) (hd : Entries.Distinct shape.attributes) :
    Entries.Distinct full.attributes := by
  induction h with
  | plain | content => exact hd
  | @element shape other _ _ _ _ _ _ _ ih => exact ih (hd.extend other.attributes)

/-- An element without a type is complete. -/
theorem eq_of_typeRef (h : s.Resolves shape trail full) (hn : shape.typeRef = none) :
    full = shape := by
  cases h with
  | plain => rfl
  | element hn' => simp [hn] at hn'
  | content hn' => simp [hn] at hn'

/-- The children are those of the type, whatever element names it. -/
theorem children_eq (h : s.Resolves shape trail full) (h' : s.Resolves other trail' full')
    (hn : shape.typeRef = some name) (hn' : other.typeRef = some name) :
    full.children = full'.children := by
  induction h generalizing other trail' full' name with
  | plain hnone => simp [hn] at hnone
  | @element shape type full _ _ _ hs hl rest ih =>
    cases hn.symm.trans hs
    cases h' with
    | plain hnone => simp [hn'] at hnone
    | element ho hl' rest' =>
      cases hn'.symm.trans ho
      cases (hl.unique hl').2
      -- The type may have a type in its turn, or be the last one.
      cases htype : type.typeRef with
      | none => rw [rest.eq_of_typeRef htype, rest'.eq_of_typeRef htype]; rfl
      | some name => exact ih rest' htype htype
    | content ho hl' hc =>
      cases hn'.symm.trans ho
      exact absurd (hl.unique hl').2.symm (hc _)
  | content hs hl hc =>
    cases hn.symm.trans hs
    cases h' with
    | plain hnone => simp [hn'] at hnone
    | element ho hl' =>
      cases hn'.symm.trans ho
      exact absurd (hl.unique hl').2 (hc _)
    | content ho hl' =>
      cases hn'.symm.trans ho
      cases (hl.unique hl').2
      rfl

end Resolves

theorem resolves_below {names : List String} :
    (s.below names).Resolves shape trail full ↔ s.Resolves shape trail full :=
  ⟨fun h => h.mono fun _ _ hl => hl, fun h => h.mono fun _ _ hl => hl⟩

theorem Resolves.resolveType (h : s.Resolves shape trail full) (names : List String)
    (hroom : trail.length ≤ (s.below names).headroom) :
    (s.below names).resolveType shape = .ok (full, s.below (names ++ trail)) := by
  induction h generalizing names with
  | plain hn => rw [Scope.resolveType, hn, List.append_nil]
  | @element _ _ _ _ trail more hn hl _ ih =>
    rw [List.length_append] at hroom
    have hf := follow_of_leads (leads_below.mpr hl) (Nat.le_of_add_right_le hroom)
    have hmore : more.length ≤ (s.below (names ++ trail)).headroom := by
      rw [← below_below, headroom_below]
      omega
    rw [resolveType_element hn hf, below_below, ← List.append_assoc]
    exact ih (names ++ trail) hmore
  | content hn hl hc =>
    have hf := follow_of_leads (leads_below.mpr hl) hroom
    rw [resolveType_content hn hf fun other ho => hc other ho, below_below]
    rfl

theorem resolveType_eq_ok_iff :
    s.resolveType shape = .ok (full, inner) ↔
      ∃ trail, s.Resolves shape trail full ∧ trail.length ≤ s.headroom ∧ inner = s.below trail := by
  constructor
  · intro h
    fun_induction Scope.resolveType s shape with
    | case1 s shape hn =>
      cases h
      exact ⟨[], .plain hn, Nat.zero_le _, (below_nil _).symm⟩
    | case2 => cases h
    | case3 s shape name hn other next hf ih =>
      obtain ⟨trail, hl, -, hroom, rfl⟩ := follow_eq_ok_iff.mp hf
      obtain ⟨more, hrest, hmore, rfl⟩ := ih h
      rw [headroom_below] at hmore
      refine ⟨trail ++ more, .element hn hl (resolves_below.mp hrest), ?_, below_below s trail more⟩
      rw [List.length_append]
      omega
    | case4 s shape name hn content next hne hf =>
      cases h
      obtain ⟨trail, hl, -, hroom, rfl⟩ := follow_eq_ok_iff.mp hf
      exact ⟨trail, .content hn hl fun other ho => hne other ho, hroom, rfl⟩
  · rintro ⟨trail, h, hroom, rfl⟩
    have hr := h.resolveType [] (by rwa [below_nil])
    rwa [below_nil, List.nil_append] at hr

end Scope

namespace Pattern

variable {holds : Pattern → Prop} {s : Scope} {shape full : Shape Pattern} {trail : List String}

theorem every_single {p : Pattern} (h : p.Every holds) : p.single.Every holds := by
  cases p with
  | list item => exact (every_list.mp h).2
  | _ => exact h

/-- What types bring is as all that the scope defines. -/
theorem Every.resolves (hp : (element shape).Every holds) (hs : s.Every holds) (hh : Spelled holds)
    (h : s.Resolves shape trail full) :
    (∀ entry ∈ full.attributes, entry.2.Every holds) ∧ ∀ child ∈ full.children, child.Every holds := by
  have hparts := (every_element.mp hp).2
  clear hp
  induction h with
  | plain => exact hparts
  | element hn hl _ ih =>
    have hother := (every_element.mp (hs.leads hh (every_reference.mpr (hh.reference _)) hl)).2
    refine ih ⟨fun entry he => ?_, hother.2⟩
    exact (Entries.mem_of_mem_extend he).elim (hparts.1 entry) (hother.1 entry)
  | content hn hl =>
    refine ⟨hparts.1, fun child hc => ?_⟩
    obtain rfl := List.mem_singleton.mp hc
    exact hs.leads hh (every_reference.mpr (hh.reference _)) hl

end Pattern

end PayloadContracts
