import PayloadContracts.Matching.Check
import PayloadContracts.Proofs.Tables
import Mathlib.Data.List.TakeWhile

/-!
When the checks of parts together accept.
-/

namespace PayloadContracts

variable {α β : Type}

theorem locate_eq_ok_iff {crumb : Crumb} {r : Except ContractError α} {x : α} :
    locate crumb r = .ok x ↔ r = .ok x := by
  cases r <;> simp [locate, Except.mapError]

theorem exceptMap_eq_ok_iff {f : α → β} {r : Except ContractError α} {y : β} :
    r.map f = .ok y ↔ ∃ x, r = .ok x ∧ f x = y := by
  cases r <;> simp [Except.map]

theorem collect_eq_ok_iff {rs : List (Unit → Except ContractError α)} {xs : List α} :
    collect rs = .ok xs ↔ List.Forall₂ (fun r x => r () = .ok x) rs xs := by
  induction rs generalizing xs with
  | nil => cases xs <;> simp [collect]
  | cons r rs ih =>
    rw [collect]
    cases hr : r () with
    | error e => cases xs <;> simp [hr]
    | ok x =>
      cases hrs : collect rs with
      | error e =>
        cases xs with
        | nil => simp
        | cons y ys => simp [← ih, hrs]
      | ok ys => cases xs <;> simp [← ih, hrs, hr]

/-- Where each result is there, all of them are. -/
theorem exists_collect {f : α → Except ContractError β} {xs : List α}
    (h : ∀ x ∈ xs, ∃ y, f x = .ok y) : ∃ ys, collect (xs.map fun x _ => f x) = .ok ys := by
  induction xs with
  | nil => exact ⟨[], rfl⟩
  | cons x xs ih =>
    obtain ⟨y, hy⟩ := h x List.mem_cons_self
    obtain ⟨ys, hys⟩ := ih fun z hz => h z (List.mem_cons_of_mem x hz)
    exact ⟨y :: ys, by simp [collect, hy, hys]⟩

theorem forall₂_map_eq_ok {γ ε : Type} {f : α → Except ε β} {g : β → γ} {xs : List α}
    {zs : List γ} :
    List.Forall₂ (fun x z => (f x).map g = .ok z) xs zs ↔
      ∃ ys, List.Forall₂ (fun x y => f x = .ok y) xs ys ∧ zs = ys.map g := by
  induction xs generalizing zs with
  | nil => simp
  | cons x xs ih =>
    rw [List.forall₂_cons_left_iff]
    constructor
    · rintro ⟨z, zs, hz, hzs, rfl⟩
      obtain ⟨ys, hys, rfl⟩ := ih.mp hzs
      cases hy : f x with
      | error e => rw [hy] at hz; cases hz
      | ok y =>
        rw [hy] at hz
        cases hz
        exact ⟨y :: ys, .cons hy hys, rfl⟩
    · rintro ⟨ys, hys, rfl⟩
      cases hys with
      | cons hy hys => exact ⟨_, _, by rw [hy]; rfl, ih.mpr ⟨_, hys, rfl⟩, rfl⟩

theorem contentAttributes_map (f : String × α → β) (attributes : Entries α) :
    contentAttributes (attributes.map fun entry => (entry.1, f entry)) =
      (contentAttributes attributes).map fun entry => (entry.1, f entry) := by
  simp only [contentAttributes, List.filter_map]
  rfl

theorem keyMismatch?_eq_none_iff {declared present : List String} {policy : KeyPolicy}
    {mark : String} :
    keyMismatch? declared present policy mark = none ↔
      (∀ name ∈ declared, isOptional name mark = false → name ∈ present) ∧
        (policy = .strict → ∀ name ∈ present, name ∈ declared ∨ name ++ mark ∈ declared) := by
  have hmissing : (declared.find? fun name => !isOptional name mark && !(present.contains name)) =
      none ↔ ∀ name ∈ declared, isOptional name mark = false → name ∈ present := by
    simp [List.find?_eq_none]
  have hunexpected : (present.find? fun name =>
      !(declared.contains name) && !(declared.contains (name ++ mark))) = none ↔
      ∀ name ∈ present, name ∈ declared ∨ name ++ mark ∈ declared := by
    simp only [List.find?_eq_none, Bool.and_eq_true, Bool.not_eq_eq_eq_not, Bool.not_true,
      List.contains_eq_mem, decide_eq_false_iff_not, not_and_or, not_not]
  rw [← hmissing, ← hunexpected]
  unfold keyMismatch?
  cases declared.find? fun name => !isOptional name mark && !(present.contains name) with
  | some name => simp
  | none => cases policy <;> simp

theorem checkFields_eq_accepted {kind : KeyKind} {fields : Entries (α → Verdict)}
    {parts : Entries α} :
    checkFields kind fields parts = .accepted ↔
      ∀ field ∈ fields, ∀ part, Entries.get? parts (kind.canonical field.1) = some part →
        field.2 part = .accepted := by
  induction fields with
  | nil => simp [checkFields]
  | cons field fields ih =>
    rw [checkFields, List.forall_mem_cons, ← ih]
    cases Entries.get? parts (kind.canonical field.1) <;> simp

theorem checkKeys_eq_accepted {kind : KeyKind} {policy : KeyPolicy}
    {fields : Entries (α → Verdict)} {parts : Entries α} :
    checkKeys kind policy fields parts = .accepted ↔
      keyMismatch? fields.names parts.names policy kind.mark = none ∧
        ∀ field ∈ fields, ∀ part, Entries.get? parts (kind.canonical field.1) = some part →
          field.2 part = .accepted := by
  rw [checkKeys, ← checkFields_eq_accepted]
  cases keyMismatch? fields.names parts.names policy kind.mark with
  | none => simp
  | some mismatch => cases mismatch <;> simp [Verdict.reject]

theorem checkAll_eq_accepted {check : α → Verdict} {xs : List α} :
    checkAll check xs = .accepted ↔ ∀ x ∈ xs, check x = .accepted := by
  induction xs with
  | nil => simp [checkAll]
  | cons x xs ih => simp [checkAll, ih]

theorem checkItems_eq_accepted {check : Value → Verdict} {index : Nat} {items : List Value} :
    checkItems check index items = .accepted ↔ ∀ item ∈ items, check item = .accepted := by
  induction items generalizing index with
  | nil => simp [checkItems]
  | cons item items ih => simp [checkItems, ih]

theorem checkUnion_eq_accepted {v : Value} {last : Failure} {checks : List (Value → Verdict)} :
    checkUnion v (.rejected last) checks = .accepted ↔ ∃ check ∈ checks, check v = .accepted := by
  induction checks generalizing last with
  | nil => simp [checkUnion]
  | cons check checks ih =>
    rw [checkUnion, List.exists_mem_cons_iff]
    cases h : check v with
    | accepted => simp
    | rejected f => simp [ih]

section Slots

variable {slot : Slot (Value → Verdict)} {slots : List (Slot (Value → Verdict))} {v : Value}
  {vs : List Value}

theorem checkSlots_nil_eq_accepted : checkSlots [] vs = .accepted ↔ vs = [] := by
  cases vs with
  | nil => simp [checkSlots]
  | cons v vs => cases v <;> simp [checkSlots, Verdict.reject]

theorem checkSlots_required_cons (h : slot.occurs = .required) :
    checkSlots (slot :: slots) (v :: vs) = .accepted ↔
      slot.content v = .accepted ∧ checkSlots slots vs = .accepted := by
  simp [checkSlots, h]

theorem checkSlots_required_nil (h : slot.occurs = .required) :
    checkSlots (slot :: slots) [] = .accepted ↔
      slot.isText = true ∧ slot.content (.text "") = .accepted ∧ checkSlots slots [] = .accepted := by
  cases hn : slot.name <;>
    simp [checkSlots, h, Slot.isText, hn, Slot.under, Verdict.reject]

theorem checkSlots_run (h : slot.occurs ≠ .required) :
    checkSlots (slot :: slots) vs = .accepted ↔
      checkAll slot.content (vs.take (slot.share slots (vs.takeWhile slot.accepts).length)) =
          .accepted ∧
        checkSlots slots (vs.drop (slot.share slots (vs.takeWhile slot.accepts).length)) =
          .accepted := by
  rw [checkSlots.eq_def]
  simp [h]

/-- The last place takes any number of children if it takes many. -/
theorem checkSlots_multiple (h : slot.occurs = .multiple) :
    checkSlots [slot] vs = .accepted ↔ ∀ v ∈ vs, slot.accepts v = true ∧ slot.content v = .accepted := by
  have hshare : ∀ run, slot.share ([] : List (Slot (Value → Verdict))) run = run := fun run => by
    simp [Slot.share, Slot.reserved, h]
  rw [checkSlots_run (by simp [h]), hshare, checkSlots_nil_eq_accepted, checkAll_eq_accepted,
    List.drop_eq_nil_iff]
  constructor
  · rintro ⟨hall, hlength⟩ v hv
    have hwhole : vs.takeWhile slot.accepts = vs := (List.takeWhile_prefix _).eq_of_length_le hlength
    rw [hwhole, List.take_length] at hall
    rw [← hwhole] at hv
    exact ⟨List.mem_takeWhile_imp hv, hall v (hwhole ▸ hv)⟩
  · intro hall
    have hwhole : vs.takeWhile slot.accepts = vs := List.takeWhile_eq_self_iff.mpr fun v hv => (hall v hv).1
    rw [hwhole, List.take_length]
    exact ⟨fun v hv => (hall v hv).2, Nat.le_refl _⟩

end Slots

theorem checkChild_some {name expected : String} {checkText : String → Verdict}
    {check : Value → Verdict} {v : Value} :
    checkChild (some name) expected checkText check v = .accepted ↔ check v = .accepted := by
  simp [checkChild]

/-- Two places for the same children, of which the second lets through whatever replaces a child
that the first lets through. -/
structure Slot.Admits (R : Value → Value → Prop) (a b : Slot (Value → Verdict)) : Prop where
  occurs : a.occurs = b.occurs
  name : a.name = b.name
  content : ∀ v w, R v w → a.content v = .accepted → b.content w = .accepted

namespace Slot.Admits

variable {R : Value → Value → Prop} {a b : Slot (Value → Verdict)}
  {as bs : List (Slot (Value → Verdict))} {vs ws : List Value}

theorem isText (h : a.Admits R b) : a.isText = b.isText := by
  rw [Slot.isText, Slot.isText, h.name]

theorem accepts (h : a.Admits R b) (v : Value) : a.accepts v = b.accepts v := by
  unfold Slot.accepts
  rw [h.name]

theorem reserved (h : List.Forall₂ (Slot.Admits R) as bs) (name : Option String) :
    Slot.reserved name as = Slot.reserved name bs := by
  induction h with
  | nil => rfl
  | cons hab _ ih =>
    simp only [Slot.reserved, List.takeWhile_cons, hab.name] at ih ⊢
    split
    · simp only [List.filter_cons, hab.occurs]
      split <;> simp [ih]
    · rfl

theorem share (h : a.Admits R b) (hs : List.Forall₂ (Slot.Admits R) as bs) (run : Nat) :
    a.share as run = b.share bs run := by
  rw [Slot.share, Slot.share, h.name, h.occurs, reserved hs]

theorem checkAll (h : a.Admits R b) (hv : List.Forall₂ R vs ws)
    (hc : PayloadContracts.checkAll a.content vs = .accepted) :
    PayloadContracts.checkAll b.content ws = .accepted := by
  induction hv with
  | nil => rfl
  | cons hvw _ ih =>
    simp only [PayloadContracts.checkAll, Verdict.andThen_eq_accepted] at hc ⊢
    exact ⟨h.content _ _ hvw hc.1, ih hc.2⟩

theorem run (hR : ∀ v w, R v w → ∀ slot : Slot (Value → Verdict), slot.accepts v = slot.accepts w)
    (h : a.Admits R b) (hv : List.Forall₂ R vs ws) :
    (vs.takeWhile a.accepts).length = (ws.takeWhile b.accepts).length := by
  induction hv with
  | nil => rfl
  | cons hvw _ ih =>
    simp only [List.takeWhile_cons, h.accepts, hR _ _ hvw b]
    split
    · simpa using ih
    · rfl

/-- Children that fit places fit places that admit as much, also once replaced. -/
theorem checkSlots
    (hR : ∀ v w, R v w → ∀ slot : Slot (Value → Verdict), slot.accepts v = slot.accepts w)
    (htext : R (.text "") (.text "")) (hs : List.Forall₂ (Slot.Admits R) as bs)
    (hv : List.Forall₂ R vs ws) (hc : PayloadContracts.checkSlots as vs = .accepted) :
    PayloadContracts.checkSlots bs ws = .accepted := by
  induction hs generalizing vs ws with
  | nil =>
    cases hv with
    | nil => rfl
    | cons => cases checkSlots_nil_eq_accepted.mp hc
  | @cons a b as bs hab hs ih =>
    by_cases ha : a.occurs = .required
    · have hb : b.occurs = .required := hab.occurs ▸ ha
      cases hv with
      | nil =>
        obtain ⟨ht, hcontent, hrest⟩ := (checkSlots_required_nil ha).mp hc
        exact (checkSlots_required_nil hb).mpr
          ⟨hab.isText ▸ ht, hab.content _ _ htext hcontent, ih .nil hrest⟩
      | cons hvw hv =>
        obtain ⟨hcontent, hrest⟩ := (checkSlots_required_cons ha).mp hc
        exact (checkSlots_required_cons hb).mpr ⟨hab.content _ _ hvw hcontent, ih hv hrest⟩
    · have hb : b.occurs ≠ .required := hab.occurs ▸ ha
      obtain ⟨hall, hrest⟩ := (checkSlots_run ha).mp hc
      apply (checkSlots_run hb).mpr
      rw [← run hR hab hv, ← share hab hs]
      exact ⟨checkAll hab (List.forall₂_take _ hv) hall, ih (List.forall₂_drop _ hv) hrest⟩

end Slot.Admits

end PayloadContracts
