import PayloadContracts.Proofs.Aliases
import PayloadContracts.Proofs.Chain
import PayloadContracts.Proofs.Marks
import PayloadContracts.Proofs.Parts

/-!
A failed check of JSON points at a place in the value. Main statement: `Pattern.pointsInto_of_check`.
-/

namespace PayloadContracts

namespace Value

/-- The part of an object under a name, or of a list at an index. -/
def part? : Value → Crumb → Option Value
  | object fields, .key name => Entries.get? fields name
  | list items, .index i => items[i]?
  | _, _ => none

/-- The part that a way of steps leads to. -/
def at? (v : Value) : List Crumb → Option Value
  | [] => some v
  | crumb :: way => (v.part? crumb).bind fun w => w.at? way

theorem at?_cons {v w : Value} {crumb : Crumb} (h : v.part? crumb = some w) (way : List Crumb) :
    v.at? (crumb :: way) = w.at? way := by
  rw [at?, h]
  rfl

/-- The way ends with a name below an object, which may have the name or not. -/
def EndsBelowObject (v : Value) (way : List Crumb) (holds : String → Entries Value → Prop) : Prop :=
  ∃ front name fields, way = front ++ [.key name] ∧ v.at? front = some (.object fields) ∧
    holds name fields

theorem EndsBelowObject.cons {v w : Value} {crumb : Crumb} {way : List Crumb}
    {holds : String → Entries Value → Prop} (hw : v.part? crumb = some w)
    (h : w.EndsBelowObject way holds) : v.EndsBelowObject (crumb :: way) holds := by
  obtain ⟨front, name, fields, rfl, hfront, hholds⟩ := h
  exact ⟨crumb :: front, name, fields, rfl, (at?_cons hw front).trans hfront, hholds⟩

end Value

/-- The breadcrumb of the failure is a way into the value. It ends at the part that the message shows
for a mismatch, at a name that an object does not have if it is missing, and at one that it has if it is
unexpected. -/
structure Failure.PointsInto (f : Failure) (v : Value) : Prop where
  reached : f.kind ≠ .missingKey → ∃ w, v.at? f.breadcrumb = some w
  missing : f.kind = .missingKey →
    v.EndsBelowObject f.breadcrumb fun name fields => name ∉ Entries.names fields
  unexpected : f.kind = .unexpectedKey →
    v.EndsBelowObject f.breadcrumb fun name fields => name ∈ Entries.names fields
  mismatched : f.kind = .mismatch → ∃ w expected, v.at? f.breadcrumb = some w ∧
    f.message = expected ++ "actual was " ++ w.typeName ++ " " ++ w.quoted

namespace Verdict

/-- Accepted, or a failure somewhere in the value. -/
def PointsInto (verdict : Verdict) (v : Value) : Prop :=
  ∀ f, verdict = .rejected f → f.PointsInto v

variable {verdict : Verdict} {v w : Value}

theorem pointsInto_accepted : accepted.PointsInto v := fun _ h => by cases h

theorem pointsInto_mismatch (expected : String) (v : Value) : (mismatch expected v).PointsInto v := by
  rintro f h
  cases h
  refine ⟨fun _ => ⟨v, rfl⟩, fun h => (by cases h), fun h => (by cases h), fun _ => ?_⟩
  exact ⟨v, "Expected " ++ expected ++ ", ", rfl, by simp [String.append_assoc]⟩

/-- What is wrong with a part is wrong one step deeper in the whole. -/
theorem PointsInto.under {crumb : Crumb} (h : verdict.PointsInto w) (hw : v.part? crumb = some w) :
    (verdict.under crumb).PointsInto v := by
  intro f hf
  cases verdict with
  | accepted => cases hf
  | rejected g =>
    cases hf
    have hg := h g rfl
    have hway := Value.at?_cons hw g.breadcrumb
    refine ⟨fun hk => ?_, fun hk => (hg.missing hk).cons hw, fun hk => (hg.unexpected hk).cons hw,
      fun hk => ?_⟩
    · obtain ⟨u, hu⟩ := hg.reached hk
      exact ⟨u, hway.trans hu⟩
    · obtain ⟨u, expected, hu, hmessage⟩ := hg.mismatched hk
      exact ⟨u, expected, hway.trans hu, hmessage⟩

theorem PointsInto.andThen {next : Unit → Verdict} (h : verdict.PointsInto v)
    (hnext : (next ()).PointsInto v) : (verdict.andThen next).PointsInto v := by
  cases verdict with
  | accepted => exact hnext
  | rejected => exact h

/-- A name that is missing, or not expected, in an object. -/
theorem pointsInto_key {kind : FailureKind} {message name : String} {fields : Entries Value}
    (h : kind = .missingKey ∧ name ∉ fields.names ∨ kind = .unexpectedKey ∧ name ∈ fields.names) :
    ((reject kind message).under (.key name)).PointsInto (.object fields) := by
  have hends : ∀ {holds : String → Entries Value → Prop}, holds name fields →
      (Value.object fields).EndsBelowObject [.key name] holds :=
    fun h => ⟨[], name, fields, rfl, rfl, h⟩
  intro f hf
  cases hf
  obtain ⟨rfl, hname⟩ | ⟨rfl, hname⟩ := h
  · exact ⟨fun hk => (hk rfl).elim, fun _ => hends hname, fun h => (by cases h), fun h => (by cases h)⟩
  · obtain ⟨w, hget⟩ := Entries.exists_get?_of_mem_names hname
    have hw : (Value.object fields).part? (.key name) = some w := hget
    exact ⟨fun _ => ⟨w, Value.at?_cons hw []⟩, fun h => (by cases h), fun _ => hends hname,
      fun h => (by cases h)⟩

end Verdict

open Verdict

theorem pointsInto_checkFields {fields : Entries (Value → Verdict)} {parts : Entries Value}
    (h : ∀ field ∈ fields, ∀ part, (field.2 part).PointsInto part) :
    (checkFields .field fields parts).PointsInto (.object parts) := by
  induction fields with
  | nil => exact pointsInto_accepted
  | cons field fields ih =>
    obtain ⟨hfield, hfields⟩ := List.forall_mem_cons.mp h
    rw [checkFields]
    cases hget : Entries.get? parts (KeyKind.field.canonical field.1) with
    | none => exact ih hfields
    | some part =>
      have hpart : (Value.object parts).part? (.key (KeyKind.field.canonical field.1)) = some part := hget
      exact ((hfield part).under hpart).andThen (ih hfields)

theorem mem_of_keyMismatch? {declared present : List String} {policy : KeyPolicy} {mark name : String} :
    (keyMismatch? declared present policy mark = some (.missing name) →
      isOptional name mark = false ∧ name ∉ present) ∧
    (keyMismatch? declared present policy mark = some (.unexpected name) → name ∈ present) := by
  unfold keyMismatch?
  cases hd : declared.find? fun name => !isOptional name mark && !(present.contains name) with
  | some first =>
    have hfirst := List.find?_some hd
    simp only [Bool.and_eq_true, Bool.not_eq_true', List.contains_eq_mem,
      decide_eq_false_iff_not] at hfirst
    refine ⟨fun h => ?_, fun h => (by cases h)⟩
    cases h
    exact hfirst
  | none =>
    cases policy with
    | permissive => exact ⟨fun h => (by cases h), fun h => (by cases h)⟩
    | strict =>
      refine ⟨fun h => ?_, fun h => ?_⟩ <;> obtain ⟨first, hp, hfirst⟩ := Option.map_eq_some_iff.mp h
      · cases hfirst
      · cases hfirst
        exact List.mem_of_find?_eq_some hp

theorem pointsInto_checkKeys {policy : KeyPolicy} {fields : Entries (Value → Verdict)}
    {parts : Entries Value} (h : ∀ field ∈ fields, ∀ part, (field.2 part).PointsInto part) :
    (checkKeys .field policy fields parts).PointsInto (.object parts) := by
  rw [checkKeys]
  split
  · rename_i name hm
    obtain ⟨ho, hname⟩ := mem_of_keyMismatch?.1 hm
    have hcanonical : KeyKind.field.canonical name = name := canonical_of_not_optional ho
    rw [hcanonical]
    exact pointsInto_key (.inl ⟨rfl, hname⟩)
  · rename_i name hm
    exact pointsInto_key (.inr ⟨rfl, mem_of_keyMismatch?.2 hm⟩)
  · exact pointsInto_checkFields h

theorem pointsInto_checkItems {check : Value → Verdict} (h : ∀ w, (check w).PointsInto w)
    (front items : List Value) :
    (checkItems check front.length items).PointsInto (.list (front ++ items)) := by
  induction items generalizing front with
  | nil => exact pointsInto_accepted
  | cons item items ih =>
    have hitem : (Value.list (front ++ item :: items)).part? (.index front.length) = some item := by
      simp [Value.part?]
    have hrest := ih (front ++ [item])
    rw [List.length_append, List.append_assoc] at hrest
    exact ((h item).under hitem).andThen hrest

theorem pointsInto_checkUnion {v : Value} {last : Verdict} {checks : List (Value → Verdict)}
    (hlast : last.PointsInto v) (h : ∀ check ∈ checks, (check v).PointsInto v) :
    (checkUnion v last checks).PointsInto v := by
  induction checks generalizing last with
  | nil => exact hlast
  | cons check checks ih =>
    obtain ⟨hcheck, hchecks⟩ := List.forall_mem_cons.mp h
    rw [checkUnion]
    split
    · exact pointsInto_accepted
    · rename_i f hf
      exact ih (hf ▸ hcheck) hchecks

/-- Where a reference leads nowhere, the failure is at the value as a whole. -/
theorem pointsInto_of_follow_error {s : Scope} {p : Pattern} {e : ContractError} {v : Value}
    (h : s.follow p = .error e) : (ofError e).PointsInto v := by
  intro f hf
  obtain ⟨name, rfl⟩ | ⟨name, limit, rfl⟩ := Scope.follow_eq_error h <;> cases hf <;>
    exact ⟨fun _ => ⟨v, rfl⟩, fun h => (by cases h), fun h => (by cases h), fun h => (by cases h)⟩

namespace Pattern

variable {s : Scope} {p : Pattern} {v : Value} {f : Failure}

theorem check_pointsInto (hp : p.Every NoElement) (hs : s.Every NoElement) (v : Value) :
    (p.check v s).PointsInto v := by
  induction p, s using scopeInduction generalizing v with
  | literal e s =>
    rw [check_literal, Value.check]
    split
    · exact pointsInto_accepted
    · exact pointsInto_mismatch _ v
  | scalar kind s =>
    rw [check, Scalar.check]
    split
    · exact pointsInto_accepted
    · exact pointsInto_mismatch _ v
  | record fields isOpen s ih =>
    have hfields := (every_record.mp hp).2
    cases v with
    | object parts =>
      rw [check]
      refine pointsInto_checkKeys (List.forall_mem_map.mpr fun field hf part => ?_)
      exact ih field hf (hfields field hf) (hs.withEmpty spelled_noElement) part
    | _ => rw [check]; exacts [pointsInto_mismatch _ _, by simp]
  | element shape s => exact hp.self.elim
  | union ps s ih =>
    rw [check]
    refine pointsInto_checkUnion (pointsInto_mismatch _ v) (List.forall_mem_map.mpr fun q hq => ?_)
    exact ih q hq ((every_union.mp hp).2 q hq) (hs.withEmpty spelled_noElement) v
  | reference token s ih =>
    cases hf : s.follow (reference token) with
    | error e =>
      rw [check]
      split
      · exact pointsInto_of_follow_error ‹_›
      · rename_i h
        cases hf.symm.trans h
    | ok found =>
      obtain ⟨q, inner⟩ := found
      obtain ⟨hq, hinner⟩ := hs.follow spelled_noElement hp hf
      rw [check_reference hf]
      exact ih q inner hf hq hinner v
  | list item s ih =>
    cases v with
    | list items =>
      rw [check]
      exact pointsInto_checkItems (ih (every_list.mp hp).2 hs) [] items
    | _ => rw [check]; exacts [pointsInto_mismatch _ _, by simp]

/-- A failed check of JSON points at a place in the value. -/
theorem pointsInto_of_check (hp : p.Every NoElement) (hs : s.Every NoElement)
    (h : p.check v s = .rejected f) : f.PointsInto v :=
  check_pointsInto hp hs v f h

end Pattern

theorem checkKeys_of_none {α : Type} {kind : KeyKind} {policy : KeyPolicy}
    {fields : Entries (α → Verdict)} {parts : Entries α}
    (h : keyMismatch? fields.names parts.names policy kind.mark = none) :
    checkKeys kind policy fields parts = checkFields kind fields parts := by
  rw [checkKeys, h]

namespace Chain

open Pattern

variable {s : Scope}

/-- What is wrong with the next node is found there. -/
theorem check_next {w : Value} {f : Failure}
    (h : (reference "(Node)").check w s.withEmpty = .rejected f) :
    node.check (.object [("name", .text "example"), ("next", w)]) s =
      .rejected { f with breadcrumb := .key "next" :: f.breadcrumb } := by
  have hkeys : ∀ policy, keyMismatch? ["name", "next?"] ["name", "next"] policy fieldMark = none :=
    fun policy => by cases policy <;> decide
  have hname : (scalar .string).check (.text "example") s.withEmpty = .accepted :=
    check_scalar_eq_accepted.mpr rfl
  have hplain : KeyKind.field.canonical "name" = "name" := by decide
  have hmarked : KeyKind.field.canonical "next?" = "next" := by decide
  rw [node, check, checkKeys_of_none (by exact hkeys _)]
  simp [checkFields, hplain, hmarked, Entries.get?_cons, hname, h, Verdict.under, Verdict.andThen]

theorem check_nameless :
    node.check (.object [("name", .null)]) s =
      .rejected ⟨.mismatch, "Expected string, actual was null null", [.key "name"]⟩ := by
  have hkeys : ∀ policy, keyMismatch? ["name", "next?"] ["name"] policy fieldMark = none :=
    fun policy => by cases policy <;> decide
  have hname : (scalar .string).check .null s.withEmpty = .mismatch "string" .null := by
    rw [check]
    rfl
  have hplain : KeyKind.field.canonical "name" = "name" := by decide
  rw [node, check, checkKeys_of_none (by exact hkeys _)]
  simp only [List.map_cons, checkFields, hplain, Entries.get?_cons, if_true, hname]
  rfl

/-- A chain of two nodes, the last one without a name. -/
def broken : Value := .object [("name", .text "example"), ("next", .object [("name", .null)])]

theorem check_broken :
    (reference "(Node)").check broken scope =
      .rejected ⟨.mismatch, "Expected string, actual was null null", [.key "next", .key "name"]⟩ := by
  have hknows : Knows (scope.below ["(Node)"]) := .inl rfl
  rw [check_reference (follow_node (.inl rfl) (by decide))]
  refine check_next (f := ⟨.mismatch, "Expected string, actual was null null", [.key "name"]⟩) ?_
  rw [check_reference (follow_node hknows.withEmpty (by decide)), check_nameless]

end Chain

theorem Pattern.pointsInto_of_check_chain :
    (reference "(Node)").check Chain.broken Chain.scope =
        .rejected ⟨.mismatch, "Expected string, actual was null null", [.key "next", .key "name"]⟩ ∧
      Failure.PointsInto
        ⟨.mismatch, "Expected string, actual was null null", [.key "next", .key "name"]⟩
        Chain.broken :=
  ⟨Chain.check_broken, pointsInto_of_check (Chain.every_start spelled_noElement)
    (Chain.every_scope spelled_noElement trivial) Chain.check_broken⟩

end PayloadContracts
