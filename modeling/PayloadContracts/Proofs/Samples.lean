import PayloadContracts.Proofs.Acceptance
import PayloadContracts.Proofs.Chain
import PayloadContracts.Proofs.Marks
import PayloadContracts.Proofs.Parts
import PayloadContracts.Sampling
import Mathlib.Data.List.Nodup

/-!
Samples of JSON patterns are values that the patterns accept. Main statement:
`Pattern.check_of_sample`.
-/

namespace PayloadContracts

/-- The names of parts are those declared if all that are required are there and each is declared. -/
theorem keyMismatch?_of_parts {α β : Type} {fields : Entries α} {parts : Entries β} {mark : String}
    {policy : KeyPolicy}
    (hrequired : ∀ field ∈ fields, isOptional field.1 mark = false → field.1 ∈ Entries.names parts)
    (hparts : ∀ part ∈ parts, ∃ field ∈ fields, part.1 = canonical field.1 mark) :
    keyMismatch? (Entries.names fields) (Entries.names parts) policy mark = none := by
  refine keyMismatch?_eq_none_iff.mpr ⟨?_, ?_⟩
  · intro name hname ho
    obtain ⟨field, hf, rfl⟩ := List.mem_map.mp hname
    exact hrequired field hf ho
  · intro _ name hname
    obtain ⟨part, hp, rfl⟩ := List.mem_map.mp hname
    obtain ⟨field, hf, heq⟩ := hparts part hp
    have hmem := Entries.mem_names hf
    obtain ⟨-, h⟩ | h := canonical_eq_iff.mp heq.symm
    · exact .inl (h ▸ hmem)
    · exact .inr (h ▸ hmem)

namespace Pattern

variable {s inner : Scope} {v : Value}

/-- Which names are being expanded is all that counts. -/
theorem reenters_congr {t : Scope} (h : t.path = s.path) (p : Pattern) :
    p.reenters t = p.reenters s := by
  fun_induction Pattern.reenters p s with
  | case1 token => simp only [Pattern.reenters, Scope.isExpanding, h]
  | case2 item ih => rw [Pattern.reenters, ih]
  | case3 ps ih =>
    have hlive : (ps.map fun q => (q.isEmptyMarker, q.reenters t)) =
        ps.map fun q => (q.isEmptyMarker, q.reenters s) :=
      List.map_congr_left fun q hq => by rw [ih q hq]
    rw [Pattern.reenters, hlive]
  | case4 shape name hn => simp only [Pattern.reenters, hn, Scope.isExpanding, h]
  | case5 shape hn => simp only [Pattern.reenters, hn]
  | case6 p => rw [Pattern.reenters] <;> assumption

theorem sample_of_follow {token : String} {q : Pattern}
    (h : s.follow (.reference token) = .ok (q, inner)) : (reference token).sample s = q.sample inner := by
  rw [sample]
  split
  · rename_i hf
    cases h.symm.trans hf
  · rename_i hf
    cases h.symm.trans hf
    rfl

/-- What a sample of a record has for a field: nothing for an optional one that goes back into a name
being expanded. -/
inductive SampledField (s : Scope) (field : String × Pattern) : List (String × Value) → Prop
  | absent (ho : isOptional field.1 fieldMark = true) (hr : field.2.reenters s.withEmpty = true) :
    SampledField s field []
  | present {v : Value} (h : field.2.sample s.withEmpty = .ok v) :
    SampledField s field [(canonical field.1 fieldMark, v)]

section Record

variable {fields : Entries Pattern} {chunks : List (List (String × Value))}

theorem names_sampled (h : List.Forall₂ (SampledField s) fields chunks) :
    (Entries.names chunks.flatten).Sublist
      ((Entries.names fields).map fun name => canonical name fieldMark) := by
  induction h with
  | nil => exact List.Sublist.refl _
  | cons hfield _ ih =>
    cases hfield with
    | absent => exact ih.cons _
    | present => exact ih.cons_cons _

theorem mem_sampled (h : List.Forall₂ (SampledField s) fields chunks) {entry : String × Value}
    (he : entry ∈ chunks.flatten) :
    ∃ field ∈ fields, entry.1 = canonical field.1 fieldMark ∧
      field.2.sample s.withEmpty = .ok entry.2 := by
  obtain ⟨chunk, hc, he⟩ := List.mem_flatten.mp he
  obtain ⟨field, hf, hs⟩ := exists_of_forall₂_right h hc
  cases hs with
  | absent => cases he
  | present hv =>
    obtain rfl := List.mem_singleton.mp he
    exact ⟨field, hf, rfl, hv⟩

theorem mem_names_sampled (h : List.Forall₂ (SampledField s) fields chunks)
    {field : String × Pattern} (hf : field ∈ fields)
    (hkept : isOptional field.1 fieldMark = false ∨ field.2.reenters s.withEmpty = false) :
    canonical field.1 fieldMark ∈ Entries.names chunks.flatten := by
  obtain ⟨chunk, hc, hs⟩ := exists_of_forall₂_left h hf
  cases hs with
  | absent ho hr => simp [ho, hr] at hkept
  | present hv => exact Entries.mem_names (List.mem_flatten_of_mem hc List.mem_cons_self)

/-- The parts of a sample are samples of fields, and all fields are there that are required or do not
go back into a name being expanded. -/
theorem parts_of_sample {isOpen : Bool} (hn : (record fields isOpen).NamesApart)
    (h : (record fields isOpen).sample s = .ok v) :
    ∃ parts, v = .object parts ∧ Entries.Distinct parts ∧
      (∀ field ∈ fields, isOptional field.1 fieldMark = false ∨
        field.2.reenters s.withEmpty = false → canonical field.1 fieldMark ∈ Entries.names parts) ∧
      ∀ part ∈ parts, ∃ field ∈ fields, part.1 = canonical field.1 fieldMark ∧
        field.2.sample s.withEmpty = .ok part.2 := by
  rw [sample] at h
  obtain ⟨chunks, hc, rfl⟩ := exceptMap_eq_ok_iff.mp h
  rw [collect_eq_ok_iff, List.forall₂_map_left_iff] at hc
  have hs : List.Forall₂ (SampledField s) fields chunks := by
    refine hc.imp fun field chunk hchunk => ?_
    split at hchunk
    · rename_i ho
      cases hchunk
      obtain ⟨ho, hr⟩ := Bool.and_eq_true_iff.mp ho
      exact .absent ho hr
    · obtain ⟨w, hw, rfl⟩ := exceptMap_eq_ok_iff.mp hchunk
      exact .present (locate_eq_ok_iff.mp hw)
  have hd : Entries.Distinct chunks.flatten := hn.sublist (names_sampled hs)
  rw [Entries.ofList_of_distinct hd]
  exact ⟨chunks.flatten, rfl, hd, fun field hf hkept => mem_names_sampled hs hf hkept,
    fun part hp => mem_sampled hs hp⟩

end Record

theorem admits_sample (kind : Scalar) : kind.admits kind.sample = true := by
  cases kind with
  | dateTime => rfl
  | numberInString => rfl
  | _ => rfl

theorem representative_of_sample {ps : List Pattern} (h : (union ps).sample s = .ok v) :
    ∃ q ∈ ps, q.sample s.withEmpty = .ok v := by
  rw [sample] at h
  split at h
  · rename_i q hq
    exact ⟨q, mem_of_representative? hq, h⟩
  · cases h

theorem items_of_sample {item : Pattern} (h : (list item).sample s = .ok v) :
    ∃ items, v = .list items ∧ ∀ w ∈ items, item.sample s = .ok w := by
  rw [sample] at h
  split at h
  · cases h
    exact ⟨[], rfl, by simp⟩
  · obtain ⟨w, hw, rfl⟩ := exceptMap_eq_ok_iff.mp h
    refine ⟨[w], rfl, fun u hu => ?_⟩
    obtain rfl := List.mem_singleton.mp hu
    exact locate_eq_ok_iff.mp hw

theorem follow_of_sample {token : String} (h : (reference token).sample s = .ok v) :
    ∃ q inner, s.follow (.reference token) = .ok (q, inner) ∧ q.sample inner = .ok v := by
  rw [sample] at h
  split at h
  · cases h
  · exact ⟨_, _, ‹_›, h⟩

theorem accepts_sample {p : Pattern} (hp : p.Every IsUnambiguous) (hs : s.Every IsUnambiguous)
    (h : p.sample s = .ok v) : p.check v s = .accepted := by
  induction p, s using scopeInduction generalizing v with
  | literal e s =>
    rw [sample] at h
    cases h
    exact check_literal_eq_accepted.mpr (Value.same_refl hp.self.1)
  | scalar kind s =>
    rw [sample] at h
    cases h
    exact check_scalar_eq_accepted.mpr (admits_sample kind)
  | record fields isOpen s ih =>
    obtain ⟨⟨-, hapart⟩, hfields⟩ := every_record.mp hp
    obtain ⟨parts, rfl, -, hkept, hparts⟩ := parts_of_sample hapart h
    have hrequired : ∀ field ∈ fields, isOptional field.1 fieldMark = false →
        field.1 ∈ Entries.names parts :=
      fun field hf ho => canonical_of_not_optional ho ▸ hkept field hf (.inl ho)
    refine check_record_eq_accepted.mpr ⟨parts, rfl, keyMismatch?_of_parts hrequired ?_, ?_⟩
    · intro part hpart
      obtain ⟨field, hf, hname, -⟩ := hparts part hpart
      exact ⟨field, hf, hname⟩
    · intro field hf part hpart
      obtain ⟨other, ho, hname, hv⟩ := hparts _ (Entries.mem_of_get? hpart)
      obtain rfl := eq_of_canonical_eq hapart hf ho hname
      exact ih field hf (hfields field hf) (hs.withEmpty spelled_isUnambiguous) hv
  | element shape s =>
    exact hp.self.1.elim
  | union ps s ih =>
    obtain ⟨q, hq, hv⟩ := representative_of_sample h
    have hparts := (every_union.mp hp).2 q hq
    have hc := ih q hq hparts (hs.withEmpty spelled_isUnambiguous) hv
    exact check_union_eq_accepted.mpr ⟨q, hq, hc⟩
  | reference token s ih =>
    obtain ⟨q, inner, hf, hv⟩ := follow_of_sample h
    obtain ⟨hq, hinner⟩ := hs.follow spelled_isUnambiguous hp hf
    exact check_reference_eq_accepted.mpr ⟨q, inner, hf, ih q inner hf hq hinner hv⟩
  | list item s ih =>
    obtain ⟨items, rfl, hitems⟩ := items_of_sample h
    have hitem := (every_list.mp hp).2
    exact check_list_eq_accepted.mpr ⟨items, rfl, fun w hw => ih hitem hs (hitems w hw)⟩

/-- A sample of a JSON pattern is accepted by the pattern in the scope it was taken in. -/
theorem check_of_sample {p : Pattern} (hp : p.Every IsUnambiguous) (hs : s.Every IsUnambiguous)
    (h : p.sample s = .ok v) : p.check v s = .accepted :=
  accepts_sample hp hs h

theorem chain_sample : (reference "(Node)").sample Chain.scope = .ok Chain.last := by
  have hfollow := Chain.follow_node (s := Chain.scope) (.inl rfl) (by decide)
  have hnode : (Chain.node.sample (Chain.scope.below ["(Node)"])) = .ok Chain.last := by
    have hnext : (reference "(Node)").reenters (Chain.scope.below ["(Node)"]).withEmpty = true := by
      rw [reenters, Scope.isExpanding, Scope.withEmpty_path]
      rfl
    rw [Chain.node, sample]
    simp only [List.map_cons, List.map_nil, collect, hnext]
    rw [sample]
    rfl
  rw [sample_of_follow hfollow]
  exact hnode

theorem check_of_sample_chain :
    (reference "(Node)").sample Chain.scope = .ok Chain.last ∧
      (reference "(Node)").check Chain.last Chain.scope = .accepted := by
  have hspelled := spelled_isUnambiguous
  refine ⟨chain_sample, check_of_sample (Chain.every_start hspelled) ?_ chain_sample⟩
  exact Chain.every_scope hspelled ⟨trivial, Chain.namesApart_node⟩

end Pattern

end PayloadContracts
