import PayloadContracts.Proofs.Reflexivity
import PayloadContracts.Proofs.Samples

/-!
Recursive tables have finite samples where each way back to a name goes through a place that samples
leave empty, and no record stands between that place and the reference. Main statement:
`Pattern.exists_sample`.

Samples look for a name that is being expanded in references, and in lists and unions of these, but not
in records. So where a record stands in between, the place is filled each time.
-/

namespace PayloadContracts

open Relation

namespace Pattern

/-- References come first: these, what has none, lists of such patterns, and unions of them with
something besides absence. -/
inductive Shallow : Pattern → Prop
  | literal (v : Value) : Shallow (literal v)
  | scalar (kind : Scalar) : Shallow (scalar kind)
  | reference (token : String) : Shallow (reference token)
  | list {item : Pattern} (h : Shallow item) : Shallow (list item)
  | union {ps : List Pattern} (hlive : ∃ q ∈ ps, q.isEmptyMarker = false)
      (h : ∀ q ∈ ps, q.isEmptyMarker = false → Shallow q) : Shallow (union ps)

/-- Describes JSON, has an alternative if it is a union, and stands for something if it is a reference. -/
def IsComplete : Pattern → Scope → Prop
  | element _, _ => False
  | union ps, _ => ps ≠ []
  | reference token, s => ∃ q, s.lookup token = .ok q
  | _, _ => True

end Pattern

namespace Scope

open Pattern

variable {s : Scope} {p q : Pattern} {stops : Pattern → Prop}

/-- A sample of the first pattern has one of the second in it. Fields that are optional, items, and
alternatives beside absence do not count if they are such that samples stop there. -/
inductive Needs (s : Scope) (stops : Pattern → Prop) : Pattern → Pattern → Prop
  | field {fields : Entries Pattern} {isOpen : Bool} {field : String × Pattern} (hf : field ∈ fields)
      (h : isOptional field.1 fieldMark = true → ¬stops field.2) :
      Needs s stops (record fields isOpen) field.2
  | item {item : Pattern} (h : ¬stops item) : Needs s stops (list item) item
  | alternative {ps : List Pattern} {q : Pattern} (hq : q ∈ ps)
      (h : (∃ r ∈ ps, r.isEmptyMarker = true) → q.isEmptyMarker = false → ¬stops q) :
      Needs s stops (union ps) q
  | target {token : String} {q : Pattern} (h : s.lookup token = .ok q) :
      Needs s stops (reference token) q

/-- No reference needs itself. -/
def LoopFree (s : Scope) (stops : Pattern → Prop) : Prop :=
  ∀ token, ¬TransGen (s.withEmpty.Needs stops) (reference token) (reference token)

theorem Needs.next (h : s.Needs stops p q) : s.Next p q := by
  cases h with
  | field hf => exact .inl (List.mem_map_of_mem hf)
  | item => exact .inl (List.mem_singleton.mpr rfl)
  | alternative hq => exact .inl hq
  | target hl => exact .inr ⟨_, rfl, hl⟩

/-- It is enough to look at the names that are defined. -/
theorem loopFree_of_names (h : ∀ token ∈ s.withEmpty.definitions.names,
    ¬TransGen (s.withEmpty.Needs stops) (reference token) (reference token)) : s.LoopFree stops :=
  not_cycle_of_names (fun _ _ => Needs.next) h

end Scope

/-- What leads into a set and no further does not come back from outside. -/
theorem not_cycle_of_closed {α : Type} {r : α → α → Prop} {S : Set α} {x : α} (hx : ∀ y, r x y → y ∈ S)
    (hclosed : ∀ y ∈ S, ∀ z, r y z → z ∈ S) (hnot : x ∉ S) : ¬TransGen r x x := by
  have hmem : ∀ y, TransGen r x y → y ∈ S := by
    intro y hy
    induction hy with
    | single hy => exact hx _ hy
    | tail _ hz ih => exact hclosed _ ih _ hz
  exact fun h => hnot (hmem x h)

namespace Pattern

variable {p q : Pattern} {s t : Scope} {entered : Finset String} {n m : Nat} {token : String}
  {fields : Entries Pattern} {isOpen : Bool} {ps : List Pattern} {item : Pattern} {C : Set Pattern}
  {x y : Pattern × Scope}

theorem reenters_union :
    (union ps).reenters s = true ↔
      (∃ q ∈ ps, q.isEmptyMarker = false) ∧ ∀ q ∈ ps, q.isEmptyMarker = false → q.reenters s = true := by
  have hlive : (∀ q ∈ ps, q.isEmptyMarker = true ∨ q.reenters s = true) ↔
      ∀ q ∈ ps, q.isEmptyMarker = false → q.reenters s = true := by
    refine forall₂_congr fun q _ => ?_
    cases q.isEmptyMarker <;> simp
  rw [reenters]
  simp [hlive]

/-- The alternative to take a sample of is one with content that does not go back into a name; if there
is none, it is absence if that is an alternative. -/
theorem exists_representative (hne : ps ≠ []) :
    ∃ q ∈ ps, representative? ps s = some q ∧
      (q.isEmptyMarker = false ∧ q.reenters s = false ∨
        (∀ r ∈ ps, r.isEmptyMarker = false → r.reenters s = true) ∧
          ((∃ r ∈ ps, r.isEmptyMarker = true) → q.isEmptyMarker = true)) := by
  unfold representative?
  cases hlive : ps.find? fun p => !p.isEmptyMarker && !p.reenters s with
  | some q =>
    have hq := List.find?_some hlive
    simp only [Bool.and_eq_true, Bool.not_eq_true'] at hq
    exact ⟨q, List.mem_of_find?_eq_some hlive, rfl, .inl hq⟩
  | none =>
    have hback : ∀ r ∈ ps, r.isEmptyMarker = false → r.reenters s = true := by
      intro r hr hcontent
      have hnone := List.find?_eq_none.mp hlive r hr
      simpa [hcontent] using hnone
    cases hmarker : ps.find? isEmptyMarker with
    | some q => exact ⟨q, List.mem_of_find?_eq_some hmarker, rfl, .inr ⟨hback, fun _ => List.find?_some hmarker⟩⟩
    | none =>
      obtain ⟨q, rest, rfl⟩ := List.exists_cons_of_ne_nil hne
      refine ⟨q, List.mem_cons_self, rfl, .inr ⟨hback, ?_⟩⟩
      rintro ⟨r, hr, hr'⟩
      exact absurd hr' (List.find?_eq_none.mp hmarker r hr)

theorem sample_of_representative {v : Value} (hq : representative? ps s.withEmpty = some q)
    (h : q.sample s.withEmpty = .ok v) : (union ps).sample s = .ok v := by
  rw [sample]
  split
  · rename_i hq'
    cases hq.symm.trans hq'
    exact h
  · rename_i hq'
    cases hq.symm.trans hq'

/-- What a name stands for gives the samples of the reference. -/
theorem sample_of_lookup {v : Value} (hl : s.lookup token = .ok q) (hroom : 0 < s.headroom)
    (h : q.sample (s.below [token]) = .ok v) : (reference token).sample s = .ok v := by
  obtain ⟨next, rfl⟩ | hq := eq_reference_or q
  · obtain ⟨r, inner, hf, hv⟩ := follow_of_sample h
    obtain ⟨trail, hlead, -, htrail, rfl⟩ := Scope.follow_eq_ok_iff.mp hf
    rw [Scope.headroom_below, List.length_singleton] at htrail
    have hlength : (token :: trail).length ≤ s.headroom := by
      rw [List.length_cons]
      omega
    rw [sample_of_follow (Scope.follow_of_leads (.hop hl (Scope.leads_below.mp hlead)) hlength),
      Scope.below_cons]
    exact hv
  · rw [sample_of_follow (Scope.follow_of_leads (.hop hl (.stop hq)) hroom)]
    exact h

/-- With that much headroom there is a sample, wherever these names are being expanded. -/
def SampledFrom (n : Nat) (entered : Finset String) (p : Pattern) (s : Scope) : Prop :=
  ∀ u : Scope, u.definitions = s.definitions → (∀ name ∈ entered, name ∈ u.path) → n ≤ u.headroom →
    ∃ v, p.sample u = .ok v

/-- With that much headroom there is a sample, unless it would go back into a name. -/
def StopsFrom (n : Nat) (entered : Finset String) (p : Pattern) (s : Scope) : Prop :=
  ∀ u : Scope, u.definitions = s.definitions → (∀ name ∈ entered, name ∈ u.path) → n ≤ u.headroom →
    p.reenters u = true ∨ ∃ v, p.sample u = .ok v

theorem StopsFrom.mono (h : StopsFrom n entered p s) (hle : n ≤ m) : StopsFrom m entered p s :=
  fun u hd hpath hroom => h u hd hpath (Nat.le_trans hle hroom)

theorem StopsFrom.withEmpty {u : Scope} (h : StopsFrom n entered p s.withEmpty)
    (hd : u.definitions = s.definitions) (hpath : ∀ name ∈ entered, name ∈ u.path)
    (hroom : n ≤ u.headroom) : p.reenters u.withEmpty = true ∨ ∃ v, p.sample u.withEmpty = .ok v :=
  h _ (Scope.withEmpty_definitions_congr hd) (by simpa using hpath) (by simpa using hroom)

namespace SampledFrom

theorem mono (h : SampledFrom n entered p s) (hle : n ≤ m) : SampledFrom m entered p s :=
  fun u hd hpath hroom => h u hd hpath (Nat.le_trans hle hroom)

theorem enter (h : SampledFrom n entered p s) (token : String) :
    SampledFrom n (insert token entered) p s :=
  fun u hd hpath hroom => h u hd (fun name hn => hpath name (Finset.mem_insert_of_mem hn)) hroom

theorem withEmpty {u : Scope} (h : SampledFrom n entered p s.withEmpty)
    (hd : u.definitions = s.definitions) (hpath : ∀ name ∈ entered, name ∈ u.path)
    (hroom : n ≤ u.headroom) : ∃ v, p.sample u.withEmpty = .ok v :=
  h _ (Scope.withEmpty_definitions_congr hd) (by simpa using hpath) (by simpa using hroom)

theorem stopsFrom (h : SampledFrom n entered p s) : StopsFrom n entered p s :=
  fun u hd hpath hroom => .inr (h u hd hpath hroom)

theorem literal (v : Value) : SampledFrom 0 entered (literal v) s :=
  fun _ _ _ _ => ⟨v, by rw [sample]⟩

theorem scalar (kind : Scalar) : SampledFrom 0 entered (scalar kind) s :=
  fun _ _ _ _ => ⟨kind.sample, by rw [sample]⟩

/-- Optional fields are left out where they would go back into a name. -/
theorem record (h : ∀ field ∈ fields,
    isOptional field.1 fieldMark = true ∧ StopsFrom n entered field.2 s.withEmpty ∨
      SampledFrom n entered field.2 s.withEmpty) :
    SampledFrom n entered (record fields isOpen) s := by
  intro u hd hpath hroom
  rw [sample]
  obtain ⟨chunks, hchunks⟩ : ∃ chunks, collect (fields.map fun field _ =>
      if KeyKind.field.isOptional field.1 && field.2.reenters u.withEmpty then .ok []
      else
        let name := KeyKind.field.canonical field.1
        (locate (.key name) (field.2.sample u.withEmpty)).map fun v => [(name, v)]) = .ok chunks := by
    refine exists_collect fun field hf => ?_
    have hpresent : ∀ v, field.2.sample u.withEmpty = .ok v → ∃ chunk,
        (locate (.key (KeyKind.field.canonical field.1)) (field.2.sample u.withEmpty)).map
          (fun v => [(KeyKind.field.canonical field.1, v)]) = .ok chunk :=
      fun v hv => ⟨_, exceptMap_eq_ok_iff.mpr ⟨v, locate_eq_ok_iff.mpr hv, rfl⟩⟩
    split
    · exact ⟨[], rfl⟩
    · rename_i hkept
      obtain ⟨ho, hstops⟩ | hsampled := h field hf
      · obtain hr | ⟨v, hv⟩ := hstops.withEmpty hd hpath hroom
        · exact absurd (Bool.and_eq_true_iff.mpr ⟨ho, hr⟩) hkept
        · exact hpresent v hv
      · obtain ⟨v, hv⟩ := hsampled.withEmpty hd hpath hroom
        exact hpresent v hv
  exact ⟨_, exceptMap_eq_ok_iff.mpr ⟨chunks, hchunks, rfl⟩⟩

/-- There is no item where it would go back into a name. -/
theorem list (h : StopsFrom n entered item s) : SampledFrom n entered (list item) s := by
  intro u hd hpath hroom
  rw [sample]
  split
  · exact ⟨_, rfl⟩
  · obtain hr | ⟨v, hv⟩ := h u hd hpath hroom
    · contradiction
    · exact ⟨_, exceptMap_eq_ok_iff.mpr ⟨v, locate_eq_ok_iff.mpr hv, rfl⟩⟩

/-- Alternatives beside absence are not taken where they would go back into a name. -/
theorem union (hne : ps ≠ []) (hstops : ∀ q ∈ ps, StopsFrom n entered q s.withEmpty)
    (hsampled : ∀ q ∈ ps, ((∃ r ∈ ps, r.isEmptyMarker = true) → q.isEmptyMarker = true) →
      SampledFrom n entered q s.withEmpty) : SampledFrom n entered (union ps) s := by
  intro u hd hpath hroom
  obtain ⟨q, hq, hrep, ⟨-, hr⟩ | ⟨-, hmarker⟩⟩ := exists_representative (s := u.withEmpty) hne
  · obtain hback | ⟨v, hv⟩ := (hstops q hq).withEmpty hd hpath hroom
    · cases hr.symm.trans hback
    · exact ⟨v, sample_of_representative hrep hv⟩
  · obtain ⟨v, hv⟩ := (hsampled q hq hmarker).withEmpty hd hpath hroom
    exact ⟨v, sample_of_representative hrep hv⟩

theorem reference (hl : s.lookup token = .ok q) (h : SampledFrom n (insert token entered) q s) :
    SampledFrom (n + 1) entered (reference token) s := by
  intro u hd hpath hroom
  have hpath' : ∀ name ∈ insert token entered, name ∈ (u.below [token]).path := by
    intro name hname
    obtain rfl | hname := Finset.mem_insert.mp hname
    · exact List.mem_append_right _ List.mem_cons_self
    · exact List.mem_append_left _ (hpath name hname)
  have hroom' : n ≤ (u.below [token]).headroom := by
    rw [Scope.headroom_below, List.length_singleton]
    omega
  obtain ⟨v, hv⟩ := h (u.below [token]) hd hpath' hroom'
  exact ⟨v, sample_of_lookup ((Scope.lookup_congr hd token).trans hl) (by omega) hv⟩

end SampledFrom

/-- If not all alternatives beside absence would go back into a name, the first that does not is taken. -/
theorem StopsFrom.union (hlive : ∃ q ∈ ps, q.isEmptyMarker = false)
    (h : ∀ q ∈ ps, q.isEmptyMarker = false → StopsFrom n entered q s.withEmpty) :
    StopsFrom n entered (union ps) s := by
  intro u hd hpath hroom
  obtain ⟨live, hmem, hcontent⟩ := hlive
  obtain ⟨q, hq, hrep, ⟨hfilled, hr⟩ | ⟨hback, -⟩⟩ :=
    exists_representative (s := u.withEmpty) (List.ne_nil_of_mem hmem)
  · obtain hback | ⟨v, hv⟩ := (h q hq hfilled).withEmpty hd hpath hroom
    · cases hr.symm.trans hback
    · exact .inr ⟨v, sample_of_representative hrep hv⟩
  · refine .inl (reenters_union.mpr ⟨⟨live, hmem, hcontent⟩, fun r hr hfilled => ?_⟩)
    rw [← reenters_congr (Scope.withEmpty_path u)]
    exact hback r hr hfilled

/-- All that a sample of the pattern can come to is complete and in the set. -/
structure Grows (s : Scope) (C : Set Pattern) (x : Pattern × Scope) : Prop where
  mem : x.1 ∈ C
  closed : s.withEmpty.IsClosed C
  base : x.2.withEmpty = s.withEmpty
  complete : ∀ y, ReflTransGen Unfolds x y → y.1.IsComplete y.2

namespace Grows

theorem unfolds (h : Grows s C x) (hxy : Unfolds x y) : Grows s C y := by
  obtain ⟨hmem, -⟩ := hxy.isClosed h.mem (h.base ▸ h.closed)
  have hbase : y.2.withEmpty = s.withEmpty := by
    have hx := h.base
    cases hxy <;> simpa using hx
  exact ⟨hmem, h.closed, hbase, fun z hz => h.complete z (.head hxy hz)⟩

/-- Names that are not being expanded are entered, and the others are where samples stop. -/
theorem exists_stopsFrom (hx : Grows s C (p, t)) (hp : p.Shallow)
    (hnew : ∀ token q t, Grows s C (reference token, t) → t.lookup token = .ok q → token ∉ entered →
      ∃ n, SampledFrom n (insert token entered) q t) : ∃ n, StopsFrom n entered p t := by
  induction hp generalizing t with
  | literal v => exact ⟨0, (SampledFrom.literal v).stopsFrom⟩
  | scalar kind => exact ⟨0, (SampledFrom.scalar kind).stopsFrom⟩
  | reference token =>
    by_cases ht : token ∈ entered
    · refine ⟨0, fun u _ hpath _ => .inl ?_⟩
      rw [reenters, Scope.isExpanding]
      exact decide_eq_true (hpath token ht)
    · obtain ⟨q, hl⟩ := hx.complete _ .refl
      obtain ⟨n, hn⟩ := hnew token q t hx hl ht
      exact ⟨n + 1, (SampledFrom.reference hl hn).stopsFrom⟩
  | @list item _ ih =>
    obtain ⟨n, hn⟩ := ih (hx.unfolds (.item item t))
    exact ⟨n, (SampledFrom.list hn).stopsFrom⟩
  | @union ps hlive _ ih =>
    obtain ⟨n, hn⟩ : ∃ n, ∀ q ∈ ps, q.isEmptyMarker = false → StopsFrom n entered q t.withEmpty :=
      exists_forall_mem (fun n m q hle h hcontent => StopsFrom.mono (h hcontent) hle) fun q hq => by
        cases hcontent : q.isEmptyMarker with
        | true => exact ⟨0, fun h => by cases h⟩
        | false =>
          obtain ⟨n, hn⟩ := ih q hq hcontent (hx.unfolds (.alternative hq))
          exact ⟨n, fun _ => hn⟩
    exact ⟨n, .union hlive hn⟩

/-- Samples of parts of `p`: those that are shallow stop, and those that samples of `p` need are there. -/
structure Supplied (s : Scope) (C : Set Pattern) (entered : Finset String) (p : Pattern) : Prop where
  stops : ∀ q t, Grows s C (q, t) → q.Shallow → ∃ n, StopsFrom n entered q t
  needed : ∀ q t, Grows s C (q, t) → s.withEmpty.Needs Shallow p q → ∃ n, SampledFrom n entered q t

theorem exists_record (hx : Grows s C (record fields isOpen, t))
    (h : Supplied s C entered (record fields isOpen)) :
    ∃ n, SampledFrom n entered (record fields isOpen) t := by
  obtain ⟨n, hn⟩ := exists_forall_mem (P := fun n (field : String × Pattern) =>
      isOptional field.1 fieldMark = true ∧ StopsFrom n entered field.2 t.withEmpty ∨
        SampledFrom n entered field.2 t.withEmpty)
    (fun _ _ _ hle h => h.imp (fun h => ⟨h.1, h.2.mono hle⟩) fun h => h.mono hle)
    fun field hf => by
      have hfield := hx.unfolds (.field hf)
      by_cases hstop : isOptional field.1 fieldMark = true ∧ field.2.Shallow
      · obtain ⟨n, hn⟩ := h.stops _ _ hfield hstop.2
        exact ⟨n, .inl ⟨hstop.1, hn⟩⟩
      · obtain ⟨n, hn⟩ := h.needed _ _ hfield (.field hf fun ho hq => hstop ⟨ho, hq⟩)
        exact ⟨n, .inr hn⟩
  exact ⟨n, .record hn⟩

theorem exists_list (hx : Grows s C (list item, t)) (h : Supplied s C entered (list item)) :
    ∃ n, SampledFrom n entered (list item) t := by
  have hitem := hx.unfolds (.item item t)
  by_cases hstop : item.Shallow
  · obtain ⟨n, hn⟩ := h.stops _ _ hitem hstop
    exact ⟨n, .list hn⟩
  · obtain ⟨n, hn⟩ := h.needed _ _ hitem (.item hstop)
    exact ⟨n, .list hn.stopsFrom⟩

/-- Absence is needed where it is an alternative; the others are needed unless they stop. -/
theorem exists_union (hx : Grows s C (union ps, t)) (h : Supplied s C entered (union ps)) :
    ∃ n, SampledFrom n entered (union ps) t := by
  obtain ⟨n, hn⟩ := exists_forall_mem (P := fun n q => StopsFrom n entered q t.withEmpty ∧
      (((∃ r ∈ ps, r.isEmptyMarker = true) → q.isEmptyMarker = true) →
        SampledFrom n entered q t.withEmpty))
    (fun _ _ _ hle h => ⟨h.1.mono hle, fun hmarker => (h.2 hmarker).mono hle⟩)
    fun q hq => by
      have hpart := hx.unfolds (.alternative hq)
      by_cases hmarker : (∃ r ∈ ps, r.isEmptyMarker = true) → q.isEmptyMarker = true
      · obtain ⟨n, hn⟩ := h.needed _ _ hpart (.alternative hq fun hr hcontent =>
          absurd (hmarker hr) (by simp [hcontent]))
        exact ⟨n, hn.stopsFrom, fun _ => hn⟩
      · by_cases hstop : q.Shallow
        · obtain ⟨n, hn⟩ := h.stops _ _ hpart hstop
          exact ⟨n, hn, fun h => absurd h hmarker⟩
        · obtain ⟨n, hn⟩ := h.needed _ _ hpart (.alternative hq fun _ _ => hstop)
          exact ⟨n, hn.stopsFrom, fun h => absurd h hmarker⟩
  exact ⟨n, .union (hx.complete _ .refl) (fun q hq => (hn q hq).1) fun q hq => (hn q hq).2⟩

theorem exists_reference (hx : Grows s C (reference token, t))
    (h : Supplied s C entered (reference token)) : ∃ n, SampledFrom n entered (reference token) t := by
  obtain ⟨q, hl⟩ := hx.complete _ .refl
  have hl' : s.withEmpty.lookup token = .ok q := by
    rw [← hx.base]
    exact Scope.lookup_withEmpty hl
  obtain ⟨n, hn⟩ := h.needed q t (hx.unfolds (.target hl)) (.target hl')
  exact ⟨n + 1, .reference hl (hn.enter token)⟩

/-- By induction on the number of names that are not being expanded, and on what samples need. -/
theorem exists_sampledFrom {names : Finset String} (hC : C.Finite) (hnames : Names C names)
    (hs : s.LoopFree Shallow) (hx : Grows s C (p, t)) : ∃ n, SampledFrom n entered p t := by
  induction hk : (names \ entered).card using Nat.strongRecOn generalizing p t entered with
  | ind k fewer =>
    have hnew : ∀ token q t, Grows s C (reference token, t) → t.lookup token = .ok q →
        token ∉ entered → ∃ n, SampledFrom n (insert token entered) q t := by
      intro token q t hx hl ht
      refine fewer _ ?_ (hx.unfolds (.target hl)) rfl
      rw [← hk, Finset.sdiff_insert]
      exact Finset.card_erase_lt_of_mem
        (Finset.mem_sdiff.mpr ⟨hnames.references token hx.mem, ht⟩)
    have hacc : Acc (fun q p => TransGen (s.withEmpty.Needs Shallow) p q) p :=
      Scope.acc_of_next hC hx.closed hx.mem (fun _ _ => Scope.Needs.next) fun token _ => hs token
    induction hacc generalizing t with
    | intro p _ ih =>
      have hsupplied : Supplied s C entered p :=
        ⟨fun _ _ hx hq => hx.exists_stopsFrom hq hnew, fun q _ hx hq => ih q (.single hq) hx⟩
      cases p with
      | literal v => exact ⟨0, .literal v⟩
      | scalar kind => exact ⟨0, .scalar kind⟩
      | element shape => exact (hx.complete _ .refl).elim
      | record fields isOpen => exact hx.exists_record hsupplied
      | list item => exact hx.exists_list hsupplied
      | union ps => exact hx.exists_union hsupplied
      | reference token => exact hx.exists_reference hsupplied

end Grows

/-- A table in which samples stop at references has a sample for each pattern, if names may be entered often
enough. -/
theorem exists_sample (hp : ∀ x, ReflTransGen Unfolds (p, s) x → x.1.IsComplete x.2)
    (hs : s.LoopFree Shallow) :
    ∃ n, ∀ limit, n ≤ limit → ∃ v, p.sample { s with depthLimit := limit } = .ok v := by
  obtain ⟨C, hC, hmem, hclosed⟩ := s.withEmpty.exists_isClosed [p]
  obtain ⟨names, hnames⟩ := exists_names hC
  have hx : Grows s C (p, s) := ⟨hmem p List.mem_cons_self, hclosed, rfl, hp⟩
  obtain ⟨n, hn⟩ : ∃ n, SampledFrom n ∅ p s := hx.exists_sampledFrom hC hnames hs
  refine ⟨s.path.length + n, fun limit hlimit => hn _ rfl (by simp) ?_⟩
  exact Scope.le_headroom hlimit

end Pattern

namespace Folders

open Pattern

variable {p q : Pattern} {x y : Pattern × Scope}

/-- Perhaps a folder. -/
def parent : Pattern := .union [.reference emptyToken, .reference "(Folder)"]

/-- A folder goes back to folders beside absence, in the items of a list and in an optional field. -/
def fields : Entries Pattern :=
  [("name", .scalar .string), ("parent", parent), ("items", .list (.reference "(Folder)")),
    ("link?", .reference "(Folder)")]

def folder : Pattern := .record fields false

def scope : Scope := .ofDefinitions [("(Folder)", folder)] ⟨.strict, 8, 100⟩

/-- What samples of folders need besides references to them. -/
def needed : List Pattern :=
  [folder, .scalar .string, parent, .reference emptyToken, .scalar .empty, .list (.reference "(Folder)")]

theorem lookup_folder : scope.lookup "(Folder)" = .ok folder := rfl

theorem lookup_folder_withEmpty : scope.withEmpty.lookup "(Folder)" = .ok folder := rfl

theorem lookup_empty : scope.withEmpty.lookup emptyToken = .ok (.scalar .empty) := rfl

theorem mem_fields {field : String × Pattern} (h : field ∈ fields) :
    field.2 ∈ needed ∨ field = ("link?", .reference "(Folder)") := by
  simp only [fields, List.mem_cons, List.not_mem_nil, or_false] at h
  obtain rfl | rfl | rfl | rfl := h <;> simp [needed]

theorem mem_needed (hp : p ∈ needed) (h : scope.withEmpty.Needs Shallow p q) : q ∈ needed := by
  cases h with
  | @field _ isOpen field hf hstop =>
    obtain ⟨rfl, -⟩ : _ = fields ∧ isOpen = false := by simpa [needed, folder, parent] using hp
    obtain hmem | rfl := mem_fields hf
    · exact hmem
    · exact absurd (.reference "(Folder)") (hstop (by decide))
  | item hstop =>
    obtain rfl : q = .reference "(Folder)" := by simpa [needed, folder, parent] using hp
    exact absurd (.reference "(Folder)") hstop
  | @alternative ps q hq hstop =>
    obtain rfl : ps = [.reference emptyToken, .reference "(Folder)"] := by
      simpa [needed, folder, parent] using hp
    obtain rfl | hq := List.mem_cons.mp hq
    · simp [needed]
    · obtain rfl := List.mem_singleton.mp hq
      have hmarker : ∃ r ∈ [Pattern.reference emptyToken, .reference "(Folder)"], r.isEmptyMarker = true :=
        ⟨_, List.mem_cons_self, by decide⟩
      exact absurd (.reference "(Folder)") (hstop hmarker (by decide))
  | target hl =>
    obtain rfl : _ = emptyToken := by simpa [needed, folder, parent] using hp
    cases hl.symm.trans lookup_empty
    simp [needed]

theorem loopFree : scope.LoopFree Shallow := by
  refine Scope.loopFree_of_names fun token ht => ?_
  have hnames : scope.withEmpty.definitions.names = ["(Folder)", emptyToken] := rfl
  obtain rfl | rfl : token = "(Folder)" ∨ token = emptyToken := by simpa [hnames] using ht
  · refine not_cycle_of_closed (S := {p | p ∈ needed}) (fun q hq => ?_) (fun p hp q => mem_needed hp) ?_
    · cases hq with
      | target hl =>
        cases hl.symm.trans lookup_folder_withEmpty
        exact List.mem_cons_self
    · simp [needed, folder, parent, show "(Folder)" ≠ emptyToken by decide]
  · refine not_cycle_of_closed (S := {.scalar .empty}) (fun q hq => ?_) (fun p hp q hq => ?_) (by simp)
    · cases hq with
      | target hl =>
        cases hl.symm.trans lookup_empty
        rfl
    · obtain rfl := hp
      cases hq

/-- What a sample of a folder can come to: the reference itself and the folder without the token of absent
content, all else with it. -/
def IsMet (x : Pattern × Scope) : Prop :=
  x.2 = scope ∧ (x.1 = reference "(Folder)" ∨ x.1 = folder) ∨
    x.2 = scope.withEmpty ∧ (x.1 = reference "(Folder)" ∨ x.1 ∈ needed)

theorem IsMet.unfolds (hx : IsMet x) (h : Unfolds x y) : IsMet y := by
  cases h with
  | @field declared isOpen s field hf =>
    have hfields : (s = scope ∨ s = scope.withEmpty) ∧ declared = fields := by
      simp only [IsMet, needed, folder, parent] at hx
      grind
    obtain ⟨hs, rfl⟩ := hfields
    have hs : s.withEmpty = scope.withEmpty := by
      obtain rfl | rfl := hs
      · rfl
      · exact Scope.withEmpty_withEmpty scope
    obtain hmem | rfl := mem_fields hf
    · exact .inr ⟨hs, .inr hmem⟩
    · exact .inr ⟨hs, .inl rfl⟩
  | @alternative ps s q hq =>
    obtain ⟨rfl, rfl⟩ : s = scope.withEmpty ∧ ps = [.reference emptyToken, .reference "(Folder)"] := by
      simpa [IsMet, needed, folder, parent] using hx
    refine .inr ⟨Scope.withEmpty_withEmpty scope, ?_⟩
    obtain rfl | hq := List.mem_cons.mp hq
    · exact .inr (by simp [needed])
    · exact .inl (List.mem_singleton.mp hq)
  | item item s =>
    obtain ⟨rfl, rfl⟩ : s = scope.withEmpty ∧ item = .reference "(Folder)" := by
      simpa [IsMet, needed, folder, parent] using hx
    exact .inr ⟨rfl, .inl rfl⟩
  | @target token s q hl =>
    obtain ⟨rfl, rfl⟩ | ⟨rfl, rfl | rfl⟩ : s = scope ∧ token = "(Folder)" ∨
        s = scope.withEmpty ∧ (token = "(Folder)" ∨ token = emptyToken) := by
      simpa [IsMet, needed, folder, parent] using hx
    · cases hl.symm.trans lookup_folder
      exact .inl ⟨rfl, .inr rfl⟩
    · cases hl.symm.trans lookup_folder_withEmpty
      exact .inr ⟨rfl, .inr List.mem_cons_self⟩
    · cases hl.symm.trans lookup_empty
      exact .inr ⟨rfl, .inr (by simp [needed])⟩
  | entry => simp [IsMet, needed, folder, parent] at hx
  | child => simp [IsMet, needed, folder, parent] at hx

theorem IsMet.isComplete (hx : IsMet x) : x.1.IsComplete x.2 := by
  obtain ⟨p, s⟩ := x
  obtain ⟨rfl, rfl | rfl⟩ | ⟨rfl, rfl | hp⟩ := hx
  · exact ⟨_, lookup_folder⟩
  · trivial
  · exact ⟨_, lookup_folder_withEmpty⟩
  · simp only [needed, List.mem_cons, List.not_mem_nil, or_false] at hp
    obtain rfl | rfl | rfl | rfl | rfl | rfl := hp
    · trivial
    · trivial
    · exact List.cons_ne_nil _ _
    · exact ⟨_, lookup_empty⟩
    · trivial
    · trivial

theorem isComplete (h : ReflTransGen Unfolds (reference "(Folder)", scope) x) : x.1.IsComplete x.2 := by
  have hx : IsMet x := by
    induction h with
    | refl => exact .inl ⟨rfl, .inl rfl⟩
    | tail _ hyz ih => exact ih.unfolds hyz
  exact hx.isComplete

end Folders

theorem Pattern.exists_sample_folder :
    (∀ x, ReflTransGen Unfolds (reference "(Folder)", Folders.scope) x → x.1.IsComplete x.2) ∧
      Folders.scope.LoopFree Shallow ∧
      ∃ n, ∀ limit, n ≤ limit →
        ∃ v, (reference "(Folder)").sample { Folders.scope with depthLimit := limit } = .ok v :=
  ⟨fun _ => Folders.isComplete, Folders.loopFree,
    exists_sample (fun _ => Folders.isComplete) Folders.loopFree⟩

theorem ContractError.root_under (e : ContractError) (crumb : Crumb) : (e.under crumb).root = e.root := by
  cases e <;> rfl

namespace Wrapped

open Pattern

variable {s : Scope} {x y : Pattern × Scope}

/-- A child is written down as a record with the node in it. -/
def child : Pattern := .record [("node", .reference "(Node)")] false

def node : Pattern := .record [("value", .scalar .number), ("children", .list child)] false

def scope : Scope := .ofDefinitions [("(Node)", node)] ⟨.strict, 8, 100⟩

theorem lookup_node (hs : scope.Derives s) : s.lookup "(Node)" = .ok node := by
  rw [hs.lookup_eq (by decide)]
  rfl

/-- Each reference to the node stands below an item of a list. -/
theorem loopFree : scope.LoopFree fun _ => True := by
  refine Scope.loopFree_of_names fun token ht => ?_
  have hnames : scope.withEmpty.definitions.names = ["(Node)", emptyToken] := rfl
  obtain rfl | rfl : token = "(Node)" ∨ token = emptyToken := by simpa [hnames] using ht
  · refine not_cycle_of_closed (S := {node, .scalar .number, .list child}) (fun q hq => ?_)
      (fun p hp q hq => ?_) (by simp [node])
    · cases hq with
      | target hl =>
        cases hl.symm.trans (lookup_node (Scope.Derives.refl scope).withEmpty)
        exact .inl rfl
    · cases hq with
      | @field fields isOpen field hf =>
        obtain ⟨rfl, -⟩ : fields = [("value", .scalar .number), ("children", .list child)] ∧
            isOpen = false := by simpa [node] using hp
        obtain rfl | hf := List.mem_cons.mp hf
        · exact .inr (.inl rfl)
        · exact .inr (.inr (congrArg Prod.snd (List.mem_singleton.mp hf)))
      | item h => exact absurd trivial h
      | alternative => simp [node] at hp
      | target => simp [node] at hp
  · refine not_cycle_of_closed (S := {.scalar .empty}) (fun q hq => ?_) (fun p hp q hq => ?_) (by simp)
    · cases hq with
      | target hl =>
        cases hl.symm.trans (show scope.withEmpty.lookup emptyToken = .ok (.scalar .empty) from rfl)
        rfl
    · obtain rfl := hp
      cases hq

/-- What a sample of a node can come to. -/
def patterns : List Pattern := [.reference "(Node)", node, .scalar .number, .list child, child]

theorem mem_patterns_of_unfolds (hs : scope.Derives x.2) (hx : x.1 ∈ patterns) (h : Unfolds x y) :
    scope.Derives y.2 ∧ y.1 ∈ patterns := by
  cases h with
  | @field fields isOpen s field hf =>
    refine ⟨hs.withEmpty, ?_⟩
    obtain ⟨rfl, -⟩ | ⟨rfl, -⟩ : fields = [("value", .scalar .number), ("children", .list child)] ∧
        isOpen = false ∨ fields = [("node", .reference "(Node)")] ∧ isOpen = false := by
      simpa [patterns, node, child] using hx
    · obtain rfl | hf := List.mem_cons.mp hf
      · simp [patterns]
      · obtain rfl := List.mem_singleton.mp hf
        simp [patterns]
    · obtain rfl := List.mem_singleton.mp hf
      simp [patterns]
  | item item s =>
    obtain rfl : item = child := by simpa [patterns, node, child] using hx
    exact ⟨hs, by simp [patterns]⟩
  | target hl =>
    obtain rfl : _ = "(Node)" := by simpa [patterns, node, child] using hx
    cases hl.symm.trans (lookup_node hs)
    exact ⟨hs, by simp [patterns]⟩
  | alternative => simp [patterns, node, child] at hx
  | entry => simp [patterns, node, child] at hx
  | child => simp [patterns, node, Wrapped.child] at hx

theorem isComplete (h : ReflTransGen Unfolds (reference "(Node)", scope) x) : x.1.IsComplete x.2 := by
  have hx : scope.Derives x.2 ∧ x.1 ∈ patterns := by
    induction h with
    | refl => exact ⟨.refl _, List.mem_cons_self⟩
    | tail _ hyz ih => exact mem_patterns_of_unfolds ih.1 ih.2 hyz
  obtain ⟨p, s⟩ := x
  obtain ⟨hs, hp⟩ := hx
  simp only [patterns, List.mem_cons, List.not_mem_nil, or_false] at hp
  obtain rfl | rfl | rfl | rfl | rfl := hp
  · exact ⟨_, lookup_node hs⟩
  all_goals trivial

/-- A record fails as its fields do. -/
theorem sample_child {e : ContractError} (h : (reference "(Node)").sample s.withEmpty = .error e) :
    child.sample s = .error (e.under (.key "node")) := by
  rw [child, sample]
  simp only [List.map_cons, List.map_nil, collect, h]
  rfl

/-- The list has a child, since a record does not go back into a name. -/
theorem sample_node {e : ContractError} (h : child.sample s.withEmpty = .error e) :
    node.sample s = .error ((e.under (.index 0)).under (.key "children")) := by
  have hreenters : child.reenters s.withEmpty = false := by rw [child, reenters] <;> simp
  rw [node, sample]
  have hnumber : (scalar .number).sample s.withEmpty = .ok Scalar.number.sample := by rw [sample]
  have hlist : (list child).sample s.withEmpty = .error (e.under (.index 0)) := by
    rw [sample, hreenters, h]
    rfl
  simp only [List.map_cons, List.map_nil, collect, hnumber, hlist]
  rfl

theorem follow_of_no_room (hs : scope.Derives s) (hroom : s.headroom = 0) :
    s.follow (reference "(Node)") = .error (.nestedTooDeep "(Node)" s.depthLimit) := by
  have hdepth : ¬s.path.length < s.depthLimit := Nat.not_lt.mpr (Nat.le_of_sub_eq_zero hroom)
  have henter : s.enter "(Node)" = .error (.nestedTooDeep "(Node)" s.depthLimit) := if_neg hdepth
  rw [Scope.follow, Scope.followFrom, if_neg List.not_mem_nil, lookup_node hs]
  dsimp only
  split
  · rename_i he
    cases he.symm.trans henter
    rfl
  · rename_i he
    cases he.symm.trans henter

/-- Each node has a child, and the node in it needs one more name. -/
theorem sample_start (hs : scope.Derives s) :
    ∃ e, (reference "(Node)").sample s = .error e ∧ e.root = .nestedTooDeep "(Node)" s.depthLimit := by
  induction hn : s.headroom generalizing s with
  | zero =>
    refine ⟨.nestedTooDeep "(Node)" s.depthLimit, ?_, rfl⟩
    rw [sample]
    split
    · rename_i hf
      cases hf.symm.trans (follow_of_no_room hs hn)
      rfl
    · rename_i hf
      cases hf.symm.trans (follow_of_no_room hs hn)
  | succ n ih =>
    have hfollow : s.follow (reference "(Node)") = .ok (node, s.below ["(Node)"]) :=
      Scope.follow_of_leads (.hop (lookup_node hs) (.stop rfl)) (by simp [hn])
    obtain ⟨e, he, hroot⟩ := ih (hs.below ["(Node)"]).withEmpty.withEmpty (by simp [Scope.headroom_below, hn])
    refine ⟨_, (sample_of_follow hfollow).trans (sample_node (sample_child he)), ?_⟩
    rw [ContractError.root_under, ContractError.root_under, ContractError.root_under, hroot]
    simp [Scope.below]

end Wrapped

/-- An item that is a record is there each time, so no limit is enough. -/
theorem Pattern.not_exists_sample :
    (∀ x, ReflTransGen Unfolds (reference "(Node)", Wrapped.scope) x → x.1.IsComplete x.2) ∧
      (Wrapped.scope.LoopFree fun _ => True) ∧
      ∀ limit, ∃ e, (reference "(Node)").sample { Wrapped.scope with depthLimit := limit } = .error e ∧
        e.root = .nestedTooDeep "(Node)" limit :=
  ⟨fun _ => Wrapped.isComplete, Wrapped.loopFree, fun _ => Wrapped.sample_start ⟨rfl, rfl⟩⟩

end PayloadContracts
