import PayloadContracts.Proofs.Loosening

/-!
Acceptance when there is enough headroom for all names that have to be entered.
-/

namespace PayloadContracts

namespace Scope

variable {s t : Scope}

/-- The scope with headroom for as many names. -/
def deepened (s : Scope) (n : Nat) : Scope := { s with depthLimit := s.path.length + n }

@[simp] theorem headroom_deepened (s : Scope) (n : Nat) : (s.deepened n).headroom = n := by
  simp [headroom, deepened]

theorem deepened_withEmpty (s : Scope) (n : Nat) : s.withEmpty.deepened n = (s.deepened n).withEmpty := by
  unfold withEmpty deepened
  split <;> simp

/-- The second scope lets through what the first does, given as much headroom. -/
structure Loosens (s t : Scope) : Prop where
  definitions : t.definitions = s.definitions ∨ t.definitions = s.withEmpty.definitions
  policy : t.policy = s.policy ∨ t.policy = .permissive

namespace Loosens

theorem congr (hd : t.definitions = s.definitions) (hp : t.policy = s.policy) : s.Loosens t :=
  ⟨.inl hd, .inl hp⟩

theorem self_withEmpty (s : Scope) : s.Loosens s.withEmpty := ⟨.inr rfl, .inl (withEmpty_policy s)⟩

theorem withEmpty_right (h : s.Loosens t) : s.Loosens t.withEmpty :=
  ⟨.inr (withEmpty_definitions_of_or h.definitions), by simpa using h.policy⟩

theorem withEmpty (h : s.Loosens t) : s.withEmpty.Loosens t.withEmpty :=
  ⟨.inl (withEmpty_definitions_of_or h.definitions), by simpa using h.policy⟩

theorem leads (h : s.Loosens t) {p q : Pattern} {trail : List String} (hl : s.Leads p trail q) :
    t.Leads p trail q := by
  refine hl.mono fun name next hname => ?_
  obtain hd | hd := h.definitions
  · rwa [lookup_congr hd]
  · rw [lookup_congr hd]
    exact lookup_withEmpty hname

theorem follow (h : s.Loosens t) {p q : Pattern} {inner : Scope} (hf : t.follow p = .ok (q, inner)) :
    s.Loosens inner := by
  obtain ⟨trail, -, -, -, rfl⟩ := follow_eq_ok_iff.mp hf
  exact ⟨h.definitions, h.policy⟩

theorem deepened (h : s.Loosens t) {n m : Nat} (hn : n ≤ m) :
    (s.deepened n).Within (t.deepened m) := by
  refine ⟨?_, h.policy, by simpa using hn⟩
  rw [← deepened_withEmpty]
  exact h.definitions

end Loosens

theorem within_deepened (s : Scope) : s.Within (s.deepened s.headroom) := ⟨.inl rfl, .inl rfl, by simp⟩

/-- There is as much headroom left where names are entered that there is headroom for besides. -/
theorem deepened_within_below (s : Scope) (n : Nat) (trail : List String) :
    (s.deepened n).Within ((s.deepened (n + trail.length)).below trail) := by
  refine ⟨.inl rfl, .inl rfl, Nat.le_of_eq ?_⟩
  rw [headroom_deepened, headroom_below, headroom_deepened, Nat.add_sub_cancel]

theorem deepened_within_limit {n limit : Nat} (h : s.path.length + n ≤ limit) :
    (s.deepened n).Within { s with depthLimit := limit } := by
  refine ⟨.inl rfl, .inl rfl, ?_⟩
  rw [headroom_deepened]
  exact le_headroom h

theorem placeCheck_deepened {n m : Nat} (h : n ≤ m) {place : Slot Pattern} :
    Slot.Admits Eq ((s.deepened n).placeCheck place) ((s.deepened m).placeCheck place) := by
  have hw : (s.deepened n).Within (s.deepened m) := (Loosens.congr rfl rfl).deepened h
  refine placeCheck_admits rfl rfl (fun _ _ => .inl) ?_ fun _ => hw.checkText
  rintro v _ rfl
  exact hw.check

/-- Which place a child has does not depend on the headroom. -/
theorem slot_unique (hd : t.definitions = s.definitions) {p : Pattern} {place place' : Slot Pattern}
    (h : s.slot p = .ok place) (h' : t.slot p = .ok place') : place = place' := by
  have hs : s.Within ((s.withPolicy .permissive).deepened (s.headroom + t.headroom)) :=
    ⟨.inl rfl, .inr rfl, by simp⟩
  have ht : t.Within ((s.withPolicy .permissive).deepened (s.headroom + t.headroom)) :=
    ⟨.inl hd.symm, .inr rfl, by simp⟩
  have hplace := (hs.slot h).symm.trans (ht.slot h')
  cases hplace
  rfl

theorem slots_unique (hd : t.definitions = s.definitions) {children : List Pattern}
    {places places' : List (Slot Pattern)}
    (h : List.Forall₂ (fun child place => s.slot child = .ok place) children places)
    (h' : List.Forall₂ (fun child place => t.slot child = .ok place) children places') :
    places = places' := by
  induction h generalizing places' with
  | nil => cases h'; rfl
  | cons hplace _ ih =>
    cases h' with
    | cons hplace' hrest => rw [slot_unique hd hplace hplace', ih hrest]

end Scope

namespace Pattern

variable {p q : Pattern} {s t inner : Scope} {v : Value}

/-- The pattern accepts the value when there is enough headroom. -/
def DeepAccepts (p : Pattern) (v : Value) (s : Scope) : Prop :=
  ∃ n, p.check v (s.deepened n) = .accepted

theorem check_deepened {n m : Nat} (h : n ≤ m) (hc : p.check v (s.deepened n) = .accepted) :
    p.check v (s.deepened m) = .accepted :=
  ((Scope.Loosens.congr rfl rfl).deepened h).check hc

theorem DeepAccepts.loosen (h : p.DeepAccepts v s) (hl : s.Loosens t) : p.DeepAccepts v t := by
  obtain ⟨n, hn⟩ := h
  exact ⟨n, (hl.deepened (Nat.le_refl n)).check hn⟩

theorem deepAccepts_of_check (h : p.check v s = .accepted) : p.DeepAccepts v s :=
  ⟨s.headroom, s.within_deepened.check h⟩

/-- From some limit on, every limit is enough. -/
theorem DeepAccepts.exists_limit (h : p.DeepAccepts v s) :
    ∃ n, ∀ limit, n ≤ limit → p.check v { s with depthLimit := limit } = .accepted := by
  obtain ⟨n, hn⟩ := h
  exact ⟨s.path.length + n, fun _ hlimit => (Scope.deepened_within_limit hlimit).check hn⟩

theorem DeepAccepts.union {ps : List Pattern} (hp : p ∈ ps) (h : p.DeepAccepts v s.withEmpty) :
    (union ps).DeepAccepts v s := by
  obtain ⟨n, hn⟩ := h
  rw [Scope.deepened_withEmpty] at hn
  exact ⟨n, check_union_eq_accepted.mpr ⟨p, hp, hn⟩⟩

theorem DeepAccepts.list {item : Pattern} {items : List Value}
    (h : ∀ w ∈ items, item.DeepAccepts w s) : (list item).DeepAccepts (.list items) s := by
  obtain ⟨n, hn⟩ := exists_forall_mem (P := fun n w => item.check w (s.deepened n) = .accepted)
    (fun _ _ _ hle hw => check_deepened hle hw) h
  exact ⟨n, check_list_eq_accepted.mpr ⟨items, rfl, hn⟩⟩

theorem DeepAccepts.record {fields : Entries Pattern} {isOpen : Bool} {parts : Entries Value}
    (hkeys : keyMismatch? (Entries.names fields) (Entries.names parts) (s.policyFor isOpen) fieldMark =
      none)
    (h : ∀ field ∈ fields, ∀ part, Entries.get? parts (canonical field.1 fieldMark) = some part →
      field.2.DeepAccepts part s.withEmpty) :
    (record fields isOpen).DeepAccepts (.object parts) s := by
  have hbound : ∀ field ∈ fields, ∃ n, ∀ part,
      Entries.get? parts (canonical field.1 fieldMark) = some part →
        field.2.check part (s.withEmpty.deepened n) = .accepted := by
    intro field hf
    cases hget : Entries.get? parts (canonical field.1 fieldMark) with
    | none => exact ⟨0, fun part hpart => by cases hpart⟩
    | some part =>
      obtain ⟨n, hn⟩ := h field hf part hget
      refine ⟨n, fun other hother => ?_⟩
      cases hother
      exact hn
  obtain ⟨n, hn⟩ := exists_forall_mem
    (fun _ _ _ hle hc part hpart => check_deepened hle (hc part hpart)) hbound
  refine ⟨n, check_record_eq_accepted.mpr ⟨parts, rfl, hkeys, fun field hf part hpart => ?_⟩⟩
  rw [← Scope.deepened_withEmpty]
  exact hn field hf part hpart

theorem DeepAccepts.of_leads {trail : List String} (hl : s.Leads p trail q)
    (h : q.DeepAccepts v s) : p.DeepAccepts v s := by
  obtain ⟨n, hn⟩ := h
  have hl' : (s.deepened (n + trail.length)).Leads p trail q := hl.mono fun _ _ hname => hname
  exact ⟨n + trail.length, (check_of_leads hl').mpr
    ⟨by simp, (s.deepened_within_below n trail).check hn⟩⟩

theorem DeepAccepts.reference {token : String} (hf : s.follow (.reference token) = .ok (q, inner))
    (h : q.DeepAccepts v inner) : (reference token).DeepAccepts v s := by
  obtain ⟨trail, hl, -, -, rfl⟩ := Scope.follow_eq_ok_iff.mp hf
  exact .of_leads hl (h.loosen (.congr rfl rfl))

end Pattern

end PayloadContracts
