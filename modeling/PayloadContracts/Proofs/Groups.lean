import PayloadContracts.Proofs.Elements
import PayloadContracts.Proofs.Segments
import Mathlib.Data.List.TakeWhile

/-!
Places of one name that stand side by side and take the same children. The check from left to right
fits children to such places whenever the children can be cut into segments at all. Main statement:
`Shape.checkChildren_fits`.
-/

namespace PayloadContracts

namespace Slot

variable {α : Type} {place : Slot α} {places : List (Slot α)} {n : Nat}

/-- The places directly after this one that have its name. -/
def group (place : Slot α) (after : List (Slot α)) : List (Slot α) :=
  after.takeWhile fun next => next.name == place.name

/-- The places from the first one on that has another name. -/
def beyond (place : Slot α) (after : List (Slot α)) : List (Slot α) :=
  after.dropWhile fun next => next.name == place.name

theorem group_append_beyond (place : Slot α) (after : List (Slot α)) :
    place.group after ++ place.beyond after = after :=
  List.takeWhile_append_dropWhile

theorem mem_of_mem_group {next : Slot α} {after : List (Slot α)} (h : next ∈ place.group after) :
    next ∈ after ∧ next.name = place.name :=
  ⟨(List.takeWhile_sublist _).subset h, by simpa using List.mem_takeWhile_imp h⟩

/-- How many of the places need a child. -/
def needed (places : List (Slot α)) : Nat := (places.filter (·.occurs == .required)).length

theorem needed_le (places : List (Slot α)) : needed places ≤ places.length :=
  List.length_filter_le _ places

theorem needed_cons_required (h : place.occurs = .required) :
    needed (place :: places) = needed places + 1 := by
  simp [needed, h]

theorem needed_cons_of_ne (h : place.occurs ≠ .required) :
    needed (place :: places) = needed places := by
  simp [needed, h]

/-- As many children can be shared out over the places, whichever children they are. -/
def CanHold (places : List (Slot α)) (n : Nat) : Prop :=
  needed places ≤ n ∧ (n ≤ places.length ∨ ∃ place ∈ places, place.occurs = .multiple)

theorem canHold_nil : CanHold ([] : List (Slot α)) n ↔ n = 0 := by
  simp [CanHold, needed]

theorem canHold_cons :
    CanHold (place :: places) n ↔ ∃ k ≤ n, place.occurs.Allows k ∧ CanHold places (n - k) := by
  have hlen := needed_le places
  rw [CanHold, List.exists_mem_cons_iff, List.length_cons]
  cases ho : place.occurs with
  | required =>
    rw [needed_cons_required ho]
    constructor
    · rintro ⟨hmin, hmax⟩
      exact ⟨1, by omega, rfl, by omega, hmax.imp (by omega) (by simp)⟩
    · rintro ⟨_, hk, rfl, hmin, hmax⟩
      exact ⟨by omega, hmax.imp (by omega) .inr⟩
  | optional =>
    rw [needed_cons_of_ne (by simp [ho])]
    constructor
    · rintro ⟨hmin, hmax⟩
      have hk : min (n - needed places) 1 ≤ n := by omega
      exact ⟨_, hk, Nat.min_le_right _ _, by omega, hmax.imp (by omega) (by simp)⟩
    · rintro ⟨k, hk, hallows, hmin, hmax⟩
      have hone : k ≤ 1 := hallows
      exact ⟨by omega, hmax.imp (by omega) .inr⟩
  | multiple =>
    rw [needed_cons_of_ne (by simp [ho])]
    constructor
    · rintro ⟨hmin, -⟩
      exact ⟨n - needed places, by omega, trivial, by omega, .inl (by omega)⟩
    · rintro ⟨k, hk, -, hmin, -⟩
      exact ⟨by omega, .inr (.inl rfl)⟩

/-- What the place at the front takes leaves the others of its name with what they can share out. -/
theorem CanHold.share {after : List (Slot α)} (h : CanHold (place :: place.group after) n)
    (ho : place.occurs ≠ .required) : CanHold (place.group after) (n - place.share after n) := by
  have hlen := needed_le (place.group after)
  have hreserved : reserved place.name after = needed (place.group after) := rfl
  obtain ⟨hmin, hmax⟩ := h
  rw [needed_cons_of_ne ho] at hmin
  rw [List.exists_mem_cons_iff, List.length_cons] at hmax
  rw [Slot.share, hreserved]
  cases hp : place.occurs with
  | required => exact absurd hp ho
  | optional =>
    simp only [beq_self_eq_true, if_true]
    exact ⟨by omega, hmax.imp (by omega) (by simp [hp])⟩
  | multiple =>
    have hrest : n - (n - needed (place.group after)) = needed (place.group after) := by omega
    refine ⟨Nat.le_of_eq hrest.symm, .inl ?_⟩
    exact Nat.le_trans (Nat.le_of_eq hrest) hlen

end Slot

/-- Places of one name stand together, and at most one is for text. -/
structure Grouped {α : Type} (places : List (Slot α)) : Prop where
  together : ∀ a b c, [a, b, c].Sublist places → a.name = c.name → a.name = b.name
  oneText : ∀ a b, [a, b].Sublist places → a.isText = true → b.isText = false

namespace Grouped

variable {α : Type} {place : Slot α} {places : List (Slot α)}

theorem tail (h : Grouped (place :: places)) : Grouped places :=
  ⟨fun a b c hs => h.together a b c (hs.cons _), fun a b hs => h.oneText a b (hs.cons _)⟩

theorem of_nodup (h : (places.map Slot.name).Nodup) : Grouped places := by
  constructor
  · intro a b c hs he
    have hd := h.sublist (hs.map Slot.name)
    simp [he] at hd
  · intro a b hs ha
    have hd := h.sublist (hs.map Slot.name)
    have hne : a.name ≠ b.name := by simpa using hd
    cases hb : b.isText with
    | false => rfl
    | true =>
      rw [Slot.isText, Option.isNone_iff_eq_none] at ha hb
      exact absurd (ha.trans hb.symm) hne

/-- Once another name has come, the name does not come again. -/
theorem ne_of_mem_beyond (h : Grouped (place :: places)) {other : Slot α}
    (ho : other ∈ place.beyond places) : other.name ≠ place.name := by
  intro he
  rw [Slot.beyond] at ho
  cases hd : places.dropWhile fun next => next.name == place.name with
  | nil => simp [hd] at ho
  | cons first rest =>
    have hfirst : first.name ≠ place.name := by
      have := List.head?_dropWhile_not (fun next : Slot α => next.name == place.name) places
      simpa [hd] using this
    rw [hd] at ho
    obtain rfl | ho := List.mem_cons.mp ho
    · exact hfirst he
    · have hlater := List.dropWhile_sublist (fun next : Slot α => next.name == place.name) (l := places)
      rw [hd] at hlater
      have hs : [place, first, other].Sublist (place :: places) :=
        .cons_cons _ (.trans (.cons_cons _ (List.singleton_sublist.mpr ho)) hlater)
      exact hfirst (h.together _ _ _ hs he.symm).symm

theorem isText_eq_false (h : Grouped (place :: places)) {next : Slot α} (hn : next ∈ places)
    (he : next.name = place.name) : next.isText = false := by
  have hs : [place, next].Sublist (place :: places) :=
    List.Sublist.cons_cons _ (List.singleton_sublist.mpr hn)
  cases ht : next.isText with
  | false => rfl
  | true =>
    have hplace : place.isText = true := Slot.isText_eq_of_name_eq he ▸ ht
    exact ht.symm.trans (h.oneText _ _ hs hplace)

end Grouped

namespace Fits

variable {α : Type} {ok : Slot α → Value → Prop} {good : Value → Prop}
  {group others : List (Slot α)} {vs : List Value}

/-- Children fit places that take the same children, and others after them, if they start with as
many of the former as the places can hold. -/
theorem group_iff (hsame : ∀ place ∈ group, ∀ v, ok place v ↔ good v)
    (htext : ∀ place ∈ group, place.isText = false) :
    Fits ok (group ++ others) vs ↔
      ∃ ws rest, vs = ws ++ rest ∧ Slot.CanHold group ws.length ∧ (∀ v ∈ ws, good v) ∧
        Fits ok others rest := by
  induction group generalizing vs with
  | nil =>
    constructor
    · exact fun h => ⟨[], vs, rfl, Slot.canHold_nil.mpr rfl, by simp, h⟩
    · rintro ⟨ws, rest, rfl, hhold, -, h⟩
      obtain rfl := List.eq_nil_of_length_eq_zero (Slot.canHold_nil.mp hhold)
      exact h
  | cons place group ih =>
    have ih : ∀ {vs}, _ := fun {vs} => @ih vs (fun next hn => hsame next (List.mem_cons_of_mem _ hn))
      fun next hn => htext next (List.mem_cons_of_mem _ hn)
    have hplace := hsame place List.mem_cons_self
    constructor
    · intro h
      cases h with
      | @segment _ _ seg _ count each h =>
        obtain ⟨ws, rest, rfl, hhold, hgood, hrest⟩ := ih.mp h
        refine ⟨seg ++ ws, rest, (List.append_assoc ..).symm, ?_, fun v hv => ?_, hrest⟩
        · refine Slot.canHold_cons.mpr ⟨seg.length, by simp, count, ?_⟩
          simpa using hhold
        · exact (List.mem_append.mp hv).elim (fun hv => (hplace v).mp (each v hv)) (hgood v)
      | blank _ text => simp [htext place List.mem_cons_self] at text
    · rintro ⟨ws, rest, rfl, hhold, hgood, hrest⟩
      obtain ⟨k, hk, hallows, hhold⟩ := Slot.canHold_cons.mp hhold
      rw [← List.take_append_drop k ws, List.append_assoc]
      refine .segment (by rwa [List.length_take_of_le hk])
        (fun v hv => (hplace v).mpr (hgood v (List.mem_of_mem_take hv))) (ih.mpr ?_)
      exact ⟨ws.drop k, rest, rfl, by rwa [List.length_drop],
        fun v hv => hgood v (List.mem_of_mem_drop hv), hrest⟩

/-- Children fit the places after one if they start with as many children that this one takes as the
places of its name can hold. -/
theorem after_iff {place : Slot α} {places : List (Slot α)} (hgrouped : Grouped (place :: places))
    (hsame : ∀ next ∈ places, next.name = place.name → ∀ v, ok next v ↔ ok place v) :
    Fits ok places vs ↔
      ∃ ws rest, vs = ws ++ rest ∧ Slot.CanHold (place.group places) ws.length ∧
        (∀ v ∈ ws, ok place v) ∧ Fits ok (place.beyond places) rest := by
  have hgroup : Fits ok (place.group places ++ place.beyond places) vs ↔ _ :=
    group_iff (fun next hn => hsame next (Slot.mem_of_mem_group hn).1 (Slot.mem_of_mem_group hn).2)
      fun next hn =>
        hgrouped.isText_eq_false (Slot.mem_of_mem_group hn).1 (Slot.mem_of_mem_group hn).2
  rwa [Slot.group_append_beyond] at hgroup

/-- Children that fit the places beyond those of a name do not start with one of that name. -/
theorem takeWhile_beyond {place : Slot α} {places : List (Slot α)}
    (hgrouped : Grouped (place :: places)) (h : Fits ok (place.beyond places) vs)
    (haccepts : ∀ next ∈ places, ∀ v, ok next v → next.accepts v = true) :
    vs.takeWhile place.accepts = [] := by
  cases vs with
  | nil => rfl
  | cons v vs =>
    have hlater : ∀ other ∈ place.beyond places, other ∈ places := fun _ ho =>
      (List.dropWhile_sublist _).subset ho
    obtain ⟨other, hother, ha⟩ := h.exists_accepts (fun other ho => haccepts other (hlater other ho))
      v List.mem_cons_self
    exact List.takeWhile_cons_of_neg fun hp =>
      hgrouped.ne_of_mem_beyond hother (Slot.name_eq_of_accepts ha hp)

end Fits

section Checks

variable {α : Type} {check : Slot α → Value → Verdict} {place : Slot α} {places : List (Slot α)}
  {vs : List Value}

/-- Where places of one name stand together and take the same children, children that can be cut
into segments are. -/
theorem Fits.checkSlots_of_grouped (h : Fits (fun place v => check place v = .accepted) places vs)
    (hgrouped : Grouped places)
    (hsame : ∀ a b, [a, b].Sublist places → a.name = b.name → ∀ v,
      check a v = .accepted ↔ check b v = .accepted)
    (haccepts : ∀ place ∈ places, ∀ v, check place v = .accepted → place.accepts v = true) :
    PayloadContracts.checkSlots (places.map (Slot.fill check)) vs = .accepted := by
  induction places generalizing vs with
  | nil =>
    cases h
    rfl
  | cons place places ih =>
    have hrest : ∀ {vs}, Fits (fun place v => check place v = .accepted) places vs →
        PayloadContracts.checkSlots (places.map (Slot.fill check)) vs = .accepted := fun h =>
      ih h hgrouped.tail (fun a b hs => hsame a b (hs.cons _))
        fun next hn => haccepts next (List.mem_cons_of_mem _ hn)
    by_cases ho : (place.fill check).occurs = .required
    · cases h with
      | segment count each h =>
        rw [← Slot.fill_occurs check, ho] at count
        obtain ⟨v, rfl⟩ := List.length_eq_one_iff.mp count
        exact (checkSlots_required_cons ho).mpr ⟨each v List.mem_cons_self, hrest h⟩
      | blank _ text empty h => exact (checkSlots_required_nil ho).mpr ⟨text, empty, hrest h⟩
    · cases h with
      | blank required => exact absurd required ho
      | @segment _ _ seg _ count each h =>
        have hafter : ∀ vs, Fits (fun place v => check place v = .accepted) places vs ↔ _ :=
          fun _ => Fits.after_iff hgrouped fun next hn he v =>
            (hsame place next (.cons_cons _ (List.singleton_sublist.mpr hn)) he.symm v).symm
        obtain ⟨ws, rest, rfl, hhold, hgood, hbeyond⟩ := (hafter _).mp h
        -- The children of this name are those of the segment and those of the group after it.
        have hall : ∀ v ∈ seg ++ ws, check place v = .accepted := fun v hv =>
          (List.mem_append.mp hv).elim (each v) (hgood v)
        have hrun : (seg ++ (ws ++ rest)).takeWhile (place.fill check).accepts = seg ++ ws := by
          have hstop := hbeyond.takeWhile_beyond hgrouped
            fun next hn => haccepts next (List.mem_cons_of_mem _ hn)
          rw [← List.append_assoc, List.takeWhile_append_of_pos, Slot.fill_accepts, hstop,
            List.append_nil]
          exact fun v hv => haccepts place List.mem_cons_self v (hall v hv)
        have hheld : Slot.CanHold (place :: place.group places) (seg ++ ws).length :=
          Slot.canHold_cons.mpr ⟨seg.length, by simp, count, by simpa using hhold⟩
        have hle := place.share_le places (seg ++ ws).length
        refine (checkSlots_run ho).mpr ?_
        rw [hrun, Slot.share_fill, ← List.append_assoc, List.take_append_of_le_length hle,
          List.drop_append_of_le_length hle]
        refine ⟨checkAll_eq_accepted.mpr fun v hv => hall v (List.mem_of_mem_take hv),
          hrest ((hafter _).mpr ⟨_, rest, rfl, ?_, fun v hv => hall v (List.mem_of_mem_drop hv), hbeyond⟩)⟩
        rw [List.length_drop]
        exact hheld.share ho

/-- Where no two places have the same name, children that can be cut into segments are. -/
theorem Fits.checkSlots (h : Fits (fun place v => check place v = .accepted) places vs)
    (apart : (places.map Slot.name).Nodup)
    (haccepts : ∀ place ∈ places, ∀ v, check place v = .accepted → place.accepts v = true) :
    PayloadContracts.checkSlots (places.map (Slot.fill check)) vs = .accepted := by
  refine h.checkSlots_of_grouped (.of_nodup apart) (fun a b hs he => ?_) haccepts
  have hd := apart.sublist (hs.map Slot.name)
  simp [he] at hd

end Checks

end PayloadContracts
