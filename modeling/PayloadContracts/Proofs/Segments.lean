import PayloadContracts.Comparison.Sequence
import PayloadContracts.Proofs.Verdicts

/-!
The children of an element cut into segments, one for each place. Main statements:
`fits_of_checkSlots` for the places of one side, `Fits.of_compareSlots` for those of two.
-/

namespace PayloadContracts

/-- How many children may stand in a place. -/
def Occurs.Allows : Occurs → Nat → Prop
  | required, n => n = 1
  | optional, n => n ≤ 1
  | multiple, _ => True

theorem Occurs.allows_one (occurs : Occurs) : occurs.Allows 1 := by
  cases occurs with
  | required => rfl
  | optional => exact Nat.le_refl 1
  | multiple => trivial

theorem Occurs.allows_zero {occurs : Occurs} (h : occurs ≠ .required) : occurs.Allows 0 := by
  cases occurs with
  | required => exact absurd rfl h
  | optional => exact Nat.zero_le 1
  | multiple => trivial

theorem Occurs.Allows.of_admits {bigger smaller : Occurs} {n : Nat}
    (h : bigger.admits smaller = true) (hn : smaller.Allows n) : bigger.Allows n := by
  cases bigger <;> cases smaller <;> simp_all [admits, Allows]

theorem Occurs.admits_self (occurs : Occurs) : occurs.admits occurs = true := by
  cases occurs <;> rfl

namespace Slot

variable {α β : Type} {place other : Slot α} {v : Value}

/-- The place with something else known of it. -/
def fill (f : Slot α → β) (place : Slot α) : Slot β := ⟨place.occurs, place.name, f place⟩

@[simp] theorem fill_occurs (f : Slot α → β) : (place.fill f).occurs = place.occurs := rfl

@[simp] theorem fill_name (f : Slot α → β) : (place.fill f).name = place.name := rfl

@[simp] theorem fill_content (f : Slot α → β) : (place.fill f).content = f place := rfl

@[simp] theorem fill_isText (f : Slot α → β) : (place.fill f).isText = place.isText := rfl

@[simp] theorem fill_accepts (f : Slot α → β) : (place.fill f).accepts = place.accepts := rfl

theorem name_eq_of_accepts {next : Slot β} (h : place.accepts v = true)
    (h' : next.accepts v = true) : place.name = next.name := by
  cases hn : place.name <;> cases hn' : next.name <;> cases v <;> simp_all [accepts]

theorem isText_eq_of_name_eq (h : place.name = other.name) : place.isText = other.isText := by
  rw [isText, isText, h]

theorem reserved_fill (f : Slot α → β) (name : Option String) (after : List (Slot α)) :
    reserved name (after.map (fill f)) = reserved name after := by
  simp only [reserved, List.takeWhile_map, List.filter_map, List.length_map]
  rfl

theorem share_fill (f : Slot α → β) (after : List (Slot α)) (run : Nat) :
    (place.fill f).share (after.map (fill f)) run = place.share after run := by
  simp only [share, reserved_fill, fill_name, fill_occurs]

theorem reserved_of_head? {name : Option String} {after : List (Slot α)}
    (h : ∀ next ∈ after.head?, next.name ≠ name) : reserved name after = 0 := by
  cases after with
  | nil => rfl
  | cons next after => simp [reserved, h next rfl]

/-- A place that no place of the same name follows directly takes all that come to it, if it may. -/
theorem share_of_allows {after : List (Slot α)} {run : Nat} (hr : place.occurs ≠ .required)
    (h : ∀ next ∈ after.head?, next.name ≠ place.name) (hrun : place.occurs.Allows run) :
    place.share after run = run := by
  rw [share, reserved_of_head? h]
  cases ho : place.occurs with
  | required => exact absurd ho hr
  | optional =>
    rw [ho] at hrun
    exact Nat.min_eq_left hrun
  | multiple => rfl

end Slot

/-- The children fall into segments, one for each place, with as many children as the place allows,
each of them all right there. A required place for text can do without if no children are left and
empty text is all right. -/
inductive Fits {α : Type} (ok : Slot α → Value → Prop) : List (Slot α) → List Value → Prop
  | nil : Fits ok [] []
  | segment {place : Slot α} {places : List (Slot α)} {vs rest : List Value}
      (count : place.occurs.Allows vs.length) (each : ∀ v ∈ vs, ok place v)
      (h : Fits ok places rest) : Fits ok (place :: places) (vs ++ rest)
  | blank {place : Slot α} {places : List (Slot α)} (required : place.occurs = .required)
      (text : place.isText = true) (empty : ok place (.text "")) (h : Fits ok places []) :
      Fits ok (place :: places) []

namespace Fits

variable {α : Type} {ok more : Slot α → Value → Prop} {places : List (Slot α)} {vs : List Value}

theorem mono (h : Fits ok places vs) (hok : ∀ place ∈ places, ∀ v, ok place v → more place v) :
    Fits more places vs := by
  induction h with
  | nil => exact .nil
  | segment count each _ ih =>
    have hplace := hok _ List.mem_cons_self
    exact .segment count (fun v hv => hplace v (each v hv))
      (ih fun place hp => hok place (List.mem_cons_of_mem _ hp))
  | blank required text empty _ ih =>
    have hplace := hok _ List.mem_cons_self
    exact .blank required text (hplace _ empty)
      (ih fun place hp => hok place (List.mem_cons_of_mem _ hp))

/-- A place that need not have a child can go without. -/
theorem skip {place : Slot α} (ho : place.occurs ≠ .required) (h : Fits ok places vs) :
    Fits ok (place :: places) vs :=
  .segment (Occurs.allows_zero ho) (List.forall_mem_nil _) h

/-- Where each child is all right from some bound on, one bound will do for all of them. -/
theorem exists_bound {P : Nat → Slot α → Value → Prop}
    (hmono : ∀ n m place v, n ≤ m → P n place v → P m place v)
    (h : Fits (fun place v => ∃ n, P n place v) places vs) : ∃ n, Fits (P n) places vs := by
  induction h with
  | nil => exact ⟨0, .nil⟩
  | segment count each _ ih =>
    obtain ⟨n, hn⟩ := exists_forall_mem (fun n m v => hmono n m _ v) each
    obtain ⟨m, hm⟩ := ih
    refine ⟨max n m, .segment count (fun v hv => ?_) (hm.mono fun place _ v => ?_)⟩
    · exact hmono _ _ _ _ (Nat.le_max_left n m) (hn v hv)
    · exact hmono _ _ _ _ (Nat.le_max_right n m)
  | blank required text empty _ ih =>
    obtain ⟨n, hn⟩ := empty
    obtain ⟨m, hm⟩ := ih
    refine ⟨max n m, .blank required text ?_ (hm.mono fun place _ v => ?_)⟩
    · exact hmono _ _ _ _ (Nat.le_max_left n m) hn
    · exact hmono _ _ _ _ (Nat.le_max_right n m)

theorem exists_accepts (h : Fits ok places vs)
    (haccepts : ∀ place ∈ places, ∀ v, ok place v → place.accepts v = true) :
    ∀ v ∈ vs, ∃ place ∈ places, place.accepts v = true := by
  induction h with
  | nil => simp
  | @segment place _ _ _ _ each _ ih =>
    intro v hv
    obtain hv | hv := List.mem_append.mp hv
    · exact ⟨place, List.mem_cons_self, haccepts _ List.mem_cons_self v (each v hv)⟩
    · obtain ⟨next, hn, ha⟩ := ih (fun next hn => haccepts next (List.mem_cons_of_mem _ hn)) v hv
      exact ⟨next, List.mem_cons_of_mem _ hn, ha⟩
  | blank => simp

end Fits

section Checks

variable {α : Type} {check : Slot α → Value → Verdict} {places : List (Slot α)} {vs : List Value}

/-- What a place without a fixed count takes is not more than it allows. -/
theorem Slot.allows_share {place : Slot α} (hr : place.occurs ≠ .required)
    (after : List (Slot α)) (run : Nat) : place.occurs.Allows (place.share after run) := by
  cases ho : place.occurs with
  | required => exact absurd ho hr
  | optional =>
    rw [share, ho]
    exact Nat.min_le_right _ _
  | multiple => trivial

theorem Slot.share_le {place : Slot α} (after : List (Slot α)) (run : Nat) :
    place.share after run ≤ run := by
  have hmin := Nat.min_le_left (run - reserved place.name after) 1
  simp only [share]
  split <;> omega

theorem fits_of_checkSlots (h : checkSlots (places.map (Slot.fill check)) vs = .accepted) :
    Fits (fun place v => check place v = .accepted) places vs := by
  induction places generalizing vs with
  | nil =>
    obtain rfl := checkSlots_nil_eq_accepted.mp h
    exact .nil
  | cons place places ih =>
    by_cases ho : (place.fill check).occurs = .required
    · cases vs with
      | nil =>
        obtain ⟨ht, hempty, hrest⟩ := (checkSlots_required_nil ho).mp h
        exact .blank ho ht hempty (ih hrest)
      | cons v vs =>
        obtain ⟨hv, hrest⟩ := (checkSlots_required_cons ho).mp h
        exact .segment place.occurs.allows_one (List.forall_mem_singleton.mpr hv) (ih hrest)
    · obtain ⟨hall, hrest⟩ := (checkSlots_run ho).mp h
      rw [← List.take_append_drop ((place.fill check).share (places.map (Slot.fill check))
        (vs.takeWhile (place.fill check).accepts).length) vs]
      refine .segment ?_ (checkAll_eq_accepted.mp hall) (ih hrest)
      have hprefix := (List.takeWhile_prefix (l := vs) (place.fill check).accepts).length_le
      rw [List.length_take_of_le (Nat.le_trans (Slot.share_le _ _) hprefix)]
      exact Slot.allows_share ho _ _

end Checks

section Comparisons

variable {compare : Slot Pattern → Pattern → Verdict} {place other : Slot Pattern}
  {places others : List (Slot Pattern)}

theorem compareSlot_eq_accepted :
    compareSlot (place.fill compare) others = .accepted ↔
      ∀ other ∈ others, place.occurs.admits other.occurs = true ∧
        compare place other.content = .accepted := by
  induction others with
  | nil => simp [compareSlot]
  | cons other others ih =>
    rw [compareSlot, List.forall_mem_cons, ← ih]
    by_cases h : place.occurs.admits other.occurs = true
    · cases hn : place.name <;> simp [h, Slot.under, hn]
    · cases hn : place.name <;> simp [h, Slot.under, hn, Verdict.reject]

theorem compareSlots_nil_eq_accepted :
    compareSlots ([] : List (Slot (Pattern → Verdict))) others = .accepted ↔ others = [] := by
  cases others with
  | nil => simp [compareSlots]
  | cons other others => cases hn : other.name <;> simp [compareSlots, Slot.under, hn, Verdict.reject]

theorem compareSlots_exhausted :
    compareSlots ((place :: places).map (Slot.fill compare)) [] = .accepted ↔
      (place.occurs = .required → place.isText = true ∧
        compare place (.literal (.text "")) = .accepted) ∧
        compareSlots (places.map (Slot.fill compare)) [] = .accepted := by
  rw [List.map_cons, compareSlots]
  by_cases ho : place.occurs = .required
  · cases hn : place.name <;>
      cases hc : compare place (.literal (.text "")) <;>
      simp [ho, Slot.isText, hn, Verdict.isAccepted, hc, Slot.under, Verdict.reject]
  · simp [ho]

theorem compareSlots_apart (h : place.name ≠ other.name) :
    compareSlots ((place :: places).map (Slot.fill compare)) (other :: others) = .accepted ↔
      place.occurs ≠ .required ∧
        compareSlots (places.map (Slot.fill compare)) (other :: others) = .accepted := by
  rw [List.map_cons, compareSlots, if_neg (by simpa using h)]
  by_cases ho : place.occurs = .required
  · cases hn : place.name <;> simp [ho, Slot.under, hn, Verdict.reject]
  · simp [ho]

/-- How many places of the smaller side fall to a place when one of its name comes first there. -/
def Slot.taken (place : Slot Pattern) (places others : List (Slot Pattern)) : Nat :=
  if place.occurs == .required then 1
  else place.share places (others.takeWhile fun next => place.name == next.name).length

theorem compareSlots_meeting (h : place.name = other.name) :
    compareSlots ((place :: places).map (Slot.fill compare)) (other :: others) = .accepted ↔
      compareSlot (place.fill compare)
          ((other :: others).take (place.taken places (other :: others))) = .accepted ∧
        compareSlots (places.map (Slot.fill compare))
          ((other :: others).drop (place.taken places (other :: others))) = .accepted := by
  rw [List.map_cons, compareSlots, if_pos (by simpa using h)]
  simp only [Verdict.andThen_eq_accepted, Slot.share_fill, Slot.fill_occurs, Slot.fill_name, Slot.taken]

/-- Two places of one name meet, where the bigger side takes one of the smaller side. -/
theorem compareSlots_together (h : place.name = other.name)
    (hone : place.occurs ≠ .required → (place.fill compare).share (places.map (Slot.fill compare))
      ((other :: others).takeWhile fun next => place.name == next.name).length = 1) :
    compareSlots ((place :: places).map (Slot.fill compare)) (other :: others) = .accepted ↔
      (place.occurs.admits other.occurs = true ∧ compare place other.content = .accepted) ∧
        compareSlots (places.map (Slot.fill compare)) others = .accepted := by
  have htaken : place.taken places (other :: others) = 1 := by
    by_cases ho : place.occurs = .required
    · simp [Slot.taken, ho]
    · rw [Slot.taken, if_neg (by simpa using ho), ← Slot.share_fill compare]
      exact hone ho
  rw [compareSlots_meeting h, htaken]
  simp only [List.take_succ_cons, List.take_zero, List.drop_succ_cons, List.drop_zero,
    compareSlot_eq_accepted, List.forall_mem_singleton]

theorem takeWhile_name_of_ne {name : Option String} (h : ∀ next ∈ others.head?, name ≠ next.name) :
    (others.takeWhile fun next => name == next.name) = [] := by
  cases others with
  | nil => rfl
  | cons next others => exact List.takeWhile_cons_of_neg (by simpa using h next rfl)

/-- Where no two places of a side have the same name, children that fit the places of the smaller
side fit those of the bigger one. -/
theorem Fits.of_compareSlots {ok more : Slot Pattern → Value → Prop} {vs : List Value}
    (apart : (places.map Slot.name).Nodup) (othersApart : (others.map Slot.name).Nodup)
    (h : compareSlots (places.map (Slot.fill compare)) others = .accepted)
    (hfits : Fits ok others vs)
    (hcover : ∀ place ∈ places, ∀ other ∈ others, place.name = other.name →
      compare place other.content = .accepted → ∀ v, v = .text "" ∨ v ∈ vs → ok other v → more place v)
    (hempty : ∀ place ∈ places, place.isText = true →
      compare place (.literal (.text "")) = .accepted → more place (.text "")) :
    Fits more places vs := by
  induction places generalizing others vs with
  | nil =>
    obtain rfl := compareSlots_nil_eq_accepted.mp h
    cases hfits
    exact .nil
  | cons place places ih =>
    obtain ⟨hnew, hapart⟩ := List.nodup_cons.mp apart
    have hempty' := fun next hn => hempty next (List.mem_cons_of_mem _ hn)
    have hcover' := fun next hn => hcover next (List.mem_cons_of_mem place hn)
    cases others with
    | nil =>
      cases hfits
      obtain ⟨hrequired, hrest⟩ := compareSlots_exhausted.mp h
      have hfit := ih hapart othersApart hrest .nil hcover' hempty'
      by_cases ho : place.occurs = .required
      · obtain ⟨ht, hc⟩ := hrequired ho
        exact .blank ho ht (hempty place List.mem_cons_self ht hc) hfit
      · exact hfit.skip ho
    | cons other others =>
      by_cases hname : place.name = other.name
      · obtain ⟨hother, hothers⟩ := List.nodup_cons.mp othersApart
        have hone : place.occurs ≠ .required →
            (place.fill compare).share (places.map (Slot.fill compare))
              ((other :: others).takeWhile fun next => place.name == next.name).length = 1 := by
          intro ho
          have hrun : (others.takeWhile fun next => place.name == next.name) = [] := by
            refine takeWhile_name_of_ne fun next hn he => hother ?_
            rw [← hname, he]
            exact List.mem_map_of_mem (List.mem_of_mem_head? hn)
          rw [List.takeWhile_cons_of_pos (by simpa using hname), hrun]
          rw [Slot.share_fill]
          refine Slot.share_of_allows ho (fun next hn he => hnew ?_) (Occurs.allows_one _)
          exact he ▸ List.mem_map_of_mem (List.mem_of_mem_head? hn)
        obtain ⟨⟨hadmits, hc⟩, hrest⟩ := (compareSlots_together hname hone).mp h
        have hhere := hcover place List.mem_cons_self other List.mem_cons_self hname hc
        cases hfits with
        | @segment _ _ seg rest count each hfit =>
          refine .segment (count.of_admits hadmits) (fun v hv => ?_) ?_
          · exact hhere v (.inr (List.mem_append_left _ hv)) (each v hv)
          · refine ih hapart hothers hrest hfit (fun next hn other' ho he hc' v hv => ?_) hempty'
            exact hcover' next hn other' (List.mem_cons_of_mem _ ho) he hc' v
              (hv.imp_right (List.mem_append_right _))
        | blank required text empty hfit =>
          have hfit' := ih hapart hothers hrest hfit
            (fun next hn other' ho => hcover' next hn other' (List.mem_cons_of_mem _ ho)) hempty'
          by_cases ho : place.occurs = .required
          · refine .blank ho ?_ (hhere _ (.inl rfl) empty) hfit'
            rwa [Slot.isText_eq_of_name_eq hname]
          · exact hfit'.skip ho
      · obtain ⟨ho, hrest⟩ := (compareSlots_apart hname).mp h
        exact (ih hapart othersApart hrest hfits hcover' hempty').skip ho

/-- Places compare if they did with a comparison that accepts no more in any of them. -/
theorem compareSlots_mono {compare' : Slot Pattern → Pattern → Verdict}
    (hmore : ∀ place ∈ places, ∀ q, compare place q = .accepted → compare' place q = .accepted)
    (h : compareSlots (places.map (Slot.fill compare)) others = .accepted) :
    compareSlots (places.map (Slot.fill compare')) others = .accepted := by
  induction places generalizing others with
  | nil => exact h
  | cons place places ih =>
    have hplace := hmore place List.mem_cons_self
    have hplaces := fun next hn => hmore next (List.mem_cons_of_mem place hn)
    cases others with
    | nil =>
      obtain ⟨hrequired, hrest⟩ := compareSlots_exhausted.mp h
      exact compareSlots_exhausted.mpr
        ⟨fun ho => (hrequired ho).imp_right (hplace _), ih hplaces hrest⟩
    | cons other others =>
      by_cases hname : place.name = other.name
      · obtain ⟨hhere, hrest⟩ := (compareSlots_meeting hname).mp h
        refine (compareSlots_meeting hname).mpr ⟨compareSlot_eq_accepted.mpr ?_, ih hplaces hrest⟩
        exact fun next hn => (compareSlot_eq_accepted.mp hhere next hn).imp_right (hplace _)
      · obtain ⟨ho, hrest⟩ := (compareSlots_apart hname).mp h
        exact (compareSlots_apart hname).mpr ⟨ho, ih hplaces hrest⟩

/-- Neighbours of one name are both required. -/
def Slot.Settled (place next : Slot Pattern) : Prop :=
  place.name = next.name → place.occurs = .required ∧ next.occurs = .required

/-- Places that take only themselves stand the comparison with themselves. -/
theorem compareSlots_self (hchain : places.IsChain Slot.Settled)
    (h : ∀ place ∈ places, compare place place.content = .accepted) :
    compareSlots (places.map (Slot.fill compare)) places = .accepted := by
  induction places with
  | nil => rfl
  | cons place places ih =>
    have hone : place.occurs ≠ .required →
        (place.fill compare).share (places.map (Slot.fill compare))
          ((place :: places).takeWhile fun next => place.name == next.name).length = 1 := by
      intro ho
      have hnext : ∀ next ∈ places.head?, place.name ≠ next.name := by
        intro next hn he
        cases places with
        | nil => cases hn
        | cons _ places =>
          cases hn
          exact ho ((List.isChain_cons_cons.mp hchain).1 he).1
      rw [List.takeWhile_cons_of_pos (by simp), takeWhile_name_of_ne hnext, Slot.share_fill]
      exact Slot.share_of_allows ho (fun next hn => (hnext next hn).symm) (Occurs.allows_one _)
    refine (compareSlots_together rfl hone).mpr ⟨⟨Occurs.admits_self _, h place List.mem_cons_self⟩, ?_⟩
    exact ih (List.IsChain.of_cons hchain) fun next hn => h next (List.mem_cons_of_mem _ hn)

end Comparisons

end PayloadContracts
