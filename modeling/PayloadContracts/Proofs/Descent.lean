import PayloadContracts.Proofs.Comparisons
import PayloadContracts.Proofs.Limits
import PayloadContracts.Proofs.Marks
import Mathlib.Data.Finset.Prod

/-!
Comparisons that want to enter more names than they may, however many these are. Only pairs of names
are known to be under comparison already, so two patterns can come back to each other without such a
pair in between. Main statement: `Pattern.comesBack_of_exceeds`.
-/

namespace PayloadContracts

open Relation Verdict

namespace Pattern

variable {q : Pattern} {s t : Scope}

theorem not_exceeds_literal {e : Value} (hq : q.isPlain = true) :
    ¬((literal e).subsumes q s t).Exceeds := by
  obtain ⟨v, -, hcheck⟩ | ⟨message, hrejected⟩ := subsumes_literal_cases hq
  · rw [hcheck]
    exact Value.not_exceeds_check
  · simp [hrejected]

theorem not_exceeds_scalar {kind : Scalar} (hq : q.isPlain = true) :
    ¬((scalar kind).subsumes q s t).Exceeds := by
  obtain ⟨v, -, hcheck⟩ | ⟨other, -, -, haccepted⟩ | ⟨message, hrejected⟩ := subsumes_scalar_cases hq
  · rw [hcheck]
    exact Scalar.not_exceeds_check
  · simp [haccepted]
  · simp [hrejected]

/-- What an alternative of the bigger side fails by is left behind. -/
theorem not_exceeds_union {ps : List Pattern} (hq : q.isReference = false) :
    ¬((union ps).subsumes q s t).Exceeds := by
  cases q with
  | reference => cases hq
  | union qs =>
    rw [subsumes]
    exact not_exceeds_compareUnion
  | _ => rw [subsumes] <;> first | exact not_exceeds_compareUnion | simp

theorem exceeds_list {item : Pattern} (hq : q.isPlain = true)
    (h : ((list item).subsumes q s t).Exceeds) :
    (∃ v, q = literal v ∧ ((list item).check v s).Exceeds) ∨
      ∃ other, q = list other ∧ (item.subsumes other s t).Exceeds := by
  obtain ⟨v, hv, hcheck⟩ | ⟨other, hother, hitem⟩ | ⟨message, hrejected⟩ := subsumes_list_cases hq
  · exact .inl ⟨v, hv, hcheck ▸ h⟩
  · exact .inr ⟨other, hother, hitem ▸ h⟩
  · simp [hrejected] at h

theorem exceeds_record {fields : Entries Pattern} {isOpen : Bool} (hq : q.isPlain = true)
    (h : ((record fields isOpen).subsumes q s t).Exceeds) :
    (∃ v, q = literal v ∧ ((record fields isOpen).check v s.withEmpty).Exceeds) ∨
      ∃ others othersOpen, q = record others othersOpen ∧ ∃ field ∈ fields, ∃ r,
        KeyKind.field.declared? others field.1 = some r ∧
          (field.2.subsumes r s.withEmpty t.withEmpty).Exceeds := by
  obtain ⟨v, hv, hcheck⟩ | ⟨others, othersOpen, hothers, hkeys⟩ | ⟨message, hrejected⟩ :=
    subsumes_record_cases hq
  · exact .inl ⟨v, hv, hcheck ▸ h⟩
  · rw [hkeys] at h
    obtain ⟨_, hmem, r, hr, h⟩ := exceeds_compareKeys h
    obtain ⟨field, hf, rfl⟩ := List.mem_map.mp hmem
    exact .inr ⟨others, othersOpen, hothers, field, hf, r, hr, h⟩
  · simp [hrejected] at h

end Pattern

/-- Two patterns to be compared, each in its scope. -/
structure Comparison where
  bigger : Pattern
  smaller : Pattern
  ours : Scope
  theirs : Scope

namespace Comparison

open Pattern

variable {x y z : Comparison} {s t : Scope} {C : Set Pattern} {p q : Pattern} {n : Nat}

def verdict (x : Comparison) : Verdict := x.bigger.subsumes x.smaller x.ours x.theirs

/-- The comparisons that the first one comes down to. Those of the alternatives of a bigger side are left
out, since what they fail by is left behind. -/
inductive Calls : Comparison → Comparison → Prop
  | references {b c : String} {s s' t t' : Scope} {p q : Pattern} (ha : s.isAssumed b c = false)
      (hb : (s.assuming b c).follow (reference b) = .ok (p, s'))
      (hc : t.follow (reference c) = .ok (q, t')) :
      Calls ⟨reference b, reference c, s, t⟩ ⟨p, q, s', t'⟩
  | left {b : String} {s s' t : Scope} {p q : Pattern} (hq : q.isReference = false)
      (hb : s.follow (reference b) = .ok (p, s')) : Calls ⟨reference b, q, s, t⟩ ⟨p, q, s', t⟩
  | right {c : String} {s t t' : Scope} {p q : Pattern} (hp : p.isReference = false)
      (hc : t.follow (reference c) = .ok (q, t')) : Calls ⟨p, reference c, s, t⟩ ⟨p, q, s, t'⟩
  | alternative {p q : Pattern} {qs : List Pattern} {s t : Scope} (hp : p.isPlain = true)
      (hq : q ∈ qs) : Calls ⟨p, union qs, s, t⟩ ⟨p, q, s, t.withEmpty⟩
  | field {fields others : Entries Pattern} {isOpen othersOpen : Bool} {field : String × Pattern}
      {q : Pattern} {s t : Scope} (hf : field ∈ fields)
      (hq : KeyKind.field.declared? others field.1 = some q) :
      Calls ⟨record fields isOpen, record others othersOpen, s, t⟩
        ⟨field.2, q, s.withEmpty, t.withEmpty⟩
  | item {p q : Pattern} {s t : Scope} : Calls ⟨list p, list q, s, t⟩ ⟨p, q, s, t⟩

/-- A comparison that the first one comes down to wants to enter a name too many. -/
def Passes (x y : Comparison) : Prop := x.Calls y ∧ y.verdict.Exceeds

/-- Two references are compared, and from there on the pair of them is under comparison. -/
def IsPair (x : Comparison) : Prop := x.bigger.isReference = true ∧ x.smaller.isReference = true

/-- Down the comparisons that want to enter a name too many, two patterns come back to each other, and no
two references have been compared in between. -/
def ComesBack (x : Comparison) : Prop :=
  ∃ y z, ReflTransGen Passes x y ∧ TransGen (fun y z => y.Passes z ∧ ¬y.IsPair) y z ∧
    z.bigger = y.bigger ∧ z.smaller = y.smaller

/-- Both patterns are in the set, in scopes that have come about from the one. -/
structure Within (s : Scope) (C : Set Pattern) (x : Comparison) : Prop where
  bigger : x.bigger ∈ C
  smaller : x.smaller ∈ C
  ours : s.Derives x.ours
  theirs : s.Derives x.theirs

theorem Within.follow (hclosed : s.withEmpty.IsClosed C) (hs : s.Derives t) (hp : p ∈ C)
    {inner : Scope} (hf : t.follow p = .ok (q, inner)) : q ∈ C ∧ s.Derives inner := by
  obtain ⟨trail, hl, -⟩ := Scope.follow_eq_ok_iff.mp hf
  exact ⟨hclosed.leads hp (hs.leads hl), hs.follow hf⟩

theorem Within.calls (hclosed : s.withEmpty.IsClosed C) (hx : x.Within s C) (h : x.Calls y) :
    y.Within s C := by
  obtain ⟨hbigger, hsmaller, hours, htheirs⟩ := hx
  cases h with
  | @references b c _ _ _ _ _ _ _ hb hc =>
    obtain ⟨hp, hs⟩ := Within.follow hclosed (Scope.Derives.assuming hours b c) hbigger hb
    obtain ⟨hq, ht⟩ := Within.follow hclosed htheirs hsmaller hc
    exact ⟨hp, hq, hs, ht⟩
  | left _ hb =>
    obtain ⟨hp, hs⟩ := Within.follow hclosed hours hbigger hb
    exact ⟨hp, hsmaller, hs, htheirs⟩
  | right _ hc =>
    obtain ⟨hq, ht⟩ := Within.follow hclosed htheirs hsmaller hc
    exact ⟨hbigger, hq, hours, ht⟩
  | alternative _ hq => exact ⟨hbigger, hclosed.parts _ hsmaller _ hq, hours, htheirs.withEmpty⟩
  | field hf hq =>
    obtain ⟨key, hkey, -⟩ := mem_of_declared? hq
    exact ⟨hclosed.parts _ hbigger _ (List.mem_map_of_mem hf),
      hclosed.parts _ hsmaller _ (List.mem_map_of_mem hkey), hours.withEmpty, htheirs.withEmpty⟩
  | item =>
    exact ⟨hclosed.parts _ hbigger _ (List.mem_singleton.mpr rfl),
      hclosed.parts _ hsmaller _ (List.mem_singleton.mpr rfl), hours, htheirs⟩

/-- A call enters no more names than follow from one pattern. -/
theorem Within.headroom (hn : s.Suffices C n) (hx : x.Within s C) (hours : n ≤ x.ours.headroom)
    (htheirs : n ≤ x.theirs.headroom) (h : x.Calls y) :
    x.ours.headroom ≤ y.ours.headroom + n ∧ x.theirs.headroom ≤ y.theirs.headroom + n := by
  obtain ⟨hbigger, hsmaller, hs, ht⟩ := hx
  have hfollow := hn.follow _ hbigger
  have hfollow' := hn.follow _ hsmaller
  cases h with
  | @references b c _ _ _ _ _ _ _ hb hc =>
    have hroom := hfollow.headroom (Scope.Derives.assuming hs b c) hours hb
    exact ⟨hroom, hfollow'.headroom ht htheirs hc⟩
  | left _ hb => exact ⟨hfollow.headroom hs hours hb, Nat.le_add_right _ n⟩
  | right _ hc => exact ⟨Nat.le_add_right _ n, hfollow'.headroom ht htheirs hc⟩
  | alternative | field | item => simp

theorem not_isPair_of_bigger (hp : x.bigger.isReference = false) : ¬x.IsPair :=
  fun hpair => Bool.false_ne_true (hp.symm.trans hpair.1)

theorem not_isPair_of_smaller (hq : x.smaller.isReference = false) : ¬x.IsPair :=
  fun hpair => Bool.false_ne_true (hq.symm.trans hpair.2)

/-- Where two references are compared, and only there, a pair of names is put under comparison. -/
theorem Calls.assumed (h : x.Calls y) :
    (¬x.IsPair ∧ y.ours.assumed = x.ours.assumed) ∨
      ∃ b c, x.bigger = reference b ∧ x.smaller = reference c ∧ (b, c) ∉ x.ours.assumed ∧
        y.ours.assumed = x.ours.assumed ++ [(b, c)] := by
  have hfollow : ∀ {t inner : Scope} {p q : Pattern}, t.follow p = .ok (q, inner) →
      inner.assumed = t.assumed := by
    intro t inner p q hf
    obtain ⟨trail, -, -, -, rfl⟩ := Scope.follow_eq_ok_iff.mp hf
    rfl
  cases h with
  | references ha hb hc =>
    exact .inr ⟨_, _, rfl, rfl, by simpa [Scope.isAssumed] using ha, hfollow hb⟩
  | left hq hb => exact .inl ⟨not_isPair_of_smaller hq, hfollow hb⟩
  | right hp => exact .inl ⟨not_isPair_of_bigger hp, rfl⟩
  | alternative hp => exact .inl ⟨not_isPair_of_bigger (isReference_of_isPlain hp), rfl⟩
  | field => exact .inl ⟨not_isPair_of_bigger rfl, Scope.withEmpty_assumed _⟩
  | item => exact .inl ⟨not_isPair_of_bigger rfl, rfl⟩

/-- Patterns that are neither references nor unions are compared without a name being entered. -/
theorem exists_passes_of_plain (hn : s.Suffices C n) (hplain : ∀ shape, element shape ∉ C)
    (hx : x.Within s C) (hours : n ≤ x.ours.headroom) (hp : x.bigger.isPlain = true)
    (hq : x.smaller.isPlain = true) (h : x.verdict.Exceeds) : ∃ y, x.Passes y := by
  obtain ⟨p, q, s', t⟩ := x
  have hcheck : ∀ v u, q = literal v → s.Derives u → u.headroom = s'.headroom →
      ¬(p.check v u).Exceeds := by
    rintro v u rfl hu hroom
    exact hn.check v hx.smaller p hx.bigger u hu (hroom ▸ hours)
  have hours' : s.Derives s' := hx.ours
  cases p with
  | reference => cases hp
  | union => cases hp
  | element shape => exact absurd hx.bigger (hplain shape)
  | literal e => exact absurd h (not_exceeds_literal hq)
  | scalar kind => exact absurd h (not_exceeds_scalar hq)
  | list item =>
    obtain ⟨v, hv, h⟩ | ⟨other, hother, h⟩ := exceeds_list hq h
    · exact absurd h (hcheck v s' hv hours' rfl)
    · obtain rfl : q = list other := hother
      exact ⟨_, .item, h⟩
  | record fields isOpen =>
    obtain ⟨v, hv, h⟩ | ⟨others, othersOpen, hothers, field, hf, r, hr, h⟩ := exceeds_record hq h
    · exact absurd h (hcheck v _ hv hours'.withEmpty (Scope.headroom_withEmpty s'))
    · obtain rfl : q = record others othersOpen := hothers
      exact ⟨_, .field hf hr, h⟩

/-- A comparison with headroom to follow its references comes down to one that wants a name too many, if it
does so itself. -/
theorem exists_passes (hn : s.Suffices C n) (hplain : ∀ shape, element shape ∉ C)
    (hx : x.Within s C) (hours : n ≤ x.ours.headroom) (htheirs : n ≤ x.theirs.headroom)
    (h : x.verdict.Exceeds) : ∃ y, x.Passes y := by
  have hfollow := hn.follow _ hx.bigger
  have hfollow' := hn.follow _ hx.smaller
  obtain ⟨p, q, s', t⟩ := x
  replace h : (p.subsumes q s' t).Exceeds := h
  obtain ⟨b, rfl⟩ | hp := eq_reference_or p
  · obtain ⟨c, rfl⟩ | hq := eq_reference_or q
    · rw [subsumes] at h
      split at h
      · exact h.elim
      · rename_i ha
        split at h
        · rename_i hb hc
          exact ⟨_, .references (by simpa using ha) hb hc, h⟩
        · rename_i hb
          exact absurd h (hfollow.not_exceeds (hx.ours.assuming b c) hours hb)
        · rename_i hc _
          exact absurd h (hfollow'.not_exceeds hx.theirs htheirs hc)
    · rw [subsumes] at h
      · split at h
        · rename_i hb
          exact ⟨_, .left hq hb, h⟩
        · rename_i hb
          exact absurd h (hfollow.not_exceeds hx.ours hours hb)
      · rintro c rfl
        cases hq
  · obtain ⟨c, rfl⟩ | hq := eq_reference_or q
    · rw [subsumes] at h
      · split at h
        · rename_i hc
          exact ⟨_, .right hp hc, h⟩
        · rename_i hc
          exact absurd h (hfollow'.not_exceeds hx.theirs htheirs hc)
      · rintro b rfl
        cases hp
    · obtain ⟨ps, rfl⟩ | hp := eq_union_or hp
      · exact absurd h (not_exceeds_union hq)
      · obtain ⟨qs, rfl⟩ | hq := eq_union_or hq
        · rw [subsumes] at h
          · obtain ⟨_, hmem, h⟩ := exceeds_checkAll h
            obtain ⟨q, hq, rfl⟩ := List.mem_map.mp hmem
            exact ⟨_, .alternative hp hq, h⟩
          · rintro b rfl
            cases hp
          · rintro ps rfl
            cases hp
        · exact exists_passes_of_plain hn hplain hx hours hp hq h

/-- A comparison with headroom for so many steps, after some pairs of names of the set have been put under
comparison. -/
structure Ready (s : Scope) (C : Set Pattern) (n k : Nat) (x : Comparison) : Prop extends x.Within s C where
  roomOurs : k * n ≤ x.ours.headroom
  roomTheirs : k * n ≤ x.theirs.headroom
  exceeds : x.verdict.Exceeds
  pairs : ∃ more, x.ours.assumed = s.assumed ++ more ∧ more.Nodup ∧
    ∀ pair ∈ more, reference pair.1 ∈ C ∧ reference pair.2 ∈ C

theorem Ready.exists_passes {k : Nat} (hn : s.Suffices C n) (hplain : ∀ shape, element shape ∉ C)
    (hclosed : s.withEmpty.IsClosed C) (hx : x.Ready s C n (k + 1)) :
    ∃ y, x.Passes y ∧ y.Ready s C n k := by
  have hle : (k + 1) * n = k * n + n := Nat.succ_mul k n
  have hours : n ≤ x.ours.headroom := Nat.le_of_add_left_le (hle ▸ hx.roomOurs)
  have htheirs : n ≤ x.theirs.headroom := Nat.le_of_add_left_le (hle ▸ hx.roomTheirs)
  obtain ⟨y, hcalls, hexceeds⟩ := Comparison.exists_passes hn hplain hx.toWithin hours htheirs hx.exceeds
  obtain ⟨hroom, hroom'⟩ := hx.toWithin.headroom hn hours htheirs hcalls
  have hours' := hx.roomOurs
  have htheirs' := hx.roomTheirs
  refine ⟨y, ⟨hcalls, hexceeds⟩, hx.toWithin.calls hclosed hcalls, by omega, by omega, hexceeds, ?_⟩
  obtain ⟨more, hmore, hnodup, hmem⟩ := hx.pairs
  obtain ⟨-, hsame⟩ | ⟨b, c, hb, hc, hnew, hpair⟩ := hcalls.assumed
  · exact ⟨more, hsame.trans hmore, hnodup, hmem⟩
  · refine ⟨more ++ [(b, c)], by rw [hpair, hmore, List.append_assoc], ?_, fun pair hpair => ?_⟩
    · rw [hmore] at hnew
      exact List.nodup_append.mpr ⟨hnodup, List.nodup_singleton _, fun pair hp other ho => by
        rintro rfl
        exact hnew (List.mem_append_right _ (List.mem_singleton.mp ho ▸ hp))⟩
    · obtain hp | hp := List.mem_append.mp hpair
      · exact hmem pair hp
      · obtain rfl := List.mem_singleton.mp hp
        exact ⟨hb ▸ hx.bigger, hc ▸ hx.smaller⟩

/-- There are no more pairs of names than pairs of patterns. -/
theorem Ready.length_assumed {k : Nat} (hC : C.Finite) (hx : x.Ready s C n k) :
    x.ours.assumed.length ≤ s.assumed.length + hC.toFinset.card * hC.toFinset.card := by
  classical
  obtain ⟨more, hmore, hnodup, hmem⟩ := hx.pairs
  let names : String × String → Pattern × Pattern := fun pair => (reference pair.1, reference pair.2)
  have hinjective : Function.Injective names := by
    rintro ⟨b, c⟩ ⟨b', c'⟩ h
    cases h
    rfl
  have hsubset : (more.map names).toFinset ⊆ hC.toFinset ×ˢ hC.toFinset := by
    intro pair hpair
    obtain ⟨pair, hp, rfl⟩ := List.mem_map.mp (List.mem_toFinset.mp hpair)
    rw [Finset.mem_product, Set.Finite.mem_toFinset, Set.Finite.mem_toFinset]
    exact hmem pair hp
  have hcard := Finset.card_le_card hsubset
  rw [List.toFinset_card_of_nodup (hnodup.map hinjective), List.length_map,
    Finset.card_product] at hcard
  rw [hmore, List.length_append]
  exact Nat.add_le_add_left hcard _

theorem length_assumed_le (h : TransGen Passes x y) :
    x.ours.assumed.length ≤ y.ours.assumed.length := by
  have hstep : ∀ {x y : Comparison}, x.Passes y → x.ours.assumed.length ≤ y.ours.assumed.length := by
    intro x y hxy
    obtain ⟨-, hsame⟩ | ⟨b, c, -, -, -, hpair⟩ := hxy.1.assumed
    · rw [hsame]
    · rw [hpair, List.length_append]
      exact Nat.le_add_right _ _
  induction h with
  | single h => exact hstep h
  | tail _ h ih => exact Nat.le_trans ih (hstep h)

/-- Between two comparisons with as many pairs of names under comparison no two references are compared. -/
theorem unpaired_of_length_assumed (h : TransGen Passes x y)
    (hlength : y.ours.assumed.length ≤ x.ours.assumed.length) :
    TransGen (fun y z => y.Passes z ∧ ¬y.IsPair) x y := by
  have hunpaired : ∀ {x y : Comparison}, x.Passes y →
      y.ours.assumed.length ≤ x.ours.assumed.length → ¬x.IsPair := by
    intro x y hxy hle
    obtain ⟨hpair, -⟩ | ⟨b, c, -, -, -, hpair⟩ := hxy.1.assumed
    · exact hpair
    · rw [hpair, List.length_append, List.length_singleton] at hle
      omega
  induction h with
  | single h => exact .single ⟨h, hunpaired h hlength⟩
  | tail hxy hyz ih =>
    have hle := length_assumed_le hxy
    have hle' := length_assumed_le (.single hyz)
    exact (ih (Nat.le_trans hle' hlength)).tail ⟨hyz, hunpaired hyz (Nat.le_trans hlength hle)⟩

/-- Two patterns of the set with a number of pairs of names that may be under comparison. -/
noncomputable def places (s : Scope) (hC : C.Finite) : Finset (Pattern × Pattern × Nat) :=
  hC.toFinset ×ˢ hC.toFinset ×ˢ
    Finset.range (s.assumed.length + hC.toFinset.card * hC.toFinset.card + 1)

/-- With headroom for a step from each of these, a comparison that wants a name too many comes back. -/
theorem Ready.comesBack (hn : s.Suffices C n) (hplain : ∀ shape, element shape ∉ C)
    (hclosed : s.withEmpty.IsClosed C) (hC : C.Finite) (hx : x.Ready s C n (places s hC).card) :
    x.ComesBack := by
  have hplace : ∀ k (y : Comparison), y.Ready s C n k →
      (y.bigger, y.smaller, y.ours.assumed.length) ∈ places s hC := by
    intro k y hy
    rw [places, Finset.mem_product, Finset.mem_product, Set.Finite.mem_toFinset,
      Set.Finite.mem_toFinset, Finset.mem_range]
    exact ⟨hy.bigger, hy.smaller, Nat.lt_succ_of_le (hy.length_assumed hC)⟩
  obtain ⟨y, z, hxy, hyz, hsame⟩ :=
    exists_repeat (fun k x hx => hx.exists_passes hn hplain hclosed) hplace hx
  obtain ⟨hbigger, hsame⟩ := Prod.mk.inj hsame
  obtain ⟨hsmaller, hlength⟩ := Prod.mk.inj hsame
  exact ⟨y, z, hxy, unpaired_of_length_assumed hyz hlength.le, hbigger, hsmaller⟩

end Comparison

namespace Pattern

variable {p q : Pattern} {s t : Scope}

/-- From some limit on, patterns without elements are compared within the limit, unless two of them come
back to each other and no two references have been compared in between. -/
theorem comesBack_of_exceeds (hp : p.Every NoElement) (hq : q.Every NoElement) (hs : s.Every NoElement)
    (hguarded : s.Guarded) :
    ∃ n, ∀ limit, n ≤ limit →
      (p.subsumes q { s with depthLimit := limit } { s with depthLimit := limit }).Exceeds →
        Comparison.ComesBack ⟨p, q, { s with depthLimit := limit }, { s with depthLimit := limit }⟩ := by
  obtain ⟨D, hD, hmem, hreached⟩ := s.withEmpty.exists_isClosed [p, q]
  let C := {p | p ∈ D ∧ p.Every NoElement}
  have hC : C.Finite := hD.subset fun _ h => h.1
  have hclosed : s.withEmpty.IsClosed C :=
    hreached.every (hs.withEmpty spelled_noElement) spelled_noElement
  have hplain : ∀ shape, element shape ∉ C := fun shape h => h.2.self
  have hpC : p ∈ C := ⟨hmem p (by simp), hp⟩
  have hqC : q ∈ C := ⟨hmem q (by simp), hq⟩
  obtain ⟨n, hn⟩ := Scope.exists_suffices hguarded hC hclosed hplain
  refine ⟨s.path.length + (Comparison.places s hC).card * n, fun limit hlimit hexceeds => ?_⟩
  have hderives : s.Derives { s with depthLimit := limit } := ⟨Scope.withEmpty_definitions_congr rfl, rfl⟩
  have hroom := Scope.le_headroom hlimit
  have hpairs : s.assumed = s.assumed ++ [] := (List.append_nil _).symm
  exact Comparison.Ready.comesBack hn hplain hclosed hC
    ⟨⟨hpC, hqC, hderives, hderives⟩, hroom, hroom, hexceeds, [], hpairs, List.nodup_nil, by simp⟩

end Pattern

namespace Unrolled

open Pattern

/-- What comes next may have the node again. -/
def next : Pattern := .record [("next?", .reference "(Node)")] false

/-- A node that spells out what comes next. -/
def node : Pattern := .record [("next?", next)] false

def scope : Scope := .ofDefinitions [("(Node)", node)] ⟨.strict, 8, 100⟩

variable {s t : Scope} {p q : Pattern}

theorem every_next : next.Every NoElement := by
  refine every_record.mpr ⟨trivial, fun field hf => ?_⟩
  obtain rfl := List.mem_singleton.mp hf
  exact every_reference.mpr trivial

theorem every_scope : scope.Every NoElement := by
  intro entry he
  obtain rfl := List.mem_singleton.mp he
  refine every_record.mpr ⟨trivial, fun field hf => ?_⟩
  obtain rfl := List.mem_singleton.mp hf
  exact every_next

theorem guarded : scope.Guarded := by
  refine Scope.guarded_of_isPlain fun entry he => ?_
  obtain rfl := List.mem_singleton.mp he
  rfl

theorem lookup_node (hs : scope.Derives s) : s.lookup "(Node)" = .ok node := by
  rw [hs.lookup_eq (by decide)]
  rfl

/-- A record wants a name too many if its part does. -/
theorem exceeds_of_part (h : (p.subsumes q s.withEmpty t.withEmpty).Exceeds) :
    ((record [("next?", p)] false).subsumes (record [("next?", q)] false) s t).Exceeds := by
  have hrequired : ∀ compare : Pattern → Verdict,
      notRequired? .field [("next?", compare)] [("next?", q)] = none := fun _ =>
    notRequired?_eq_none_iff.mpr fun _ hname _ => hname
  have hunknown : ∀ compare : Pattern → Verdict,
      notDeclared? .field [("next?", compare)] [("next?", q)] = none := by
    refine fun _ => notDeclared?_eq_none_iff.mpr fun name hname hmark => ?_
    obtain rfl := List.mem_singleton.mp hname
    cases (show isOptional "next?" fieldMark = true by decide).symm.trans hmark
  have hdeclared : KeyKind.field.declared? [("next?", q)] "next?" = some q := rfl
  rw [subsumes]
  simp only [List.map_cons, List.map_nil, compareKeys, hrequired, hunknown, compareFields, hdeclared,
    Bool.false_eq_true, if_false]
  split <;> exact (exceeds_under.mpr h).andThen

/-- Without headroom a name cannot be entered. -/
theorem exceeds_of_no_room {e : ContractError} (hs : scope.Derives s) (hroom : s.headroom = 0)
    (hf : s.follow (reference "(Node)") = .error e) : (Verdict.ofError e).Exceeds := by
  rw [Scope.follow, Scope.followFrom, if_neg List.not_mem_nil, lookup_node hs] at hf
  dsimp only at hf
  split at hf
  · rename_i he
    cases hf
    unfold Scope.enter at he
    split at he
    · cases he
    · cases he
      rfl
  · rename_i he
    have := Scope.headroom_enter he
    omega

theorem follow_node (hs : scope.Derives s) (hroom : 0 < s.headroom) :
    s.follow (reference "(Node)") = .ok (node, s.below ["(Node)"]) :=
  Scope.follow_of_leads (.hop (lookup_node hs) (.stop rfl)) hroom

/-- Each round enters one name on each side. -/
theorem exceeds (hs : scope.Derives s) (ht : scope.Derives t) (hroom : t.headroom = s.headroom) :
    ((reference "(Node)").subsumes next s t).Exceeds := by
  induction hn : s.headroom generalizing s t with
  | zero =>
    rw [subsumes]
    · split
      · rename_i hf
        have := Scope.headroom_follow hf
        omega
      · rename_i hf
        exact exceeds_of_no_room hs hn hf
    · simp [next]
  | succ n ih =>
    rw [subsumes_of_follow_left rfl (follow_node hs (by omega))]
    apply exceeds_of_part
    rw [subsumes_of_follow_right rfl (follow_node ht.withEmpty (by rw [Scope.headroom_withEmpty]; omega))]
    apply exceeds_of_part
    refine ih (hs.below _).withEmpty.withEmpty (ht.withEmpty.below _).withEmpty ?_ ?_
    · simp [Scope.headroom_below, hroom]
    · simp [Scope.headroom_below, hn]

end Unrolled

theorem Pattern.comesBack_of_exceeds_unrolled :
    (reference "(Node)").Every NoElement ∧ Unrolled.next.Every NoElement ∧
      Unrolled.scope.Every NoElement ∧ Unrolled.scope.Guarded ∧
      ∃ n, ∀ limit, n ≤ limit → Comparison.ComesBack ⟨reference "(Node)", Unrolled.next,
        { Unrolled.scope with depthLimit := limit }, { Unrolled.scope with depthLimit := limit }⟩ := by
  have hstart : (reference "(Node)").Every NoElement := every_reference.mpr trivial
  refine ⟨hstart, Unrolled.every_next, Unrolled.every_scope, Unrolled.guarded, ?_⟩
  obtain ⟨n, hn⟩ :=
    comesBack_of_exceeds hstart Unrolled.every_next Unrolled.every_scope Unrolled.guarded
  exact ⟨n, fun limit hlimit => hn limit hlimit (Unrolled.exceeds ⟨rfl, rfl⟩ ⟨rfl, rfl⟩ rfl)⟩

/-- Names stand against patterns that are written out all the way down, so no pair of names is put under
comparison, and no limit is enough. -/
theorem Pattern.exceeds_each_limit :
    (reference "(Node)").Every NoElement ∧ Unrolled.next.Every NoElement ∧
      Unrolled.scope.Every NoElement ∧ Unrolled.scope.Guarded ∧
      Unrolled.scope.lookup "(Node)" = .ok Unrolled.node ∧
      ∀ limit, ((reference "(Node)").subsumes Unrolled.next
        { Unrolled.scope with depthLimit := limit } { Unrolled.scope with depthLimit := limit }).Exceeds :=
  ⟨every_reference.mpr trivial, Unrolled.every_next, Unrolled.every_scope, Unrolled.guarded,
    Unrolled.lookup_node (.refl _), fun _ => Unrolled.exceeds ⟨rfl, rfl⟩ ⟨rfl, rfl⟩ rfl⟩

end PayloadContracts
