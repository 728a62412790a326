import PayloadContracts.Proofs.Chain
import PayloadContracts.Proofs.Comparisons
import PayloadContracts.Proofs.Congruence
import PayloadContracts.Proofs.Depth
import PayloadContracts.Proofs.Marks
import PayloadContracts.Proofs.Parts

/-!
A JSON pattern that subsumes another one accepts all that the other accepts. Main statement:
`Pattern.check_of_subsumes`.

Pairs of references that are being compared count as compared, so the proof is by induction on the
headroom of the scope that a value is checked in. Entering the smaller reference uses up headroom, and
below that all pairs under comparison are known to be covered.
-/

namespace PayloadContracts

namespace Pattern

variable {p q r : Pattern} {s s' t t' : Scope} {v : Value} {n m : Nat}

/-- What the second pattern accepts with as much headroom, where undeclared names are rejected, the
first accepts where they are let through. -/
def Covers (n : Nat) (p q : Pattern) (s t : Scope) : Prop :=
  ∀ v u, u.definitions = t.withEmpty.definitions → u.policy = .strict → u.headroom ≤ n →
    q.check v u = .accepted → p.DeepAccepts v (s.withPolicy .permissive)

namespace Covers

theorem mono (h : Covers n p q s t) (hm : m ≤ n) : Covers m p q s t :=
  fun v u hd hp hn => h v u hd hp (Nat.le_trans hn hm)

theorem congr (h : Covers n p q s t) (hs : s'.definitions = s.definitions)
    (ht : t'.withEmpty.definitions = t.withEmpty.definitions) : Covers n p q s' t' :=
  fun v u hd hp hn hv => (h v u (hd.trans ht) hp hn hv).loosen (.congr hs rfl)

theorem withEmpty_right (h : Covers n p q s t.withEmpty) : Covers n p q s t :=
  h.congr rfl (by rw [Scope.withEmpty_withEmpty])

theorem withEmpty (h : Covers n p q s t) : Covers n p q s.withEmpty t.withEmpty := by
  intro v u hd hp hn hv
  rw [Scope.withEmpty_withEmpty] at hd
  rw [← Scope.withPolicy_withEmpty]
  exact (h v u hd hp hn hv).loosen (.self_withEmpty _)

theorem left {b : String} (hf : s.follow (.reference b) = .ok (p, s')) (h : Covers n p q s' t) :
    Covers n (reference b) q s t := by
  intro v u hd hp hn hv
  obtain ⟨trail, hl, hnd, hroom, rfl⟩ := Scope.follow_eq_ok_iff.mp hf
  have hf' : (s.withPolicy .permissive).follow (.reference b) =
      .ok (p, (s.withPolicy .permissive).below trail) :=
    Scope.follow_eq_ok_iff.mpr ⟨trail, hl.mono fun _ _ h => h, hnd, hroom, rfl⟩
  exact DeepAccepts.reference hf' ((h v u hd hp hn hv).loosen (.congr rfl rfl))

/-- Entering the smaller reference uses up headroom. -/
theorem right_lt {c : String} (hf : t.follow (.reference c) = .ok (q, t'))
    (h : ∀ m < n, Covers m p q s t') : Covers n p (reference c) s t := by
  intro v u hd hp hn hv
  obtain ⟨q', u', hf', hv⟩ := check_reference_eq_accepted.mp hv
  obtain ⟨trail, hl, -, -, rfl⟩ := Scope.follow_eq_ok_iff.mp hf
  have hlt := Scope.headroom_follow hf'
  obtain ⟨trail', hl', -, -, rfl⟩ := Scope.follow_eq_ok_iff.mp hf'
  have hlu : u.Leads (.reference c) trail q :=
    hl.mono fun name next hname => (Scope.lookup_congr hd name).trans (Scope.lookup_withEmpty hname)
  obtain ⟨-, rfl⟩ := hlu.unique hl'
  refine h (u.below trail').headroom (Nat.lt_of_lt_of_le hlt hn) v (u.below trail') ?_ hp
    (Nat.le_refl _) hv
  exact hd.trans (Scope.withEmpty_definitions_congr rfl)

theorem right {c : String} (hf : t.follow (.reference c) = .ok (q, t')) (h : Covers n p q s t') :
    Covers n p (reference c) s t :=
  right_lt hf fun _ hm => h.mono (Nat.le_of_lt hm)

theorem union_left {ps : List Pattern} (hp : p ∈ ps) (h : Covers n p q s.withEmpty t) :
    Covers n (union ps) q s t := by
  intro v u hd hu hn hv
  apply DeepAccepts.union hp
  rw [Scope.withPolicy_withEmpty]
  exact h v u hd hu hn hv

theorem union_right {qs : List Pattern} (h : ∀ q ∈ qs, Covers n p q s t) :
    Covers n p (union qs) s t := by
  intro v u hd hp hn hv
  obtain ⟨q, hq, hc⟩ := check_union_eq_accepted.mp hv
  have hu : u.withEmpty.definitions = t.withEmpty.definitions := by
    rw [Scope.withEmpty_definitions_congr hd, Scope.withEmpty_withEmpty]
  exact h q hq v u.withEmpty hu (by simpa using hp) (by simpa using hn) hc

theorem alternatives (h : ∀ r ∈ q.alternatives, Covers n p r s t) : Covers n p q s t := by
  cases q with
  | union qs => exact union_right h
  | _ => exact h _ List.mem_cons_self

theorem literal {e : Value} (he : e.Tidy) (h : p.check e s = .accepted) :
    Covers n p (literal e) s t := by
  intro v u _ _ _ hv
  have hc := check_of_same he (check_literal_eq_accepted.mp hv) h
  exact (deepAccepts_of_check hc).loosen ⟨.inl rfl, .inr rfl⟩

theorem scalar {kind other : Scalar} (h : kind.covers other = true) :
    Covers n (scalar kind) (scalar other) s t := by
  intro v u _ _ _ hv
  have hkind := Scalar.admits_of_covers h (check_scalar_eq_accepted.mp hv)
  exact deepAccepts_of_check (check_scalar_eq_accepted.mpr hkind)

theorem list {item other : Pattern} (h : Covers n item other s t) :
    Covers n (list item) (list other) s t := by
  intro v u hd hp hn hv
  obtain ⟨items, rfl, hitems⟩ := check_list_eq_accepted.mp hv
  exact DeepAccepts.list fun w hw => h w u hd hp hn (hitems w hw)

theorem record {fields others : Entries Pattern} {isOpen : Bool}
    (hm : (record fields isOpen).MarkedOnce) (hm' : (Pattern.record others false).MarkedOnce)
    (hrequired : ∀ name ∈ Entries.names fields, isOptional name fieldMark = false →
      name ∈ Entries.names others)
    (h : ∀ field ∈ fields, ∀ r, KeyKind.field.declared? others field.1 = some r →
      Covers n field.2 r s.withEmpty t) :
    Covers n (Pattern.record fields isOpen) (Pattern.record others false) s t := by
  intro v u hd hp hn hv
  obtain ⟨parts, rfl, hkeys, hparts⟩ := check_record_eq_accepted.mp hv
  obtain ⟨hpresent, hdeclared⟩ := keyMismatch?_eq_none_iff.mp hkeys
  have hdeclared := hdeclared hp
  have hu : u.withEmpty.definitions = t.withEmpty.definitions := by
    rw [Scope.withEmpty_definitions_congr hd, Scope.withEmpty_withEmpty]
  refine DeepAccepts.record ?_ fun field hf part hpart => ?_
  · refine keyMismatch?_eq_none_iff.mpr ⟨fun name hname ho => ?_, fun hstrict => ?_⟩
    · exact hpresent name (hrequired name hname ho) ho
    · cases isOpen <;> cases hstrict
  · obtain ⟨r, hr, key, hkey, hcanonical⟩ : ∃ r, KeyKind.field.declared? others field.1 = some r ∧
        ∃ key, (key, r) ∈ others ∧ canonical key fieldMark = canonical field.1 fieldMark :=
      exists_declared? (hm field hf) hm' (hdeclared _ (Entries.mem_names_of_get? hpart))
    rw [Scope.withPolicy_withEmpty]
    apply h field hf r hr part u.withEmpty hu (by simpa using hp) (by simpa using hn)
    exact hparts (key, r) hkey part (hcanonical ▸ hpart)

end Covers

/-- All pairs of references under comparison are covered. -/
def AssumedCovered (n : Nat) (s t : Scope) : Prop :=
  ∀ pair ∈ s.assumed, Covers n (.reference pair.1) (.reference pair.2) s t

namespace AssumedCovered

theorem mono (h : AssumedCovered n s t) (hm : m ≤ n) : AssumedCovered m s t :=
  fun pair hp => (h pair hp).mono hm

theorem withEmpty (h : AssumedCovered n s t) : AssumedCovered n s.withEmpty t.withEmpty := by
  intro pair hp
  rw [Scope.withEmpty_assumed] at hp
  exact (h pair hp).withEmpty

theorem withEmpty_right (h : AssumedCovered n s t) : AssumedCovered n s t.withEmpty :=
  fun pair hp => (h pair hp).congr rfl (by rw [Scope.withEmpty_withEmpty])

theorem follow_left (h : AssumedCovered n s t) (hf : s.follow p = .ok (q, s')) :
    AssumedCovered n s' t := by
  obtain ⟨trail, -, -, -, rfl⟩ := Scope.follow_eq_ok_iff.mp hf
  exact fun pair hp => (h pair hp).congr rfl rfl

theorem follow_right (h : AssumedCovered n s t) (hf : t.follow p = .ok (q, t')) :
    AssumedCovered n s t' := by
  obtain ⟨trail, -, -, -, rfl⟩ := Scope.follow_eq_ok_iff.mp hf
  exact fun pair hp => (h pair hp).congr rfl (Scope.withEmpty_definitions_congr rfl)

theorem assuming (h : AssumedCovered n s t) {b c : String}
    (hbc : Covers n (.reference b) (.reference c) s t) : AssumedCovered n (s.assuming b c) t := by
  intro pair hp
  obtain hp | hp := List.mem_append.mp hp
  · exact (h pair hp).congr rfl rfl
  · obtain rfl := List.mem_singleton.mp hp
    exact hbc.congr rfl rfl

end AssumedCovered

/-- What a JSON pattern on the smaller side of a comparison has to be like, in all its parts. -/
def IsSealed (p : Pattern) : Prop := p.IsJson ∧ p.MarkedOnce ∧ p.Closed

theorem spelled_isSealed : Spelled IsSealed :=
  spelled_isJson.and (spelled_markedOnce.and spelled_closed)

/-- The patterns of a comparison and all that their scopes define are marked once, and those on the
smaller side are JSON and closed. -/
structure Comparable (p q : Pattern) (s t : Scope) : Prop where
  bigger : p.Every MarkedOnce
  biggerScope : s.Every MarkedOnce
  smaller : q.Every IsSealed
  smallerScope : t.Every IsSealed

namespace Comparable

theorem withEmpty (h : Comparable p q s t) (hp : r.Every MarkedOnce) {r' : Pattern}
    (hq : r'.Every IsSealed) : Comparable r r' s.withEmpty t.withEmpty :=
  ⟨hp, h.biggerScope.withEmpty spelled_markedOnce, hq, h.smallerScope.withEmpty spelled_isSealed⟩

theorem follow_left (h : Comparable p q s t) (hf : s.follow p = .ok (r, s')) :
    Comparable r q s' t :=
  have hr := h.biggerScope.follow spelled_markedOnce h.bigger hf
  ⟨hr.1, hr.2, h.smaller, h.smallerScope⟩

theorem follow_right (h : Comparable p q s t) (hf : t.follow q = .ok (r, t')) :
    Comparable p r s t' :=
  have hr := h.smallerScope.follow spelled_isSealed h.smaller hf
  ⟨h.bigger, h.biggerScope, hr.1, hr.2⟩

end Comparable

theorem every_alternatives (h : q.Every IsSealed) (hr : r ∈ q.alternatives) : r.Every IsSealed := by
  cases q with
  | union qs => exact (every_union.mp h).2 r hr
  | _ => exact List.mem_singleton.mp hr ▸ h

/-- A comparison that accepts covers, if the pairs under comparison are covered. -/
theorem covers_of_subsumes (h : Comparable p q s t) (hs : p.subsumes q s t = .accepted)
    (ha : AssumedCovered n s t) : Covers n p q s t := by
  induction n using Nat.strongRecOn generalizing p q s t with
  | ind n below =>
    induction p, q, s, t using pairInduction with
    | references b c s t ih =>
      obtain hbc | ⟨p, s', q, t', hf, hf', hs'⟩ := subsumes_references.mp hs
      · exact ha (b, c) (by simpa [Scope.isAssumed] using hbc)
      · obtain ⟨trail, hl, hnd, hroom, rfl⟩ := Scope.follow_eq_ok_iff.mp hf
        have hb : s.follow (.reference b) = .ok (p, s.below trail) :=
          Scope.follow_eq_ok_iff.mpr ⟨trail, hl.mono fun _ _ hname => hname, hnd, hroom, rfl⟩
        refine .left hb (.right_lt hf' fun m hm => ?_)
        -- With less headroom the pair itself is covered, so it may join those under comparison.
        have hpair := below m hm h hs (ha.mono (Nat.le_of_lt hm))
        have hassumed := (((ha.mono (Nat.le_of_lt hm)).assuming hpair).follow_left hf).follow_right hf'
        have hc : Comparable (.reference b) (.reference c) (s.assuming b c) t :=
          ⟨h.bigger, h.biggerScope.congr rfl, h.smaller, h.smallerScope⟩
        exact (below m hm ((hc.follow_left hf).follow_right hf') hs' hassumed).congr rfl rfl
    | left b q s t hq ih =>
      obtain ⟨p, s', hf, hs⟩ := (subsumes_reference_left hq).mp hs
      exact .left hf (ih p s' hf (h.follow_left hf) hs (ha.follow_left hf))
    | right p c s t hp ih =>
      obtain ⟨q, t', hf, hs⟩ := (subsumes_reference_right hp).mp hs
      exact .right hf (ih q t' hf (h.follow_right hf) hs (ha.follow_right hf))
    | unionLeft ps q s t hq ih =>
      refine .alternatives fun r hr => ?_
      obtain ⟨p, hp, hs⟩ := (subsumes_union_left hq).mp hs r hr
      have hc := h.withEmpty ((every_union.mp h.bigger).2 p hp) (every_alternatives h.smaller hr)
      exact .union_left hp (ih p hp r hr hc hs ha.withEmpty).withEmpty_right
    | unionRight p qs s t hp ih =>
      refine .union_right fun q hq => ?_
      have hs := (subsumes_union_right hp).mp hs q hq
      have hc : Comparable p q s t.withEmpty :=
        ⟨h.bigger, h.biggerScope, (every_union.mp h.smaller).2 q hq,
          h.smallerScope.withEmpty spelled_isSealed⟩
      exact (ih q hq hc hs ha.withEmpty_right).withEmpty_right
    | record fields isOpen q s t hq ih =>
      obtain ⟨v, rfl⟩ | ⟨others, othersOpen, rfl, hk⟩ := subsumes_record hq hs
      · exact .literal h.smaller.self.1 (subsumes_literal rfl hs)
      · obtain ⟨⟨-, honce, hclosed⟩, hothers⟩ := every_record.mp h.smaller
        obtain ⟨hrequired, -, hfields⟩ := compareKeys_eq_accepted.mp hk
        rw [Entries.names_map] at hrequired
        cases (hclosed : othersOpen = false)
        refine .record h.bigger.self honce hrequired fun field hf r hr => ?_
        obtain ⟨key, hkey, -⟩ := mem_of_declared? hr
        have hc := h.withEmpty ((every_record.mp h.bigger).2 field hf) (hothers _ hkey)
        have hs := List.forall_mem_map.mp hfields field hf r hr
        exact (ih field hf r hc hs ha.withEmpty).withEmpty_right
    | list item q s t hq ih =>
      obtain ⟨v, rfl⟩ | ⟨other, rfl, hitem⟩ := subsumes_list hq hs
      · exact .literal h.smaller.self.1 (subsumes_literal rfl hs)
      · have hc : Comparable item other s t :=
          ⟨(every_list.mp h.bigger).2, h.biggerScope, (every_list.mp h.smaller).2, h.smallerScope⟩
        exact .list (ih other hc hitem ha)
    | literal e q s t hq =>
      obtain ⟨v, rfl⟩ := subsumes_literal_left hq hs
      exact .literal h.smaller.self.1 (subsumes_literal rfl hs)
    | scalar kind q s t hq =>
      obtain ⟨v, rfl⟩ | ⟨other, rfl, hcovers⟩ := subsumes_scalar hq hs
      · exact .literal h.smaller.self.1 (subsumes_literal rfl hs)
      · exact .scalar hcovers
    | element shape q s t hq _ =>
      obtain ⟨v, rfl⟩ | ⟨other, rfl⟩ := subsumes_element hq hs
      · exact .literal h.smaller.self.1 (subsumes_literal rfl hs)
      · exact h.smaller.self.1.elim

/-- What a JSON pattern accepts, each pattern that subsumes it accepts with enough headroom where
undeclared names are let through. -/
theorem check_of_subsumes (hp : p.Every MarkedOnce) (hs : s.Every MarkedOnce)
    (hq : q.Every IsSealed) (ht : t.Every IsSealed) (hfresh : s.assumed = [])
    (hstrict : t.policy = .strict) (h : p.subsumes q s t = .accepted) (hv : q.check v t = .accepted) :
    ∃ n, ∀ limit, n ≤ limit →
      p.check v { s with policy := .permissive, depthLimit := limit } = .accepted := by
  have hassumed : AssumedCovered t.headroom s t := by
    intro pair hpair
    rw [hfresh] at hpair
    cases hpair
  have hcovers := covers_of_subsumes ⟨hp, hs, hq, ht⟩ h hassumed
  have hwide := (Scope.Within.self_withEmpty t).check hv
  have hdeep := hcovers v t.withEmpty rfl (by simpa using hstrict) (by simp) hwide
  exact hdeep.exists_limit

theorem check_of_subsumes_chain :
    (reference "(Node)").subsumes (reference "(Node)") Chain.scope Chain.scope = .accepted ∧
      (reference "(Node)").check Chain.last Chain.scope = .accepted ∧
      ∃ n, ∀ limit, n ≤ limit → (reference "(Node)").check Chain.last
        { Chain.scope with policy := .permissive, depthLimit := limit } = .accepted := by
  have honce := spelled_markedOnce
  have hsealed := spelled_isSealed
  have hnode : Chain.node.IsSealed := ⟨trivial, Chain.markedOnce_node, rfl⟩
  have hsubsumes := Chain.start_subsumes_start (s := Chain.scope) (t := Chain.scope) (.inl rfl)
    (.inl rfl) (by decide) (by decide)
  refine ⟨hsubsumes, Chain.check_last, ?_⟩
  exact check_of_subsumes (Chain.every_start honce) (Chain.every_scope honce Chain.markedOnce_node)
    (Chain.every_start hsealed) (Chain.every_scope hsealed hnode) rfl rfl hsubsumes
    Chain.check_last

end Pattern

end PayloadContracts
