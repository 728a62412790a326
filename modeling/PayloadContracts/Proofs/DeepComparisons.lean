import PayloadContracts.Proofs.Derivations
import PayloadContracts.Proofs.Limits
import PayloadContracts.Proofs.Reflexivity

/-!
Comparisons with enough headroom, whatever is under comparison already. Where no reference leads back
to itself through references and unions alone, a pattern subsumes all that it exposes. Main statement:
`Pattern.Explores.deepSubsumes_of_exposes`.
-/

namespace PayloadContracts

open Relation

namespace Pattern

variable {p p' q q' r : Pattern} {s s' t u : Scope} {v : Value} {n m : Nat} {token : String}
  {trail trail' : List String} {assumed : List (String × String)} {ps : List Pattern}
  {fields table : Entries Pattern} {isOpen : Bool}

/-- With that much headroom and those pairs under comparison, the first pattern subsumes the second. -/
def SubsumesFrom (n : Nat) (assumed : List (String × String)) (p q : Pattern) (s : Scope) : Prop :=
  ∀ s' t : Scope, s'.definitions = s.definitions → t.definitions = s.definitions →
    s'.policy = s.policy → s'.assumed = assumed → n ≤ s'.headroom → n ≤ t.headroom →
      p.subsumes q s' t = .accepted

theorem SubsumesFrom.mono (h : SubsumesFrom n assumed p q s) (hm : n ≤ m) :
    SubsumesFrom m assumed p q s :=
  fun s' t hs ht hp ha hs' ht' => h s' t hs ht hp ha (Nat.le_trans hm hs') (Nat.le_trans hm ht')

theorem SubsumesFrom.withEmpty (h : SubsumesFrom n assumed p q s.withEmpty)
    (hs : s'.definitions = s.definitions) (ht : t.definitions = s.definitions)
    (hp : s'.policy = s.policy) (ha : s'.assumed = assumed) (hs' : n ≤ s'.headroom)
    (ht' : n ≤ t.headroom) : p.subsumes q s'.withEmpty t.withEmpty = .accepted :=
  h _ _ (Scope.withEmpty_definitions_congr hs) (Scope.withEmpty_definitions_congr ht) (by simpa)
    (by simpa) (by simpa) (by simpa)

/-- Whatever is under comparison, the first pattern subsumes the second, given enough headroom. -/
def DeepSubsumes (p q : Pattern) (s : Scope) : Prop := ∀ assumed, ∃ n, SubsumesFrom n assumed p q s

namespace DeepSubsumes

theorem congr (h : DeepSubsumes p q s) (hd : t.definitions = s.definitions) (hp : t.policy = s.policy) :
    DeepSubsumes p q t := by
  intro assumed
  obtain ⟨n, hn⟩ := h assumed
  exact ⟨n, fun s' u hs hu hp' => hn s' u (hs.trans hd) (hu.trans hd) (hp'.trans hp)⟩

theorem self (h : ∀ assumed, ∃ n, SelfFrom n assumed p s) : DeepSubsumes p p s := by
  intro assumed
  obtain ⟨n, hn⟩ := h assumed
  exact ⟨n, fun s' t hs ht _ => hn s' t hs ht⟩

theorem literal (h : p.check v s = .accepted) : DeepSubsumes p (literal v) s :=
  fun _ => ⟨s.headroom, fun _ _ hs _ hp _ hroom _ => subsumes_literal_of_check
    (Scope.Within.check ⟨.inl hs, .inl hp, hroom⟩ h)⟩

/-- What references stand for is compared in their place. -/
theorem of_leads (hp : s.Leads p trail p') (hq : s.Leads q trail' q') (h : DeepSubsumes p' q' s) :
    DeepSubsumes p q s := by
  have hfollow : ∀ {u : Scope} {p p' : Pattern} {trail : List String}, u.definitions = s.definitions →
      s.Leads p trail p' → trail.length ≤ u.headroom → u.follow p = .ok (p', u.below trail) :=
    fun hu hl hroom => Scope.follow_of_leads
      (hl.mono fun name next hn => (Scope.lookup_congr hu name).trans hn) hroom
  intro assumed
  obtain ⟨c, rfl⟩ | hq' := eq_reference_or q
  · obtain ⟨b, rfl⟩ | hp' := eq_reference_or p
    · obtain ⟨n, hn⟩ := h (assumed ++ [(b, c)])
      refine ⟨n + trail.length + trail'.length, fun s' t hs ht hpolicy ha hs' ht' => ?_⟩
      refine subsumes_references.mpr (.inr ⟨_, _, _, _,
        hfollow (u := s'.assuming b c) hs hp (by rw [Scope.headroom_assuming]; omega),
        hfollow ht hq (by omega), hn _ _ hs ht hpolicy ?_ ?_ ?_⟩)
      · rw [← ha]
        rfl
      · rw [Scope.headroom_below, Scope.headroom_assuming]
        omega
      · rw [Scope.headroom_below]
        omega
    · obtain ⟨-, rfl⟩ := hp.unique (.stop hp')
      obtain ⟨n, hn⟩ := h assumed
      refine ⟨n + trail'.length, fun s' t hs ht hpolicy ha hs' ht' => (subsumes_reference_right hp').mpr
        ⟨_, _, hfollow ht hq (by omega), hn _ _ hs ht hpolicy ha (by omega) ?_⟩⟩
      rw [Scope.headroom_below]
      omega
  · obtain ⟨-, rfl⟩ := hq.unique (.stop hq')
    obtain ⟨n, hn⟩ := h assumed
    obtain ⟨b, rfl⟩ | hp' := eq_reference_or p
    · refine ⟨n + trail.length, fun s' t hs ht hpolicy ha hs' ht' => (subsumes_reference_left hq').mpr
        ⟨_, _, hfollow hs hp (by omega), hn _ _ hs ht hpolicy ha ?_ (by omega)⟩⟩
      rw [Scope.headroom_below]
      omega
    · obtain ⟨-, rfl⟩ := hp.unique (.stop hp')
      exact ⟨n, hn⟩

theorem union (hq : q.isReference = false)
    (h : ∀ r ∈ q.alternatives, ∃ p ∈ ps, DeepSubsumes p r s.withEmpty) :
    DeepSubsumes (union ps) q s := by
  intro assumed
  obtain ⟨n, hn⟩ := exists_forall_mem (P := fun n r => ∃ p ∈ ps, SubsumesFrom n assumed p r s.withEmpty)
    (fun _ _ _ hle ⟨p, hp, hr⟩ => ⟨p, hp, hr.mono hle⟩) fun r (hr : r ∈ q.alternatives) => by
      obtain ⟨p, hp, hdeep⟩ := h r hr
      obtain ⟨n, hn⟩ := hdeep assumed
      exact ⟨n, p, hp, hn⟩
  refine ⟨n, fun s' t hs ht hpolicy ha hs' ht' => (subsumes_union_left hq).mpr fun r hr => ?_⟩
  obtain ⟨p, hp, hsub⟩ := hn r hr
  exact ⟨p, hp, hsub.withEmpty hs ht hpolicy ha hs' ht'⟩

theorem list (h : DeepSubsumes p q s) : DeepSubsumes (list p) (list q) s := by
  intro assumed
  obtain ⟨n, hn⟩ := h assumed
  refine ⟨n, fun s' t hs ht hpolicy ha hs' ht' => ?_⟩
  rw [subsumes]
  exact hn s' t hs ht hpolicy ha hs' ht'

/-- A record subsumes one that has some of its fields, with all that are required. -/
theorem record (happart : (record fields isOpen).NamesApart)
    (honce : (Pattern.record fields isOpen).MarkedOnce)
    (hkept : ∀ field ∈ fields, isOptional field.1 fieldMark = false → field.1 ∈ Entries.names table)
    (h : ∀ entry ∈ table, ∃ field ∈ fields, field.1 = entry.1 ∧
      DeepSubsumes field.2 entry.2 s.withEmpty) :
    DeepSubsumes (Pattern.record fields isOpen) (Pattern.record table isOpen) s := by
  intro assumed
  obtain ⟨n, hn⟩ := exists_forall_mem (P := fun n (entry : String × Pattern) =>
      ∃ field ∈ fields, field.1 = entry.1 ∧ SubsumesFrom n assumed field.2 entry.2 s.withEmpty)
    (fun _ _ _ hle ⟨field, hf, heq, hr⟩ => ⟨field, hf, heq, hr.mono hle⟩)
    fun entry (he : entry ∈ table) => by
      obtain ⟨field, hf, heq, hdeep⟩ := h entry he
      obtain ⟨n, hn⟩ := hdeep assumed
      exact ⟨n, field, hf, heq, hn⟩
  have honce' : ∀ entry ∈ table, isOptional (canonical entry.1 fieldMark) fieldMark = false := by
    intro entry he
    obtain ⟨field, hf, heq, -⟩ := hn entry he
    exact heq ▸ honce field hf
  refine ⟨n, fun s' t hs ht hpolicy ha hs' ht' => ?_⟩
  rw [subsumes, compareKeys_map_eq_accepted]
  refine ⟨fun name hname ho => ?_, fun hstrict => ⟨?_, fun name hname _ hnone => ?_⟩,
    fun field hf r hr => ?_⟩
  · obtain ⟨field, hf, rfl⟩ := List.mem_map.mp hname
    exact hkept field hf ho
  · cases isOpen with
    | false => rfl
    | true => cases hstrict
  · obtain ⟨entry, he, rfl⟩ := List.mem_map.mp hname
    obtain ⟨field, hf, heq, -⟩ := hn entry he
    simp only [KeyKind.declared?, Option.orElse_eq_or, Option.or_eq_none_iff, Entries.get?_eq_none_iff]
      at hnone
    exact hnone.1 (heq ▸ Entries.mem_names hf)
  · obtain ⟨key, hkey, hcanonical⟩ := canonical_of_declared? hr (honce field hf) honce'
    obtain ⟨other, ho, heq, hsub⟩ := hn _ hkey
    obtain rfl := eq_of_canonical_eq happart hf ho (by rw [heq]; exact hcanonical.symm)
    exact hsub.withEmpty hs ht hpolicy ha hs' ht'

end DeepSubsumes

/-- JSON where references end and the fields of a record are named apart, none of them marked twice. -/
structure IsDefinite (p : Pattern) (s : Scope) : Prop where
  json : p.IsJson
  namesApart : p.NamesApart
  markedOnce : p.MarkedOnce
  leads : ∃ trail q, s.Leads p trail q

/-- All that the comparison of a pattern with itself comes to is definite, and is in the set. -/
structure Explores (C : Set Pattern) (x : Pattern × Scope) : Prop where
  mem : x.1 ∈ C
  closed : x.2.withEmpty.IsClosed C
  definite : ∀ y, ReflTransGen Unfolds x y → y.1.IsDefinite y.2

/-- What a pattern exposes ends where it ends itself, or is exposed by an alternative that it ends with. -/
theorem ends_or_of_exposes (hs : s.Derives t) (hp : t.Leads p trail p') (hr : t.Leads r trail' q')
    (h : ReflTransGen s.withEmpty.Exposes p r) :
    p' = q' ∨ ∃ ps, p' = union ps ∧ ∃ q ∈ ps, ReflTransGen s.withEmpty.Exposes q r := by
  induction hp with
  | stop hp =>
    obtain rfl | ⟨q, hq, hrest⟩ := ReflTransGen.cases_head h
    · exact .inl ((Scope.Leads.stop hp).unique hr).2
    · cases hq with
      | alternative hq => exact .inr ⟨_, rfl, q, hq, hrest⟩
      | target => cases hp
  | hop hl rest ih =>
    obtain rfl | ⟨q, hq, hrest⟩ := ReflTransGen.cases_head h
    · exact .inl ((Scope.Leads.hop hl rest).unique hr).2
    · cases hq with
      | target hl' =>
        cases (hs.lookup hl).symm.trans hl'
        exact ih hrest

theorem exposes_of_mem_alternatives (h : r ∈ q.alternatives) : ReflTransGen s.Exposes q r := by
  cases q with
  | union qs => exact .single (.alternative h)
  | _ =>
    obtain rfl := List.mem_singleton.mp h
    exact .refl

namespace Explores

variable {C : Set Pattern} {names : Finset String} {x y : Pattern × Scope}

theorem unfolds (h : Explores C x) (hxy : Unfolds x y) : Explores C y := by
  obtain ⟨hmem, hclosed⟩ := hxy.isClosed h.mem h.closed
  exact ⟨hmem, hclosed, fun z hz => h.definite z (.head hxy hz)⟩

theorem selfsame (hnames : Names C names) : Selfsame names (Explores C) where
  unfolds := unfolds
  literal h := (h.definite _ .refl).json
  record h := distinct_of_namesApart (h.definite _ .refl).namesApart
  reference h := ⟨hnames.references _ h.mem, (h.definite _ .refl).leads⟩
  typeName h := (h.definite _ .refl).json.elim
  element h := (h.definite _ .refl).json.elim

theorem deepSubsumes_self (h : Explores C (p, s)) (hnames : Names C names) : DeepSubsumes p p s :=
  .self fun _ => (selfsame hnames).exists_selfFrom h

theorem exposes (h : Explores C (p, t.withEmpty)) (hs : s.Derives t)
    (hq : ReflTransGen s.withEmpty.Exposes p q) : Explores C (q, t.withEmpty) := by
  induction hq with
  | refl => exact h
  | tail _ hq ih =>
    cases hq with
    | alternative hq => simpa using ih.unfolds (.alternative hq)
    | target hl => exact ih.unfolds (.target ((Scope.lookup_congr hs.definitions _).trans hl))

/-- The induction is on what is exposed: a union takes the alternatives of what it exposes one by one. -/
theorem deepSubsumes_of_exposes (hx : Explores C (p, t)) (hnames : Names C names) (hs : s.Derives t)
    (hacc : Acc (fun q p => TransGen s.withEmpty.Exposes p q) p)
    (hr : ReflTransGen s.withEmpty.Exposes p r) (hl : t.Leads r trail' q') : DeepSubsumes p r t := by
  induction hacc generalizing t r trail' q' with
  | intro p _ ih =>
    obtain ⟨trail, p', hp⟩ := (hx.definite _ .refl).leads
    have hx' : Explores C (p', t) := (selfsame hnames).leads hx hp
    refine .of_leads hp hl ?_
    obtain rfl | ⟨ps, rfl, q, hq, hqr⟩ := ends_or_of_exposes hs hp hl hr
    · exact hx'.deepSubsumes_self hnames
    · refine .union hl.isReference_eq_false fun y hy => ⟨q, hq, ?_⟩
      have hends : ReflTransGen s.withEmpty.Exposes r q' := (hs.leads hl).reflTransGen fun _ _ => .target
      have hqy := (hqr.trans hends).trans (exposes_of_mem_alternatives hy)
      have hpq : TransGen s.withEmpty.Exposes p q :=
        TransGen.tail' ((hs.leads hp).reflTransGen fun _ _ => .target) (.alternative hq)
      have hxq : Explores C (q, t.withEmpty) := hx'.unfolds (.alternative hq)
      obtain ⟨more, y', hy'⟩ := ((hxq.exposes hs hqy).definite _ .refl).leads
      exact ih q hpq hxq hs.withEmpty hqy hy'

end Explores

end Pattern

end PayloadContracts
