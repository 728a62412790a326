import PayloadContracts.Proofs.Limits

/-!
The plain patterns behind references and unions, and what a comparison says of them. Main statement:
`Pattern.takes_of_subsumes`.
-/

namespace PayloadContracts

open Relation

namespace Scope

open Pattern

variable {s : Scope} {p q y : Pattern} {trail : List String} {n m : Nat}

/-- Going on through references and unions, the first pattern leads to the second. -/
def ComesTo (s : Scope) (p q : Pattern) : Prop := ReflTransGen s.withEmpty.Exposes p q

/-- As `ComesTo`, in at most so many steps. -/
inductive ComesWithin (s : Scope) : Nat → Pattern → Pattern → Prop
  | here (n : Nat) (p : Pattern) : ComesWithin s n p p
  | step {n : Nat} {p q r : Pattern} (h : s.withEmpty.Exposes p q) (rest : ComesWithin s n q r) :
    ComesWithin s (n + 1) p r

theorem ComesTo.exists_within (h : s.ComesTo p q) : ∃ n, s.ComesWithin n p q := by
  induction h using ReflTransGen.head_induction_on with
  | refl => exact ⟨0, .here 0 q⟩
  | head hstep _ ih =>
    obtain ⟨n, hn⟩ := ih
    exact ⟨n + 1, .step hstep hn⟩

namespace ComesWithin

theorem comesTo (h : s.ComesWithin n p q) : s.ComesTo p q := by
  induction h with
  | here => exact .refl
  | step hstep _ ih => exact .head hstep ih

theorem mono (h : s.ComesWithin n p q) (hle : n ≤ m) : s.ComesWithin m p q := by
  induction h generalizing m with
  | here => exact .here m _
  | step hstep _ ih =>
    cases m with
    | zero => cases hle
    | succ m => exact .step hstep (ih (Nat.le_of_succ_le_succ hle))

/-- A plain pattern leads nowhere else. -/
theorem eq_of_isPlain (h : s.ComesWithin n p q) (hp : p.isPlain = true) : q = p := by
  cases h with
  | here => rfl
  | step hstep => cases hstep <;> cases hp

theorem of_union {ps : List Pattern} (h : s.ComesWithin n (union ps) y) (hy : y.isPlain = true) :
    ∃ q ∈ ps, s.ComesWithin n q y := by
  cases h with
  | here => cases hy
  | step hstep rest =>
    cases hstep with
    | alternative hq => exact ⟨_, hq, rest.mono (Nat.le_succ _)⟩

/-- The way to a plain pattern goes along a chain of references to its end. -/
theorem of_leads (h : s.ComesWithin n p y) (hy : y.isPlain = true)
    (hl : s.withEmpty.Leads p trail q) : ∃ m, m + trail.length = n ∧ s.ComesWithin m q y := by
  induction hl generalizing n with
  | stop => exact ⟨n, rfl, h⟩
  | hop hname _ ih =>
    cases h with
    | here => cases hy
    | step hstep rest =>
      cases hstep with
      | target hname' =>
        cases hname.symm.trans hname'
        obtain ⟨m, rfl, hm⟩ := ih rest
        exact ⟨m, rfl, hm⟩

end ComesWithin

theorem ComesTo.leads (hl : s.withEmpty.Leads p trail q) : s.ComesTo p q :=
  hl.reflTransGen fun _ _ => .target

end Scope

namespace Pattern

variable {s s' t t' : Scope} {p q y : Pattern} {n : Nat}

/-- Through references and unions the pattern comes to a plain one that subsumes the other, in scopes
that come about from the two. -/
def Takes (s t : Scope) (p y : Pattern) : Prop :=
  ∃ x s' t', x.isPlain = true ∧ s.ComesTo p x ∧ s.Derives s' ∧ t.Derives t' ∧
    x.subsumes y s' t' = .accepted

theorem Takes.of_comesTo (hp : s.ComesTo p q) (h : Takes s t q y) : Takes s t p y := by
  obtain ⟨x, s', t', hx, hq, hs, ht, hxy⟩ := h
  exact ⟨x, s', t', hx, hp.trans hq, hs, ht, hxy⟩

/-- A comparison that accepts takes each plain pattern that the smaller side comes to within so many
steps, if the pairs under comparison do. -/
theorem takes_within (hs : s.Derives s') (ht : t.Derives t') (h : p.subsumes q s' t' = .accepted)
    (ha : ∀ pair ∈ s'.assumed, t.ComesWithin n (reference pair.2) y →
      Takes s t (reference pair.1) y)
    (hy : y.isPlain = true) (hq : t.ComesWithin n q y) : Takes s t p y := by
  induction n using Nat.strongRecOn generalizing p q s' t' with
  | ind n below =>
    have hplain : ∀ {p q s' t'}, p.isPlain = true → q.isPlain = true → s.Derives s' → t.Derives t' →
        p.subsumes q s' t' = .accepted → t.ComesWithin n q y → Takes s t p y := by
      intro p q s' t' hp hq hs ht h hy
      obtain rfl := hy.eq_of_isPlain hq
      exact ⟨p, s', t', hp, .refl, hs, ht, h⟩
    induction p, q, s', t' using pairInduction with
    | references b c s' t' ih =>
      obtain hbc | ⟨p, s₁, q, t₁, hf, hf', h'⟩ := subsumes_references.mp h
      · exact ha (b, c) (by simpa [Scope.isAssumed] using hbc) hq
      · obtain ⟨trail, hl, -, -, rfl⟩ := Scope.follow_eq_ok_iff.mp hf
        obtain ⟨trail', hl', -, -, rfl⟩ := Scope.follow_eq_ok_iff.mp hf'
        have hsb : s.Derives (s'.assuming b c) := hs.assuming b c
        obtain ⟨m, rfl, hm⟩ := hq.of_leads hy (ht.leads hl')
        have hlt : m < m + trail'.length := by
          cases hl' with
          | stop hc => cases hc
          | hop => exact Nat.lt_add_of_pos_right (Nat.succ_pos _)
        refine .of_comesTo (.leads (hsb.leads hl)) ?_
        -- On a shorter way the pair itself takes the pattern, so it may join those under comparison.
        refine below m hlt (hsb.below trail) (ht.below trail') h' (fun pair hpair hc => ?_) hm
        have hold : ∀ pair ∈ s'.assumed, t.ComesWithin m (reference pair.2) y →
            Takes s t (reference pair.1) y := fun pair hp hc => ha pair hp (hc.mono hlt.le)
        obtain hpair | hpair := List.mem_append.mp hpair
        · exact hold pair hpair hc
        · obtain rfl := List.mem_singleton.mp hpair
          exact below m hlt hs ht h hold hc
    | left b q s' t' hqr ih =>
      obtain ⟨p, s₁, hf, h⟩ := (subsumes_reference_left hqr).mp h
      obtain ⟨trail, hl, -, -, rfl⟩ := Scope.follow_eq_ok_iff.mp hf
      exact .of_comesTo (.leads (hs.leads hl)) (ih p _ hf (hs.below trail) ht h ha hq)
    | right p c s' t' hpr ih =>
      obtain ⟨q, t₁, hf, h⟩ := (subsumes_reference_right hpr).mp h
      obtain ⟨trail, hl, -, -, rfl⟩ := Scope.follow_eq_ok_iff.mp hf
      obtain ⟨m, hm, hq⟩ := hq.of_leads hy (ht.leads hl)
      exact ih q _ hf hs (ht.below trail) h ha (hq.mono (by omega))
    | unionLeft ps q s' t' hqr ih =>
      obtain ⟨r, hr, hry⟩ : ∃ r ∈ q.alternatives, t.ComesWithin n r y := by
        obtain ⟨qs, rfl⟩ | hqp := eq_union_or hqr
        · exact hq.of_union hy
        · exact ⟨q, by simp [alternatives_of_isPlain hqp], hq⟩
      obtain ⟨p, hp, h⟩ := (subsumes_union_left hqr).mp h r hr
      refine .of_comesTo (.single (.alternative hp)) ?_
      exact ih p hp r hr hs.withEmpty ht.withEmpty h (by rwa [Scope.withEmpty_assumed]) hry
    | unionRight p qs s' t' hp ih =>
      obtain ⟨q, hq, hqy⟩ := hq.of_union hy
      exact ih q hq hs ht.withEmpty ((subsumes_union_right hp).mp h q hq) ha hqy
    | record fields isOpen q s' t' hqp _ => exact hplain rfl hqp hs ht h hq
    | list item q s' t' hqp _ => exact hplain rfl hqp hs ht h hq
    | literal e q s' t' hqp => exact hplain rfl hqp hs ht h hq
    | scalar kind q s' t' hqp => exact hplain rfl hqp hs ht h hq
    | element shape q s' t' hqp _ => exact hplain rfl hqp hs ht h hq

/-- Each plain pattern that the smaller side of a comparison comes to is subsumed by one that the
bigger side comes to. -/
theorem takes_of_subsumes (hfresh : s.assumed = []) (h : p.subsumes q s t = .accepted)
    (hy : y.isPlain = true) (hq : t.ComesTo q y) : Takes s t p y := by
  obtain ⟨n, hn⟩ := hq.exists_within
  refine takes_within (.refl s) (.refl t) h (fun pair hpair => ?_) hy hn
  rw [hfresh] at hpair
  cases hpair

end Pattern

end PayloadContracts
