import PayloadContracts.Proofs.Cases
import PayloadContracts.Proofs.DeepComparisons

/-!
A JSON pattern subsumes its cases for a row without tokens, where no reference leads back to itself
through references and unions alone. Main statement: `Pattern.subsumes_of_case`.
-/

namespace PayloadContracts

open Relation

namespace Scope

variable {s t : Scope} {p q : Pattern} {trail : List String}

/-- The second scope is the first with names entered that can be followed in it. -/
structure Entered (s t : Scope) : Prop where
  definitions : t.definitions = s.definitions
  policy : t.policy = s.policy
  leads : ∀ token ∈ t.path, ∃ trail q, s.Leads (.reference token) trail q

namespace Entered

theorem of_fresh (h : s.path = []) : s.Entered s := ⟨rfl, rfl, by simp [h]⟩

theorem withEmpty (h : s.Entered t) : s.withEmpty.Entered t.withEmpty := by
  refine ⟨withEmpty_definitions_congr h.definitions, by simpa using h.policy, fun token ht => ?_⟩
  rw [withEmpty_path] at ht
  obtain ⟨trail, q, hl⟩ := h.leads token ht
  exact ⟨trail, q, hl.mono fun _ _ => lookup_withEmpty⟩

theorem below (h : s.Entered t) (hl : s.Leads p trail q) : s.Entered (t.below trail) := by
  refine ⟨h.definitions, h.policy, fun token ht => ?_⟩
  obtain ht | ht := List.mem_append.mp ht
  · exact h.leads token ht
  · obtain ⟨more, hmore, -⟩ := hl.of_mem ht
    exact ⟨more, q, hmore⟩

theorem leads_iff (h : s.Entered t) : t.Leads p trail q ↔ s.Leads p trail q :=
  ⟨fun hl => hl.mono fun name _ hn => (lookup_congr h.definitions name).symm.trans hn,
    fun hl => hl.mono fun name _ hn => (lookup_congr h.definitions name).trans hn⟩

end Entered

end Scope

namespace Pattern

variable {ofToken : Pattern → Scope → Outcome (List Pattern)} {row : Row} {p q S : Pattern}
  {s t u : Scope} {cs : List Pattern} {token : String} {trail : List String} {ps : List Pattern}
  {C : Set Pattern} {names : Finset String}

/-- The second pattern is a reference that the first one exposes and that has been entered on the way, or
it is plain and subsumed by the first one. -/
inductive Narrows (s t : Scope) (p : Pattern) : Pattern → Prop
  | entered {token : String} (ht : token ∈ t.path)
      (h : ReflTransGen s.withEmpty.Exposes p (reference token)) : Narrows s t p (reference token)
  | plain {S : Pattern} (hS : S.isPlain = true) (h : DeepSubsumes p S t) : Narrows s t p S

namespace Narrows

theorem union (hq : q ∈ ps) (h : Narrows s t.withEmpty q S) : Narrows s t (union ps) S := by
  cases h with
  | entered ht h => exact .entered (by simpa using ht) (.head (.alternative hq) h)
  | plain hS h =>
    refine .plain hS (.union (isReference_of_isPlain hS) fun r hr => ⟨q, hq, ?_⟩)
    rw [alternatives_of_isPlain hS] at hr
    exact List.mem_singleton.mp hr ▸ h

/-- What comes back to a name would expose it again, so cases of what a reference stands for are no
references entered since. -/
theorem reference (hs : s.Guarded) (ht : s.Derives t) (hl : t.Leads (reference token) trail q)
    (h : Narrows s (t.below trail) q S) : Narrows s t (reference token) S := by
  have hexposes : ∀ {p trail}, t.Leads p trail q → ReflTransGen s.withEmpty.Exposes p q := fun hl =>
    (ht.leads hl).reflTransGen fun _ _ => .target
  cases h with
  | @entered other ho h =>
    obtain ho | ho := List.mem_append.mp ho
    · exact .entered ho ((hexposes hl).trans h)
    · obtain ⟨more, hmore, -⟩ := hl.of_mem ho
      exact absurd ((ht.leads hmore).transGen (fun _ _ => .target) |>.trans_left h) (hs other)
  | plain hS h =>
    exact .plain hS (.of_leads hl (.stop (isReference_of_isPlain hS)) (h.congr rfl rfl))

theorem deepSubsumes (h : Narrows s t p S) (hs : s.Derives u) (ht : u.Entered t)
    (hx : Explores C (p, u)) (hnames : Names C names)
    (hacc : Acc (fun q p => TransGen s.withEmpty.Exposes p q) p) : DeepSubsumes p S t := by
  cases h with
  | entered htoken h =>
    obtain ⟨trail, q, hl⟩ := ht.leads _ htoken
    exact (hx.deepSubsumes_of_exposes hnames hs hacc h hl).congr ht.definitions ht.policy
  | plain _ h => exact h

end Narrows

/-- Parts of a case are cases of parts, with more names entered on the way. -/
theorem narrows_of_mem_cases (hrow : ∀ entry ∈ row, Token.isToken entry.2 = false)
    (hguarded : s.Guarded) (hC : C.Finite) (hclosed : s.withEmpty.IsClosed C) (hnames : Names C names)
    (hs : s.Derives u) (ht : u.Entered t) (hx : Explores C (p, u))
    (h : p.casesWith ofToken row t = .done cs) (hS : S ∈ cs) : Narrows s t p S := by
  have hdeep : ∀ {u t : Scope} {q S : Pattern}, s.Derives u → u.Entered t → Explores C (q, u) →
      Narrows s t q S → DeepSubsumes q S t := fun hs ht hx h =>
    h.deepSubsumes hs ht hx hnames (hguarded.acc hC hclosed hx.mem)
  induction p, t using scopeInduction generalizing u S cs with
  | literal v t =>
    rw [casesWith] at h
    cases h
    obtain rfl := List.mem_singleton.mp hS
    exact .plain rfl ((hx.deepSubsumes_self hnames).congr ht.definitions ht.policy)
  | scalar kind t =>
    rw [casesWith] at h
    cases h
    obtain rfl := List.mem_singleton.mp hS
    exact .plain rfl ((hx.deepSubsumes_self hnames).congr ht.definitions ht.policy)
  | record fields isOpen t ih =>
    have hdefinite := hx.definite _ .refl
    obtain ⟨tables, table, htables, hmem, rfl⟩ := table_of_casesWith h hS
    obtain ⟨-, hkept, hchoices⟩ := mem_recordCases hdefinite.namesApart htables hmem
    refine .plain rfl (.record hdefinite.namesApart hdefinite.markedOnce
      (fun field hf ho => hkept field hf (by rw [isFree, ho, Bool.false_and])) fun entry he => ?_)
    obtain ⟨field, hf, hname, choices, hdone, hentry⟩ := hchoices entry he
    refine ⟨field, hf, hname, ?_⟩
    obtain ⟨-, hdone⟩ | ⟨_, v, _, _, hcheck, rfl⟩ := partCases_eq_done hrow hdone
    · have hfield := hx.unfolds (.field hf)
      have hnarrows := ih field hf hs.withEmpty ht.withEmpty hfield hdone hentry
      exact hdeep hs.withEmpty ht.withEmpty hfield hnarrows
    · rw [List.mem_singleton.mp hentry]
      exact .literal hcheck
  | element shape t => exact (hx.definite _ .refl).json.elim
  | union ps t ih =>
    obtain ⟨q, hq, more, hdone, hS⟩ := alternative_of_casesWith h hS
    exact .union hq (ih q hq hs.withEmpty ht.withEmpty (hx.unfolds (.alternative hq)) hdone hS)
  | reference token t ih =>
    by_cases hexpanding : t.isExpanding token = true
    · rw [casesWith, if_pos hexpanding] at h
      cases h
      obtain rfl := List.mem_singleton.mp hS
      exact .entered (by simpa [Scope.isExpanding] using hexpanding) .refl
    · cases hf : t.follow (reference token) with
      | error e =>
        rw [casesWith_reference_error hexpanding hf] at h
        cases h
      | ok r =>
        rw [casesWith_reference hexpanding hf] at h
        obtain ⟨trail, hl, -, -, hinner⟩ := Scope.follow_eq_ok_iff.mp hf
        have hl' := ht.leads_iff.mp hl
        have hinner' : u.Entered r.2 := hinner ▸ ht.below hl'
        have hnarrows := ih r.1 r.2 hf hs hinner' ((Explores.selfsame hnames).leads hx hl') h hS
        rw [hinner] at hnarrows
        exact .reference hguarded (hs.congr ht.definitions ht.policy) hl hnarrows
  | list item t ih =>
    obtain ⟨more, hdone, T, hT, rfl⟩ := item_of_casesWith h hS
    have hitem := hx.unfolds (.item item u)
    exact .plain rfl (.list (hdeep hs ht hitem (ih hs ht hitem hdone hT)))

/-- In a scope in which no name has been entered and no pair is under comparison, a JSON pattern subsumes
its cases for a row without tokens, if names may be entered often enough. -/
theorem subsumes_of_case (hpath : s.path = []) (hassumed : s.assumed = []) (hguarded : s.Guarded)
    (hp : ∀ x, ReflTransGen Unfolds (p, s) x → x.1.IsDefinite x.2)
    (hrow : ∀ entry ∈ row, Token.isToken entry.2 = false) (h : p.cases row s = .done cs) (hS : S ∈ cs) :
    ∃ n, ∀ limit, n ≤ limit →
      p.subsumes S { s with depthLimit := limit } { s with depthLimit := limit } = .accepted := by
  obtain ⟨ofToken, hcases⟩ := exists_cases_eq p row s
  rw [hcases] at h
  obtain ⟨C, hC, hmem, hclosed⟩ := s.withEmpty.exists_isClosed [p]
  obtain ⟨names, hnames⟩ := exists_names hC
  have hx : Explores C (p, s) := ⟨hmem p List.mem_cons_self, hclosed, hp⟩
  have hs : s.Derives s := .refl s
  have ht : s.Entered s := .of_fresh hpath
  have hnarrows := narrows_of_mem_cases hrow hguarded hC hclosed hnames hs ht hx h hS
  obtain ⟨n, hn⟩ := hnarrows.deepSubsumes hs ht hx hnames (hguarded.acc hC hclosed hx.mem) []
  refine ⟨n, fun limit hlimit => hn _ _ rfl rfl rfl hassumed ?_ ?_⟩ <;>
    simpa [Scope.headroom, hpath] using hlimit

end Pattern

namespace Chain

open Pattern

variable {x y : Pattern × Scope}

theorem guarded : scope.Guarded := by
  refine Scope.guarded_of_isPlain fun entry he => ?_
  obtain rfl := List.mem_singleton.mp he
  rfl

/-- What a comparison in the chain comes to. -/
def patterns : List Pattern := [.reference "(Node)", node, .scalar .string]

theorem mem_patterns_of_unfolds (hs : Knows x.2) (hx : x.1 ∈ patterns) (h : Unfolds x y) :
    Knows y.2 ∧ y.1 ∈ patterns := by
  cases h with
  | @field fields isOpen s field hf =>
    obtain ⟨rfl, -⟩ : fields = [("name", .scalar .string), ("next?", .reference "(Node)")] ∧
        isOpen = false := by simpa [patterns, node] using hx
    refine ⟨hs.withEmpty, ?_⟩
    obtain rfl | rfl : field = ("name", .scalar .string) ∨ field = ("next?", .reference "(Node)") := by
      simpa using hf
    · simp [patterns]
    · simp [patterns]
  | target hl =>
    obtain rfl : _ = "(Node)" := by simpa [patterns, node] using hx
    cases hl.symm.trans (lookup_node hs)
    exact ⟨hs, by simp [patterns]⟩
  | alternative => simp [patterns, node] at hx
  | item => simp [patterns, node] at hx
  | entry => simp [patterns, node] at hx
  | child => simp [patterns, node] at hx

theorem isDefinite_of_mem_patterns (hs : Knows x.2) (hx : x.1 ∈ patterns) : x.1.IsDefinite x.2 := by
  obtain ⟨p, s⟩ := x
  obtain rfl | rfl | rfl : p = .reference "(Node)" ∨ p = node ∨ p = .scalar .string := by
    simpa [patterns] using hx
  · exact ⟨trivial, trivial, trivial, _, _, .hop (lookup_node hs) (.stop rfl)⟩
  · exact ⟨trivial, namesApart_node, markedOnce_node, _, _, .stop rfl⟩
  · exact ⟨trivial, trivial, trivial, _, _, .stop rfl⟩

theorem mem_patterns (h : ReflTransGen Unfolds (reference "(Node)", scope) x) :
    Knows x.2 ∧ x.1 ∈ patterns := by
  induction h with
  | refl => exact ⟨.inl rfl, List.mem_cons_self⟩
  | tail _ hyz ih => exact mem_patterns_of_unfolds ih.1 ih.2 hyz

theorem isDefinite (h : ReflTransGen Unfolds (reference "(Node)", scope) x) : x.1.IsDefinite x.2 :=
  isDefinite_of_mem_patterns (mem_patterns h).1 (mem_patterns h).2

theorem cases_start :
    (reference "(Node)").cases [("name", "first")] scope =
      .done [record [("name", literal (.text "first"))] false,
        record [("name", literal (.text "first")), ("next?", reference "(Node)")] false] := by
  obtain ⟨ofToken, hcases⟩ := exists_cases_eq (reference "(Node)") [("name", "first")] scope
  rw [hcases, casesWith_reference (by decide) (follow_node (.inl rfl) (by decide)), chain_casesWith]

end Chain

theorem Pattern.subsumes_of_case_chain :
    Chain.scope.path = [] ∧ Chain.scope.assumed = [] ∧ Chain.scope.Guarded ∧
      (∀ x, ReflTransGen Unfolds (reference "(Node)", Chain.scope) x → x.1.IsDefinite x.2) ∧
      (∀ entry ∈ [("name", "first")], Token.isToken entry.2 = false) ∧
      (reference "(Node)").cases [("name", "first")] Chain.scope =
        .done [record [("name", literal (.text "first"))] false,
          record [("name", literal (.text "first")), ("next?", reference "(Node)")] false] ∧
      ∃ n, ∀ limit, n ≤ limit → (reference "(Node)").subsumes
        (record [("name", literal (.text "first")), ("next?", reference "(Node)")] false)
        { Chain.scope with depthLimit := limit } { Chain.scope with depthLimit := limit } =
          .accepted := by
  have hdefinite : ∀ x, ReflTransGen Unfolds (reference "(Node)", Chain.scope) x → x.1.IsDefinite x.2 :=
    fun _ => Chain.isDefinite
  have hrow : ∀ entry ∈ [("name", "first")], Token.isToken entry.2 = false := by decide
  exact ⟨rfl, rfl, Chain.guarded, hdefinite, hrow, Chain.cases_start,
    subsumes_of_case rfl rfl Chain.guarded hdefinite hrow Chain.cases_start (by simp)⟩

namespace Doubled

open Pattern

/-- Absent, or what is perhaps absent. -/
def once : Pattern := .union [.reference emptyToken, .reference "(C)"]

/-- Twice absent, or itself again through unions alone. -/
def twice : Pattern := .union [.reference emptyToken, once]

def scope : Scope := .ofDefinitions [("(C)", twice)] ⟨.strict, 8, 100⟩

variable {s t : Scope} {x y : Pattern × Scope}

theorem lookup_twice (hs : scope.Derives s) : s.lookup "(C)" = .ok twice := by
  rw [hs.lookup_eq (by decide)]
  rfl

theorem lookup_empty (hs : scope.Derives s) : s.withEmpty.lookup emptyToken = .ok (.scalar .empty) := by
  rw [Scope.lookup_congr hs.definitions]
  rfl

theorem leads_twice (hs : scope.Derives s) : s.Leads (.reference "(C)") ["(C)"] twice :=
  .hop (lookup_twice hs) (.stop rfl)

theorem leads_empty (hs : scope.Derives s) :
    s.withEmpty.Leads (.reference emptyToken) [emptyToken] (.scalar .empty) :=
  .hop (lookup_empty hs) (.stop rfl)

theorem follow_twice {q : Pattern} (hs : scope.Derives s) (h : s.follow (.reference "(C)") = .ok (q, t)) :
    q = twice ∧ t = s.below ["(C)"] ∧ t.headroom < s.headroom := by
  have hroom := Scope.headroom_follow h
  obtain ⟨trail, hl, -, -, rfl⟩ := Scope.follow_eq_ok_iff.mp h
  obtain ⟨rfl, rfl⟩ := hl.unique (leads_twice hs)
  exact ⟨rfl, rfl, hroom⟩

theorem follow_empty {q : Pattern} (hs : scope.Derives s)
    (h : s.follow (.reference emptyToken) = .ok (q, t)) : q = .scalar .empty := by
  obtain ⟨trail, hl, -⟩ := Scope.follow_eq_ok_iff.mp h
  exact ((hs.leads hl).unique (leads_empty (.refl scope))).2

/-- Each round of the comparison enters the name once more. -/
theorem empty_not_subsumes_once (ht : scope.Derives t) :
    (Pattern.scalar .empty).subsumes once s t ≠ .accepted := by
  induction hn : t.headroom using Nat.strongRecOn generalizing t with
  | ind n ih =>
    intro h
    have hagain := (subsumes_union_right rfl).mp h (.reference "(C)") (by simp)
    obtain ⟨q, t', hf, htwice⟩ := (subsumes_reference_right rfl).mp hagain
    obtain ⟨rfl, rfl, hlt⟩ := follow_twice ht.withEmpty hf
    rw [Scope.headroom_withEmpty, hn] at hlt
    have honce := (subsumes_union_right rfl).mp htwice once (by simp)
    exact ih _ hlt (ht.withEmpty.below _).withEmpty (Scope.headroom_withEmpty _) honce

/-- Each round comes back to the first pattern and the name, with nothing under comparison. -/
theorem once_not_subsumes (hs : scope.Derives s) (ht : scope.Derives t) (ha : s.assumed = []) :
    once.subsumes (.reference "(C)") s t ≠ .accepted := by
  induction hn : t.headroom using Nat.strongRecOn generalizing s t with
  | ind n ih =>
    intro h
    obtain ⟨q, t', hf, htwice⟩ := (subsumes_reference_right rfl).mp h
    obtain ⟨rfl, rfl, hlt⟩ := follow_twice ht hf
    obtain ⟨p, hp, honce⟩ := (subsumes_union_left rfl).mp htwice once (by simp [twice, alternatives])
    obtain rfl | rfl : p = .reference emptyToken ∨ p = .reference "(C)" := by simpa using hp
    · obtain ⟨q, s', hf', hempty⟩ := (subsumes_reference_left rfl).mp honce
      obtain rfl := follow_empty hs.withEmpty hf'
      exact empty_not_subsumes_once (ht.below _).withEmpty hempty
    · obtain ⟨q, s', hf', honce⟩ := (subsumes_reference_left rfl).mp honce
      obtain ⟨rfl, rfl, -⟩ := follow_twice hs.withEmpty hf'
      obtain ⟨p, hp, hagain⟩ := (subsumes_union_left rfl).mp honce (.reference "(C)")
        (by simp [once, alternatives])
      have hs' : scope.Derives (s.withEmpty.below ["(C)"]) := hs.withEmpty.below _
      have ht' : scope.Derives (t.below ["(C)"]).withEmpty.withEmpty := (ht.below _).withEmpty.withEmpty
      obtain rfl | rfl : p = .reference emptyToken ∨ p = once := by simpa using hp
      · obtain hassumed | ⟨p, s', q, t', hf', hf, hempty⟩ := subsumes_references.mp hagain
        · simp [Scope.isAssumed, Scope.below, ha] at hassumed
        · obtain rfl := follow_empty (hs'.withEmpty.assuming _ _) hf'
          obtain ⟨rfl, rfl, -⟩ := follow_twice ht' hf
          exact empty_not_subsumes_once (ht'.below _).withEmpty
            ((subsumes_union_right rfl).mp hempty once (by simp))
      · refine ih _ (hn ▸ hlt) hs'.withEmpty ht' ?_ (by simp) hagain
        simpa [Scope.below] using ha

/-- What a comparison of the doubled pattern comes to. -/
def patterns : List Pattern := [once, twice, .reference "(C)", .scalar .empty]

/-- The token of absent content is met only where it stands for something. -/
def IsMet (x : Pattern × Scope) : Prop :=
  scope.Derives x.2 ∧ (x.1 ∈ patterns ∨ (x.1 = .reference emptyToken ∧ x.2.withEmpty = x.2))

theorem IsMet.unfolds (hx : IsMet x) (h : Unfolds x y) : IsMet y := by
  obtain ⟨hs, hx⟩ := hx
  cases h with
  | @alternative ps s q hq =>
    have hps : ps = [.reference emptyToken, .reference "(C)"] ∨ ps = [.reference emptyToken, once] := by
      simpa [patterns, once, twice] using hx
    have hq' : q = .reference emptyToken ∨ q = .reference "(C)" ∨ q = once := by
      obtain rfl | rfl := hps <;> simp only [List.mem_cons, List.not_mem_nil, or_false] at hq <;> tauto
    refine ⟨hs.withEmpty, ?_⟩
    obtain rfl | rfl | rfl := hq'
    · exact .inr ⟨rfl, Scope.withEmpty_withEmpty s⟩
    · exact .inl (by simp [patterns])
    · exact .inl (by simp [patterns])
  | @target token s q hl =>
    obtain hx | ⟨hx, -⟩ := hx
    · obtain rfl : token = "(C)" := by simpa [patterns, once, twice] using hx
      cases hl.symm.trans (lookup_twice hs)
      exact ⟨hs, .inl (by simp [patterns])⟩
    · cases hx
      cases (Scope.lookup_withEmpty hl).symm.trans (lookup_empty hs)
      exact ⟨hs, .inl (by simp [patterns])⟩
  | field => simp [patterns, once, twice] at hx
  | item => simp [patterns, once, twice] at hx
  | entry => simp [patterns, once, twice] at hx
  | child => simp [patterns, once, twice] at hx

theorem IsMet.isDefinite (hx : IsMet x) : x.1.IsDefinite x.2 := by
  obtain ⟨p, s⟩ := x
  obtain ⟨hs, hp | ⟨rfl, hempty⟩⟩ := hx
  · obtain rfl | rfl | rfl | rfl : p = once ∨ p = twice ∨ p = .reference "(C)" ∨ p = .scalar .empty := by
      simpa [patterns] using hp
    · exact ⟨trivial, trivial, trivial, _, _, .stop rfl⟩
    · exact ⟨trivial, trivial, trivial, _, _, .stop rfl⟩
    · exact ⟨trivial, trivial, trivial, _, _, leads_twice hs⟩
    · exact ⟨trivial, trivial, trivial, _, _, .stop rfl⟩
  · have hempty : s.withEmpty = s := hempty
    exact ⟨trivial, trivial, trivial, _, _, hempty ▸ leads_empty hs⟩

theorem isDefinite (h : ReflTransGen Unfolds (once, scope) x) : x.1.IsDefinite x.2 := by
  have hx : IsMet x := by
    induction h with
    | refl => exact ⟨.refl scope, .inl List.mem_cons_self⟩
    | tail _ hyz ih => exact ih.unfolds hyz
  exact hx.isDefinite

variable {ofToken : Pattern → Scope → Outcome (List Pattern)} {row : Row} {p : Pattern}
  {cs : List Pattern}

theorem casesWith_absent_or (hs : scope.Derives s) (hpath : emptyToken ∉ s.path) (hroom : 0 < s.headroom)
    (h : p.casesWith ofToken row s.withEmpty = .done cs) :
    (union [.reference emptyToken, p]).casesWith ofToken row s = .done (.scalar .empty :: cs) := by
  have hempty : (reference emptyToken).casesWith ofToken row s.withEmpty = .done [.scalar .empty] := by
    rw [casesWith_reference (by simpa [Scope.isExpanding] using hpath)
      (Scope.follow_of_leads (leads_empty hs) (by simpa [Nat.succ_le_iff] using hroom)), casesWith]
  rw [casesWith]
  simp only [List.map_cons, List.map_nil, Outcome.collect, hempty, h]
  simp [Outcome.map]

theorem cases_once :
    once.cases [] scope =
      .done [.scalar .empty, .scalar .empty, .scalar .empty, .reference "(C)"] := by
  obtain ⟨ofToken, hcases⟩ := exists_cases_eq once [] scope
  have hscope : scope.Derives scope.withEmpty := (Scope.Derives.refl scope).withEmpty
  rw [hcases, once]
  refine casesWith_absent_or (.refl scope) (by decide) (by decide) ?_
  rw [casesWith_reference (by decide) (Scope.follow_of_leads (leads_twice hscope) (by decide)), twice]
  refine casesWith_absent_or (hscope.below _) (by decide) (by decide) ?_
  rw [once]
  refine casesWith_absent_or (hscope.below _).withEmpty (by decide) (by decide) ?_
  rw [casesWith, if_pos (by decide)]

end Doubled

/-- The name is left as it is among the cases, and comparing it puts no pair of names under comparison. -/
theorem Pattern.not_subsumes_of_case :
    Doubled.scope.path = [] ∧ Doubled.scope.assumed = [] ∧
      (∀ x, ReflTransGen Unfolds (Doubled.once, Doubled.scope) x → x.1.IsDefinite x.2) ∧
      Doubled.once.cases [] Doubled.scope =
        .done [scalar .empty, scalar .empty, scalar .empty, reference "(C)"] ∧
      ∀ limit, Doubled.once.subsumes (reference "(C)") { Doubled.scope with depthLimit := limit }
        { Doubled.scope with depthLimit := limit } ≠ .accepted :=
  ⟨rfl, rfl, fun _ => Doubled.isDefinite, Doubled.cases_once,
    fun _ => Doubled.once_not_subsumes ⟨rfl, rfl⟩ ⟨rfl, rfl⟩ rfl⟩

end PayloadContracts
