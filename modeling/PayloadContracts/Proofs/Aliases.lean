import PayloadContracts.Proofs.Tokens

/-!
Where following references comes to, which names it enters on the way, and how it fails. Main
statement: `Scope.follow_exact`.

No name comes twice, and a name without a definition is read as a token. What that spells is no
reference, or one that spells itself and so has a definition or stands for nothing. So at most every
other name on the way has no definition, and there are hardly more than twice as many names as
definitions, whatever the depth limit is.
-/

namespace PayloadContracts.Scope

open Pattern

variable {s : Scope} {p q next : Pattern} {name : String} {trail : List String}

theorem read?_of_lookup (hname : name ∉ s.definitions.names) (h : s.lookup name = .ok next) :
    Token.read? name = some next := by
  rw [lookup, Entries.get?_eq_none_iff.mpr hname] at h
  dsimp only at h
  split at h
  · split at h
    · cases h
    · cases h
      assumption
  · cases h
    assumption
  · cases h

theorem spellsItself_of_lookup (hname : name ∉ s.definitions.names) (h : s.lookup name = .ok next) :
    next.SpellsItself :=
  (Token.spelled_of_read? (read?_of_lookup hname h)).self

/-- A token that spells itself stands for what is defined for it, or for nothing. -/
theorem mem_names_of_lookup (hspells : Token.read? name = some (reference name))
    (h : s.lookup name = .ok next) : name ∈ s.definitions.names := by
  by_contra hname
  rw [lookup, Entries.get?_eq_none_iff.mpr hname, hspells] at h
  simp at h

/-- The names that have definitions. -/
def defined (s : Scope) (trail : List String) : List String :=
  trail.filter fun name => s.definitions.names.contains name

theorem length_defined_le (h : trail.Nodup) : (s.defined trail).length ≤ s.definitions.length := by
  have hsub : s.defined trail ⊆ s.definitions.names := fun name hname => by
    simpa using (List.mem_filter.mp hname).2
  have hlength := ((h.filter _).subperm hsub).length_le
  rwa [Entries.names, List.length_map] at hlength

theorem defined_cons_of_mem (h : name ∈ s.definitions.names) :
    s.defined (name :: trail) = name :: s.defined trail := by
  simp [defined, h]

theorem defined_cons_of_not_mem (h : name ∉ s.definitions.names) :
    s.defined (name :: trail) = s.defined trail := by
  simp [defined, h]

/-- After each name without a definition comes one with a definition, or the end. -/
theorem Hops.length_le_defined (h : s.Hops p trail q) :
    trail.length ≤ 2 * (s.defined trail).length + 1 ∧
      (p.SpellsItself → trail.length ≤ 2 * (s.defined trail).length) := by
  induction h with
  | refl => simp
  | @hop name next q trail hl rest ih =>
    by_cases hname : name ∈ s.definitions.names
    · rw [defined_cons_of_mem hname, List.length_cons, List.length_cons]
      exact ⟨by omega, fun _ => by omega⟩
    · rw [defined_cons_of_not_mem hname, List.length_cons]
      have hrest := ih.2 (spellsItself_of_lookup hname hl)
      exact ⟨by omega, fun hp => absurd (mem_names_of_lookup (hp name rfl) hl) hname⟩

/-- Following from the first pattern enters the names of the trail one by one and comes to the second:
each leads to the next, none comes twice, and the depth limit leaves room for all. -/
structure Enters (s : Scope) (p : Pattern) (trail : List String) (q : Pattern) : Prop where
  hops : s.Hops p trail q
  nodup : trail.Nodup
  room : trail = [] ∨ (s.path ++ trail).length ≤ s.depthLimit

theorem enters_iff :
    s.Enters p trail q ↔ s.Hops p trail q ∧ trail.Nodup ∧ trail.length ≤ s.headroom := by
  have hroom : (trail = [] ∨ (s.path ++ trail).length ≤ s.depthLimit) ↔
      trail.length ≤ s.headroom := by
    rw [headroom, List.length_append, ← List.length_eq_zero_iff]
    omega
  rw [← hroom]
  exact ⟨fun h => ⟨h.hops, h.nodup, h.room⟩, fun h => ⟨h.1, h.2.1, h.2.2⟩⟩

theorem Enters.length_le (h : s.Enters p trail q) : trail.length ≤ 2 * s.definitions.length + 1 := by
  have := h.hops.length_le_defined.1
  have := length_defined_le (s := s) h.nodup
  omega

/-- So far following has come when it has entered the names. -/
theorem Enters.follow (h : s.Enters p trail q) : s.follow p = followFrom trail q (s.below trail) := by
  obtain ⟨hl, hnd, hroom⟩ := enters_iff.mp h
  have hrun := followFrom_of_hops [] [] hl hnd (by simp) (by simpa using hroom)
  simpa [Scope.follow] using hrun

theorem follow_eq_iff {r : Except ContractError (Pattern × Scope)} :
    s.follow p = r ↔ ∃ trail q, s.Enters p trail q ∧ (s.below trail).Settles trail q r := by
  simp [Scope.follow, followFrom_eq_iff, enters_iff, and_assoc]

theorem headroom_below_eq_zero :
    (s.below trail).headroom = 0 ↔ s.depthLimit ≤ (s.path ++ trail).length :=
  Nat.sub_eq_zero_iff_le

theorem follow_eq_patternNotFound_iff :
    s.follow p = .error (.patternNotFound name) ↔
      ∃ trail, s.Enters p trail (reference name) ∧ name ∉ trail ∧ ¬∃ next, s.lookup name = .ok next := by
  rw [follow_eq_iff]
  constructor
  · rintro ⟨trail, q, h, hq⟩
    cases hq with
    | unknown hnew hl =>
      refine ⟨trail, h, hnew, ?_⟩
      rintro ⟨next, hnext⟩
      cases hl.symm.trans hnext
  · rintro ⟨trail, h, hnew, hl⟩
    cases hlookup : s.lookup name with
    | ok next => exact (hl ⟨next, hlookup⟩).elim
    | error e => exact ⟨trail, _, h, .unknown hnew hlookup⟩

theorem follow_eq_nestedTooDeep_iff {limit : Nat} :
    s.follow p = .error (.nestedTooDeep name limit) ↔
      ∃ trail, s.Enters p trail (reference name) ∧
        (name ∈ trail ∧ limit = trail.length ∨
          name ∉ trail ∧ (∃ next, s.lookup name = .ok next) ∧
            s.depthLimit ≤ (s.path ++ trail).length ∧ limit = s.depthLimit) := by
  rw [follow_eq_iff]
  constructor
  · rintro ⟨trail, q, h, hq⟩
    cases hq with
    | again hseen => exact ⟨trail, h, .inl ⟨hseen, rfl⟩⟩
    | noRoom hnew hl hroom =>
      exact ⟨trail, h, .inr ⟨hnew, ⟨_, hl⟩, headroom_below_eq_zero.mp hroom, rfl⟩⟩
  · rintro ⟨trail, h, ⟨hseen, rfl⟩ | ⟨hnew, ⟨next, hl⟩, hroom, rfl⟩⟩
    · exact ⟨trail, _, h, .again hseen⟩
    · exact ⟨trail, _, h, .noRoom hnew hl (headroom_below_eq_zero.mpr hroom)⟩

theorem follow_eq_error {e : ContractError} (h : s.follow p = .error e) :
    (∃ name, e = .patternNotFound name) ∨ ∃ name limit, e = .nestedTooDeep name limit := by
  obtain ⟨trail, q, -, hq⟩ := follow_eq_iff.mp h
  cases hq with
  | again => exact .inr ⟨_, _, rfl⟩
  | unknown => exact .inl ⟨_, rfl⟩
  | noRoom => exact .inr ⟨_, _, rfl⟩

/-- Following references enters no more names than the definitions allow, whatever the depth limit is.
It ends at a pattern that is no reference; or at a name that stands for nothing, if none came again and
there was room for all before it; or at a name that came before or that there is no room for. -/
theorem follow_exact (s : Scope) (p : Pattern) :
    (∀ trail q, s.Enters p trail q →
      s.follow p = followFrom trail q (s.below trail) ∧
        trail.length ≤ 2 * s.definitions.length + 1) ∧
    (∀ q inner, s.follow p = .ok (q, inner) ↔
      ∃ trail, s.Enters p trail q ∧ q.isReference = false ∧
        inner = { s with path := s.path ++ trail }) ∧
    (∀ name, s.follow p = .error (.patternNotFound name) ↔
      ∃ trail, s.Enters p trail (reference name) ∧ name ∉ trail ∧
        ¬∃ next, s.lookup name = .ok next) ∧
    (∀ name limit, s.follow p = .error (.nestedTooDeep name limit) ↔
      ∃ trail, s.Enters p trail (reference name) ∧
        (name ∈ trail ∧ limit = trail.length ∨
          name ∉ trail ∧ (∃ next, s.lookup name = .ok next) ∧
            s.depthLimit ≤ (s.path ++ trail).length ∧ limit = s.depthLimit)) ∧
    ∀ e, s.follow p = .error e →
      (∃ name, e = .patternNotFound name) ∨ ∃ name limit, e = .nestedTooDeep name limit := by
  refine ⟨fun trail q h => ⟨h.follow, h.length_le⟩, fun q inner => ?_,
    fun name => follow_eq_patternNotFound_iff, fun name limit => follow_eq_nestedTooDeep_iff,
    fun e => follow_eq_error⟩
  rw [follow_eq_iff]
  constructor
  · rintro ⟨trail, q, h, hq⟩
    cases hq with
    | reached hq => exact ⟨trail, h, hq, rfl⟩
  · rintro ⟨trail, h, hq, rfl⟩
    exact ⟨trail, q, h, .reached hq⟩

/-- One definition, and all the names that it allows. -/
def spaced : Scope := .ofDefinitions [("(A)", .reference "( number )")] ⟨.strict, 3, 100⟩

theorem follow_exact_spaced :
    spaced.follow (reference "( A )") =
        .ok (.scalar .number, { spaced with path := ["( A )", "(A)", "( number )"] }) ∧
      ["( A )", "(A)", "( number )"].length = 2 * spaced.definitions.length + 1 := by
  have hops : spaced.Hops (reference "( A )") ["( A )", "(A)", "( number )"] (.scalar .number) :=
    .hop rfl (.hop rfl (.hop rfl (.refl _)))
  refine ⟨((follow_exact spaced _).2.1 _ _).mpr ⟨_, ⟨hops, by decide, ?_⟩, rfl, rfl⟩, rfl⟩
  exact .inr (by decide)

end PayloadContracts.Scope
