import PayloadContracts.Config
import PayloadContracts.Pattern.Token

/-!
The named patterns that references are looked up in, with the names entered so far.
-/

namespace PayloadContracts

structure Scope where
  definitions : Entries Pattern
  policy : KeyPolicy
  depthLimit : Nat
  caseLimit : Nat
  /-- The names entered on the way here, the outermost first. -/
  path : List String
  /-- Pairs of names, the bigger one first, whose comparison is under way. -/
  assumed : List (String × String)

namespace Scope

def ofDefinitions (definitions : Entries Pattern) (config : Config) : Scope :=
  ⟨definitions, config.unexpectedKeys, config.depthLimit, config.caseLimit, [], []⟩

def withPolicy (policy : KeyPolicy) (s : Scope) : Scope := { s with policy }

/-- The scope in which absent content has its token. -/
def withEmpty (s : Scope) : Scope :=
  if Entries.contains s.definitions emptyToken then s
  else { s with definitions := s.definitions ++ [(emptyToken, .scalar .empty)] }

/-- The pattern of a token: the one defined, or what the token says by itself. -/
def lookup (s : Scope) (token : String) : Except ContractError Pattern :=
  match Entries.get? s.definitions token with
  | some p => .ok p
  | none =>
    match Token.read? token with
    | some (.reference name) =>
      if name = token then .error (.patternNotFound token) else .ok (.reference name)
    | some p => .ok p
    | none => .error (.patternNotFound token)

/-- How many names can still be entered. -/
def headroom (s : Scope) : Nat := s.depthLimit - s.path.length

def enter (s : Scope) (name : String) : Except ContractError Scope :=
  if s.path.length < s.depthLimit then .ok { s with path := s.path ++ [name] }
  else .error (.nestedTooDeep name s.depthLimit)

def isExpanding (s : Scope) (name : String) : Bool := name ∈ s.path

def assuming (bigger smaller : String) (s : Scope) : Scope :=
  { s with assumed := s.assumed ++ [(bigger, smaller)] }

def isAssumed (s : Scope) (bigger smaller : String) : Bool := (bigger, smaller) ∈ s.assumed

theorem headroom_enter {s inner : Scope} {name : String} (h : s.enter name = .ok inner) :
    inner.headroom < s.headroom := by
  unfold enter at h
  split at h
  · cases h
    simp only [headroom, List.length_append, List.length_singleton]
    omega
  · cases h

@[simp] theorem headroom_withEmpty (s : Scope) : s.withEmpty.headroom = s.headroom := by
  unfold withEmpty
  split <;> rfl

@[simp] theorem headroom_assuming (s : Scope) (bigger smaller : String) :
    (s.assuming bigger smaller).headroom = s.headroom := rfl

/-- Follows references until something else is reached; names in `seen` may not come again. -/
def followFrom (seen : List String) (p : Pattern) (s : Scope) :
    Except ContractError (Pattern × Scope) :=
  match p with
  | .reference token =>
    if token ∈ seen then .error (.nestedTooDeep token seen.length)
    else
      match s.lookup token with
      | .error e => .error e
      | .ok next =>
        match _h : s.enter token with
        | .error e => .error e
        | .ok inner => followFrom (seen ++ [token]) next inner
  | _ => .ok (p, s)
termination_by s.headroom
decreasing_by exact headroom_enter _h

/-- The pattern behind a chain of references, in the scope entered on the way. -/
def follow (s : Scope) (p : Pattern) : Except ContractError (Pattern × Scope) := followFrom [] p s

theorem headroom_followFrom {seen : List String} {p q : Pattern} {s inner : Scope}
    (h : followFrom seen p s = .ok (q, inner)) : inner.headroom ≤ s.headroom := by
  fun_induction followFrom seen p s with
  | case1 => cases h
  | case2 => cases h
  | case3 => cases h
  | case4 seen s name _ next _ inner' he ih =>
    have := headroom_enter he
    have := ih h
    omega
  | case5 => cases h; exact Nat.le_refl _

/-- Following a reference uses up headroom. -/
theorem headroom_follow {token : String} {q : Pattern} {s inner : Scope}
    (h : s.follow (.reference token) = .ok (q, inner)) : inner.headroom < s.headroom := by
  rw [follow, followFrom] at h
  split at h
  · cases h
  · split at h
    · cases h
    · split at h
      · cases h
      · rename_i he
        exact Nat.lt_of_le_of_lt (headroom_followFrom h) (headroom_enter he)

/-- Following uses up headroom or leaves all as it is. -/
theorem follow_measure {p q : Pattern} {s inner : Scope} (h : s.follow p = .ok (q, inner)) :
    inner.headroom < s.headroom ∨ (q = p ∧ inner = s) := by
  cases p with
  | reference token => exact Or.inl (headroom_follow h)
  | _ =>
    rw [follow, followFrom] at h
    · cases h
      exact Or.inr ⟨rfl, rfl⟩
    · simp

end Scope

end PayloadContracts
