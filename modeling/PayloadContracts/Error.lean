import PayloadContracts.Verdict

/-!
Errors in a contract or in an example bound to it, as opposed to values that a contract rejects.
-/

namespace PayloadContracts

inductive ContractError where
  | patternNotFound (token : String)
  | nestedTooDeep (name : String) (limit : Nat)
  /-- Example text that cannot be read. -/
  | format (field message : String)
  /-- An example or a token that does not fit the pattern it was bound to. -/
  | misfit (text : String)
  | tooManyCombinations (limit : Nat)
  | invalidPattern (text : String)
  | rowShape (columns values : Nat)
  | document (text : String)
  /-- An error below a field. -/
  | located (path : String) (source : ContractError)
  deriving DecidableEq, Repr, Inhabited

namespace ContractError

def message : ContractError → String
  | patternNotFound token => "pattern " ++ token ++ " was not found"
  | nestedTooDeep name limit =>
    "named pattern " ++ name ++ " nests deeper than " ++ toString limit ++ " levels"
  | format field message => "format error in example of \"" ++ field ++ "\": " ++ message
  | misfit text => text
  | tooManyCombinations limit =>
    "enumeration would produce more than " ++ toString limit ++ " combinations"
  | invalidPattern text => "invalid pattern: " ++ text
  | rowShape columns values =>
    "example row has " ++ toString columns ++ " columns but " ++ toString values ++ " values"
  | document text => "contract document: " ++ text
  | located path source => ">> " ++ path ++ "\n" ++ source.message

/-- The error as seen from one step further out. -/
def under (crumb : Crumb) : ContractError → ContractError
  | located path source => located (crumb.join path) source
  | e => located (crumb.join "") e

/-- The error without the path to it. -/
def root : ContractError → ContractError
  | located _ source => source.root
  | e => e

def failureKind : ContractError → FailureKind
  | patternNotFound _ => .patternNotFound
  | nestedTooDeep .. => .recursionLimitExceeded
  | format .. => .format
  | _ => .mismatch

def toFailure (e : ContractError) : Failure := ⟨e.root.failureKind, e.root.message, []⟩

end ContractError

def Verdict.ofError (e : ContractError) : Verdict := .rejected e.toFailure

variable {α : Type}

/-- The result for a part as one for the whole. -/
def locate (crumb : Crumb) (r : Except ContractError α) : Except ContractError α :=
  r.mapError (·.under crumb)

/-- All results in turn, or the first error; nothing is worked out after it. -/
def collect : List (Unit → Except ContractError α) → Except ContractError (List α)
  | [] => .ok []
  | r :: rest =>
    match r () with
    | .error e => .error e
    | .ok x =>
      match collect rest with
      | .error e => .error e
      | .ok xs => .ok (x :: xs)

end PayloadContracts
