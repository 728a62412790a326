import PayloadContracts.Text.Ending
import PayloadContracts.Value.Text

/-!
Verdicts of checks, and the place in a value that a failed check is about.
-/

namespace PayloadContracts

/-- A step from a value into one of its parts. -/
inductive Crumb where
  | key (name : String)
  | index (i : Nat)
  deriving DecidableEq, Repr

namespace Crumb

def label : Crumb → String
  | key name => name
  | index i => "[" ++ toString i ++ "]"

/-- The step in front of a path that is already text. -/
def join (crumb : Crumb) (path : String) : String :=
  if path = "" then crumb.label
  else if Text.startsWith path "[" then crumb.label ++ path
  else crumb.label ++ "." ++ path

end Crumb

inductive FailureKind where
  | mismatch
  | missingKey
  | unexpectedKey
  | patternNotFound
  | recursionLimitExceeded
  | format
  | structuralAlignment
  deriving DecidableEq, Repr

structure Failure where
  kind : FailureKind
  message : String
  /-- The way from the whole value to the part at fault. -/
  breadcrumb : List Crumb
  deriving DecidableEq, Repr

namespace Failure

def path (f : Failure) : String := f.breadcrumb.foldr Crumb.join ""

def report (f : Failure) : String :=
  if f.path = "" then f.message else ">> " ++ f.path ++ "\n\n" ++ f.message

end Failure

inductive Verdict where
  | accepted
  | rejected (failure : Failure)
  deriving DecidableEq, Repr

namespace Verdict

def reject (kind : FailureKind) (message : String) : Verdict := .rejected ⟨kind, message, []⟩

/-- The value is not what was expected. -/
def mismatch (expected : String) (actual : Value) : Verdict :=
  reject .mismatch
    ("Expected " ++ expected ++ ", actual was " ++ actual.typeName ++ " " ++ actual.quoted)

def isAccepted : Verdict → Bool
  | accepted => true
  | rejected _ => false

/-- The verdict on a part as one on the whole: a failure lies one step deeper. -/
def under (crumb : Crumb) : Verdict → Verdict
  | accepted => accepted
  | rejected f => rejected { f with breadcrumb := crumb :: f.breadcrumb }

/-- The first verdict if it is a failure, else the second. -/
def andThen (first : Verdict) (second : Unit → Verdict) : Verdict :=
  match first with
  | accepted => second ()
  | rejected f => rejected f

def report : Verdict → String
  | accepted => ""
  | rejected f => f.report

@[simp] theorem isAccepted_iff {v : Verdict} : v.isAccepted = true ↔ v = accepted := by
  cases v <;> simp [isAccepted]

@[simp] theorem under_eq_accepted {crumb : Crumb} {v : Verdict} :
    v.under crumb = accepted ↔ v = accepted := by
  cases v <;> simp [under]

@[simp] theorem andThen_eq_accepted {v : Verdict} {w : Unit → Verdict} :
    v.andThen w = accepted ↔ v = accepted ∧ w () = accepted := by
  cases v <;> simp [andThen]

end Verdict

end PayloadContracts
