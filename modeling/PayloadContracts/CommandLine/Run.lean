import PayloadContracts.CommandLine.Expansion
import PayloadContracts.CommandLine.Options
import PayloadContracts.Document.Basic
import PayloadContracts.Json.Reader
import PayloadContracts.Sampling

/-!
What the commands do with the files they are given, and what they report.
-/

namespace PayloadContracts.CommandLine

/-- What a run prints, and why it fails: from the run as a whole down to the cause. It has gone well if
there are no reasons. -/
structure Report where
  printed : String
  reasons : List String
  deriving DecidableEq, Repr

variable {m : Type → Type} [Monad m] {α : Type}

/-- A part of a run that fails with its reasons. -/
abbrev Attempt (m : Type → Type) (α : Type) := ExceptT (List String) m α

/-- The message of an error, and that of the error below its path. -/
def reasonsOf : ContractError → List String
  | .located path source => (ContractError.located path source).message :: reasonsOf source
  | e => [e.message]

def orFail (message : String) : Except ContractError α → Attempt m α
  | .ok x => return x
  | .error e => throw (message :: reasonsOf e)

def orFailFile (message : String) : Except FileError α → Attempt m α
  | .ok x => return x
  | .error e => throw [message, e.message]

def readFile (files : Files m) (path : String) : Attempt m String := do
  orFailFile ("failed to read " ++ path) (← files.read path)

def loadContract (files : Files m) (path : String) (permissive : Bool) : Attempt m Contract := do
  let text ← readFile files path
  let contract ← orFail ("failed to load contract " ++ path) (Contract.ofText text)
  return if permissive then { contract with scope := contract.scope.withPolicy .permissive }
    else contract

def loadValue (files : Files m) (path : String) : Attempt m Value := do
  match Json.read Json.nestingLimit (← readFile files path) with
  | .ok json => return Value.ofJson json
  | .error e => throw ["failed to parse JSON source file (" ++ path ++ ")", e.message]

def loadSubject (files : Files m) (subject : Subject) : Attempt m (Contract × Pattern) := do
  let contract ← loadContract files subject.contract subject.permissive
  let pattern ← orFail ("failed to select pattern in " ++ subject.contract)
    (contract.pattern subject.pattern)
  return (contract, pattern)

/-- A node is written as markup, everything else as JSON over several lines. -/
def rendered : Value → String
  | .node n => n.markup
  | v => v.toJson.pretty

/-- Puts text into a file whose folders are made as needed, or prints it. -/
def deliver (files : Files m) (out : Option String) (text : String) : Attempt m String := do
  match out with
  | none => return text ++ "\n"
  | some path =>
    let folders := Path.folders path
    orFailFile ("failed to create " ++ folders.headD "") (← files.createFolders folders)
    orFailFile ("failed to write " ++ path) (← files.write path text)
    return ""

/-- Whether one input matches, and the lines that say so. -/
def checkInput (files : Files m) (pattern : Pattern) (scope : Scope) (path : String) :
    m (Bool × String) := do
  match ← (loadValue files path).run with
  | .error reasons => return (false, "✘ " ++ path ++ "\n" ++ ": ".intercalate reasons ++ "\n")
  | .ok value =>
    match pattern.check value scope with
    | .accepted => return (true, "✔ " ++ path ++ "\n")
    | .rejected failure => return (false, "✘ " ++ path ++ "\n" ++ failure.report ++ "\n")

def check (files : Files m) (subject : Subject) (inputs : List String) : Attempt m Report := do
  let (contract, pattern) ← loadSubject files subject
  match ← (expand files inputs).run with
  | .error e => throw ["failed to resolve input file paths", e.message]
  | .ok paths =>
    let results ← (paths.mapM (checkInput files pattern contract.scope) : m (List (Bool × String)))
    let failures := results.countP fun result => !result.1
    return ⟨String.join (results.map Prod.snd),
      if failures = 0 then []
      else [toString failures ++ " of " ++ toString results.length ++ " inputs did not match"]⟩

/-- For requests the newer version has to accept what is sent by the older one, for responses the
older version what is sent by the newer one. -/
def compare (files : Files m) (older newer : String) (pattern : Option String)
    (direction : Direction) (permissive : Bool) : Attempt m Report := do
  let olderContract ← loadContract files older permissive
  let newerContract ← loadContract files newer permissive
  let p ← orFail "failed to select pattern in older contract" (olderContract.pattern pattern)
  let q ← orFail "failed to select pattern in newer contract" (newerContract.pattern pattern)
  let verdict :=
    match direction with
    | .request => q.subsumes p newerContract.scope olderContract.scope
    | .response => p.subsumes q olderContract.scope newerContract.scope
  match verdict with
  | .accepted => return ⟨"✔ " ++ newer ++ " is compatible with " ++ older ++ "\n", []⟩
  | .rejected failure =>
    return ⟨"✘ " ++ failure.report ++ "\n",
      [newer ++ " is not backward compatible with " ++ older]⟩

def generate (files : Files m) (subject : Subject) (out : Option String) : Attempt m Report := do
  let (contract, pattern) ← loadSubject files subject
  let value ← orFail "failed to generate a value" (pattern.sample contract.scope)
  return ⟨← deliver files out (rendered value), []⟩

/-- The samples of the cases, the first of which has the number `index`. -/
def samples (scope : Scope) (index : Nat) : List Pattern → Attempt m (List String)
  | [] => return []
  | p :: rest => do
    let value ← orFail ("failed to generate case " ++ toString index) (p.sample scope)
    return rendered value :: (← samples scope (index + 1) rest)

def examples (files : Files m) (subject : Subject) (out : Option String) : Attempt m Report := do
  let (contract, pattern) ← loadSubject files subject
  let message := "failed to specialise the pattern for the examples"
  match contract.cases pattern with
  | .failed e => throw (message :: reasonsOf e)
  | .endless => throw [message, "the enumeration does not end"]
  | .done cases =>
    let texts ← samples contract.scope 0 cases
    return ⟨← deliver files out ("\n".intercalate texts), []⟩

def attempt (files : Files m) : Command → Attempt m Report
  | .check subject inputs => check files subject inputs
  | .compare older newer pattern direction permissive =>
    compare files older newer pattern direction permissive
  | .generate subject out => generate files subject out
  | .examples subject out => examples files subject out

def run (files : Files m) (command : Command) : m Report := do
  match ← (attempt files command).run with
  | .ok report => return report
  | .error reasons => return ⟨"", reasons⟩

end PayloadContracts.CommandLine
