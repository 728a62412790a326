import PayloadContracts.CommandLine.Options
import PayloadContracts.Text.Ending

/-!
Reads the arguments word by word. A word that follows an option is a value of it, but what is wrong
with the option or its values is said only when the next option or the end is reached.
-/

namespace PayloadContracts.CommandLine

/-- The options given so far. -/
structure Draft where
  settled : List (Opt × List String)
  /-- The last option, with the words that have come after it. -/
  pending : Option (Opt × List String)
  deriving Repr

namespace Draft

def empty : Draft := ⟨[], none⟩

def has (d : Draft) (opt : Opt) : Bool := d.settled.any fun entry => entry.1 = opt

def values (d : Draft) (opt : Opt) : List String :=
  (d.settled.filter fun entry => entry.1 = opt).flatMap Prod.snd

def value? (d : Draft) (opt : Opt) : Option String := (d.values opt).head?

def record (d : Draft) (opt : Opt) (values : List String) : Except Usage Draft :=
  if opt.takesValue && values.isEmpty then .error .invalidValue
  else if !opt.takesMany && d.has opt then .error .repeated
  else if values.all opt.admits then .ok ⟨d.settled ++ [(opt, values)], none⟩
  else .error .invalidValue

/-- Nothing more comes for the last option. -/
def settle (d : Draft) : Except Usage Draft :=
  match d.pending with
  | none => .ok d
  | some (opt, values) => { d with pending := none }.record opt values

/-- An option with a value attached to it, or one that takes none. -/
def give (d : Draft) (opt : Opt) (values : List String) : Except Usage Draft := do
  let d ← d.settle
  if opt = .help then throw .help
  d.record opt values

/-- An option whose values are still to come. -/
def await (d : Draft) (opt : Opt) : Except Usage Draft := do
  let d ← d.settle
  return { d with pending := some (opt, []) }

/-- A word that is no option. -/
def readPlain (d : Draft) (word : String) : Except Usage Draft :=
  match d.pending with
  | some (opt, values) =>
    if values.isEmpty || opt.takesMany then .ok { d with pending := some (opt, values ++ [word]) }
    else .error .unknownArgument
  | none => .error .unknownArgument

/-- A word behind two dashes: the name of an option, perhaps with an equals sign and a value. -/
def readLong (options : List Opt) (d : Draft) (word : List Char) : Except Usage Draft :=
  let name := String.ofList (word.takeWhile (· ≠ '='))
  match options.find? (·.name = name), word.dropWhile (· ≠ '=') with
  | none, _ => .error .unknownArgument
  | some opt, [] => if opt.takesValue then d.await opt else d.give opt []
  | some opt, _ :: value =>
    if opt.takesValue then d.give opt [String.ofList value] else .error .unexpectedValue

/-- Letters behind one dash: the first one that takes a value has the others for its value. -/
def readLetters (options : List Opt) (d : Draft) : List Char → Except Usage Draft
  | [] => .ok d
  | letter :: rest =>
    match options.find? (·.letter? = some letter) with
    | none => .error .unknownArgument
    | some opt =>
      if opt.takesValue then
        match rest with
        | [] => d.await opt
        | '=' :: value => d.give opt [String.ofList value]
        | value => d.give opt [String.ofList value]
      else do
        let d ← d.give opt []
        d.readLetters options rest

def readWord (options : List Opt) (d : Draft) (word : String) : Except Usage Draft :=
  match word.toList with
  | '-' :: '-' :: rest => d.readLong options rest
  | '-' :: letter :: rest => d.readLetters options (letter :: rest)
  | _ => d.readPlain word

/-- The words after the verb. Nothing may come after a word of two dashes only. -/
def readWords (options : List Opt) (d : Draft) : List String → Except Usage Draft
  | [] => d.settle
  | "--" :: rest => if rest.isEmpty then d.settle else .error .unknownArgument
  | word :: rest => do
    let d ← d.readWord options word
    d.readWords options rest

/-- The value of an option that has to be there. -/
def required (d : Draft) (opt : Opt) : Except Usage String :=
  match d.value? opt with
  | some value => .ok value
  | none => .error .requiredMissing

def subject (d : Draft) : Except Usage Subject := do
  return ⟨← d.required .contract, d.value? .pattern, d.has .permissive⟩

def command (d : Draft) : Verb → Except Usage Command
  | .check => do
    let subject ← d.subject
    if d.has .input then return .check subject (d.values .input) else throw .requiredMissing
  | .compare => do
    let direction := ((d.value? .direction).bind Direction.ofName?).getD .request
    return .compare (← d.required .older) (← d.required .newer) (d.value? .pattern) direction
      (d.has .permissive)
  | .generate => do return .generate (← d.subject) (d.value? .out)
  | .examples => do return .examples (← d.subject) (d.value? .out)

end Draft

/-- Help can be asked for on one verb, or on asking for help. -/
def readHelp : List String → Usage
  | [] => .help
  | [word] => if word = "help" || (Verb.ofName? word).isSome then .help else .unknownCommand
  | _ => .unknownCommand

/-- What it means that the words end before a verb. -/
def withoutVerb (d : Draft) : Usage := if d.settled.isEmpty then .nothingAsked else .commandMissing

def readArguments (d : Draft) : List String → Except Usage Command
  | [] => .error (withoutVerb d)
  | ["--"] => .error (withoutVerb d)
  | "--" :: word :: _ =>
    if word = "help" || (Verb.ofName? word).isSome then .error .unknownArgument
    else .error .unknownCommand
  | word :: rest =>
    if word = "help" then .error (readHelp rest)
    else
      match Verb.ofName? word with
      | some verb => do
        let d ← Draft.empty.readWords verb.options rest
        d.command verb
      | none =>
        if Text.startsWith word "-" && word ≠ "-" then do
          let d ← d.readWord generalOptions word
          readArguments d rest
        else .error .unknownCommand

/-- The command that the arguments ask for. -/
def Command.ofArguments (arguments : List String) : Except Usage Command :=
  readArguments .empty arguments

end PayloadContracts.CommandLine
