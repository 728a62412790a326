/-!
What can be asked for on the command line, and with which options.
-/

namespace PayloadContracts.CommandLine

/-- Why arguments ask for no run. -/
inductive Usage where
  | help
  /-- No arguments at all, which is answered with help. -/
  | nothingAsked
  | commandMissing
  | unknownCommand
  | unknownArgument
  | requiredMissing
  | invalidValue
  | repeated
  /-- A value for an option that takes none. -/
  | unexpectedValue
  deriving DecidableEq, Repr

def Usage.message : Usage → String
  | help | nothingAsked =>
    "usage: match    -c CONTRACT [-p PATTERN] [--permissive] -i INPUT...\n" ++
    "       compat   --older CONTRACT --newer CONTRACT [-p PATTERN]\n" ++
    "                [--direction request|response] [--permissive]\n" ++
    "       generate -c CONTRACT [-p PATTERN] [--permissive] [-o OUT]\n" ++
    "       examples -c CONTRACT [-p PATTERN] [--permissive] [-o OUT]"
  | commandMissing => "a command is missing"
  | unknownCommand => "no such command"
  | unknownArgument => "unexpected argument"
  | requiredMissing => "a required option is missing"
  | invalidValue => "an option lacks a value, or its value is not allowed"
  | repeated => "an option is given more than once"
  | unexpectedValue => "a value is given to an option that takes none"

/-- Which of two contract versions has to accept what the other one sends. -/
inductive Direction where
  | request
  | response
  deriving DecidableEq, Repr

def Direction.ofName? : String → Option Direction
  | "request" => some request
  | "response" => some response
  | _ => none

inductive Opt where
  | verbose
  | help
  | contract
  | pattern
  | permissive
  | input
  | older
  | newer
  | direction
  | out
  deriving DecidableEq, Repr

namespace Opt

def name : Opt → String
  | verbose => "verbose"
  | help => "help"
  | contract => "contract"
  | pattern => "pattern"
  | permissive => "permissive"
  | input => "input"
  | older => "older"
  | newer => "newer"
  | direction => "direction"
  | out => "out"

def letter? : Opt → Option Char
  | verbose => some 'v'
  | help => some 'h'
  | contract => some 'c'
  | pattern => some 'p'
  | input => some 'i'
  | out => some 'o'
  | permissive | older | newer | direction => none

def takesValue : Opt → Bool
  | verbose | help | permissive => false
  | _ => true

/-- Takes any number of values, and may be given any number of times. -/
def takesMany : Opt → Bool
  | input => true
  | _ => false

/-- Paths are not empty, and a direction is one of two words. -/
def admits : Opt → String → Bool
  | contract, value | older, value | newer, value | out, value => value ≠ ""
  | direction, value => (Direction.ofName? value).isSome
  | _, _ => true

end Opt

/-- What is asked for by the first word. -/
inductive Verb where
  | check
  | compare
  | generate
  | examples
  deriving DecidableEq, Repr

namespace Verb

def name : Verb → String
  | check => "match"
  | compare => "compat"
  | generate => "generate"
  | examples => "examples"

def all : List Verb := [check, compare, generate, examples]

def ofName? (name : String) : Option Verb := all.find? fun verb => verb.name = name

def options : Verb → List Opt
  | check => [.contract, .pattern, .permissive, .input, .verbose, .help]
  | compare => [.older, .newer, .pattern, .direction, .permissive, .verbose, .help]
  | generate | examples => [.contract, .pattern, .permissive, .out, .verbose, .help]

end Verb

/-- The options that may stand in front of the verb. -/
def generalOptions : List Opt := [.verbose, .help]

/-- A contract document and the pattern to take from it, the body if none is named. -/
structure Subject where
  contract : String
  pattern : Option String
  permissive : Bool
  deriving DecidableEq, Repr

inductive Command where
  | check (subject : Subject) (inputs : List String)
  | compare (older newer : String) (pattern : Option String) (direction : Direction)
      (permissive : Bool)
  | generate (subject : Subject) (out : Option String)
  | examples (subject : Subject) (out : Option String)
  deriving DecidableEq, Repr

end PayloadContracts.CommandLine
