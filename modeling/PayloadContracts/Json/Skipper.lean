import PayloadContracts.Json.Numeric
import PayloadContracts.Json.Quoted

/-!
Passing over a document without building it. Brackets may be nested to any depth, and what is
expected next does not depend on what has been closed.
-/

namespace PayloadContracts.Json

/-- A list or an object that has been opened. -/
inductive Bracket where
  | list
  | object
  deriving DecidableEq, Repr

namespace Cursor

/-- Closes brackets as long as they end here; yields those that go on. Before the first item there
is no comma. -/
def leave : List Bracket → (afterItem : Bool) → Cursor → Read (List Bracket)
  | [], _, c => .ok ([], c)
  | bracket :: outer, afterItem, c =>
    let c := c.skipBlanks
    match c.rest, bracket with
    | ']' :: _, .list => leave outer true c.skip
    | '\x7d' :: _, .object => leave outer true c.skip
    | [], .list => c.fail .endOfList
    | [], .object => c.fail .endOfObject
    | x :: _, bracket =>
      if !afterItem then .ok (bracket :: outer, c)
      else if x = ',' then .ok (bracket :: outer, c.skip)
      else
        match bracket with
        | .list => c.failAtNext .noCommaInList
        | .object => c.failAtNext .noCommaInObject

/-- Passes a key and its colon. -/
def skipKey (c : Cursor) : Read Unit :=
  let c := c.skipBlanks
  match c.rest with
  | '"' :: _ =>
    match c.skip.skipQuoted with
    | .error e => .error e
    | .ok (_, c) => c.readColon
  | [] => c.fail .endOfObject
  | _ => c.failAtNext .keyNotText

/-- Passes a value that has no parts, or an opening bracket. -/
def skipStart (c : Cursor) : Read (Option Bracket) :=
  let c := c.skipBlanks
  let plain (r : Read Unit) : Read (Option Bracket) := r.map fun (_, c) => (none, c)
  match c.rest with
  | [] => c.fail .endOfValue
  | x :: _ =>
    if x = 'n' then plain (c.skip.readWord ['u', 'l', 'l'])
    else if x = 't' then plain (c.skip.readWord ['r', 'u', 'e'])
    else if x = 'f' then plain (c.skip.readWord ['a', 'l', 's', 'e'])
    else if x = '-' ∨ Text.isPlainDigit x then plain c.skipNumber
    else if x = '"' then plain c.skip.skipQuoted
    else if x = '[' then .ok (some .list, c.skip)
    else if x = '\x7b' then .ok (some .object, c.skip)
    else c.failAtNext .noValue

/-- Passes values until no bracket is open. -/
def skipOpen : (bound : Nat) → List Bracket → Cursor → Read Unit
  | 0, _, c => c.fail .endOfValue
  | bound + 1, brackets, c =>
    match c.skipStart with
    | .error e => .error e
    | .ok (start, c) =>
      match leave (start.toList ++ brackets) start.isNone c with
      | .error e => .error e
      | .ok ([], c) => .ok ((), c)
      | .ok (.list :: outer, c) => skipOpen bound (.list :: outer) c
      | .ok (.object :: outer, c) =>
        match c.skipKey with
        | .error e => .error e
        | .ok (_, c) => skipOpen bound (.object :: outer) c

def skipValue (c : Cursor) : Read Unit := skipOpen (c.rest.length + 1) [] c

end Cursor

end PayloadContracts.Json
