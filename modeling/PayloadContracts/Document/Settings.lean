import PayloadContracts.Config
import PayloadContracts.Document.Fields

/-!
Reading the settings of a contract.
-/

namespace PayloadContracts

open Json

/-- Settings as far as they have been read. -/
structure PartialConfig where
  unexpectedKeys : Option KeyPolicy
  depthLimit : Option Nat
  caseLimit : Option Nat

namespace PartialConfig

def empty : PartialConfig := ⟨none, none, none⟩

/-- Settings that are not given have their usual values. -/
def complete (p : PartialConfig) : Config :=
  let usual : Config := {}
  ⟨p.unexpectedKeys.getD usual.unexpectedKeys, p.depthLimit.getD usual.depthLimit,
    p.caseLimit.getD usual.caseLimit⟩

end PartialConfig

def KeyPolicy.all : List KeyPolicy := [.strict, .permissive]

def KeyPolicy.ofName? (name : String) : Option KeyPolicy := all.find? (·.name = name)

namespace Config

/-- The name of a policy, whose place is after its quotes. -/
def readPolicyName (c : Cursor) : Read KeyPolicy :=
  let c := c.skipBlanks
  match c.rest with
  | [] => c.fail .endOfValue
  | '"' :: _ =>
    Read.next c.skip.readQuoted fun name c =>
      match KeyPolicy.ofName? name with
      | some policy => .ok (policy, c)
      | none => c.fail (.unknownVariant name (KeyPolicy.all.map KeyPolicy.name))
  | _ => c.failType "variant identifier"

def readNull (c : Cursor) : Read Unit :=
  let c := c.skipBlanks
  match c.rest with
  | [] => c.fail .endOfValue
  | 'n' :: _ => c.skip.readWord ['u', 'l', 'l']
  | _ => c.failType "unit"

/-- A policy is its name, or an object that gives its name nothing. -/
def readPolicy (nesting : Nat) (c : Cursor) : Read KeyPolicy :=
  let c := c.skipBlanks
  match c.rest with
  | [] => c.fail .endOfValue
  | '"' :: _ => readPolicyName c
  | '\x7b' :: _ =>
    Cursor.openBracket nesting c fun _ =>
      Read.next (readPolicyName c.skip) fun policy c =>
        Read.next c.readColon fun _ c =>
          Read.next (located (.key policy.name) (readNull c)) fun _ c =>
            let c := c.skipBlanks
            match c.rest with
            | '\x7d' :: _ => .ok (policy, c.skip)
            | [] => c.fail .endOfObject
            | _ => c.fail .noValue
  | _ => c.failAtNext .noValue

/-- Takes up one field; fields that are no settings are passed over. -/
def readEntry (nesting : Nat) (p : PartialConfig) (name : String) (c : Cursor) : Read PartialConfig :=
  match name with
  | "unexpected_keys" =>
    (c.readField name p.unexpectedKeys (readPolicy nesting)).map fun (x, c) =>
      ({ p with unexpectedKeys := some x }, c)
  | "max_named_depth" =>
    (c.readField name p.depthLimit Cursor.readWordNumber).map fun (x, c) =>
      ({ p with depthLimit := some x }, c)
  | "max_combinations" =>
    (c.readField name p.caseLimit Cursor.readWordNumber).map fun (x, c) =>
      ({ p with caseLimit := some x }, c)
  | _ =>
    (c.readField name (none : Option Unit) Cursor.skipValue).map fun (_, c) => (p, c)

def readList (nesting : Nat) (c : Cursor) : Read PartialConfig :=
  Read.next (c.readFieldAt 0 (readPolicy nesting)) fun unexpectedKeys c =>
    Read.next (c.readFieldAt 1 Cursor.readWordNumber) fun depthLimit c =>
      Read.next (c.readFieldAt 2 Cursor.readWordNumber) fun caseLimit c =>
        c.closeList.map fun (_, c) => (⟨unexpectedKeys, depthLimit, caseLimit⟩, c)

def read (nesting : Nat) (c : Cursor) : Read Config :=
  (c.readStructure nesting "struct EngineConfig" readList fun nesting c =>
    (c.foldKeys (readEntry nesting) (c.rest.length + 1) true .empty).map fun (p, c) =>
      (p, c.skip)).map fun (p, c) => (p.complete, c)

end Config

end PayloadContracts
