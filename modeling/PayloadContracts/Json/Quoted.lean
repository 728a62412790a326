import PayloadContracts.Json.Cursor

/-!
Reading text between quotes.
-/

namespace PayloadContracts.Json

def hexValue? (c : Char) : Option Nat :=
  if '0' ≤ c ∧ c ≤ '9' then some (c.toNat - '0'.toNat)
  else if 'a' ≤ c ∧ c ≤ 'f' then some (c.toNat - 'a'.toNat + 10)
  else if 'A' ≤ c ∧ c ≤ 'F' then some (c.toNat - 'A'.toNat + 10)
  else none

def unit? (a b c d : Char) : Option Nat := do
  return ((← hexValue? a) * 16 + (← hexValue? b)) * 256 + ((← hexValue? c) * 16 + (← hexValue? d))

def isLead (n : Nat) : Bool := 0xD800 ≤ n && n ≤ 0xDBFF

def isTrail (n : Nat) : Bool := 0xDC00 ≤ n && n ≤ 0xDFFF

def unescape? (c : Char) : Option Char :=
  match c with
  | '"' => some '"'
  | '\\' => some '\\'
  | '/' => some '/'
  | 'b' => some (Char.ofNat 8)
  | 'f' => some (Char.ofNat 12)
  | 'n' => some '\n'
  | 'r' => some '\r'
  | 't' => some '\t'
  | _ => none

/-- The fault of an escape whose four bytes of hexadecimal digits start here and are not all of
them such digits. -/
def hexFault {α : Type} (c : Cursor) : Except ReadError α :=
  if c.rest.foldr (fun x n => x.utf8Size + n) 0 < 4 then (c.skipOver c.rest).fail .endOfText
  else .error ⟨.badEscape, c.position.afterBytes 4 c.rest, []⟩

def Position.afterAll (p : Position) (cs : List Char) : Position := cs.foldl Position.after p

/-- Reads up to the closing quote; `taken` holds the characters before, the last one first. -/
def readQuoted (taken : List Char) : List Char → Position → Read String
  | [], p => Cursor.fail ⟨[], p⟩ .endOfText
  | '"' :: rest, p => .ok (String.ofList taken.reverse, ⟨rest, p.after '"'⟩)
  | '\\' :: 'u' :: a :: b :: c :: d :: rest, p =>
    match unit? a b c d with
    | none => hexFault ⟨a :: b :: c :: d :: rest, p.afterAll ['\\', 'u']⟩
    | some n =>
      let p := p.afterAll ['\\', 'u', a, b, c, d]
      if isTrail n then Cursor.fail ⟨rest, p⟩ .loneSurrogate
      else if isLead n then
        match rest with
        | '\\' :: 'u' :: e :: f :: g :: h :: rest =>
          match unit? e f g h with
          | none => hexFault ⟨e :: f :: g :: h :: rest, p.afterAll ['\\', 'u']⟩
          | some m =>
            let p := p.afterAll ['\\', 'u', e, f, g, h]
            if isTrail m then
              readQuoted (Char.ofNat (0x10000 + (n - 0xD800) * 0x400 + (m - 0xDC00)) :: taken) rest p
            else Cursor.fail ⟨rest, p⟩ .loneSurrogate
        | '\\' :: 'u' :: rest => hexFault ⟨rest, p.afterAll ['\\', 'u']⟩
        | '\\' :: rest =>
          let c : Cursor := ⟨rest, p.after '\\'⟩
          if rest.isEmpty then c.fail .endOfText else c.failAtNext .brokenSurrogate
        | [] => Cursor.fail ⟨[], p⟩ .endOfText
        | rest => Cursor.failAtNext ⟨rest, p⟩ .brokenSurrogate
      else readQuoted (Char.ofNat n :: taken) rest p
  | '\\' :: 'u' :: rest, p => hexFault ⟨rest, p.afterAll ['\\', 'u']⟩
  | ['\\'], p => Cursor.fail ⟨[], p.after '\\'⟩ .endOfText
  | '\\' :: c :: rest, p =>
    match unescape? c with
    | some x => readQuoted (x :: taken) rest (p.afterAll ['\\', c])
    | none => Cursor.failAtNext ⟨c :: rest, p.after '\\'⟩ .badEscape
  | c :: rest, p =>
    if c.toNat < 32 then Cursor.failAtNext ⟨c :: rest, p⟩ .controlCharacter
    else readQuoted (c :: taken) rest (p.after c)

/-- Reads text whose opening quote has been passed. -/
def Cursor.readQuoted (c : Cursor) : Read String := Json.readQuoted [] c.rest c.position

/-- Passes text up to its closing quote without finding out what it says, so that half a surrogate
pair goes unnoticed. -/
def skipQuoted : List Char → Position → Read Unit
  | [], p => Cursor.fail ⟨[], p⟩ .endOfText
  | '"' :: rest, p => .ok ((), ⟨rest, p.after '"'⟩)
  | '\\' :: 'u' :: a :: b :: c :: d :: rest, p =>
    match unit? a b c d with
    | none => hexFault ⟨a :: b :: c :: d :: rest, p.afterAll ['\\', 'u']⟩
    | some _ => skipQuoted rest (p.afterAll ['\\', 'u', a, b, c, d])
  | '\\' :: 'u' :: rest, p => hexFault ⟨rest, p.afterAll ['\\', 'u']⟩
  | ['\\'], p => Cursor.fail ⟨[], p.after '\\'⟩ .endOfText
  | '\\' :: c :: rest, p =>
    match unescape? c with
    | some _ => skipQuoted rest (p.afterAll ['\\', c])
    | none => Cursor.failAtNext ⟨c :: rest, p.after '\\'⟩ .badEscape
  | c :: rest, p =>
    if c.toNat < 32 then Cursor.fail ⟨c :: rest, p⟩ .controlCharacter
    else skipQuoted rest (p.after c)

def Cursor.skipQuoted (c : Cursor) : Read Unit := Json.skipQuoted c.rest c.position

end PayloadContracts.Json
