import PayloadContracts.Value.Basic

/-!
Equality of values: fields and attributes count without their order, children and items with it.
-/

namespace PayloadContracts

/-- As many tests as things, and each test passed by the thing in its place. -/
def agree {β : Type} : List (β → Bool) → List β → Bool
  | [], [] => true
  | test :: tests, x :: xs => test x && agree tests xs
  | _, _ => false

/-- As many tests as entries, and each test passed by the entry of its name. -/
def Entries.agree {β : Type} (tests : Entries (β → Bool)) (entries : Entries β) : Bool :=
  tests.length == entries.length &&
    tests.all fun test =>
      match Entries.get? entries test.1 with
      | some x => test.2 x
      | none => false

/-- Tables that give each name the same text. -/
def Entries.sameTexts (a b : Entries String) : Bool :=
  Entries.agree (a.map fun entry => (entry.1, fun text => entry.2 == text)) b

namespace Value

def same : Value → Value → Bool
  | null, null => true
  | boolean a, boolean b => a == b
  | number x, number y => x.same y
  | text s, text t => s == t
  | object a, object b =>
    Entries.agree (a.map fun entry => (entry.1, fun w => same entry.2 w)) b
  | list xs, list ys => agree (xs.map fun x => fun y => same x y) ys
  | node m, node n =>
    m.name == n.name && m.qualifier == n.qualifier && Entries.sameTexts m.attributes n.attributes &&
      agree (m.children.map fun x => fun y => same x y) n.children
  | _, _ => false
termination_by v => sizeOf v
decreasing_by
  · rename_i h; have := Entries.sizeOf_snd_lt h; simp; omega
  · rename_i h; have := List.sizeOf_lt_of_mem h; simp; omega
  · rename_i h; have := List.sizeOf_lt_of_mem h; have := m.sizeOf_children_lt; simp; omega

end Value

end PayloadContracts
