import PayloadContracts.Document.Basic
import PayloadContracts.Proofs.Tokens
import PayloadContracts.Proofs.Verdicts
import Mathlib

/-!
What a reference means in a contract: the source that its document gives last under the name. Main
statement: `Contract.lookup_declared`.

A name is taken as it is spelled but for white space around it, while a token is read without the white
space next to its brackets. So a name with white space there is one that no reference has.
-/

namespace PayloadContracts

open Pattern

namespace ContractDocument

variable {d : ContractDocument} {c : Contract} {entries : Entries Json} {before after : Entries Json}
  {source : Json} {key token : String}

/-- A named pattern is defined under its name, and is the one its source spells. -/
def Declares (entry : String × Json) (definition : String × Pattern) : Prop :=
  Text.trim entry.1 = definition.1 ∧ ofJson entry.2 = .ok definition.2

/-- The source that counts for a token. -/
def declared? (d : ContractDocument) (token : String) : Option Json :=
  Entries.get? (d.patterns.map fun entry => (Text.trim entry.1, entry.2)).reverse token

theorem declares_of_definition {entry : String × Json} {x : String × Pattern}
    (h : definition entry.1 entry.2 = .ok x) : Declares entry x := by
  rw [definition] at h
  split at h
  · obtain ⟨p, hp, rfl⟩ := exceptMap_eq_ok_iff.mp h
    exact ⟨rfl, locate_eq_ok_iff.mp hp⟩
  · cases h

theorem exists_definitions (h : d.toContract = .ok c) :
    ∃ definitions : Entries Pattern, List.Forall₂ Declares d.patterns definitions ∧
      c.scope = .ofDefinitions (Entries.ofList definitions) d.config := by
  rw [toContract] at h
  split at h
  · cases h
  · rename_i definitions hdefinitions
    obtain ⟨body, -, rfl⟩ := exceptMap_eq_ok_iff.mp h
    rw [collect_eq_ok_iff, List.forall₂_map_left_iff] at hdefinitions
    exact ⟨definitions, hdefinitions.imp fun _ _ => declares_of_definition, rfl⟩

/-- Sources and definitions are found under the same names. -/
theorem rel_get?_of_declares {definitions : Entries Pattern}
    (h : List.Forall₂ Declares entries definitions) (token : String) :
    Option.Rel (fun source p => ofJson source = .ok p)
      (Entries.get? (entries.map fun entry => (Text.trim entry.1, entry.2)) token)
      (Entries.get? definitions token) := by
  induction h with
  | nil => exact .none
  | cons hentry _ ih =>
    rw [List.map_cons, Entries.get?_cons, Entries.get?_cons, ← hentry.1]
    split
    · exact .some hentry.2
    · exact ih

/-- A reference is looked up among the sources, and is not found if none counts for it. -/
theorem lookup_eq_declared (h : d.toContract = .ok c)
    (hread : Token.read? token = some (reference token)) :
    c.scope.lookup token =
      match d.declared? token with
      | some source => ofJson source
      | none => .error (.patternNotFound token) := by
  obtain ⟨definitions, hdefinitions, hscope⟩ := exists_definitions h
  have hrel := rel_get?_of_declares (List.forall₂_reverse_iff.mpr hdefinitions) token
  rw [List.map_reverse, ← declared?] at hrel
  rw [hscope, Scope.lookup, Scope.ofDefinitions, Entries.get?_ofList]
  revert hrel
  generalize d.declared? token = source?
  generalize Entries.get? definitions.reverse token = p?
  intro hrel
  cases hrel with
  | some hp => simp [hp]
  | none => simp [hread]

/-- Of the names that are a token but for white space around them, the last counts. -/
theorem declared?_of_append (h : d.patterns = before ++ (key, source) :: after)
    (hname : Text.trim key = token) (hafter : ∀ other ∈ after.names, Text.trim other ≠ token) :
    d.declared? token = some source := by
  have hnone :
      Entries.get? (after.map fun entry => (Text.trim entry.1, entry.2)).reverse token = none := by
    rw [Entries.get?_eq_none_iff, Entries.names, List.map_reverse, List.mem_reverse, List.map_map]
    intro hmem
    obtain ⟨entry, hentry, he⟩ := List.mem_map.mp hmem
    exact hafter entry.1 (Entries.mem_names hentry) he
  rw [declared?, h, List.map_append, List.map_cons, List.reverse_append, List.reverse_cons,
    Entries.get?_append, Entries.get?_append, hnone, hname]
  simp [Entries.get?_cons]

/-- Each source of a contract spells a pattern. -/
theorem exists_ofJson (h : d.toContract = .ok c) (hkey : (key, source) ∈ d.patterns) :
    ∃ p, ofJson source = .ok p := by
  obtain ⟨definitions, hdefinitions, -⟩ := exists_definitions h
  obtain ⟨definition, -, hdeclares⟩ := exists_of_forall₂_left hdefinitions hkey
  exact ⟨definition.2, hdeclares.2⟩

end ContractDocument

/-- A name without white space next to its brackets means the pattern that its source spells, if no
later name is the same but for white space around it. -/
theorem Contract.lookup_declared {text key token : String} {d : ContractDocument} {c : Contract}
    {before after : Entries Json} {source : Json} (hd : ContractDocument.ofText text = .ok d)
    (hc : Contract.ofText text = .ok c) (hkey : d.patterns = before ++ (key, source) :: after)
    (hread : Token.read? key = some (reference token)) (hname : Text.trim key = token)
    (hafter : ∀ other ∈ after.names, Text.trim other ≠ token) :
    (∃ p, ofJson source = .ok p ∧ c.scope.lookup token = .ok p) ∧
      ∀ spelling, Text.trim spelling = Text.trim key → Pattern.ofText spelling = reference token := by
  have hcontract : d.toContract = .ok c := by rwa [ofText, hd] at hc
  have hmem : (key, source) ∈ d.patterns := hkey ▸ List.mem_append_right before List.mem_cons_self
  obtain ⟨p, hp⟩ := ContractDocument.exists_ofJson hcontract hmem
  refine ⟨⟨p, hp, ?_⟩, fun spelling hspelling => ?_⟩
  · have htoken : Token.read? token = some (reference token) :=
      (Token.spelled_of_read? hread).self token rfl
    rw [ContractDocument.lookup_eq_declared hcontract htoken,
      ContractDocument.declared?_of_append hkey hname hafter]
    exact hp
  · rw [Pattern.ofText, Token.read?_congr hspelling, hread]
    rfl

namespace Identifiers

/-- The second name is the first one with white space around it, and takes its place. -/
def text : String :=
  "\x7b\"patterns\": \x7b\"(Id)\": \"(number)\", \" (Id) \": \"(string)\"\x7d, \"body\": \"( Id )\"\x7d"

def document : ContractDocument :=
  ⟨{}, [("(Id)", .text "(number)"), (" (Id) ", .text "(string)")], .text "( Id )", []⟩

def contract : Contract := ⟨.ofDefinitions [("(Id)", .scalar .string)] {}, reference "(Id)", []⟩

theorem ofText_document : ContractDocument.ofText text = .ok document := by cbv

theorem toContract_document : document.toContract = .ok contract := by cbv

theorem ofText_contract : Contract.ofText text = .ok contract := by
  rw [Contract.ofText, ofText_document]
  exact toContract_document

end Identifiers

theorem Contract.lookup_declared_identifiers :
    ContractDocument.ofText Identifiers.text = .ok Identifiers.document ∧
      Contract.ofText Identifiers.text = .ok Identifiers.contract ∧
      Identifiers.document.patterns =
        [("(Id)", .text "(number)")] ++ (" (Id) ", .text "(string)") :: [] ∧
      Token.read? " (Id) " = some (reference "(Id)") ∧ Text.trim " (Id) " = "(Id)" ∧
      (∃ p, ofJson (.text "(string)") = .ok p ∧ Identifiers.contract.scope.lookup "(Id)" = .ok p) ∧
      ∀ spelling, Text.trim spelling = "(Id)" → Pattern.ofText spelling = reference "(Id)" := by
  have hread : Token.read? " (Id) " = some (reference "(Id)") := rfl
  have hname : Text.trim " (Id) " = "(Id)" := rfl
  have hkey : Identifiers.document.patterns =
      [("(Id)", .text "(number)")] ++ (" (Id) ", .text "(string)") :: [] := rfl
  have hafter : ∀ other ∈ Entries.names ([] : Entries Json), Text.trim other ≠ "(Id)" :=
    fun _ hother => nomatch hother
  obtain ⟨hlookup, hspelling⟩ := Contract.lookup_declared Identifiers.ofText_document
    Identifiers.ofText_contract hkey hread hname hafter
  exact ⟨Identifiers.ofText_document, Identifiers.ofText_contract, hkey, hread, hname, hlookup,
    hspelling⟩

namespace Addresses

/-- The name has white space next to its brackets, and so has the reference. -/
def text : String :=
  "\x7b\"patterns\": \x7b\"( Address )\": \"(string)\"\x7d, \"body\": \"( Address )\"\x7d"

def document : ContractDocument := ⟨{}, [("( Address )", .text "(string)")], .text "( Address )", []⟩

def contract : Contract :=
  ⟨.ofDefinitions [("( Address )", .scalar .string)] {}, reference "(Address)", []⟩

theorem ofText_document : ContractDocument.ofText text = .ok document := by cbv

theorem toContract_document : document.toContract = .ok contract := by cbv

theorem ofText_contract : Contract.ofText text = .ok contract := by
  rw [Contract.ofText, ofText_document]
  exact toContract_document

end Addresses

/-- A reference that is spelled just as the only name declared is not found, and of two names that
differ in the white space around them the first one is lost. -/
theorem Contract.not_lookup_declared :
    (ContractDocument.ofText Addresses.text = .ok Addresses.document ∧
      Contract.ofText Addresses.text = .ok Addresses.contract ∧
      ("( Address )", .text "(string)") ∈ Addresses.document.patterns ∧
      Token.read? "( Address )" = some (reference "(Address)") ∧
      ofJson (.text "(string)") = .ok (.scalar .string) ∧
      Addresses.contract.scope.lookup "(Address)" = .error (.patternNotFound "(Address)")) ∧
    ContractDocument.ofText Identifiers.text = .ok Identifiers.document ∧
      Contract.ofText Identifiers.text = .ok Identifiers.contract ∧
      ("(Id)", .text "(number)") ∈ Identifiers.document.patterns ∧
      Token.read? "(Id)" = some (reference "(Id)") ∧
      ofJson (.text "(number)") = .ok (.scalar .number) ∧
      Identifiers.contract.scope.lookup "(Id)" = .ok (.scalar .string) := by
  have hlookup : Addresses.contract.scope.lookup "(Address)" = .error (.patternNotFound "(Address)") :=
    ContractDocument.lookup_eq_declared Addresses.toContract_document rfl
  exact ⟨⟨Addresses.ofText_document, Addresses.ofText_contract, List.mem_cons_self, rfl, by cbv, hlookup⟩,
    Identifiers.ofText_document, Identifiers.ofText_contract, List.mem_cons_self, rfl, by cbv, rfl⟩

end PayloadContracts
