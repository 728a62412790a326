/-!
Tables of named entries in the order in which the names were first given.
-/

namespace PayloadContracts

/-- Names with their contents. A name that is given again keeps its place and takes the new content,
so a table made by `insert` has each name once. -/
abbrev Entries (α : Type) := List (String × α)

namespace Entries

variable {α β : Type}

def names (entries : Entries α) : List String := entries.map Prod.fst

def get? : Entries α → String → Option α
  | [], _ => none
  | (name, content) :: rest, key => if name = key then some content else get? rest key

def contains (entries : Entries α) (key : String) : Bool := (get? entries key).isSome

def insert : Entries α → String → α → Entries α
  | [], key, content => [(key, content)]
  | (name, old) :: rest, key, content =>
    if name = key then (name, content) :: rest else (name, old) :: insert rest key content

/-- The entries of `more` put in after, or in place of, those there are. -/
def extend (entries more : Entries α) : Entries α :=
  more.foldl (fun table entry => insert table entry.1 entry.2) entries

def ofList (entries : List (String × α)) : Entries α := extend [] entries

def erase (entries : Entries α) (key : String) : Entries α :=
  entries.filter fun entry => entry.1 ≠ key

/-- Each name stands once. -/
def Distinct (entries : Entries α) : Prop := entries.names.Nodup

@[simp] theorem get?_nil (key : String) : get? ([] : Entries α) key = none := rfl

theorem get?_cons (name key : String) (content : α) (rest : Entries α) :
    get? ((name, content) :: rest) key = if name = key then some content else get? rest key := rfl

theorem mem_of_get? {entries : Entries α} {key : String} {content : α}
    (h : get? entries key = some content) : (key, content) ∈ entries := by
  induction entries with
  | nil => simp at h
  | cons entry rest ih =>
    obtain ⟨name, old⟩ := entry
    rw [get?_cons] at h
    split at h
    · simp_all
    · exact List.mem_cons_of_mem _ (ih h)

theorem get?_eq_none_iff {entries : Entries α} {key : String} :
    get? entries key = none ↔ key ∉ entries.names := by
  induction entries with
  | nil => simp [names]
  | cons entry rest ih =>
    obtain ⟨name, old⟩ := entry
    rw [get?_cons]
    by_cases h : name = key
    · simp [names, h]
    · simpa [names, h, Ne.symm h] using ih

theorem contains_iff {entries : Entries α} {key : String} :
    contains entries key = true ↔ key ∈ entries.names := by
  rw [contains, Option.isSome_iff_ne_none, Ne, get?_eq_none_iff, Classical.not_not]

theorem get?_insert (entries : Entries α) (key other : String) (content : α) :
    get? (insert entries key content) other = if key = other then some content else get? entries other := by
  induction entries with
  | nil => simp [insert, get?_cons]
  | cons entry rest ih =>
    obtain ⟨name, old⟩ := entry
    by_cases h : name = key <;> by_cases h' : name = other <;> grind [insert, get?_cons]

theorem names_insert (entries : Entries α) (key : String) (content : α) :
    (insert entries key content).names =
      if key ∈ entries.names then entries.names else entries.names ++ [key] := by
  induction entries with
  | nil => simp [insert, names]
  | cons entry rest ih =>
    obtain ⟨name, old⟩ := entry
    by_cases h : name = key <;> grind [insert, names]

theorem Distinct.insert {entries : Entries α} (h : Distinct entries) (key : String) (content : α) :
    Distinct (insert entries key content) := by
  rw [Distinct, names_insert]
  split
  · exact h
  · rename_i hk
    rw [List.nodup_append]
    exact ⟨h, by simp, by grind⟩

theorem Distinct.extend {entries : Entries α} (h : Distinct entries) (more : Entries α) :
    Distinct (extend entries more) := by
  induction more generalizing entries with
  | nil => exact h
  | cons entry rest ih => exact ih (h.insert entry.1 entry.2)

theorem distinct_ofList (entries : List (String × α)) : Distinct (ofList entries) :=
  Distinct.extend (show Distinct ([] : Entries α) from List.nodup_nil) entries

end Entries

end PayloadContracts
