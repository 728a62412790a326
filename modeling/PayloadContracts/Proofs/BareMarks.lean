import PayloadContracts.Document.Basic
import PayloadContracts.Proofs.Cases
import PayloadContracts.Proofs.TokenGrammar

/-!
Tokens that spell nothing. Main statement: `Token.isToken_agrees`.

A text counts as a token if there is anything but white space between its brackets, and is read as one if
there is a name. So brackets around nothing but marks are a token for rows and for the names of a
document, and plain text where patterns are read.
-/

namespace PayloadContracts

open Pattern

namespace Token

variable {text w : String} {cs : List Char} {p : Pattern}

/-- Between the brackets stand marks and nothing else, but for white space. -/
def HasBareMarks (text : String) : Prop :=
  ∃ w, Encloses text w ∧ Text.isBlankText w = false ∧ ∀ c ∈ w.toList, isTrailing c = true

theorem isToken_iff : isToken text = true ↔ ∃ w, Encloses text w ∧ Text.isBlankText w = false := by
  rw [isToken, Option.isSome_iff_exists]
  constructor
  · rintro ⟨cs, hcs⟩
    have hw := encloses_of_content? hcs
    refine ⟨_, hw, Bool.eq_false_iff.mpr fun hblank => ?_⟩
    cases hcs.symm.trans ((content?_of_encloses hw).trans (if_pos hblank))
  · rintro ⟨w, hw, hblank⟩
    exact ⟨_, (content?_of_encloses hw).trans (if_neg (Bool.eq_false_iff.mp hblank))⟩

theorem isSome_ofReversed : (ofReversed cs).isSome = true ↔ ∃ c ∈ cs, isTrailing c = false := by
  have hnone : cs.dropWhile isTrailing = [] ↔ ∀ c ∈ cs, isTrailing c = true :=
    List.dropWhile_eq_nil_iff
  rw [ofReversed_eq]
  split
  · rename_i h
    simpa using hnone.mp h
  · rename_i h
    simpa using hnone.not.mp h

/-- The reader asks for a name between the brackets, the test for anything but white space. -/
theorem isSome_read? :
    (read? text).isSome = true ↔ ∃ w, Encloses text w ∧ ∃ c ∈ w.toList, isTrailing c = false := by
  have hread : ∀ {w}, Encloses text w →
      ((read? text).isSome = true ↔ ∃ c ∈ w.toList, isTrailing c = false) := fun hw => by
    rw [read?_of_encloses hw, isSome_ofReversed]
    simp only [List.mem_reverse]
  constructor
  · intro h
    obtain ⟨p, hp⟩ := Option.isSome_iff_exists.mp h
    obtain ⟨cs, hcs, -⟩ := Option.bind_eq_some_iff.mp hp
    have hw := encloses_of_content? hcs
    exact ⟨_, hw, (hread hw).mp h⟩
  · rintro ⟨w, hw, hname⟩
    exact (hread hw).mpr hname

theorem Encloses.unique {other : String} (h : Encloses text w) (h' : Encloses text other) :
    w = other := by
  have htrim := h.1.symm.trans h'.1
  rwa [String.append_left_inj, String.append_right_inj] at htrim

theorem isToken_of_read? (h : (read? text).isSome = true) : isToken text = true := by
  obtain ⟨w, hw, c, hc, hname⟩ := isSome_read?.mp h
  refine isToken_iff.mpr ⟨w, hw, Bool.eq_false_iff.mpr fun hblank => ?_⟩
  have hc : Text.isBlank c = true := List.all_eq_true.mp hblank c hc
  simp [isTrailing, hc] at hname

theorem isSome_read?_of_isToken (h : isToken text = true) :
    (read? text).isSome = true ↔ ¬HasBareMarks text := by
  constructor
  · rintro hread ⟨w, hw, -, hmarks⟩
    obtain ⟨other, hother, c, hc, hname⟩ := isSome_read?.mp hread
    obtain rfl := hw.unique hother
    cases (hmarks c hc).symm.trans hname
  · intro hmarks
    obtain ⟨w, hw, hblank⟩ := isToken_iff.mp h
    by_contra hread
    refine hmarks ⟨w, hw, hblank, fun c hc => ?_⟩
    by_contra hname
    exact hread (isSome_read?.mpr ⟨w, hw, c, hc, Bool.eq_false_iff.mpr hname⟩)

theorem isToken_of_bareMarks (h : HasBareMarks text) : isToken text = true := by
  obtain ⟨w, hw, hblank, -⟩ := h
  exact isToken_iff.mpr ⟨w, hw, hblank⟩

/-- The test and the reader take the same texts, but for brackets around nothing but marks. -/
theorem isToken_iff_isSome_read? :
    (isToken text = true ↔ (read? text).isSome = true) ↔ ¬HasBareMarks text := by
  constructor
  · intro h hmarks
    have htoken := isToken_of_bareMarks hmarks
    exact (isSome_read?_of_isToken htoken).mp (h.mp htoken) hmarks
  · exact fun h => ⟨fun ht => (isSome_read?_of_isToken ht).mpr h, isToken_of_read?⟩

/-- No token spells a literal value. -/
theorem read?_ne_literal {v : Value} : read? text ≠ some (literal v) := by
  have hspelled : Spelled fun p => ∀ v, p ≠ literal v := ⟨nofun, nofun, nofun, nofun⟩
  exact fun h => (hspelled.read? h).self v rfl

theorem ofText_eq_literal : ofText text = literal (.text text) ↔ read? text = none := by
  rw [ofText]
  cases h : read? text with
  | none => simp
  | some p =>
    simp only [Option.getD_some, reduceCtorEq, iff_false]
    rintro rfl
    exact read?_ne_literal h

end Token

/-- The test for tokens agrees with their reader just where there is not a pair of brackets around
nothing but marks. Then a name that a document may define is read, and text of a row that is read as
itself in a pattern pins a part. -/
theorem Token.isToken_agrees (text : String) :
    ((isToken text = true ↔ (read? text).isSome = true) ↔ ¬HasBareMarks text) ∧
      (¬HasBareMarks text →
        (∀ source entry, ContractDocument.definition text source = .ok entry →
          (read? text).isSome = true) ∧
        ∀ (ofToken : Pattern → Scope → Outcome (List Pattern)) (row : Row) (key : String) (p : Pattern)
          (s : Scope), Entries.get? row key = some text →
          (ofText text = literal (.text text) →
            p.partCases ofToken row key s = .ofExcept (p.pin key text s)) ∧
          (ofText text ≠ literal (.text text) →
            p.partCases ofToken row key s =
              (Outcome.ofExcept (p.narrow key text s)).bind (ofToken · s))) := by
  refine ⟨isToken_iff_isSome_read?, fun h => ?_⟩
  have hagree := isToken_iff_isSome_read?.mpr h
  refine ⟨fun source entry hdefinition => ?_, fun ofToken row key p s hget => ⟨fun hl => ?_, fun hl => ?_⟩⟩
  · refine hagree.mp ?_
    by_contra ht
    rw [ContractDocument.definition, if_neg ht] at hdefinition
    cases hdefinition
  · refine partCases_of_text hget (Bool.eq_false_iff.mpr fun ht => ?_)
    simpa [ofText_eq_literal.mp hl] using hagree.mp ht
  · have hread := Option.ne_none_iff_isSome.mp (mt ofText_eq_literal.mpr hl)
    exact partCases_of_isToken hget (hagree.mpr hread)

namespace Rating

/-- A star as it is drawn in a rating. -/
def star : String := "(*)"

def scope : Scope := .ofDefinitions [] {}

def pattern : Pattern := .record [("rating", .literal (.text star))] false

def row : Row := [("rating", star)]

theorem hasBareMarks_star : Token.HasBareMarks star :=
  ⟨"*", ⟨by decide, List.forall_mem_singleton.mpr rfl⟩, by decide, List.forall_mem_singleton.mpr rfl⟩

theorem narrow_star (p : Pattern) (key : String) :
    p.narrow key star scope.withEmpty = .error (.patternNotFound star) := rfl

theorem cases_star :
    pattern.cases row scope =
      .failed ((ContractError.patternNotFound star).under (.key "rating")) := by
  obtain ⟨ofToken, hcases⟩ := exists_cases_eq pattern row scope
  have hname : KeyKind.field.canonical "rating" = "rating" := by decide
  have hsets : keySets ["rating"] row fieldMark scope.caseLimit = .ok [["rating"]] := by decide
  have hpart : (literal (.text star)).partCases ofToken row "rating" scope.withEmpty =
      .failed (.patternNotFound star) := by
    rw [partCases_of_isToken rfl (Token.isToken_of_bareMarks hasBareMarks_star), narrow_star]
    rfl
  rw [hcases, pattern, casesWith]
  simp only [keyCombinations, Entries.names, List.map_cons, List.map_nil, hname, hpart, hsets]
  rfl

end Rating

/-- Brackets around a star are a literal text to the reader, and a token that is not found to a row, even
where the part has to be this very text. -/
theorem Token.not_isToken_agrees :
    (¬∀ text, isToken text = true ↔ (read? text).isSome = true) ∧
      ofText Rating.star = literal (.text Rating.star) ∧
      Rating.pattern.cases Rating.row Rating.scope =
        .failed ((ContractError.patternNotFound Rating.star).under (.key "rating")) :=
  ⟨fun h => isToken_iff_isSome_read?.mp (h Rating.star) Rating.hasBareMarks_star, rfl, Rating.cases_star⟩

end PayloadContracts
