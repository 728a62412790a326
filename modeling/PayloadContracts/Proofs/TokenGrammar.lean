import PayloadContracts.Proofs.Marks
import PayloadContracts.Proofs.Tokens
import PayloadContracts.Proofs.Trimming

/-!
The grammar of tokens. Main statements: `Token.read?_grammar`, and `Token.read?_last_mark`, which reads a
token by the mark at its end.

Brackets enclose a stem and marks after it, with white space anywhere around these. The stem has no
mark at its end, but may have marks and white space further to the front.
-/

namespace PayloadContracts.Token

open Pattern

variable {text w : String} {p : Pattern} {cs : List Char}

def isMark (c : Char) : Bool := c = '*' || c = '?'

def isTrailing (c : Char) : Bool := Text.isBlank c || isMark c

/-- A text without the white space and the marks at its end. -/
def stem (w : String) : String := String.ofList (w.toList.rdropWhile isTrailing)

/-- The marks at the end of a text, the leftmost first. -/
def marks (w : String) : List Char := (w.toList.rtakeWhile isTrailing).filter isMark

/-- What a mark makes of the pattern before it. -/
def marked (p : Pattern) (mark : Char) : Pattern := if mark = '*' then .list p else .nullable p

/-- But for white space around it, the first text is a pair of brackets around the second, which has no
brackets itself. -/
def Encloses (text w : String) : Prop :=
  Text.trim text = "(" ++ w ++ ")" ∧ ∀ c ∈ w.toList, isBracket c = false

theorem content?_trim (text : String) : content? (Text.trim text) = content? text := by
  rw [content?, content?, Text.trim, String.toList_ofList, Text.trimChars_trimChars]

theorem content?_of_encloses (h : Encloses text w) :
    content? text = if w.toList.all Text.isBlank then none else some w.toList := by
  have hany : w.toList.any isBracket = false := by simpa using h.2
  rw [← content?_trim, h.1]
  refine (content?_typeToken w).trans ?_
  rw [hany, Bool.false_or]

theorem encloses_of_content? (h : content? text = some cs) : Encloses text (String.ofList cs) := by
  refine ⟨?_, by simpa using isBracket_of_content? h⟩
  unfold content? at h
  split at h
  · rename_i rest htrim
    split at h
    · rename_i reversed hreversed
      split at h
      · cases h
      · cases h
        rw [List.reverse_eq_cons_iff] at hreversed
        apply String.toList_injective
        simp [Text.trim, htrim, hreversed]
    · cases h
  · cases h

theorem isBlank_of_isMark {c : Char} (h : isMark c = true) : Text.isBlank c = false := by
  obtain rfl | rfl : c = '*' ∨ c = '?' := by simpa [isMark] using h
  · decide
  · decide

theorem ofReversed_blank {c : Char} (h : Text.isBlank c = true) :
    ofReversed (c :: cs) = ofReversed cs := by
  rw [ofReversed, if_pos h]

theorem ofReversed_mark {c : Char} (h : isMark c = true) :
    ofReversed (c :: cs) = (ofReversed cs).map (marked · c) := by
  have hblank := isBlank_of_isMark h
  obtain rfl | rfl : c = '*' ∨ c = '?' := by simpa [isMark] using h
  · simp [ofReversed, hblank, marked]
  · simp [ofReversed, hblank, marked]

theorem ofReversed_stem {c : Char} (h : isTrailing c = false) :
    ofReversed (c :: cs) = some (ofName (String.ofList (Text.trimStart (c :: cs).reverse))) := by
  simp only [isTrailing, isMark, Bool.or_eq_false_iff, decide_eq_false_iff_not] at h
  simp [ofReversed, h.1, h.2.1, h.2.2]

/-- Reading from the end takes off white space and marks; what is left is a name. -/
theorem ofReversed_eq (cs : List Char) :
    ofReversed cs =
      if cs.dropWhile isTrailing = [] then none
      else some (((cs.takeWhile isTrailing).filter isMark).foldr (fun mark p => marked p mark)
        (ofName (String.ofList (Text.trimStart (cs.dropWhile isTrailing).reverse)))) := by
  induction cs with
  | nil => rfl
  | cons c cs ih =>
    by_cases hmark : isMark c = true
    · have htrailing : isTrailing c = true := by simp [isTrailing, hmark]
      rw [ofReversed_mark hmark, ih, List.dropWhile_cons_of_pos htrailing,
        List.takeWhile_cons_of_pos htrailing, List.filter_cons_of_pos hmark]
      split <;> rfl
    · by_cases hblank : Text.isBlank c = true
      · have htrailing : isTrailing c = true := by simp [isTrailing, hblank]
        rw [ofReversed_blank hblank, ih, List.dropWhile_cons_of_pos htrailing,
          List.takeWhile_cons_of_pos htrailing, List.filter_cons_of_neg hmark]
      · have htrailing : ¬isTrailing c = true := by simp [isTrailing, hblank, hmark]
        rw [ofReversed_stem (by simpa using htrailing), List.dropWhile_cons_of_neg htrailing,
          List.takeWhile_cons_of_neg htrailing]
        rfl

/-- What a text between brackets spells, if it has a stem. -/
def spelled (w : String) : Pattern := (marks w).foldl marked (ofName (Text.trim (stem w)))

theorem isBlankText_stem (w : String) :
    Text.isBlankText (stem w) = true ↔ w.toList.reverse.dropWhile isTrailing = [] := by
  rw [Text.isBlankText, stem, String.toList_ofList, List.rdropWhile, List.all_reverse]
  refine ⟨fun hall => ?_, fun h => by rw [h]; rfl⟩
  by_contra hne
  have hlast := List.head_dropWhile_not isTrailing hne
  have hblank := List.all_eq_true.mp hall _ (List.head_mem hne)
  simp [isTrailing, hblank] at hlast

theorem trim_stem (w : String) :
    Text.trim (stem w) =
      String.ofList (Text.trimStart (w.toList.reverse.dropWhile isTrailing).reverse) := by
  rw [Text.trim, stem, String.toList_ofList, List.rdropWhile, Text.trimChars]
  cases h : w.toList.reverse.dropWhile isTrailing with
  | nil => rfl
  | cons c rest =>
    have hlast : isTrailing c = false := by
      have hne : w.toList.reverse.dropWhile isTrailing ≠ [] := by simp [h]
      simpa [h] using List.head_dropWhile_not isTrailing hne
    have hblank : Text.isBlank c = false := (Bool.or_eq_false_iff.mp hlast).1
    obtain ⟨front, hfront⟩ := Text.exists_trimStart_reverse hblank rest
    rw [hfront]
    simp [Text.trimEnd, hblank]

theorem ofReversed_reverse (w : String) :
    ofReversed w.toList.reverse = if Text.isBlankText (stem w) then none else some (spelled w) := by
  simp only [ofReversed_eq, isBlankText_stem, spelled, trim_stem, marks, List.rtakeWhile,
    List.filter_reverse, List.foldl_reverse]

theorem ofReversed_of_blank (h : ∀ c ∈ cs, Text.isBlank c = true) : ofReversed cs = none := by
  rw [ofReversed_eq, if_pos]
  exact List.dropWhile_eq_nil_iff.mpr fun c hc => by simp [isTrailing, h c hc]

theorem read?_of_encloses (h : Encloses text w) : read? text = ofReversed w.toList.reverse := by
  rw [read?, content?_of_encloses h]
  split
  · rename_i hall
    rw [Option.bind_none, ofReversed_of_blank]
    simpa using hall
  · rfl

/-- A token is a pair of brackets around a stem that is not blank and the marks after it, and spells the
pattern of the stem as the marks change it, the leftmost first. All references in that spell themselves. -/
theorem read?_grammar (text : String) :
    (∀ p, read? text = some p ↔
      ∃ w, Encloses text w ∧ Text.isBlankText (stem w) = false ∧
        p = (marks w).foldl marked (ofName (Text.trim (stem w)))) ∧
    ∀ p, read? text = some p → p.Every SpellsItself := by
  refine ⟨fun p => ⟨fun h => ?_, ?_⟩, fun p => spelled_of_read?⟩
  · obtain ⟨cs, hcs, -⟩ := Option.bind_eq_some_iff.mp h
    have hw := encloses_of_content? hcs
    rw [read?_of_encloses hw, ofReversed_reverse] at h
    split at h
    · cases h
    · rename_i hstem
      cases h
      exact ⟨_, hw, Bool.not_eq_true _ ▸ hstem, rfl⟩
  · rintro ⟨w, hw, hstem, rfl⟩
    rw [read?_of_encloses hw, ofReversed_reverse, hstem]
    rfl

theorem read?_grammar_spaced :
    read? " ( Id * ?) " = some (.nullable (.list (.reference "(Id)"))) :=
  ((read?_grammar _).1 _).mpr ⟨" Id * ?", ⟨by decide, by simp [isBracket]⟩, by decide, rfl⟩

theorem ofReversed_dropWhile (cs : List Char) :
    ofReversed (cs.dropWhile Text.isBlank) = ofReversed cs := by
  induction cs with
  | nil => rfl
  | cons c cs ih =>
    rw [List.dropWhile_cons]
    split
    · rename_i h
      rw [ih, ofReversed_blank h]
    · rfl

theorem ofReversed_append {lead : List Char} (h : ∀ c ∈ lead, Text.isBlank c = true) (cs : List Char) :
    ofReversed (cs ++ lead) = ofReversed cs := by
  induction cs with
  | nil => exact ofReversed_of_blank h
  | cons c cs ih =>
    rw [List.cons_append]
    by_cases hmark : isMark c = true
    · rw [ofReversed_mark hmark, ofReversed_mark hmark, ih]
    · by_cases hblank : Text.isBlank c = true
      · rw [ofReversed_blank hblank, ofReversed_blank hblank, ih]
      · have hstem : isTrailing c = false := by simp [isTrailing, hblank, hmark]
        have hlead : lead.reverse.dropWhile Text.isBlank = [] :=
          List.dropWhile_eq_nil_iff.mpr fun c hc => h c (List.mem_reverse.mp hc)
        rw [ofReversed_stem hstem, ofReversed_stem hstem, ← List.cons_append, List.reverse_append,
          Text.trimStart, List.dropWhile_append, hlead]
        rfl

/-- White space around what stands between the brackets does not count. -/
theorem ofReversed_trimChars (cs : List Char) :
    ofReversed (Text.trimChars cs).reverse = ofReversed cs.reverse := by
  have hsplit : cs.reverse = (Text.trimStart cs).reverse ++ (cs.takeWhile Text.isBlank).reverse := by
    rw [← List.reverse_append, Text.trimStart, List.takeWhile_append_dropWhile]
  rw [Text.trimChars, Text.trimEnd, List.reverse_reverse, ofReversed_dropWhile, hsplit,
    ofReversed_append]
  intro c hc
  exact List.mem_takeWhile_imp (List.mem_reverse.mp hc)

theorem encloses_typeToken (h : ∀ c ∈ w.toList, isBracket c = false) : Encloses (typeToken w) w := by
  have hopen : Text.isBlank '(' = false := by decide
  have hclose : Text.isBlank ')' = false := by decide
  refine ⟨String.toList_injective ?_, h⟩
  simp [Text.trim, typeToken, Text.trimChars, Text.trimStart, Text.trimEnd, hopen, hclose]

theorem ofReversed_append_mark (mark : Char) (hmark : isMark mark = true)
    (hb : ∀ c ∈ w.toList, isBracket c = false) :
    ofReversed (w ++ String.singleton mark).toList.reverse =
      (read? (typeToken w)).map (marked · mark) := by
  rw [read?_of_encloses (encloses_typeToken hb), ← ofReversed_mark hmark]
  simp

theorem ofReversed_of_no_mark (htrim : Text.trim w = w) (hw : w ≠ "")
    (hnone : ∀ mark front, isMark mark = true → w ≠ front ++ String.singleton mark) :
    ofReversed w.toList.reverse = some (ofName w) := by
  have hchars : Text.trimChars w.toList = w.toList := by
    simpa [Text.trim] using congrArg String.toList htrim
  obtain ⟨c, rest, hlast⟩ : ∃ c rest, w.toList.reverse = c :: rest :=
    List.exists_cons_of_ne_nil (by simpa using hw)
  have hsplit : w.toList = rest.reverse ++ [c] := List.reverse_eq_cons_iff.mp hlast
  have hmark : isMark c = false := by
    by_contra h
    refine hnone c (String.ofList rest.reverse) (by simpa using h) (String.toList_injective ?_)
    simpa using hsplit
  have hdrop : (Text.trimStart w.toList).reverse.dropWhile Text.isBlank = c :: rest := by
    rw [← hlast, ← List.reverse_inj, List.reverse_reverse]
    exact hchars
  have hblank : Text.isBlank c = false := by
    have hne : (Text.trimStart w.toList).reverse.dropWhile Text.isBlank ≠ [] := by simp [hdrop]
    simpa [hdrop] using List.head_dropWhile_not Text.isBlank hne
  have hstart : Text.trimStart (c :: rest).reverse = (c :: rest).reverse := by
    obtain ⟨front, hfront⟩ := Text.exists_trimStart_reverse hblank rest
    rw [← hlast, List.reverse_reverse] at hfront ⊢
    rw [hfront, List.reverse_append] at hdrop
    rw [hfront, hsplit]
    simpa [hblank, List.reverse_eq_iff] using hdrop
  rw [hlast, ofReversed_stem (by simp [isTrailing, hblank, hmark]), hstart, ← hlast]
  simp

/-- Reads what stands between brackets by the mark at its end; what is before the mark is read as a
token again. -/
def readByLastMark? (inner : String) : Option Pattern :=
  match Text.stripEnd? inner "*", Text.stripEnd? inner "?" with
  | some item, _ => (read? (typeToken item)).map .list
  | none, some base => (read? (typeToken base)).map .nullable
  | none, none => some (ofName inner)

theorem ofReversed_last_mark (hb : ∀ c ∈ w.toList, isBracket c = false) (htrim : Text.trim w = w)
    (hw : w ≠ "") :
    ofReversed w.toList.reverse = readByLastMark? w := by
  have hfront : ∀ {front : String} {mark : Char}, w = front ++ String.singleton mark →
      ∀ c ∈ front.toList, isBracket c = false := fun h c hc => hb c (by simp [h, hc])
  unfold readByLastMark?
  split
  · rename_i item hstar
    have hsplit : w = item ++ String.singleton '*' := stripEnd?_eq_some_iff.mp hstar
    have hread := ofReversed_append_mark '*' rfl (hfront hsplit)
    rw [← hsplit] at hread
    exact hread
  · rename_i base _ hquestion
    have hsplit : w = base ++ String.singleton '?' := stripEnd?_eq_some_iff.mp hquestion
    have hread := ofReversed_append_mark '?' rfl (hfront hsplit)
    rw [← hsplit] at hread
    exact hread
  · rename_i hstar hquestion
    refine ofReversed_of_no_mark htrim hw fun mark front hmark hsplit => ?_
    obtain rfl | rfl : mark = '*' ∨ mark = '?' := by simpa [isMark] using hmark
    · cases hstar.symm.trans (stripEnd?_eq_some_iff.mpr hsplit)
    · cases hquestion.symm.trans (stripEnd?_eq_some_iff.mpr hsplit)

theorem read?_last_mark (text : String) :
    read? text = (content? text).bind fun cs => readByLastMark? (Text.trim (String.ofList cs)) := by
  cases hcs : content? text with
  | none => rw [read?, hcs, Option.bind_none, Option.bind_none]
  | some cs =>
    have hinner : (Text.trim (String.ofList cs)).toList = Text.trimChars cs := by simp [Text.trim]
    have hread : read? text = ofReversed (Text.trim (String.ofList cs)).toList.reverse := by
      rw [hinner, ofReversed_trimChars, read?, hcs]
      rfl
    rw [hread, Option.bind_some]
    refine ofReversed_last_mark (fun c hc => ?_) ?_ fun hempty => ?_
    · rw [hinner] at hc
      exact isBracket_of_content? hcs c (Text.mem_of_mem_trimChars hc)
    · rw [Text.trim, hinner, Text.trimChars_trimChars, Text.trim, String.toList_ofList]
    · have hall : cs.all Text.isBlank = true := by
        have hblank := Text.isBlankText_trim (String.ofList cs)
        rw [hempty, Text.isBlankText, Text.isBlankText, String.toList_ofList] at hblank
        simpa using hblank.symm
      have hnone := content?_of_encloses (encloses_of_content? hcs)
      rw [hcs, String.toList_ofList, if_pos hall] at hnone
      cases hnone

end PayloadContracts.Token
