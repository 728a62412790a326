import PayloadContracts.Proofs.Parts
import PayloadContracts.Proofs.Trimming

/-!
References that a token spells out are tokens that spell themselves. Main statement:
`Token.spelled_of_read?`.
-/

namespace PayloadContracts

open Pattern

/-- The pattern is no reference, or one whose token spells it. -/
def Pattern.SpellsItself (p : Pattern) : Prop :=
  ∀ token, p = reference token → Token.read? token = some (reference token)

namespace Token

variable {text name : String} {c : Char} {cs rest : List Char} {p : Pattern}

theorem isBracket_of_content? (h : content? text = some cs) : ∀ c ∈ cs, isBracket c = false := by
  unfold content? at h
  split at h
  · split at h
    · split at h
      · cases h
      · rename_i reversed _ hnone
        cases h
        simp only [Bool.or_eq_true, not_or, Bool.not_eq_true, List.any_eq_false] at hnone
        simpa using hnone.1
    · cases h
  · cases h

/-- White space around a token does not count. -/
theorem read?_congr {other : String} (h : Text.trim other = Text.trim text) :
    read? other = read? text := by
  have hchars : Text.trimChars other.toList = Text.trimChars text.toList := by
    simpa [Text.trim] using congrArg String.toList h
  rw [read?, read?, content?, content?, hchars]

/-- Between the brackets stands the whole name. -/
theorem content?_typeToken (name : String) :
    content? (typeToken name) =
      if name.toList.any isBracket || name.toList.all Text.isBlank then none else some name.toList := by
  have hopen : Text.isBlank '(' = false := by decide
  have hclose : Text.isBlank ')' = false := by decide
  have htrim : Text.trimChars ('(' :: (name.toList ++ [')'])) = '(' :: (name.toList ++ [')']) := by
    simp [Text.trimChars, Text.trimStart, Text.trimEnd, hopen, hclose]
  have hlist : (typeToken name).toList = '(' :: (name.toList ++ [')']) := by simp [typeToken]
  rw [content?, hlist, htrim]
  simp

/-- Brackets around a text that has none and is not blank. -/
theorem content?_brackets (hb : ∀ c ∈ cs, isBracket c = false) (hc : c ∈ cs)
    (hblank : Text.isBlank c = false) : content? (typeToken (String.ofList cs)) = some cs := by
  have hany : cs.any isBracket = false := by simpa using hb
  have hall : cs.all Text.isBlank = false := by
    rw [List.all_eq_false]
    exact ⟨c, hc, by simp [hblank]⟩
  rw [content?_typeToken, String.toList_ofList, hany, hall]
  rfl

/-- A question mark after the name of a token allows absence. -/
theorem read?_nullable (h : read? (typeToken name) = some p) :
    read? (typeToken (name ++ "?")) = some (.nullable p) := by
  obtain ⟨cs, hcs, hp⟩ := Option.bind_eq_some_iff.mp h
  rw [content?_typeToken] at hcs
  split at hcs
  · cases hcs
  · rename_i hname
    cases hcs
    have hbracket : isBracket '?' = false := by decide
    have hblank : Text.isBlank '?' = false := by decide
    simp only [Bool.or_eq_true, not_or, Bool.not_eq_true] at hname
    simp [read?, content?_typeToken, hname.1, hbracket, hblank, ofReversed, hp]

/-- The name between the brackets of a token is read as it stands. -/
theorem read?_ofName (hb : ∀ x ∈ c :: rest, isBracket x = false) (hblank : Text.isBlank c = false)
    (hstar : c ≠ '*') (hmark : c ≠ '?') (hname : String.ofList (Text.trimStart (c :: rest).reverse) = name) :
    read? ("(" ++ name ++ ")") = some (ofName name) := by
  subst hname
  obtain ⟨front, hfront⟩ := Text.exists_trimStart_reverse hblank rest
  have hin : ∀ x ∈ front ++ [c], isBracket x = false := by
    intro x hx
    rw [← hfront] at hx
    exact hb x (List.mem_reverse.mp ((List.dropWhile_sublist _).subset hx))
  have htrim : Text.trimStart (front ++ [c]) = front ++ [c] := by
    rw [← hfront, Text.trimStart, Text.trimStart, List.dropWhile_idempotent]
  have hcontent : content? ("(" ++ String.ofList (front ++ [c]) ++ ")") = some (front ++ [c]) :=
    content?_brackets hin (by simp) hblank
  rw [hfront, read?, hcontent]
  simp [ofReversed, hblank, hstar, hmark, htrim]

theorem spelled_of_ofReversed (hb : ∀ c ∈ cs, isBracket c = false) (h : ofReversed cs = some p) :
    p.Every SpellsItself := by
  induction cs generalizing p with
  | nil => cases h
  | cons c rest ih =>
    have ih := fun {p} => @ih p fun x hx => hb x (List.mem_cons_of_mem c hx)
    have hempty : SpellsItself (reference emptyToken) := by
      intro token ht
      cases ht
      rfl
    rw [ofReversed] at h
    split at h
    · exact ih h
    · rename_i hblank
      split at h
      · obtain ⟨item, hitem, rfl⟩ := Option.map_eq_some_iff.mp h
        exact every_list.mpr ⟨fun _ ht => (by cases ht), ih hitem⟩
      · rename_i hstar
        split at h
        · obtain ⟨q, hq, rfl⟩ := Option.map_eq_some_iff.mp h
          refine every_union.mpr ⟨fun _ ht => (by cases ht), ?_⟩
          rintro r (_ | ⟨_, _ | ⟨_, hr⟩⟩)
          · exact every_reference.mpr hempty
          · exact ih hq
          · cases hr
        · rename_i hmark
          cases h
          have hread := read?_ofName hb (by simpa using hblank) hstar hmark rfl
          revert hread
          generalize String.ofList (Text.trimStart (c :: rest).reverse) = name
          intro hread
          unfold ofName at hread ⊢
          split
          · exact every_scalar.mpr fun _ ht => (by cases ht)
          · rename_i hnone
            refine every_reference.mpr fun token ht => ?_
            cases ht
            rwa [hnone] at hread

/-- All references in what a token spells spell themselves. -/
theorem spelled_of_read? (h : read? text = some p) : p.Every SpellsItself := by
  obtain ⟨cs, hcs, hp⟩ := Option.bind_eq_some_iff.mp h
  refine spelled_of_ofReversed (fun c hc => ?_) hp
  exact isBracket_of_content? hcs c (List.mem_reverse.mp hc)

end Token

end PayloadContracts
