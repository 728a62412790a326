import PayloadContracts.Number.Reading
import PayloadContracts.Text.DateTime
import Mathlib.Data.List.DropRight

/-!
Trimmed text: trimming once is enough, and readers that trim take trimmed text as they take the text.
-/

namespace PayloadContracts

namespace Text

section Prefixes

variable {p : Char → Bool} {cs rest : List Char}

theorem takeWhile_append_of_head (hcs : ∀ c ∈ cs, p c = true) (hrest : ∀ c ∈ rest.head?, p c = false) :
    (cs ++ rest).takeWhile p = cs := by
  rw [List.takeWhile_append_of_pos hcs]
  cases rest with
  | nil => simp
  | cons c rest => simp [hrest c rfl]

theorem dropWhile_append_of_head (hcs : ∀ c ∈ cs, p c = true) (hrest : ∀ c ∈ rest.head?, p c = false) :
    (cs ++ rest).dropWhile p = rest := by
  rw [List.dropWhile_append_of_pos hcs]
  cases rest with
  | nil => simp
  | cons c rest => simp [hrest c rfl]

theorem mem_dropWhile_of_mem {c : Char} (hc : c ∈ cs) (hp : p c = false) : c ∈ cs.dropWhile p := by
  rw [← List.takeWhile_append_dropWhile (p := p) (l := cs)] at hc
  refine (List.mem_append.mp hc).resolve_left fun hc => ?_
  cases hp.symm.trans (List.mem_takeWhile_imp hc)

end Prefixes

theorem mem_of_mem_trimChars {cs : List Char} {c : Char} (h : c ∈ trimChars cs) : c ∈ cs :=
  ((List.rdropWhile_prefix _ _).sublist.trans (List.dropWhile_sublist _)).subset h

theorem mem_trimChars {cs : List Char} {c : Char} (h : isBlank c = false) :
    c ∈ trimChars cs ↔ c ∈ cs := by
  refine ⟨mem_of_mem_trimChars, fun hc => ?_⟩
  rw [trimChars, trimEnd, trimStart, List.mem_reverse]
  exact mem_dropWhile_of_mem (List.mem_reverse.mpr (mem_dropWhile_of_mem hc h)) h

theorem all_dropWhile (p : Char → Bool) (cs : List Char) : (cs.dropWhile p).all p = cs.all p := by
  induction cs with
  | nil => rfl
  | cons c cs ih =>
    cases h : p c <;> simp [h, ih]

theorem isBlankText_trim (s : String) : isBlankText (trim s) = isBlankText s := by
  rw [isBlankText, isBlankText, trim, String.toList_ofList, trimChars, trimEnd, trimStart,
    List.all_reverse, all_dropWhile, List.all_reverse, all_dropWhile]

theorem trimChars_trimChars (cs : List Char) : trimChars (trimChars cs) = trimChars cs := by
  have hpart : trimChars cs <+: trimStart cs := List.rdropWhile_prefix _ _
  have hstart : trimStart (trimChars cs) = trimChars cs := by
    refine List.dropWhile_eq_self_iff.mpr fun hl => ?_
    rw [hpart.getElem hl]
    exact List.dropWhile_get_zero_not isBlank cs (hl.trans_le hpart.length_le)
  rw [trimChars, hstart]
  exact List.rdropWhile_idempotent _ _

/-- White space at the start is taken off at most up to what is not blank. -/
theorem exists_trimStart_reverse {c : Char} (h : isBlank c = false) (rest : List Char) :
    ∃ front, trimStart (c :: rest).reverse = front ++ [c] := by
  rw [trimStart, List.reverse_cons, List.dropWhile_append]
  split
  · exact ⟨[], by simp [h]⟩
  · exact ⟨_, rfl⟩

theorem trim_of_isBlankText {s : String} (h : isBlankText s = true) : trim s = "" := by
  have hstart : trimStart s.toList = [] :=
    List.dropWhile_eq_nil_iff.mpr fun c hc => List.all_eq_true.mp h c hc
  rw [trim, trimChars, hstart]
  rfl

theorem isDateTime_trim (s : String) : isDateTime (trim s) = isDateTime s := by
  rw [isDateTime, isDateTime, trim, String.toList_ofList, trimChars_trimChars]

end Text

theorem Number.looksNumeric_trim (s : String) : looksNumeric (Text.trim s) = looksNumeric s := by
  rw [looksNumeric, looksNumeric, Text.trim, String.toList_ofList, Text.trimChars_trimChars]

end PayloadContracts
