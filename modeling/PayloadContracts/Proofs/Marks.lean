import PayloadContracts.Keys

/-!
Names with and without the mark of those that may be left out, and what is declared for them.
-/

namespace PayloadContracts

variable {name base mark : String}

theorem isOptional_iff : isOptional name mark = true ↔ ∃ base, name = base ++ mark := by
  rw [isOptional, Text.endsWith, List.isSuffixOf_iff_suffix]
  constructor
  · rintro ⟨cs, h⟩
    refine ⟨String.ofList cs, String.toList_injective ?_⟩
    rw [String.toList_append, String.toList_ofList, h]
  · rintro ⟨base, rfl⟩
    exact ⟨base.toList, (String.toList_append).symm⟩

theorem isOptional_append (base mark : String) : isOptional (base ++ mark) mark = true :=
  isOptional_iff.mpr ⟨base, rfl⟩

theorem stripEnd?_append (base mark : String) : Text.stripEnd? (base ++ mark) mark = some base := by
  have h : Text.endsWith (base ++ mark) mark = true := isOptional_append base mark
  rw [Text.stripEnd?, if_pos h, String.length_append, Nat.add_sub_cancel, String.toList_append,
    ← String.length_toList, List.take_left', String.ofList_toList]
  rfl

@[simp] theorem canonical_append (base mark : String) : canonical (base ++ mark) mark = base := by
  rw [canonical, Text.withoutEnd, stripEnd?_append, Option.getD_some]

theorem stripEnd?_eq_some_iff : Text.stripEnd? name mark = some base ↔ name = base ++ mark := by
  constructor
  · intro h
    obtain ⟨other, rfl⟩ : ∃ other, name = other ++ mark := by
      refine isOptional_iff.mp ?_
      unfold Text.stripEnd? at h
      split at h
      · assumption
      · cases h
    rw [stripEnd?_append] at h
    cases h
    rfl
  · rintro rfl
    exact stripEnd?_append base mark

theorem canonical_of_not_optional (h : isOptional name mark = false) : canonical name mark = name := by
  rw [isOptional] at h
  rw [canonical, Text.withoutEnd, Text.stripEnd?, h]
  rfl

theorem eq_canonical_append (h : isOptional name mark = true) : name = canonical name mark ++ mark := by
  obtain ⟨base, rfl⟩ := isOptional_iff.mp h
  rw [canonical_append]

/-- A name is the canonical one, or that with the mark. -/
theorem canonical_eq_iff :
    canonical name mark = base ↔
      (isOptional name mark = false ∧ name = base) ∨ name = base ++ mark := by
  cases h : isOptional name mark with
  | false =>
    rw [canonical_of_not_optional h]
    constructor
    · exact fun hb => .inl ⟨rfl, hb⟩
    · rintro (⟨-, hb⟩ | rfl)
      · exact hb
      · rw [isOptional_append] at h
        cases h
  | true =>
    obtain ⟨base', rfl⟩ := isOptional_iff.mp h
    rw [canonical_append]
    constructor
    · rintro rfl
      exact .inr rfl
    · rintro (⟨h, -⟩ | h)
      · cases h
      · have := congrArg (canonical · mark) h
        simpa using this

section Declared

variable {α : Type} {kind : KeyKind} {entries : Entries α} {x : α}

theorem declared?_eq_some_iff :
    kind.declared? entries name = some x ↔
      Entries.get? entries name = some x ∨ Entries.get? entries name = none ∧
        (Entries.get? entries (name ++ kind.mark) = some x ∨
          Entries.get? entries (name ++ kind.mark) = none ∧
            Entries.get? entries (canonical name kind.mark) = some x) := by
  simp only [KeyKind.declared?, Option.orElse_eq_or, Option.or_eq_some_iff]
  rfl

theorem mem_of_declared? (h : kind.declared? entries name = some x) :
    ∃ key, (key, x) ∈ entries ∧
      (key = name ∨ key = name ++ kind.mark ∨ key = canonical name kind.mark) := by
  obtain h | ⟨-, h | ⟨-, h⟩⟩ := declared?_eq_some_iff.mp h
  · exact ⟨_, Entries.mem_of_get? h, .inl rfl⟩
  · exact ⟨_, Entries.mem_of_get? h, .inr (.inl rfl)⟩
  · exact ⟨_, Entries.mem_of_get? h, .inr (.inr rfl)⟩

theorem mem_names_of_declared? (h : kind.declared? entries name ≠ none)
    (ho : isOptional name kind.mark = false) :
    name ∈ entries.names ∨ name ++ kind.mark ∈ entries.names := by
  obtain ⟨x, hx⟩ := Option.ne_none_iff_exists'.mp h
  obtain ⟨key, hkey, hcases⟩ := mem_of_declared? hx
  replace hkey : key ∈ entries.names := List.mem_map_of_mem hkey
  obtain rfl | rfl | rfl := hcases
  · exact .inl hkey
  · exact .inr hkey
  · exact .inl (canonical_of_not_optional ho ▸ hkey)

theorem declared?_ne_none (h : canonical name kind.mark ∈ entries.names ∨
    canonical name kind.mark ++ kind.mark ∈ entries.names) :
    kind.declared? entries name ≠ none := by
  simp only [KeyKind.declared?, Option.orElse_eq_or, Ne, Option.or_eq_none_iff, Entries.get?_eq_none_iff]
  rintro ⟨hplain, hmarked, hcanonical⟩
  obtain h | h := h
  · exact hcanonical h
  · cases ho : isOptional name kind.mark with
    | true => exact hplain (eq_canonical_append ho ▸ h)
    | false => exact hmarked (canonical_of_not_optional ho ▸ h)

/-- Where no name is marked twice, what is declared for a name is called the same in values. -/
theorem canonical_of_declared? (h : kind.declared? entries name = some x)
    (hname : isOptional (canonical name kind.mark) kind.mark = false)
    (honce : ∀ entry ∈ entries, isOptional (canonical entry.1 kind.mark) kind.mark = false) :
    ∃ key, (key, x) ∈ entries ∧ canonical key kind.mark = canonical name kind.mark := by
  obtain ⟨key, hkey, hcases⟩ := mem_of_declared? h
  refine ⟨key, hkey, ?_⟩
  obtain rfl | rfl | rfl := hcases
  · rfl
  · have hkeyOnce := honce _ hkey
    rw [canonical_append] at hkeyOnce ⊢
    rw [canonical_of_not_optional hkeyOnce]
  · exact canonical_of_not_optional hname

/-- What a value has is declared for a part that it is called after, under a name that it is called
after as well, where no name is marked twice. -/
theorem exists_declared?
    (hname : isOptional (canonical name kind.mark) kind.mark = false)
    (honce : ∀ entry ∈ entries, isOptional (canonical entry.1 kind.mark) kind.mark = false)
    (h : canonical name kind.mark ∈ entries.names ∨
      canonical name kind.mark ++ kind.mark ∈ entries.names) :
    ∃ x, kind.declared? entries name = some x ∧ ∃ key, (key, x) ∈ entries ∧
      canonical key kind.mark = canonical name kind.mark := by
  obtain ⟨x, hx⟩ := Option.ne_none_iff_exists'.mp (declared?_ne_none h)
  exact ⟨x, hx, canonical_of_declared? hx hname honce⟩

end Declared

end PayloadContracts
