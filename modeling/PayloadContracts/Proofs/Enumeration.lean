import PayloadContracts.Proofs.Selections
import Mathlib.Algebra.BigOperators.Ring.List
import Mathlib.Algebra.Order.BigOperators.GroupWithZero.List
import Mathlib.Tactic.Ring

/-!
The tables of an enumeration as one list: which selections of names and choices there are, in which
order they come, and when there are too many. Main statement: `keyCombinations_enumerates`.
-/

namespace PayloadContracts

variable {α β : Type} {row : Row} {mark : String} {limit : Nat} {choicesFor : String → List α}

section Sets

variable {names : List String} {sets : List (List String)} {e : ContractError}

/-- For each of the names, whether a set has it. -/
def presence (names set : List String) : List Bool := names.map fun name => decide (name ∈ set)

/-- The first name that two sets differ in decides which of them comes first. -/
theorem pairwise_keptSets (hd : names.Nodup) :
    (keptSets row mark names).Pairwise fun set set' => presence names set < presence names set' := by
  induction names with
  | nil => exact List.pairwise_singleton _ _
  | cons name names ih =>
    obtain ⟨hname, hd⟩ := List.nodup_cons.mp hd
    have hwithout : ∀ set ∈ keptSets row mark names,
        presence (name :: names) set = false :: presence names set := by
      intro set hset
      have hnot : name ∉ set := fun h => hname (((mem_keptSets hd).mp hset).1.subset h)
      simp [presence, hnot]
    have hwith : ∀ set, presence (name :: names) (name :: set) = true :: presence names set := by
      intro set
      have hne : ∀ other ∈ names, other ≠ name := fun other ho he => hname (he ▸ ho)
      simp only [presence, List.map_cons, List.mem_cons, true_or, decide_true, List.cons.injEq,
        true_and]
      exact List.map_congr_left fun other ho => by simp [hne other ho]
    rw [keptSets, List.pairwise_append, List.pairwise_map]
    refine ⟨?_, ?_, ?_⟩
    · split
      · refine (ih hd).imp_of_mem fun ha hb hlt => ?_
        rw [hwithout _ ha, hwithout _ hb, List.cons_lt_cons_iff]
        exact .inr ⟨rfl, hlt⟩
      · exact .nil
    · refine (ih hd).imp fun hlt => ?_
      rw [hwith, hwith, List.cons_lt_cons_iff]
      exact .inr ⟨rfl, hlt⟩
    · intro set hset set' hset'
      obtain ⟨rest, -, rfl⟩ := List.mem_map.mp hset'
      split at hset
      · rw [hwithout set hset, hwith, List.cons_lt_cons_iff]
        exact .inl (by decide)
      · cases hset

/-- Sets are refused only when there are too many in the end. -/
theorem lt_of_extendSets_error (h : extendSets row mark limit sets names = .error e) :
    e = .tooManyCombinations limit ∧ limit < sets.length * (keptSets row mark names).length := by
  induction names generalizing sets with
  | nil => cases h
  | cons name names ih =>
    have hpos : 0 < (keptSets row mark names).length := List.length_pos_of_mem names_mem_keptSets
    rw [extendSets] at h
    split at h
    · rename_i hfree
      rw [keptSets, if_pos hfree, List.length_append, List.length_map]
      split at h
      · obtain ⟨he, hlt⟩ := ih h
        refine ⟨he, lt_of_lt_of_eq hlt ?_⟩
        simp only [List.length_flatMap, List.length_cons, List.length_nil, List.map_const',
          List.sum_replicate_nat]
        ring
      · cases h
        refine ⟨rfl, Nat.lt_of_lt_of_le (Nat.lt_of_not_le ‹_›) ?_⟩
        rw [Nat.mul_comm]
        exact Nat.mul_le_mul_left _ (by omega)
    · rename_i hfree
      rw [keptSets, if_neg hfree, List.nil_append, List.length_map]
      obtain ⟨he, hlt⟩ := ih h
      exact ⟨he, by rwa [List.length_map] at hlt⟩

end Sets

section Selections

/-- The selections among what the choices are mapped to. -/
theorem selections_map (f : α → β) (options : List (List α)) :
    selections (options.map (List.map f)) = (selections options).map (List.map f) := by
  induction options with
  | nil => rfl
  | cons choices rest ih =>
    simp [selections, ih, List.map_flatMap, List.flatMap_map, Function.comp_def]

theorem length_selections (options : List (List α)) :
    (selections options).length = (options.map List.length).prod := by
  induction options with
  | nil => rfl
  | cons choices rest ih =>
    simp [selections, ih, List.length_flatMap, List.map_const']

/-- Selections come in the order of the numbers that their choices have. -/
theorem pairwise_selections {options : List (List (α × Nat))}
    (h : ∀ choices ∈ options, choices.Pairwise fun x y => x.2 < y.2) :
    (selections options).Pairwise fun chosen chosen' =>
      chosen.map Prod.snd < chosen'.map Prod.snd := by
  induction options with
  | nil => exact List.pairwise_singleton _ _
  | cons choices rest ih =>
    obtain ⟨hfirst, hrest⟩ := List.forall_mem_cons.mp h
    rw [selections, List.pairwise_flatMap]
    refine ⟨fun choice _ => ?_, hfirst.imp fun hlt => ?_⟩
    · refine List.pairwise_map.mpr ((ih hrest).imp fun hlt => ?_)
      rw [List.map_cons, List.map_cons, List.cons_lt_cons_iff]
      exact .inr ⟨rfl, hlt⟩
    · intro chosen hchosen chosen' hchosen'
      obtain ⟨others, -, rfl⟩ := List.mem_map.mp hchosen
      obtain ⟨others', -, rfl⟩ := List.mem_map.mp hchosen'
      rw [List.map_cons, List.map_cons, List.cons_lt_cons_iff]
      exact .inl hlt

end Selections

section Tables

variable {set : List String} {sets : List (List String)} {e : ContractError}

theorem length_tablesFor :
    (tablesFor choicesFor set).length = (set.map fun name => (choicesFor name).length).prod := by
  simp [tablesFor, length_selections, Function.comp_def]

theorem lt_of_productFrom_error {product : Nat} {lengths : List Nat} (hpos : ∀ n ∈ lengths, 1 ≤ n)
    (h : productFrom limit product lengths = .error e) :
    e = .tooManyCombinations limit ∧ limit < product * lengths.prod := by
  induction lengths generalizing product with
  | nil => cases h
  | cons n lengths ih =>
    obtain ⟨-, hrest⟩ := List.forall_mem_cons.mp hpos
    rw [productFrom] at h
    rw [List.prod_cons, ← Nat.mul_assoc]
    split at h
    · exact ih hrest h
    · rename_i hlimit
      cases h
      have hprod : 0 < lengths.prod := List.prod_pos fun m hm => hrest m hm
      exact ⟨rfl, Nat.lt_of_lt_of_le (Nat.lt_of_not_le hlimit) (Nat.le_mul_of_pos_right _ hprod)⟩

theorem lt_of_cartesian_error (hne : ∀ name ∈ set, choicesFor name ≠ [])
    (h : cartesian (set.map fun name => (name, choicesFor name)) limit = .error e) :
    e = .tooManyCombinations limit ∧ limit < (tablesFor choicesFor set).length := by
  rw [cartesian] at h
  split at h
  · rename_i hproduct
    cases h
    rw [List.map_map] at hproduct
    rw [length_tablesFor, ← Nat.one_mul (List.prod _)]
    refine lt_of_productFrom_error ?_ hproduct
    exact List.forall_mem_map.mpr fun name hname => List.length_pos_iff.mpr (hne name hname)
  · cases h

/-- All tables for some sets, as long as these are no more than the limit. -/
theorem combineSets_eq {options : Entries (List α)} {count : Nat} {found : List (Entries α)}
    (hcount : count ≤ limit) (hd : ∀ set ∈ sets, set.Nodup)
    (hoptions : ∀ set ∈ sets, ∀ name ∈ set, Entries.get? options name = some (choicesFor name))
    (hne : ∀ set ∈ sets, ∀ name ∈ set, choicesFor name ≠ []) :
    combineSets limit options count found sets =
      if count + (sets.flatMap (tablesFor choicesFor)).length ≤ limit then
        .ok ((sets.flatMap (tablesFor choicesFor)).reverse ++ found)
      else .error (.tooManyCombinations limit) := by
  induction sets generalizing count found with
  | nil => simp [combineSets, hcount]
  | cons set sets ih =>
    obtain ⟨hdFirst, hdRest⟩ := List.forall_mem_cons.mp hd
    obtain ⟨hoFirst, hoRest⟩ := List.forall_mem_cons.mp hoptions
    obtain ⟨hnFirst, hnRest⟩ := List.forall_mem_cons.mp hne
    have hset : (set.map fun name => (name, (Entries.get? options name).getD [])) =
        set.map fun name => (name, choicesFor name) :=
      List.map_congr_left fun name hname => by rw [hoFirst name hname, Option.getD_some]
    rw [combineSets, hset, List.flatMap_cons, List.length_append]
    split
    · rename_i e he
      obtain ⟨rfl, hlt⟩ := lt_of_cartesian_error hnFirst he
      rw [if_neg (by omega)]
    · rename_i more hmore
      obtain rfl := eq_of_cartesian hdFirst hmore
      split
      · rename_i hroom
        rw [ih hroom hdRest hoRest hnRest, Nat.add_assoc, List.reverse_append, List.append_assoc]
      · rename_i hfull
        rw [if_neg (by omega)]

end Tables

section Total

variable {names : List String}

/-- How many cases there are: a free name may also be left out. -/
def caseCount (row : Row) (mark : String) (choicesFor : String → List α) (names : List String) : Nat :=
  ((names.filter fun name => !isFree row mark name).map fun name => (choicesFor name).length).prod *
    ((names.filter (isFree row mark)).map fun name => 1 + (choicesFor name).length).prod

theorem length_flatMap_tablesFor :
    ((keptSets row mark names).flatMap (tablesFor choicesFor)).length =
      caseCount row mark choicesFor names := by
  simp only [List.length_flatMap, length_tablesFor]
  induction names with
  | nil => rfl
  | cons name names ih =>
    rw [caseCount] at ih ⊢
    cases hfree : isFree row mark name with
    | false =>
      simp only [keptSets, hfree, Bool.false_eq_true, if_false, List.nil_append, List.map_map,
        Function.comp_def, List.map_cons, List.prod_cons, List.sum_map_mul_left, ih,
        List.filter_cons, Bool.not_false, if_true]
      ring
    | true =>
      simp only [keptSets, hfree, if_true, List.map_append, List.map_map, Function.comp_def,
        List.map_cons, List.prod_cons, List.sum_append, List.sum_map_mul_left, ih,
        List.filter_cons, Bool.not_true, Bool.false_eq_true, if_false]
      ring

theorem length_keptSets_le (hd : names.Nodup) (hne : ∀ name ∈ names, choicesFor name ≠ []) :
    (keptSets row mark names).length ≤ caseCount row mark choicesFor names := by
  rw [← length_flatMap_tablesFor, List.length_flatMap]
  refine le_of_eq_of_le (List.length_map _).symm (List.length_le_sum_of_one_le _ ?_)
  refine List.forall_mem_map.mpr fun set hset => ?_
  have hpos : ∀ n ∈ set.map fun name => (choicesFor name).length, 0 < n :=
    List.forall_mem_map.mpr fun name hname =>
      List.length_pos_iff.mpr (hne name (((mem_keptSets hd).mp hset).1.subset hname))
  rw [length_tablesFor]
  exact List.prod_pos hpos

end Total

section Cases

variable {parts : Entries (Unit → Outcome (List α))}

theorem collect_choices
    (h : ∀ part ∈ parts, part.2 () = .done (choicesFor part.1) ∧ choicesFor part.1 ≠ []) :
    Outcome.collect (parts.map fun part _ => choicesOf part.1 (part.2 ())) =
      .done (parts.map fun part => (part.1, choicesFor part.1)) := by
  rw [Outcome.collect_eq_done_iff, List.forall₂_map_left_iff, List.forall₂_map_right_iff]
  refine List.forall₂_same.mpr fun part hpart => ?_
  obtain ⟨hdone, hne⟩ := h part hpart
  rw [choicesOf, Outcome.under_eq_done_iff.mpr hdone, Outcome.bind_done, if_neg (by simpa using hne)]

/-- The cases of a table are the tables for each of its sets of names, as long as these are no more
than the limit. -/
theorem keyCombinations_eq (hd : Entries.Distinct parts)
    (h : ∀ part ∈ parts, part.2 () = .done (choicesFor part.1) ∧ choicesFor part.1 ≠ []) :
    keyCombinations parts row mark limit =
      if caseCount row mark choicesFor parts.names ≤ limit then
        .done ((keptSets row mark parts.names).flatMap (tablesFor choicesFor))
      else .failed (.tooManyCombinations limit) := by
  have hne : ∀ name ∈ parts.names, choicesFor name ≠ [] :=
    List.forall_mem_map.mpr fun part hpart => (h part hpart).2
  rw [keyCombinations]
  split
  · rename_i e he
    obtain ⟨rfl, hlt⟩ := lt_of_extendSets_error he
    have hle : (keptSets row mark parts.names).length ≤ caseCount row mark choicesFor parts.names :=
      length_keptSets_le hd hne
    rw [List.length_singleton, Nat.one_mul] at hlt
    rw [if_neg (by omega)]
  · rename_i sets hsets
    obtain rfl := eq_of_keySets hsets
    have hget : ∀ name ∈ parts.names, Entries.get?
        (parts.map fun part => (part.1, choicesFor part.1)) name = some (choicesFor name) := by
      refine List.forall_mem_map.mpr fun part hpart => ?_
      refine Entries.get?_of_mem ?_ (List.mem_map_of_mem hpart)
      rwa [Entries.Distinct, Entries.names_map]
    have hsub : ∀ set ∈ keptSets row mark parts.names, set.Sublist parts.names :=
      fun set hset => ((mem_keptSets hd).mp hset).1
    rw [collect_choices h, Outcome.bind_done, combineSets_eq (Nat.zero_le _)
      (fun set hset => (hsub set hset).nodup hd)
      (fun set hset name hname => hget name ((hsub set hset).subset hname))
      (fun set hset name hname => hne name ((hsub set hset).subset hname)),
      Nat.zero_add, length_flatMap_tablesFor]
    split
    · simp [Outcome.ofExcept, Outcome.map]
    · rfl

end Cases

section Numbered

variable {names : List String}

/-- A selection has some of the names in their order, with all that are not free, and each with one of
its choices and the number of that choice. -/
structure IsSelection (row : Row) (mark : String) (choicesFor : String → List α) (names : List String)
    (selection : Entries (α × Nat)) : Prop where
  inOrder : selection.names.Sublist names
  kept : ∀ name ∈ names, isFree row mark name = false → name ∈ selection.names
  choices : ∀ entry ∈ selection, (choicesFor entry.1)[entry.2.2]? = some entry.2.1

/-- The table of a selection. -/
def chosenTable (selection : Entries (α × Nat)) : Entries α :=
  selection.map fun entry => (entry.1, entry.2.1)

/-- Selections are ordered by the first name that only one of them has, which comes second, and those
of the same names by the first choice that they differ in. -/
def Precedes (names : List String) (a b : Entries (α × Nat)) : Prop :=
  presence names a.names < presence names b.names ∨
    a.names = b.names ∧ a.map (fun entry => entry.2.2) < b.map (fun entry => entry.2.2)

theorem not_precedes_self (a : Entries (α × Nat)) : ¬Precedes names a a := by
  rintro (h | ⟨-, h⟩)
  · exact List.lt_irrefl _ h
  · exact List.lt_irrefl _ h

/-- The choices of a name with their numbers. -/
def numbered (choicesFor : String → List α) (name : String) : List (α × Nat) :=
  (choicesFor name).zipIdx

theorem tablesFor_eq_map (set : List String) :
    tablesFor choicesFor set = (tablesFor (numbered choicesFor) set).map chosenTable := by
  have hset : set.map choicesFor = (set.map (numbered choicesFor)).map (List.map Prod.fst) := by
    simp [numbered, Function.comp_def]
  rw [tablesFor, tablesFor, hset, selections_map, List.map_map, List.map_map]
  refine List.map_congr_left fun chosen _ => ?_
  simp only [Function.comp_apply, List.zip_map_right, chosenTable]
  rfl

/-- The tables for a set come in the order of the numbers of their choices. -/
theorem pairwise_tablesFor (set : List String) :
    (tablesFor (numbered choicesFor) set).Pairwise (Precedes names) := by
  have hnumbers : ∀ choices ∈ set.map (numbered choicesFor),
      choices.Pairwise fun x y => x.2 < y.2 := by
    refine List.forall_mem_map.mpr fun name _ => List.pairwise_map.mp ?_
    rw [numbered, List.zipIdx_map_snd]
    exact List.pairwise_lt_range'
  refine List.pairwise_map.mpr ((pairwise_selections hnumbers).imp_of_mem ?_)
  intro chosen chosen' hchosen hchosen' hlt
  have hlength : ∀ {chosen}, chosen ∈ selections (set.map (numbered choicesFor)) →
      set.length = chosen.length := by
    intro chosen hmem
    rw [(mem_selections.mp hmem).length_eq, List.length_map]
  have hzip : ∀ {chosen : List (α × Nat)}, set.length = chosen.length →
      (set.zip chosen).map (fun entry => entry.2.2) = chosen.map Prod.snd := by
    intro chosen hl
    conv_rhs => rw [← List.map_snd_zip hl.ge]
    rw [List.map_map]
    rfl
  refine .inr ⟨?_, ?_⟩
  · exact (List.map_fst_zip (hlength hchosen).le).trans (List.map_fst_zip (hlength hchosen').le).symm
  · rwa [hzip (hlength hchosen), hzip (hlength hchosen')]

/-- The selections in the order in which the cases come. -/
def picks (row : Row) (mark : String) (choicesFor : String → List α) (names : List String) :
    List (Entries (α × Nat)) :=
  (keptSets row mark names).flatMap (tablesFor (numbered choicesFor))

theorem mem_picks (hd : names.Nodup) {pick : Entries (α × Nat)} :
    pick ∈ picks row mark choicesFor names ↔ IsSelection row mark choicesFor names pick := by
  have hnumbered : ∀ entry : String × α × Nat, entry.2 ∈ numbered choicesFor entry.1 ↔
      (choicesFor entry.1)[entry.2.2]? = some entry.2.1 :=
    fun entry => List.mem_zipIdx_iff_getElem?
  simp only [picks, List.mem_flatMap, mem_keptSets hd, mem_tablesFor, hnumbered]
  constructor
  · rintro ⟨_, ⟨hsub, hkept⟩, rfl, hchoices⟩
    exact ⟨hsub, hkept, hchoices⟩
  · rintro ⟨hsub, hkept, hchoices⟩
    exact ⟨_, ⟨hsub, hkept⟩, rfl, hchoices⟩

theorem pairwise_picks (hd : names.Nodup) :
    (picks row mark choicesFor names).Pairwise (Precedes names) := by
  refine List.pairwise_flatMap.mpr ⟨fun set _ => pairwise_tablesFor set, ?_⟩
  refine (pairwise_keptSets hd).imp fun hlt pick hpick pick' hpick' => .inl ?_
  rwa [(mem_tablesFor.mp hpick).1, (mem_tablesFor.mp hpick').1]

theorem map_picks :
    (picks row mark choicesFor names).map chosenTable =
      (keptSets row mark names).flatMap (tablesFor choicesFor) := by
  rw [picks, List.map_flatMap]
  exact List.flatMap_congr fun set _ => (tablesFor_eq_map set).symm

end Numbered

/-- The cases of a table whose parts all have choices: one for each selection, and in their order,
unless there are more than the limit. -/
theorem keyCombinations_enumerates {parts : Entries (Unit → Outcome (List α))}
    (hd : Entries.Distinct parts)
    (h : ∀ part ∈ parts, part.2 () = .done (choicesFor part.1) ∧ choicesFor part.1 ≠ []) :
    ∃ selections : List (Entries (α × Nat)),
      (∀ selection, selection ∈ selections ↔
        IsSelection row mark choicesFor parts.names selection) ∧
      selections.Nodup ∧ selections.Pairwise (Precedes parts.names) ∧
      selections.length = caseCount row mark choicesFor parts.names ∧
      keyCombinations parts row mark limit =
        if caseCount row mark choicesFor parts.names ≤ limit then .done (selections.map chosenTable)
        else .failed (.tooManyCombinations limit) := by
  have hsorted : (picks row mark choicesFor parts.names).Pairwise (Precedes parts.names) :=
    pairwise_picks hd
  refine ⟨picks row mark choicesFor parts.names, fun _ => mem_picks hd, ?_, hsorted, ?_, ?_⟩
  · refine hsorted.imp fun hab heq => ?_
    exact not_precedes_self _ (heq ▸ hab)
  · rw [← length_flatMap_tablesFor, ← map_picks, List.length_map]
  · rw [keyCombinations_eq hd h, map_picks]

/-- A name that is required, one that is free, and one that the row fills. -/
def bookTable : Entries (List Nat) := [("id", [1, 2]), ("tag?", [3, 4]), ("age?", [5])]

def bookRow : Row := [("age", "7")]

def bookChoices (name : String) : List Nat := (Entries.get? bookTable name).getD []

def bookParts : Entries (Unit → Outcome (List Nat)) :=
  bookTable.map fun entry => (entry.1, fun _ => .done entry.2)

theorem keyCombinations_enumerates_book :
    Entries.Distinct bookParts ∧
      (∀ part ∈ bookParts, part.2 () = .done (bookChoices part.1) ∧ bookChoices part.1 ≠ []) ∧
      ∃ selections : List (Entries (Nat × Nat)),
        (∀ selection, selection ∈ selections ↔
          IsSelection bookRow fieldMark bookChoices bookParts.names selection) ∧
        selections.Nodup ∧ selections.Pairwise (Precedes bookParts.names) ∧
        selections.length = caseCount bookRow fieldMark bookChoices bookParts.names ∧
        keyCombinations bookParts bookRow fieldMark 6 =
          if caseCount bookRow fieldMark bookChoices bookParts.names ≤ 6 then
            .done (selections.map chosenTable)
          else .failed (.tooManyCombinations 6) := by
  have hd : Entries.Distinct bookParts := by unfold Entries.Distinct; decide
  have hchoices : ∀ part ∈ bookParts,
      part.2 () = .done (bookChoices part.1) ∧ bookChoices part.1 ≠ [] := by
    rintro part (_ | ⟨_, _ | ⟨_, _ | ⟨_, hp⟩⟩⟩)
    · exact ⟨rfl, by decide⟩
    · exact ⟨rfl, by decide⟩
    · exact ⟨rfl, by decide⟩
    · cases hp
  exact ⟨hd, hchoices, keyCombinations_enumerates hd hchoices⟩

example : keyCombinations bookParts bookRow fieldMark 6 = .done
    [[("id", 1), ("age?", 5)], [("id", 2), ("age?", 5)],
      [("id", 1), ("tag?", 3), ("age?", 5)], [("id", 1), ("tag?", 4), ("age?", 5)],
      [("id", 2), ("tag?", 3), ("age?", 5)], [("id", 2), ("tag?", 4), ("age?", 5)]] := by
  rfl

end PayloadContracts
