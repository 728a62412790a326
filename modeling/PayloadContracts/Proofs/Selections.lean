import PayloadContracts.Combinations
import PayloadContracts.Proofs.Tables

/-!
What the tables of an enumeration have in them, and which tables there are. Main statements:
`mem_keyCombinations` and `exists_mem_keyCombinations`.
-/

namespace PayloadContracts

variable {α β : Type}

namespace Outcome

theorem collect_eq_done_iff {rs : List (Unit → Outcome α)} {xs : List α} :
    collect rs = done xs ↔ List.Forall₂ (fun r x => r () = done x) rs xs := by
  induction rs generalizing xs with
  | nil => cases xs <;> simp [collect]
  | cons r rs ih =>
    rw [collect, bind_eq_done, List.forall₂_cons_left_iff]
    constructor
    · rintro ⟨x, hx, h⟩
      obtain ⟨ys, hys, rfl⟩ := map_eq_done.mp h
      exact ⟨x, ys, hx, ih.mp hys, rfl⟩
    · rintro ⟨x, ys, hx, hys, rfl⟩
      exact ⟨x, hx, map_eq_done.mpr ⟨ys, ih.mpr hys, rfl⟩⟩

theorem ofExcept_eq_done_iff {r : Except ContractError α} {x : α} :
    ofExcept r = done x ↔ r = .ok x := by
  cases r <;> simp [ofExcept]

theorem under_eq_done_iff {crumb : Crumb} {r : Outcome α} {x : α} :
    r.under crumb = done x ↔ r = done x := by
  cases r <;> simp [under]

end Outcome

section KeySets

variable {row : Row} {mark : String} {limit : Nat} {names set : List String}
  {sets sets' : List (List String)}

/-- The sets of names with all that are not free. Those without a name come before those with it. -/
def keptSets (row : Row) (mark : String) : List String → List (List String)
  | [] => [[]]
  | name :: names =>
    (if isFree row mark name then keptSets row mark names else []) ++
      (keptSets row mark names).map (name :: ·)

theorem mem_keptSets (hd : names.Nodup) :
    set ∈ keptSets row mark names ↔
      set.Sublist names ∧ ∀ name ∈ names, isFree row mark name = false → name ∈ set := by
  induction names generalizing set with
  | nil => simp [keptSets]
  | cons name names ih =>
    obtain ⟨hname, hd⟩ := List.nodup_cons.mp hd
    rw [keptSets, List.mem_append, List.mem_map]
    constructor
    · rintro (hset | ⟨rest, hrest, rfl⟩)
      · split at hset
        · rename_i hfree
          obtain ⟨hsub, hkept⟩ := (ih hd).mp hset
          refine ⟨hsub.cons _, List.forall_mem_cons.mpr ⟨fun hf => ?_, hkept⟩⟩
          rw [hfree] at hf
          cases hf
        · cases hset
      · obtain ⟨hsub, hkept⟩ := (ih hd).mp hrest
        refine ⟨hsub.cons_cons _, List.forall_mem_cons.mpr ⟨fun _ => List.mem_cons_self, ?_⟩⟩
        exact fun other ho hf => List.mem_cons_of_mem _ (hkept other ho hf)
    · rintro ⟨hsub, hkept⟩
      obtain ⟨hfirst, hrest⟩ := List.forall_mem_cons.mp hkept
      cases hsub with
      | cons _ hsub =>
        have hfree : isFree row mark name = true :=
          Bool.not_eq_false _ ▸ fun hf => hname (hsub.subset (hfirst hf))
        rw [if_pos hfree]
        exact .inl ((ih hd).mpr ⟨hsub, hrest⟩)
      | cons_cons _ hsub =>
        refine .inr ⟨_, (ih hd).mpr ⟨hsub, fun other ho hf => ?_⟩, rfl⟩
        obtain rfl | hmem := List.mem_cons.mp (hrest other ho hf)
        · exact absurd ho hname
        · exact hmem

/-- One of the sets has all names. -/
theorem names_mem_keptSets : names ∈ keptSets row mark names := by
  induction names with
  | nil => exact List.mem_cons_self
  | cons name names ih => exact List.mem_append_right _ (List.mem_map_of_mem ih)

theorem eq_of_extendSets (h : extendSets row mark limit sets names = .ok sets') :
    sets' = sets.flatMap fun set => (keptSets row mark names).map (set ++ ·) := by
  induction names generalizing sets with
  | nil =>
    cases h
    simp [keptSets]
  | cons name names ih =>
    rw [extendSets] at h
    split at h
    · rename_i hfree
      split at h
      · rw [ih h]
        simp [keptSets, hfree, List.flatMap_assoc, Function.comp_def]
      · cases h
    · rename_i hfree
      rw [ih h]
      simp [keptSets, hfree, List.flatMap_map, Function.comp_def]

theorem eq_of_keySets (h : keySets names row mark limit = .ok sets) : sets = keptSets row mark names := by
  simpa using eq_of_extendSets h

end KeySets

theorem mem_selections {options : List (List α)} {chosen : List α} :
    chosen ∈ selections options ↔
      List.Forall₂ (fun choice choices => choice ∈ choices) chosen options := by
  induction options generalizing chosen with
  | nil => cases chosen <;> simp [selections]
  | cons choices rest ih =>
    rw [selections, List.mem_flatMap, List.forall₂_cons_right_iff]
    constructor
    · rintro ⟨choice, hchoice, h⟩
      obtain ⟨others, hothers, rfl⟩ := List.mem_map.mp h
      exact ⟨choice, others, hchoice, ih.mp hothers, rfl⟩
    · rintro ⟨choice, others, hchoice, hothers, rfl⟩
      exact ⟨choice, hchoice, List.mem_map_of_mem (ih.mpr hothers)⟩

theorem exists_mem_selections {set : List String} {choicesFor : String → List α}
    {good : String → α → Prop} (h : ∀ name ∈ set, ∃ x ∈ choicesFor name, good name x) :
    ∃ chosen ∈ selections (set.map choicesFor), List.Forall₂ good set chosen := by
  induction set with
  | nil => exact ⟨[], List.mem_cons_self, .nil⟩
  | cons name set ih =>
    obtain ⟨⟨x, hx, hgood⟩, hset⟩ := List.forall_mem_cons.mp h
    obtain ⟨chosen, hchosen, hrest⟩ := ih hset
    refine ⟨x :: chosen, ?_, .cons hgood hrest⟩
    exact List.mem_flatMap.mpr ⟨x, hx, List.mem_map_of_mem hchosen⟩

section Tables

variable {choicesFor : String → List α} {set : List String} {limit : Nat} {table : Entries α}
  {tables : List (Entries α)}

/-- The tables that have the names of a set, each with one of its choices. -/
def tablesFor (choicesFor : String → List α) (set : List String) : List (Entries α) :=
  (selections (set.map choicesFor)).map (set.zip ·)

theorem mem_tablesFor :
    table ∈ tablesFor choicesFor set ↔
      table.names = set ∧ ∀ entry ∈ table, entry.2 ∈ choicesFor entry.1 := by
  simp only [tablesFor, List.mem_map, mem_selections, List.forall₂_map_right_iff]
  constructor
  · rintro ⟨chosen, hchosen, rfl⟩
    refine ⟨List.map_fst_zip (Nat.le_of_eq hchosen.length_eq.symm), fun entry he => ?_⟩
    exact List.forall₂_zip hchosen.flip he
  · rintro ⟨rfl, hchoices⟩
    refine ⟨table.map Prod.snd, ?_, ?_⟩
    · rw [Entries.names, List.forall₂_map_left_iff, List.forall₂_map_right_iff]
      exact List.forall₂_same.mpr hchoices
    · exact (List.zip_of_prod rfl rfl).symm

theorem eq_of_cartesian (hd : set.Nodup)
    (h : cartesian (set.map fun name => (name, choicesFor name)) limit = .ok tables) :
    tables = tablesFor choicesFor set := by
  rw [cartesian] at h
  split at h
  · cases h
  · cases h
    simp only [tablesFor, List.map_map, Function.comp_def, List.map_id']
    refine List.map_congr_left fun chosen hchosen => Entries.ofList_of_distinct ?_
    rw [mem_selections, List.forall₂_map_right_iff] at hchosen
    rwa [Entries.Distinct, Entries.names, List.map_fst_zip (Nat.le_of_eq hchosen.length_eq.symm)]

/-- Where each name has a good choice, there is a table of good choices. -/
theorem exists_mem_cartesian {good : String → α → Prop}
    (h : cartesian (set.map fun name => (name, choicesFor name)) limit = .ok tables)
    (hgood : ∀ name ∈ set, ∃ x ∈ choicesFor name, good name x) :
    ∃ table ∈ tables, (∀ name, name ∈ Entries.names table ↔ name ∈ set) ∧
      ∀ entry ∈ table, good entry.1 entry.2 := by
  obtain ⟨chosen, hchosen, hforall⟩ := exists_mem_selections hgood
  rw [cartesian] at h
  split at h
  · cases h
  · cases h
    have hnames : Entries.names (set.zip chosen) = set :=
      List.map_fst_zip (Nat.le_of_eq hforall.length_eq)
    refine ⟨Entries.ofList (set.zip chosen), List.mem_map.mpr ⟨chosen, ?_, ?_⟩, fun name => ?_,
      fun entry he => ?_⟩
    · simpa [Function.comp_def] using hchosen
    · simp [Function.comp_def]
    · rw [Entries.ofList, Entries.mem_names_extend, hnames]
      simp [Entries.names]
    · obtain he | he := Entries.mem_of_mem_extend he
      · cases he
      · exact List.forall₂_zip hforall he

end Tables

/-- All that is found: the tables of each set and what was found before. -/
theorem combineSets_eq_ok {limit count : Nat} {options : Entries (List α)}
    {found tables : List (Entries α)} {sets : List (List String)}
    (h : combineSets limit options count found sets = .ok tables) :
    ∃ groups, List.Forall₂ (fun set more => cartesian
        (set.map fun name => (name, (Entries.get? options name).getD [])) limit = .ok more)
        sets groups ∧ tables = groups.flatten.reverse ++ found := by
  induction sets generalizing count found with
  | nil =>
    cases h
    exact ⟨[], .nil, rfl⟩
  | cons set sets ih =>
    rw [combineSets] at h
    split at h
    · cases h
    · rename_i more hmore
      split at h
      · obtain ⟨groups, hgroups, rfl⟩ := ih h
        exact ⟨more :: groups, .cons hmore hgroups, by simp⟩
      · cases h

theorem choicesOf_eq_done {name : String} {choices : Outcome (List α)} {option : String × List α}
    (h : choicesOf name choices = .done option) :
    option.1 = name ∧ choices = .done option.2 ∧ option.2 ≠ [] := by
  obtain ⟨found, hf, h⟩ := Outcome.bind_eq_done.mp h
  split at h
  · cases h
  · rename_i hsome
    cases h
    exact ⟨rfl, Outcome.under_eq_done_iff.mp hf, by simpa using hsome⟩

section Cases

variable {parts : Entries (Unit → Outcome (List α))} {row : Row} {mark : String} {limit : Nat}
  {tables : List (Entries α)} {table : Entries α}

/-- The cases are the tables for each of the sets of names, with choices that the parts yield. -/
theorem keyCombinations_eq_done (h : keyCombinations parts row mark limit = .done tables) :
    ∃ options groups,
      List.Forall₂ (fun part option => choicesOf part.1 (part.2 ()) = .done option) parts options ∧
      List.Forall₂ (fun set more => cartesian
        (set.map fun name => (name, (Entries.get? options name).getD [])) limit = .ok more)
        (keptSets row mark parts.names) groups ∧ tables = groups.flatten := by
  rw [keyCombinations] at h
  split at h
  · cases h
  · rename_i sets hsets
    obtain ⟨options, hoptions, h⟩ := Outcome.bind_eq_done.mp h
    obtain ⟨found, hfound, rfl⟩ := Outcome.map_eq_done.mp h
    rw [Outcome.ofExcept_eq_done_iff] at hfound
    rw [Outcome.collect_eq_done_iff, List.forall₂_map_left_iff] at hoptions
    obtain rfl := eq_of_keySets hsets
    obtain ⟨groups, hgroups, rfl⟩ := combineSets_eq_ok hfound
    exact ⟨options, groups, hoptions, hgroups, by simp⟩

/-- A table of an enumeration has some of the names in their order, with all that are not free, and
each with a choice that its part yields. -/
theorem mem_keyCombinations (hd : Entries.Distinct parts)
    (h : keyCombinations parts row mark limit = .done tables) (ht : table ∈ tables) :
    (Entries.names table).Sublist (Entries.names parts) ∧
      (∀ name ∈ Entries.names parts, isFree row mark name = false → name ∈ Entries.names table) ∧
      ∀ entry ∈ table, ∃ part ∈ parts, part.1 = entry.1 ∧
        ∃ choices, part.2 () = .done choices ∧ entry.2 ∈ choices := by
  obtain ⟨options, groups, hoptions, hgroups, rfl⟩ := keyCombinations_eq_done h
  obtain ⟨more, hmem, ht⟩ := List.mem_flatten.mp ht
  obtain ⟨set, hset, hmore⟩ := exists_of_forall₂_right hgroups hmem
  obtain ⟨hsub, hkept⟩ := (mem_keptSets hd).mp hset
  obtain rfl := eq_of_cartesian (hsub.nodup hd) hmore
  obtain ⟨rfl, hchoices⟩ := mem_tablesFor.mp ht
  refine ⟨hsub, hkept, fun entry he => ?_⟩
  have hentry := hchoices entry he
  cases hget : Entries.get? options entry.1 with
  | none => simp [hget] at hentry
  | some choices =>
    rw [hget, Option.getD_some] at hentry
    obtain ⟨part, hpart, hdone⟩ := exists_of_forall₂_right hoptions (Entries.mem_of_get? hget)
    obtain ⟨hname, hdone, -⟩ := choicesOf_eq_done hdone
    exact ⟨part, hpart, hname.symm, choices, hdone, hentry⟩

/-- A table for some fields has some of them in their order, with all that are not free, and each with
a choice that is worked out for it. -/
theorem mem_fieldCombinations {fields : Entries β} {f : String × β → Outcome (List α)}
    (hd : Entries.Distinct fields)
    (h : keyCombinations (fields.map fun field => (field.1, fun _ => f field)) row mark limit =
      .done tables) (ht : table ∈ tables) :
    (Entries.names table).Sublist (Entries.names fields) ∧
      (∀ field ∈ fields, isFree row mark field.1 = false → field.1 ∈ Entries.names table) ∧
      ∀ entry ∈ table, ∃ field ∈ fields, field.1 = entry.1 ∧
        ∃ choices, f field = .done choices ∧ entry.2 ∈ choices := by
  rw [Entries.Distinct, ← Entries.names_map fun field (_ : Unit) => f field] at hd
  obtain ⟨hsub, hkept, hchoices⟩ := mem_keyCombinations hd h ht
  rw [Entries.names_map] at hsub hkept
  refine ⟨hsub, fun field hf hfree => hkept _ (Entries.mem_names hf) hfree, fun entry he => ?_⟩
  obtain ⟨part, hpart, hname, choices, hdone, hentry⟩ := hchoices entry he
  obtain ⟨field, hf, rfl⟩ := List.mem_map.mp hpart
  exact ⟨field, hf, hname, choices, hdone, hentry⟩

/-- Where each part yields a good choice, if it yields any, a table has all names with good choices. -/
theorem exists_mem_keyCombinations {good : String → α → Prop}
    (h : keyCombinations parts row mark limit = .done tables)
    (hgood : ∀ part ∈ parts, ∀ choices, part.2 () = .done choices → choices ≠ [] →
      ∃ choice ∈ choices, good part.1 choice) :
    ∃ table ∈ tables, (∀ name, name ∈ Entries.names table ↔ name ∈ Entries.names parts) ∧
      ∀ entry ∈ table, good entry.1 entry.2 := by
  obtain ⟨options, groups, hoptions, hgroups, rfl⟩ := keyCombinations_eq_done h
  obtain ⟨more, hmem, hmore⟩ := exists_of_forall₂_left hgroups names_mem_keptSets
  have hchoices : ∀ name ∈ Entries.names parts,
      ∃ choice ∈ (Entries.get? options name).getD [], good name choice := by
    intro name hname
    obtain ⟨part, hpart, rfl⟩ := List.mem_map.mp hname
    obtain ⟨option, ho, hdone⟩ := exists_of_forall₂_left hoptions hpart
    have hoption := Entries.mem_names ho
    rw [(choicesOf_eq_done hdone).1] at hoption
    obtain ⟨choices, hget⟩ := Entries.exists_get?_of_mem_names hoption
    obtain ⟨other, hother, hdone⟩ := exists_of_forall₂_right hoptions (Entries.mem_of_get? hget)
    obtain ⟨heq, hdone, hne⟩ := choicesOf_eq_done hdone
    rw [hget, Option.getD_some]
    exact heq ▸ hgood other hother choices hdone hne
  obtain ⟨table, ht, hnames, hentries⟩ := exists_mem_cartesian hmore hchoices
  exact ⟨table, List.mem_flatten.mpr ⟨more, hmem, ht⟩, hnames, hentries⟩

end Cases

end PayloadContracts
