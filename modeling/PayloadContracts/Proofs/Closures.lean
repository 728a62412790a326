import PayloadContracts.Proofs.Tokens
import PayloadContracts.Proofs.Types
import Mathlib.Data.Finset.Card
import Mathlib.Data.Set.Finite.Lattice
import Mathlib.Logic.Relation
import Mathlib.Order.WellFounded

/-!
Finitely many patterns are enough for all that some patterns lead to in a scope. Main statement:
`Scope.exists_isClosed`.
-/

namespace PayloadContracts

open Relation

namespace Pattern

variable {holds : Pattern → Prop} {p q : Pattern}

/-- The patterns that a pattern is put together from. -/
def parts : Pattern → List Pattern
  | record fields _ => fields.map Prod.snd
  | element shape => shape.attributes.map Prod.snd ++ shape.children
  | union ps => ps
  | list item => [item]
  | _ => []

theorem sizeOf_lt_of_mem_parts (h : q ∈ p.parts) : sizeOf q < sizeOf p := by
  cases p with
  | record fields isOpen =>
    obtain ⟨field, hf, rfl⟩ := List.mem_map.mp h
    have := Entries.sizeOf_snd_lt hf
    simp only [record.sizeOf_spec]
    omega
  | element shape =>
    obtain h | h := List.mem_append.mp h
    · obtain ⟨entry, he, rfl⟩ := List.mem_map.mp h
      have := Entries.sizeOf_snd_lt he
      have := shape.sizeOf_attributes_lt
      simp only [element.sizeOf_spec]
      omega
    · have := List.sizeOf_lt_of_mem h
      have := shape.sizeOf_children_lt
      simp only [element.sizeOf_spec]
      omega
  | union ps =>
    have hq : q ∈ ps := h
    have := List.sizeOf_lt_of_mem hq
    simp only [union.sizeOf_spec]
    omega
  | list item =>
    obtain rfl := List.mem_singleton.mp h
    simp
  | _ => cases h

theorem Every.part (h : p.Every holds) (hq : q ∈ p.parts) : q.Every holds := by
  cases p with
  | record fields isOpen =>
    obtain ⟨field, hf, rfl⟩ := List.mem_map.mp hq
    exact (every_record.mp h).2 field hf
  | element shape =>
    obtain ⟨-, hattributes, hchildren⟩ := every_element.mp h
    obtain hq | hq := List.mem_append.mp hq
    · obtain ⟨entry, he, rfl⟩ := List.mem_map.mp hq
      exact hattributes entry he
    · exact hchildren q hq
  | union ps => exact (every_union.mp h).2 q hq
  | list item =>
    obtain rfl := List.mem_singleton.mp hq
    exact (every_list.mp h).2
  | _ => cases hq

/-- The second pattern is the first or somewhere in it. -/
def HasPart : Pattern → Pattern → Prop := ReflTransGen fun p q => q ∈ p.parts

theorem Every.hasPart (h : p.Every holds) (hq : p.HasPart q) : q.Every holds := by
  induction hq with
  | refl => exact h
  | tail _ hq ih => exact ih.part hq

theorem finite_hasPart (p : Pattern) : {q | p.HasPart q}.Finite := by
  induction h : sizeOf p using Nat.strongRecOn generalizing p with
  | ind n ih =>
    have hparts : (⋃ q ∈ {q | q ∈ p.parts}, {r | q.HasPart r}).Finite :=
      p.parts.finite_toSet.biUnion fun q hq => ih _ (h ▸ sizeOf_lt_of_mem_parts hq) q rfl
    refine (hparts.insert p).subset fun r hr => ?_
    obtain rfl | ⟨q, hq, hr⟩ := ReflTransGen.cases_head hr
    · exact Set.mem_insert _ _
    · exact Set.mem_insert_of_mem _ (Set.mem_biUnion hq hr)

/-- The tokens that a pattern itself looks up. -/
def tokens : Pattern → List String
  | reference token => [token]
  | element shape => (shape.typeRef.map typeToken).toList
  | _ => []

end Pattern

namespace Scope

open Pattern

variable {s : Scope} {C : Set Pattern} {p q : Pattern} {shape full : Shape Pattern}
  {trail : List String}

/-- The second pattern is a part of the first, or what the first refers to. -/
def Next (s : Scope) (p q : Pattern) : Prop :=
  q ∈ p.parts ∨ ∃ token, p = reference token ∧ s.lookup token = .ok q

theorem Next.withEmpty (h : s.Next p q) : s.withEmpty.Next p q :=
  h.imp_right fun ⟨token, hp, hl⟩ => ⟨token, hp, lookup_withEmpty hl⟩

/-- What goes from patterns to their parts, and otherwise only from references on, does not come back
without a reference. -/
theorem exists_reference_of_cycle {r : Pattern → Pattern → Prop} (hr : ∀ p q, r p q → s.Next p q)
    (h : TransGen r p p) :
    ∃ token, ReflTransGen r p (reference token) ∧ TransGen r (reference token) (reference token) := by
  induction hn : sizeOf p using Nat.strongRecOn generalizing p with
  | ind n ih =>
    obtain ⟨q, hq, hrest⟩ := TransGen.head'_iff.mp h
    obtain hpart | ⟨token, rfl, -⟩ := hr p q hq
    · have hcycle : TransGen r q q := TransGen.tail' hrest hq
      obtain ⟨token, hto, hback⟩ := ih _ (hn ▸ sizeOf_lt_of_mem_parts hpart) hcycle rfl
      exact ⟨token, .head hq hto, hback⟩
    · exact ⟨token, .refl, h⟩

/-- What goes from references to what they stand for goes along chains of references. -/
theorem Leads.reflTransGen {r : Pattern → Pattern → Prop}
    (hr : ∀ token q, s.lookup token = .ok q → r (reference token) q) (h : s.Leads p trail q) :
    ReflTransGen r p q := by
  induction h with
  | stop => exact .refl
  | hop hn _ ih => exact .head (hr _ _ hn) ih

theorem Leads.transGen {r : Pattern → Pattern → Prop} {token : String}
    (hr : ∀ token q, s.lookup token = .ok q → r (reference token) q)
    (h : s.Leads (reference token) trail q) : TransGen r (reference token) q := by
  cases h with
  | stop h => cases h
  | hop hn rest => exact .head' (hr _ _ hn) (rest.reflTransGen hr)

/-- All that patterns in the set lead to is in the set. -/
structure IsClosed (s : Scope) (C : Set Pattern) : Prop where
  parts : ∀ p ∈ C, ∀ q ∈ p.parts, q ∈ C
  types : ∀ shape name, element shape ∈ C → shape.typeRef = some name →
    reference (typeToken name) ∈ C
  lookup : ∀ token q, reference token ∈ C → s.lookup token = .ok q → q ∈ C

theorem IsClosed.next (h : s.IsClosed C) (hp : p ∈ C) (hq : s.Next p q) : q ∈ C := by
  obtain hq | ⟨token, rfl, hl⟩ := hq
  · exact h.parts p hp q hq
  · exact h.lookup token q hp hl

theorem IsClosed.leads (h : s.IsClosed C) (hp : p ∈ C) (hl : s.Leads p trail q) : q ∈ C := by
  induction hl with
  | stop => exact hp
  | hop hn _ ih => exact ih (h.lookup _ _ hp hn)

/-- What types bring is in the set. -/
theorem IsClosed.resolves (h : s.IsClosed C) (hp : element shape ∈ C)
    (hr : s.Resolves shape trail full) :
    (∀ entry ∈ full.attributes, entry.2 ∈ C) ∧ ∀ child ∈ full.children, child ∈ C := by
  have hof : ∀ {shape : Shape Pattern}, element shape ∈ C →
      (∀ entry ∈ shape.attributes, entry.2 ∈ C) ∧ ∀ child ∈ shape.children, child ∈ C := fun hp =>
    ⟨fun entry he => h.parts _ hp _ (List.mem_append_left _ (List.mem_map_of_mem he)),
      fun child hc => h.parts _ hp _ (List.mem_append_right _ hc)⟩
  have hparts := hof hp
  have htype : ∀ name, shape.typeRef = some name → reference (typeToken name) ∈ C :=
    fun name => h.types shape name hp
  clear hp
  induction hr with
  | plain => exact hparts
  | @element _ other _ _ _ _ hn hl _ ih =>
    have hother := h.leads (htype _ hn) hl
    refine ih ⟨fun entry he => ?_, (hof hother).2⟩ fun name => h.types other name hother
    exact (Entries.mem_of_mem_extend he).elim (hparts.1 entry) ((hof hother).1 entry)
  | content hn hl =>
    refine ⟨hparts.1, fun child hc => ?_⟩
    obtain rfl := List.mem_singleton.mp hc
    exact h.leads (htype _ hn) hl

/-- Closed sets stay closed where they are cut down to what is as all that the scope defines. -/
theorem IsClosed.every {holds : Pattern → Prop} (h : s.IsClosed C) (hs : s.Every holds)
    (hh : Spelled holds) : s.IsClosed {p | p ∈ C ∧ p.Every holds} where
  parts p hp q hq := ⟨h.parts p hp.1 q hq, hp.2.part hq⟩
  types shape name hp hn := ⟨h.types shape name hp.1 hn, every_reference.mpr (hh.reference _)⟩
  lookup token q hp hl := ⟨h.lookup token q hp.1 hl, hs.lookup hh hl⟩

/-- A token that a token spells stands for nothing but what is defined for it. -/
theorem get?_of_lookup {token text : String} (hread : Token.read? text = some p)
    (hp : p.HasPart (reference token)) (hl : s.lookup token = .ok q) :
    Entries.get? s.definitions token = some q := by
  have hself := ((Token.spelled_of_read? hread).hasPart hp).self token rfl
  unfold lookup at hl
  split at hl
  · cases hl
    assumption
  · simp [hself] at hl

/-- From what a token spells only defined names lead further. -/
theorem spelled_or_of_next {r : Pattern → Pattern → Prop} (hr : ∀ p q, r p q → s.Next p q)
    (hp : p.Every SpellsItself) (h : ReflTransGen r p q) :
    q.Every SpellsItself ∨ ∃ token ∈ s.definitions.names,
      ReflTransGen r p (reference token) ∧ ReflTransGen r (reference token) q := by
  induction h with
  | refl => exact .inl hp
  | @tail q q' hq hstep ih =>
    obtain hspelled | ⟨token, ht, hpt, htq⟩ := ih
    · obtain hpart | ⟨token, rfl, hl⟩ := hr q q' hstep
      · exact .inl (hspelled.part hpart)
      · have hget := get?_of_lookup (hspelled.self token rfl) .refl hl
        exact .inr ⟨token, Entries.mem_names_of_get? hget, hq, .single hstep⟩
    · exact .inr ⟨token, ht, hpt, htq.tail hstep⟩

/-- Where a name that is defined does not lead back to itself, no reference does. -/
theorem not_cycle_of_names {r : Pattern → Pattern → Prop} (hr : ∀ p q, r p q → s.Next p q)
    (h : ∀ token ∈ s.definitions.names, ¬TransGen r (reference token) (reference token))
    (token : String) : ¬TransGen r (reference token) (reference token) := by
  intro hcycle
  by_cases ht : token ∈ s.definitions.names
  · exact h token ht hcycle
  obtain ⟨q, hq, hback⟩ := TransGen.head'_iff.mp hcycle
  obtain hpart | ⟨_, hself, hl⟩ := hr _ q hq
  · cases hpart
  cases hself
  have hnone := Entries.get?_eq_none_iff.mpr ht
  have hread : Token.read? token = some q := by
    simp only [Scope.lookup, hnone] at hl
    split at hl
    · split at hl <;> cases hl
      assumption
    · cases hl
      assumption
    · cases hl
  obtain hspelled | ⟨other, ho, hto, hback⟩ := spelled_or_of_next hr (Token.spelled_of_read? hread) hback
  · have hget := get?_of_lookup (hspelled.self token rfl) .refl hl
    rw [hnone] at hget
    cases hget
  · exact h other ho ((TransGen.tail' hback hq).trans_left hto)

variable (s) (ps : List Pattern)

/-- The patterns given and those that the scope defines, with all that is in them. -/
def known : Set Pattern := {q | ∃ p ∈ ps ++ s.definitions.map Prod.snd, p.HasPart q}

/-- The tokens that known patterns look up. -/
def asked : Set String := {token | ∃ p ∈ s.known ps, token ∈ p.tokens}

/-- What these tokens spell, with all that is in it. -/
def spelled : Set Pattern := {q | ∃ token ∈ s.asked ps, ∃ p, Token.read? token = some p ∧ p.HasPart q}

/-- All that the patterns lead to is among these. -/
def reached : Set Pattern := s.known ps ∪ reference '' s.asked ps ∪ s.spelled ps

theorem finite_known : (s.known ps).Finite :=
  ((ps ++ s.definitions.map Prod.snd).finite_toSet.biUnion fun p _ => finite_hasPart p).subset
    fun _ ⟨_, hp, hq⟩ => Set.mem_biUnion hp hq

theorem finite_asked : (s.asked ps).Finite :=
  ((s.finite_known ps).biUnion fun p _ => p.tokens.finite_toSet).subset
    fun _ ⟨_, hp, ht⟩ => Set.mem_biUnion hp ht

theorem finite_spelled : (s.spelled ps).Finite := by
  have hread : ∀ token, {q | ∃ p, Token.read? token = some p ∧ p.HasPart q}.Finite := by
    intro token
    cases hread : Token.read? token with
    | none => simp
    | some p => simpa using finite_hasPart p
  exact ((s.finite_asked ps).biUnion fun token _ => hread token).subset
    fun _ ⟨_, ht, hq⟩ => Set.mem_biUnion ht hq

variable {s ps}

theorem mem_known_of_get? {token : String} (h : Entries.get? s.definitions token = some q) :
    q ∈ s.known ps :=
  ⟨q, List.mem_append_right _ (List.mem_map_of_mem (Entries.mem_of_get? h)), .refl⟩

/-- A token that is looked up stands for something known or spelled. -/
theorem mem_of_lookup {token : String} (ht : token ∈ s.asked ps) (hl : s.lookup token = .ok q) :
    q ∈ s.known ps ∨ q ∈ s.spelled ps := by
  unfold lookup at hl
  split at hl
  · cases hl
    exact .inl (mem_known_of_get? ‹_›)
  · split at hl
    · split at hl
      · cases hl
      · cases hl
        exact .inr ⟨token, ht, _, ‹_›, .refl⟩
    · cases hl
      exact .inr ⟨token, ht, _, ‹_›, .refl⟩
    · cases hl

theorem isClosed_reached : s.IsClosed (s.reached ps) := by
  constructor
  case parts =>
    rintro p ((⟨root, hroot, hp⟩ | ⟨token, -, rfl⟩) | ⟨token, ht, root, hread, hp⟩) q hq
    · exact .inl (.inl ⟨root, hroot, hp.tail hq⟩)
    · cases hq
    · exact .inr ⟨token, ht, root, hread, hp.tail hq⟩
  case types =>
    rintro shape name ((hp | ⟨token, -, he⟩) | ⟨token, ht, root, hread, hp⟩) hn
    · refine .inl (.inr ⟨typeToken name, ⟨_, hp, ?_⟩, rfl⟩)
      simp [tokens, hn]
    · cases he
    · have hspelled : Spelled fun p => ∀ shape, p ≠ element shape :=
        ⟨by simp, by simp, by simp, by simp⟩
      exact absurd rfl (((hspelled.read? hread).hasPart hp).self shape)
  case lookup =>
    rintro token q ((hp | ⟨other, ht, he⟩) | ⟨text, ht, root, hread, hp⟩) hl
    · exact (mem_of_lookup ⟨_, hp, List.mem_singleton.mpr rfl⟩ hl).imp_left .inl
    · cases he
      exact (mem_of_lookup ht hl).imp_left .inl
    · exact .inl (.inl (mem_known_of_get? (get?_of_lookup hread hp hl)))

theorem exists_isClosed (s : Scope) (ps : List Pattern) :
    ∃ C : Set Pattern, C.Finite ∧ (∀ p ∈ ps, p ∈ C) ∧ s.IsClosed C := by
  refine ⟨s.reached ps, ?_, fun p hp => ?_, isClosed_reached⟩
  · exact ((s.finite_known ps).union ((s.finite_asked ps).image _)).union (s.finite_spelled ps)
  · exact .inl (.inl ⟨p, List.mem_append_left _ hp, .refl⟩)

end Scope

/-- A walk that can go on for as many steps as there are places comes to one of them twice. -/
theorem exists_repeat {α β : Type} {r : α → α → Prop} {good : Nat → α → Prop} {place : α → β}
    {places : Finset β} (hstep : ∀ n x, good (n + 1) x → ∃ y, r x y ∧ good n y)
    (hplace : ∀ n x, good n x → place x ∈ places) {x : α} (hx : good places.card x) :
    ∃ y z, ReflTransGen r x y ∧ TransGen r y z ∧ place z = place y := by
  classical
  -- The steps that can still be taken are as many as the places not seen yet.
  have hwalk : ∀ n (seen : Finset β) z, (places \ seen).card ≤ n → good n z → ReflTransGen r x z →
      (∀ p ∈ seen, ∃ y, ReflTransGen r x y ∧ TransGen r y z ∧ place y = p) →
        ∃ y z, ReflTransGen r x y ∧ TransGen r y z ∧ place z = place y := by
    intro n
    induction n with
    | zero =>
      intro seen z hcard hz _ hseen
      have hempty := Finset.card_eq_zero.mp (Nat.le_zero.mp hcard)
      obtain ⟨y, hxy, hyz, hy⟩ := hseen _ (Finset.sdiff_eq_empty_iff_subset.mp hempty (hplace _ z hz))
      exact ⟨y, z, hxy, hyz, hy.symm⟩
    | succ n ih =>
      intro seen z hcard hz hxz hseen
      by_cases hmem : place z ∈ seen
      · obtain ⟨y, hxy, hyz, hy⟩ := hseen _ hmem
        exact ⟨y, z, hxy, hyz, hy.symm⟩
      · obtain ⟨next, hnext, hgood⟩ := hstep n z hz
        refine ih (insert (place z) seen) next ?_ hgood (hxz.tail hnext) fun p hp => ?_
        · have hnew := Finset.mem_sdiff.mpr ⟨hplace _ z hz, hmem⟩
          rw [Finset.sdiff_insert, Finset.card_erase_of_mem hnew]
          exact Nat.sub_le_of_le_add hcard
        · obtain rfl | hp := Finset.mem_insert.mp hp
          · exact ⟨z, hxz, .single hnext, rfl⟩
          · obtain ⟨y, hxy, hyz, hy⟩ := hseen p hp
            exact ⟨y, hxy, hyz.tail hnext, hy⟩
  exact hwalk _ ∅ x (by simp) hx .refl (by simp)

/-- Where finitely many things can be reached and none of them leads back to itself, nothing is reached
without end. -/
theorem acc_of_acyclic {α : Type} {r : α → α → Prop} {C : Set α} (hC : C.Finite)
    (hclosed : ∀ x ∈ C, ∀ y, r x y → y ∈ C) {x : α} (hx : x ∈ C)
    (h : ∀ y, ReflTransGen r x y → ¬TransGen r y y) : Acc (fun y x => TransGen r x y) x := by
  have hmem : ∀ {y z}, ReflTransGen r y z → y ∈ C → z ∈ C := by
    intro y z hyz hy
    induction hyz with
    | refl => exact hy
    | tail _ hr ih => exact hclosed _ ih _ hr
  have hfinite : {y | ReflTransGen r x y}.Finite := hC.subset fun y hy => hmem hy hx
  have : Finite {y // ReflTransGen r x y} := hfinite
  let below : {y // ReflTransGen r x y} → {y // ReflTransGen r x y} → Prop := fun y z =>
    TransGen r z.1 y.1
  have : IsTrans _ below := ⟨fun _ _ _ hyz hzw => TransGen.trans hzw hyz⟩
  have : Std.Irrefl below := ⟨fun y => h y.1 y.2⟩
  have hwf : WellFounded below := Finite.wellFounded_of_trans_of_irrefl below
  have hacc : ∀ y : {y // ReflTransGen r x y}, Acc (fun y x => TransGen r x y) y.1 := by
    intro y
    induction y using hwf.induction with
    | _ y ih => exact ⟨_, fun z hz => ih ⟨z, y.2.trans hz.to_reflTransGen⟩ hz⟩
  exact hacc ⟨x, .refl⟩

namespace Scope

open Pattern

/-- What goes on to parts and from references, and back to no reference, comes to an end. -/
theorem acc_of_next {s : Scope} {C : Set Pattern} {p : Pattern} {r : Pattern → Pattern → Prop}
    (hC : C.Finite) (hclosed : s.IsClosed C) (hp : p ∈ C) (hr : ∀ p q, r p q → s.Next p q)
    (h : ∀ token, ReflTransGen r p (reference token) → ¬TransGen r (reference token) (reference token)) :
    Acc (fun q p => TransGen r p q) p := by
  refine acc_of_acyclic hC (fun q hq q' hstep => hclosed.next hq (hr q q' hstep)) hp fun q hq hcycle => ?_
  obtain ⟨token, ht, hback⟩ := exists_reference_of_cycle hr hcycle
  exact h token (hq.trans ht) hback

end Scope

end PayloadContracts
