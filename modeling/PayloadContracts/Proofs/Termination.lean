import PayloadContracts.Proofs.Chain
import PayloadContracts.Proofs.Recursion
import PayloadContracts.Proofs.TokenCalls
import Mathlib.Data.Finset.Prod

/-!
When the work on cases comes to an end. Tokens of a row take the place of parts without a name being
entered, so a token may come back to itself. Main statement: `Pattern.specialisation_ends_iff`.
-/

namespace PayloadContracts.Pattern

open Relation

variable {row : Row} {p : Pattern} {s : Scope} {n : Nat}

/-- The work on cases, with the patterns of tokens as the questions. -/
def specialisation (row : Row) : Recursion (Pattern × Scope) (List Pattern) where
  work answer x := x.1.casesWith (fun q t => answer (q, t)) row x.2
  calls x := TokenCall row x.2
  inquires x := asksForTokens row x.1 x.2

theorem casesWithin_eq_answers (n : Nat) (p : Pattern) (row : Row) (s : Scope) :
    casesWithin n p row s = (specialisation row).answers (n + 1) (p, s) := by
  induction n generalizing p s with
  | zero => rfl
  | succ n ih =>
    rw [casesWithin]
    simp only [ih]
    rfl

theorem descends_of_chain {f : Nat → Pattern × Scope}
    (hf : ∀ i ≤ n, TokenCall row (f i).2 (f (i + 1))) {i j : Nat} (hij : i < j) (hj : j ≤ n + 1) :
    (f i).2.Descends (f j).2 :=
  rel_of_chain (r := fun x y : Pattern × Scope => x.2.Descends y.2)
    (fun _ _ _ => Scope.Descends.trans) (fun i hi => (hf i hi).1) hij hj

/-- Two calls by the same text with the same headroom left are one call. -/
theorem eq_of_chain {f : Nat → Pattern × Scope}
    (hf : ∀ i ≤ n, TokenCall row (f i).2 (f (i + 1))) {text : Nat → String}
    (htext : ∀ i ≤ n, (f (i + 1)).2.lookup (Text.trim (text i)) = .ok (f (i + 1)).1) {i j : Nat}
    (hij : i < j) (hj : j ≤ n) (hsame : text i = text j)
    (hroom : (f (i + 1)).2.headroom = (f (j + 1)).2.headroom) : f (i + 1) = f (j + 1) := by
  have hi : i ≤ n := Nat.le_trans (Nat.le_of_lt hij) hj
  have hdesc := descends_of_chain hf (Nat.succ_lt_succ hij) (Nat.succ_le_succ hj)
  have hscope : (f (j + 1)).2 = (f (i + 1)).2 :=
    (hdesc.eq_of_headroom hroom.symm).trans (hf i hi).1.withEmpty_eq
  have hpattern : (f (i + 1)).1 = (f (j + 1)).1 := by
    have hlookup := htext i hi
    rw [← hscope, hsame, htext j hj] at hlookup
    exact (Except.ok.inj hlookup).symm
  exact Prod.ext hpattern hscope.symm

/-- There are no more calls than texts of the row times names that can be entered. -/
theorem returns_tokenLimit (row : Row) (p : Pattern) (s : Scope) :
    (specialisation row).Returns (tokenLimit row s) (p, s) := by
  intro f hstart hf
  have hlookup : ∀ i, ∃ text, i ≤ tokenLimit row s → text ∈ row.map Prod.snd ∧
      (f (i + 1)).2.lookup (Text.trim text) = .ok (f (i + 1)).1 := by
    intro i
    by_cases hi : i ≤ tokenLimit row s
    · obtain ⟨-, entry, he, -, hl⟩ := hf i hi
      exact ⟨entry.2, fun _ => ⟨List.mem_map_of_mem he, hl⟩⟩
    · exact ⟨"", fun h => absurd h hi⟩
  choose text htext using hlookup
  -- A call is told by its text and the headroom left, and there are fewer such places than calls.
  let calls := Finset.range (tokenLimit row s + 1)
  let places := (row.map Prod.snd).toFinset ×ˢ Finset.range (s.headroom + 1)
  have hcard : places.card < calls.card := by
    have hrow : (row.map Prod.snd).toFinset.card ≤ row.length :=
      (List.toFinset_card_le _).trans (Nat.le_of_eq (List.length_map _))
    have hle := Nat.mul_le_mul_right (s.headroom + 1) hrow
    simp only [places, calls, Finset.card_product, Finset.card_range, tokenLimit, Nat.mul_assoc]
    omega
  have hmaps : ∀ i ∈ calls, (text i, (f (i + 1)).2.headroom) ∈ places := by
    intro i hi
    have hi : i ≤ tokenLimit row s := Nat.le_of_lt_succ (Finset.mem_range.mp hi)
    have hroom := (descends_of_chain hf (Nat.succ_pos i) (Nat.succ_le_succ hi)).headroom_le
    rw [hstart] at hroom
    rw [Finset.mem_product, List.mem_toFinset, Finset.mem_range]
    exact ⟨(htext i hi).1, Nat.lt_succ_of_le hroom⟩
  obtain ⟨i, hi, j, hj, hne, heq⟩ := Finset.exists_ne_map_eq_of_card_lt_of_maps_to hcard hmaps
  have hi : i ≤ tokenLimit row s := Nat.le_of_lt_succ (Finset.mem_range.mp hi)
  have hj : j ≤ tokenLimit row s := Nat.le_of_lt_succ (Finset.mem_range.mp hj)
  obtain ⟨hsame, hroom⟩ := Prod.mk.inj heq
  have hlookups := fun i hi => (htext i hi).2
  obtain hlt | hlt := Nat.lt_or_gt_of_ne hne
  · exact ⟨i + 1, j + 1, Nat.succ_lt_succ hlt, Nat.succ_le_succ hj,
      eq_of_chain hf hlookups hlt hj hsame hroom⟩
  · exact ⟨j + 1, i + 1, Nat.succ_lt_succ hlt, Nat.succ_le_succ hi,
      eq_of_chain hf hlookups hlt hi hsame.symm hroom.symm⟩

/-- The work on cases ends exactly if no token comes back to itself in the same scope, and then it
ends with the cases. -/
theorem specialisation_ends_iff (p : Pattern) (row : Row) (s : Scope) :
    ((∃ r, (specialisation row).Yields (p, s) r) ↔
        ¬∃ x, ReflTransGen (specialisation row).Asks (p, s) x ∧
          TransGen (specialisation row).Asks x x) ∧
      ∀ r, (specialisation row).Yields (p, s) r → p.cases row s = r := by
  have hreturns := returns_tokenLimit row p s
  refine ⟨Recursion.ends_iff hreturns, fun r hr => ?_⟩
  rw [cases, casesWithin_eq_answers]
  exact hr.eq_answers hreturns

theorem chain_narrow (hk : Chain.Knows s) (h : 1 < s.headroom) :
    (reference "(Node)").narrow "next" "(Node)" s = .ok Chain.node := by
  have hinner : 0 < ((s.below ["(Node)"]).withEmpty).headroom := by
    rw [Scope.headroom_withEmpty, Scope.headroom_below, List.length_singleton]
    omega
  have houter : 0 < s.withEmpty.headroom := by
    rw [Scope.headroom_withEmpty]
    omega
  have hbelow : Chain.Knows (s.below ["(Node)"]) := hk
  have hsubsumes := Chain.start_subsumes_start hbelow.withEmpty hk.withEmpty hinner houter
  have hlookup : s.lookup (Text.trim "(Node)") = .ok Chain.node := Chain.lookup_node hk
  have hfollow := Chain.follow_node hk (Nat.lt_of_succ_lt h)
  refine narrow_eq_ok_iff.mpr ⟨hlookup, (subsumes_reference_left rfl).mpr ?_⟩
  exact ⟨Chain.node, _, hfollow, Chain.node_subsumes_node hsubsumes⟩

/-- A token for the next node is the node once more, with the same row. -/
theorem chain_waits {ofToken : Pattern → Scope → Outcome (List Pattern)} (hk : Chain.Knows s)
    (h : 1 < s.headroom) (hnone : ofToken Chain.node s.withEmpty = .endless) :
    Chain.node.casesWith ofToken [("next", "(Node)")] s = .endless := by
  have hname : (scalar .string).partCases ofToken [("next", "(Node)")] "name" s.withEmpty =
      .done [scalar .string] := by
    rw [partCases_of_none rfl, casesWith]
  have hnext : (reference "(Node)").partCases ofToken [("next", "(Node)")] "next" s.withEmpty =
      .endless := by
    rw [partCases_of_token rfl rfl (chain_narrow hk.withEmpty (by simpa using h)), hnone]
  have hcanonical : KeyKind.field.canonical "name" = "name" ∧
      KeyKind.field.canonical "next?" = "next" := by decide
  rw [Chain.node, casesWith]
  simp only [List.map_cons, List.map_nil, hcanonical, hname, hnext]
  rfl

/-- A specialisation without end: the chain with a row that says that the next node is a node. -/
theorem not_chain_ends :
    ¬∃ r, (specialisation [("next", "(Node)")]).Yields (reference "(Node)", Chain.scope) r := by
  have hfollow := Chain.follow_node (s := Chain.scope) (.inl rfl) (by decide)
  have hknows : Chain.Knows (Chain.scope.below ["(Node)"]) := .inl rfl
  have hfirst : (specialisation [("next", "(Node)")]).Asks (reference "(Node)", Chain.scope)
      (Chain.node, (Chain.scope.below ["(Node)"]).withEmpty) := by
    refine ⟨fun _ => .endless, fun _ hq => absurd rfl hq, rfl, fun answer _ hnone => ?_⟩
    exact (casesWith_reference (by decide) hfollow).trans
      (chain_waits hknows (by decide) hnone)
  have hagain : (specialisation [("next", "(Node)")]).Asks
      (Chain.node, (Chain.scope.below ["(Node)"]).withEmpty)
      (Chain.node, (Chain.scope.below ["(Node)"]).withEmpty) := by
    refine ⟨fun _ => .endless, fun _ hq => absurd rfl hq, rfl, fun answer _ hnone => ?_⟩
    refine chain_waits hknows.withEmpty (by decide) ?_
    rw [Scope.withEmpty_withEmpty]
    exact hnone
  exact Recursion.not_ends_of_cycle (.single hfirst) (.single hagain)

/-- Rows without tokens have no part in this. -/
theorem cases_ne_endless (hrow : ∀ entry ∈ row, Token.isToken entry.2 = false) :
    p.cases row s ≠ .endless := by
  rw [cases, casesWithin_eq_answers]
  intro h
  obtain ⟨y, ⟨-, entry, he, htoken, -⟩, -⟩ := Recursion.exists_asked h
  rw [hrow entry he] at htoken
  cases htoken

end PayloadContracts.Pattern
