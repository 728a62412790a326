import PayloadContracts.Proofs.Closures
import PayloadContracts.Proofs.Derivations

/-!
How many names may have to be entered to follow references and to check values, where no reference
leads back to itself through references and unions alone. Main statement: `Scope.exists_suffices`.
-/

namespace PayloadContracts

open Relation

namespace Verdict

/-- It failed because a name would have had to be entered once too often. -/
def Exceeds : Verdict → Prop
  | accepted => False
  | rejected f => f.kind = .recursionLimitExceeded

variable {v : Verdict}

@[simp] theorem not_exceeds_accepted : ¬accepted.Exceeds := id

@[simp] theorem exceeds_reject {kind : FailureKind} {message : String} :
    (reject kind message).Exceeds ↔ kind = .recursionLimitExceeded := Iff.rfl

@[simp] theorem not_exceeds_mismatch {expected : String} {actual : Value} :
    ¬(mismatch expected actual).Exceeds := by
  simp [mismatch]

@[simp] theorem exceeds_under {crumb : Crumb} : (v.under crumb).Exceeds ↔ v.Exceeds := by
  cases v <;> exact Iff.rfl

theorem Exceeds.andThen {w : Unit → Verdict} (h : v.Exceeds) : (v.andThen w).Exceeds := by
  cases v with
  | accepted => exact h.elim
  | rejected f => exact h

theorem Exceeds.of_andThen {w : Unit → Verdict} (h : (v.andThen w).Exceeds) :
    v.Exceeds ∨ (w ()).Exceeds := by
  cases v with
  | accepted => exact .inr h
  | rejected f => exact .inl h

end Verdict

open Verdict

section

variable {α : Type} {kind : KeyKind} {policy : KeyPolicy}

theorem exceeds_checkFields {fields : Entries (α → Verdict)} {parts : Entries α}
    (h : (checkFields kind fields parts).Exceeds) :
    ∃ field ∈ fields, ∃ part, Entries.get? parts (kind.canonical field.1) = some part ∧
      (field.2 part).Exceeds := by
  induction fields with
  | nil => exact h.elim
  | cons field fields ih =>
    rw [checkFields] at h
    split at h
    · obtain ⟨other, ho, hpart⟩ := ih h
      exact ⟨other, List.mem_cons_of_mem _ ho, hpart⟩
    · rename_i part hpart
      obtain h | h := h.of_andThen
      · exact ⟨field, List.mem_cons_self, part, hpart, exceeds_under.mp h⟩
      · obtain ⟨other, ho, hpart⟩ := ih h
        exact ⟨other, List.mem_cons_of_mem _ ho, hpart⟩

theorem exceeds_checkKeys {fields : Entries (α → Verdict)} {parts : Entries α}
    (h : (checkKeys kind policy fields parts).Exceeds) :
    ∃ field ∈ fields, ∃ part, Entries.get? parts (kind.canonical field.1) = some part ∧
      (field.2 part).Exceeds := by
  unfold checkKeys at h
  split at h
  · simp at h
  · simp at h
  · exact exceeds_checkFields h

theorem exceeds_checkAll {check : α → Verdict} {xs : List α} (h : (checkAll check xs).Exceeds) :
    ∃ x ∈ xs, (check x).Exceeds := by
  induction xs with
  | nil => exact h.elim
  | cons x xs ih =>
    obtain h | h := h.of_andThen
    · exact ⟨x, List.mem_cons_self, h⟩
    · obtain ⟨y, hy, h⟩ := ih h
      exact ⟨y, List.mem_cons_of_mem x hy, h⟩

theorem exceeds_checkItems {check : Value → Verdict} {index : Nat} {items : List Value}
    (h : (checkItems check index items).Exceeds) : ∃ v ∈ items, (check v).Exceeds := by
  induction items generalizing index with
  | nil => exact h.elim
  | cons v items ih =>
    obtain h | h := h.of_andThen
    · exact ⟨v, List.mem_cons_self, exceeds_under.mp h⟩
    · obtain ⟨w, hw, h⟩ := ih h
      exact ⟨w, List.mem_cons_of_mem v hw, h⟩

theorem exceeds_checkUnion {v : Value} {last : Verdict} {checks : List (Value → Verdict)}
    (h : (checkUnion v last checks).Exceeds) : last.Exceeds ∨ ∃ check ∈ checks, (check v).Exceeds := by
  induction checks generalizing last with
  | nil => exact .inl h
  | cons check checks ih =>
    rw [checkUnion] at h
    split at h
    · exact h.elim
    · rename_i f hf
      obtain h | ⟨other, ho, h⟩ := ih h
      · exact .inr ⟨check, List.mem_cons_self, hf ▸ h⟩
      · exact .inr ⟨other, List.mem_cons_of_mem check ho, h⟩

theorem exceeds_compareFields {smaller : Entries Pattern} {bigger : Entries (Pattern → Verdict)}
    (h : (compareFields kind smaller bigger).Exceeds) :
    ∃ field ∈ bigger, ∃ p, kind.declared? smaller field.1 = some p ∧ (field.2 p).Exceeds := by
  induction bigger with
  | nil => exact h.elim
  | cons field bigger ih =>
    rw [compareFields] at h
    split at h
    · obtain ⟨other, ho, hp⟩ := ih h
      exact ⟨other, List.mem_cons_of_mem _ ho, hp⟩
    · rename_i p hp
      obtain h | h := h.of_andThen
      · exact ⟨field, List.mem_cons_self, p, hp, exceeds_under.mp h⟩
      · obtain ⟨other, ho, hp⟩ := ih h
        exact ⟨other, List.mem_cons_of_mem _ ho, hp⟩

theorem exceeds_compareKeys {smallerIsOpen : Bool} {smaller : Entries Pattern}
    {bigger : Entries (Pattern → Verdict)}
    (h : (compareKeys kind policy smallerIsOpen bigger smaller).Exceeds) :
    ∃ field ∈ bigger, ∃ p, kind.declared? smaller field.1 = some p ∧ (field.2 p).Exceeds := by
  unfold compareKeys at h
  split at h
  · simp at h
  · split at h
    · exact exceeds_compareFields h
    · split at h
      · simp at h
      · split at h
        · simp at h
        · exact exceeds_compareFields h

/-- What an alternative fails by is left behind. -/
theorem not_exceeds_compareUnion {expected : String} {alternatives : List (Pattern → Verdict)}
    {candidates : List Pattern} : ¬(compareUnion expected alternatives candidates).Exceeds := by
  induction candidates with
  | nil => exact id
  | cons q rest ih =>
    rw [compareUnion]
    split
    · exact ih
    · simp

end

theorem Value.not_exceeds_check {expected v : Value} : ¬(expected.check v).Exceeds := by
  unfold Value.check
  split <;> simp

theorem Scalar.not_exceeds_check {kind : Scalar} {v : Value} : ¬(kind.check v).Exceeds := by
  unfold Scalar.check
  split <;> simp

namespace Scope

open Pattern

variable {s t inner : Scope} {p q : Pattern} {C : Set Pattern} {n m : Nat}

/-- The second pattern is an alternative of a union or what a reference stands for. -/
inductive Exposes (s : Scope) : Pattern → Pattern → Prop
  | alternative {ps : List Pattern} {q : Pattern} (h : q ∈ ps) : Exposes s (union ps) q
  | target {token : String} {q : Pattern} (h : s.lookup token = .ok q) :
      Exposes s (reference token) q

/-- A reference leads back to itself only through a field of a record or an item of a list. -/
def Guarded (s : Scope) : Prop :=
  ∀ token, ¬TransGen s.withEmpty.Exposes (reference token) (reference token)

theorem Exposes.next (h : s.Exposes p q) : s.Next p q := by
  cases h with
  | alternative hq => exact .inl hq
  | target hl => exact .inr ⟨_, rfl, hl⟩

/-- It is enough to look at the names that are defined. -/
theorem guarded_of_names (h : ∀ token ∈ s.withEmpty.definitions.names,
    ¬TransGen s.withEmpty.Exposes (reference token) (reference token)) : s.Guarded :=
  not_cycle_of_names (fun _ _ => Exposes.next) h

/-- What stands for neither a reference nor a union leads no further. -/
theorem not_exposes_of_lookup {token : String} (hl : s.lookup token = .ok q) (hq : q.isPlain = true) :
    ¬TransGen s.Exposes (reference token) (reference token) := by
  intro hcycle
  obtain ⟨r, hr, hback⟩ := TransGen.head'_iff.mp hcycle
  cases hr with
  | target hl' =>
    cases hl.symm.trans hl'
    obtain rfl | ⟨next, hnext, -⟩ := ReflTransGen.cases_head hback
    · cases hq
    · cases hnext <;> cases hq

/-- It is enough that no definition is a reference or a union itself. -/
theorem guarded_of_isPlain (h : ∀ entry ∈ s.definitions, entry.2.isPlain = true) : s.Guarded := by
  refine guarded_of_names fun token ht => ?_
  obtain ⟨q, hq⟩ := Entries.exists_get?_of_mem_names ht
  refine not_exposes_of_lookup (q := q) (by rw [lookup, hq]) ?_
  have hmem := Entries.mem_of_get? hq
  unfold withEmpty at hmem
  split at hmem
  · exact h _ hmem
  · obtain hmem | hmem := List.mem_append.mp hmem
    · exact h _ hmem
    · obtain ⟨-, rfl⟩ := Prod.mk.inj (List.mem_singleton.mp hmem)
      rfl

/-- Nothing is exposed without end. -/
theorem Guarded.acc (h : s.Guarded) (hC : C.Finite) (hclosed : s.withEmpty.IsClosed C) (hp : p ∈ C) :
    Acc (fun q p => TransGen s.withEmpty.Exposes p q) p :=
  acc_of_next hC hclosed hp (fun _ _ => Exposes.next) fun token _ => h token

theorem not_exceeds_patternNotFound (token : String) :
    ¬(Verdict.ofError (.patternNotFound token)).Exceeds := by
  simp [Verdict.ofError, Verdict.Exceeds, ContractError.toFailure, ContractError.root,
    ContractError.failureKind]

/-- References were followed to an end in the scope, or to a name that stands for nothing, and at most
so many names were entered. -/
def Spends (n : Nat) (s : Scope) : Except ContractError (Pattern × Scope) → Prop
  | .ok (_, inner) => s.headroom ≤ inner.headroom + n
  | .error e => ¬(Verdict.ofError e).Exceeds

theorem Spends.mono {r : Except ContractError (Pattern × Scope)} (h : s.Spends n r) (hle : n ≤ m) :
    s.Spends m r := by
  cases r with
  | error e => exact h
  | ok r => exact Nat.le_trans h (Nat.add_le_add_left hle _)

theorem Spends.of_below {name : String} {r : Except ContractError (Pattern × Scope)}
    (h : (s.below [name]).Spends n r) : s.Spends (n + 1) r := by
  cases r with
  | error e => exact h
  | ok r =>
    have hle : (s.below [name]).headroom ≤ r.2.headroom + n := h
    rw [headroom_below, List.length_singleton] at hle
    show s.headroom ≤ r.2.headroom + (n + 1)
    omega

/-- With headroom for so many names the pattern can be followed, and no more of them are entered. -/
def FollowsWithin (s : Scope) (n : Nat) (p : Pattern) : Prop :=
  ∀ u, s.Derives u → n ≤ u.headroom → u.Spends n (u.follow p)

theorem FollowsWithin.mono (h : s.FollowsWithin n p) (hle : n ≤ m) : s.FollowsWithin m p :=
  fun u hu hroom => (h u hu (Nat.le_trans hle hroom)).mono hle

theorem FollowsWithin.headroom (h : s.FollowsWithin n p) (ht : s.Derives t) (hroom : n ≤ t.headroom)
    (hf : t.follow p = .ok (q, inner)) : t.headroom ≤ inner.headroom + n := by
  have hspends := h t ht hroom
  rw [hf] at hspends
  exact hspends

theorem FollowsWithin.not_exceeds (h : s.FollowsWithin n p) (ht : s.Derives t) (hroom : n ≤ t.headroom)
    {e : ContractError} (hf : t.follow p = .error e) : ¬(Verdict.ofError e).Exceeds := by
  have hspends := h t ht hroom
  rw [hf] at hspends
  exact hspends

/-- What has been seen leads to the pattern, so it does not come again. -/
theorem exists_spends_followFrom (hs : s.Guarded)
    (hacc : Acc (fun q p => TransGen s.withEmpty.Exposes p q) p) :
    ∃ n, ∀ seen u, (∀ token ∈ seen, TransGen s.withEmpty.Exposes (reference token) p) →
      s.Derives u → n ≤ u.headroom → u.Spends n (followFrom seen p u) := by
  induction hacc with
  | intro p _ ih =>
    obtain ⟨token, rfl⟩ | hp := eq_reference_or p
    · have hnew : ∀ seen : List String,
          (∀ other ∈ seen, TransGen s.withEmpty.Exposes (reference other) (reference token)) →
            token ∉ seen := fun seen hseen ht => hs token (hseen token ht)
      cases hl : s.withEmpty.lookup token with
      | error e =>
        refine ⟨0, fun seen u hseen hu _ => ?_⟩
        cases hlu : u.lookup token with
        | ok next => cases hl.symm.trans (hu.lookup hlu)
        | error e' =>
          rw [followFrom_unknown (hnew seen hseen) hlu]
          exact not_exceeds_patternNotFound token
      | ok next =>
        obtain ⟨n, hn⟩ := ih next (.single (.target hl))
        refine ⟨n + 1, fun seen u hseen hu hroom => ?_⟩
        cases hlu : u.lookup token with
        | error e' =>
          rw [followFrom_unknown (hnew seen hseen) hlu]
          exact not_exceeds_patternNotFound token
        | ok next' =>
          cases hl.symm.trans (hu.lookup hlu)
          have hseen' : ∀ other ∈ seen ++ [token],
              TransGen s.withEmpty.Exposes (reference other) next := by
            intro other ho
            obtain ho | ho := List.mem_append.mp ho
            · exact (hseen other ho).tail (.target hl)
            · obtain rfl := List.mem_singleton.mp ho
              exact .single (.target hl)
          rw [followFrom_hop (hnew seen hseen) hlu (Nat.lt_of_lt_of_le n.succ_pos hroom)]
          refine (hn _ _ hseen' (hu.below _) ?_).of_below
          rw [headroom_below]
          exact Nat.le_sub_of_add_le hroom
    · refine ⟨0, fun seen u _ _ _ => ?_⟩
      rw [followFrom_self hp]
      exact Nat.le_refl _

theorem exists_followsWithin (hs : s.Guarded)
    (hacc : Acc (fun q p => TransGen s.withEmpty.Exposes p q) p) : ∃ n, s.FollowsWithin n p := by
  obtain ⟨n, hn⟩ := exists_spends_followFrom hs hacc
  exact ⟨n, fun u hu hroom => hn [] u (by simp) hu hroom⟩

/-- With headroom for so many names a check does not want more. -/
def ChecksWithin (s : Scope) (n : Nat) (v : Value) (p : Pattern) : Prop :=
  ∀ u, s.Derives u → n ≤ u.headroom → ¬(p.check v u).Exceeds

theorem ChecksWithin.mono {v : Value} (h : s.ChecksWithin n v p) (hle : n ≤ m) :
    s.ChecksWithin m v p :=
  fun u hu hroom => h u hu (Nat.le_trans hle hroom)

namespace ChecksWithin

variable {v : Value} {fields : Entries Pattern} {isOpen : Bool} {parts : Entries Value}
  {elements : List Value} {item : Pattern} {ps : List Pattern} {token : String}

theorem object (h : ∀ part ∈ parts, ∀ field ∈ fields, s.ChecksWithin n part.2 field.2) :
    s.ChecksWithin n (.object parts) (record fields isOpen) := by
  intro u hu hroom hexceeds
  rw [check] at hexceeds
  obtain ⟨_, hmem, part, hpart, hexceeds⟩ := exceeds_checkKeys hexceeds
  obtain ⟨field, hf, rfl⟩ := List.mem_map.mp hmem
  refine h _ (Entries.mem_of_get? hpart) field hf _ hu.withEmpty ?_ hexceeds
  rwa [headroom_withEmpty]

theorem items (h : ∀ w ∈ elements, s.ChecksWithin n w item) :
    s.ChecksWithin n (.list elements) (.list item) := by
  intro u hu hroom hexceeds
  rw [check] at hexceeds
  obtain ⟨w, hw, hexceeds⟩ := exceeds_checkItems hexceeds
  exact h w hw u hu hroom hexceeds

theorem union (h : ∀ q ∈ ps, s.ChecksWithin n v q) : s.ChecksWithin n v (union ps) := by
  intro u hu hroom hexceeds
  rw [check] at hexceeds
  obtain hexceeds | ⟨_, hmem, hexceeds⟩ := exceeds_checkUnion hexceeds
  · exact not_exceeds_mismatch hexceeds
  · obtain ⟨q, hq, rfl⟩ := List.mem_map.mp hmem
    refine h q hq _ hu.withEmpty ?_ hexceeds
    rwa [headroom_withEmpty]

theorem reference (hf : s.FollowsWithin n (reference token))
    (h : ∀ trail q, s.withEmpty.Leads (.reference token) trail q → s.ChecksWithin m v q) :
    s.ChecksWithin (n + m) v (reference token) := by
  intro u hu hroom hexceeds
  have hfollow : n ≤ u.headroom := Nat.le_of_add_right_le hroom
  rw [check] at hexceeds
  split at hexceeds
  · rename_i hq
    exact hf.not_exceeds hu hfollow hq hexceeds
  · rename_i q inner hq
    have hle := hf.headroom hu hfollow hq
    obtain ⟨trail, hl, -, -, -⟩ := follow_eq_ok_iff.mp hq
    exact h trail q (hu.leads hl) inner (hu.follow hq) (by omega) hexceeds

end ChecksWithin

/-- Bounds for each of finitely many things have a common one. -/
theorem exists_forall_mem_of_finite {α : Type} {P : Nat → α → Prop} {S : Set α} (hS : S.Finite)
    (hmono : ∀ n m x, n ≤ m → P n x → P m x) (h : ∀ x ∈ S, ∃ n, P n x) : ∃ n, ∀ x ∈ S, P n x := by
  have hlist : ∀ x ∈ hS.toFinset.toList, ∃ n, P n x := fun x hx => h x (by simpa using hx)
  obtain ⟨n, hn⟩ := exists_forall_mem hmono hlist
  exact ⟨n, fun x hx => hn x (by simpa using hx)⟩

/-- Fields and items are checked against parts of the value, and what is left exposes nothing without
end. -/
theorem exists_checksWithin (hs : s.Guarded) (hC : C.Finite) (hclosed : s.withEmpty.IsClosed C)
    (hplain : ∀ shape, element shape ∉ C) (v : Value) : ∃ n, ∀ p ∈ C, s.ChecksWithin n v p := by
  have hmono : ∀ v n m p, n ≤ m → s.ChecksWithin n v p → s.ChecksWithin m v p :=
    fun _ _ _ _ hle h => h.mono hle
  have hmonos : ∀ v n m, n ≤ m → (∀ p ∈ C, s.ChecksWithin n v p) → ∀ p ∈ C, s.ChecksWithin m v p :=
    fun _ _ _ hle h p hp => (h p hp).mono hle
  induction hsize : sizeOf v using Nat.strongRecOn generalizing v with
  | ind size ih =>
    refine exists_forall_mem_of_finite hC (hmono v) fun p hp => ?_
    have hacc := hs.acc hC hclosed hp
    induction hacc with
    | intro p _ ihp =>
      obtain ⟨m, hm⟩ : ∃ m, ∀ q ∈ {q | q ∈ C ∧ TransGen s.withEmpty.Exposes p q}, s.ChecksWithin m v q :=
        exists_forall_mem_of_finite (hC.subset fun q hq => hq.1) (hmono v) fun q hq => ihp q hq.2 hq.1
      cases p with
      | literal e =>
        refine ⟨0, fun u _ _ => ?_⟩
        rw [check]
        exact Value.not_exceeds_check
      | scalar kind =>
        refine ⟨0, fun u _ _ => ?_⟩
        rw [check]
        exact Scalar.not_exceeds_check
      | element shape => exact absurd hp (hplain shape)
      | record fields isOpen =>
        cases v with
        | object parts =>
          have hparts : ∀ part ∈ parts, ∃ n, ∀ p ∈ C, s.ChecksWithin n part.2 p := fun part hpart => by
            have := Entries.sizeOf_snd_lt hpart
            exact ih _ (by simp only [Value.object.sizeOf_spec] at hsize; omega) part.2 rfl
          obtain ⟨n, hn⟩ := exists_forall_mem (fun n m part => hmonos part.2 n m) hparts
          exact ⟨n, .object fun part hpart field hf =>
            hn part hpart field.2 (hclosed.parts _ hp _ (List.mem_map_of_mem hf))⟩
        | _ => exact ⟨0, fun u _ _ => by rw [check] <;> simp⟩
      | list item =>
        cases v with
        | list items =>
          have hitems : ∀ w ∈ items, ∃ n, ∀ p ∈ C, s.ChecksWithin n w p := fun w hw => by
            have := List.sizeOf_lt_of_mem hw
            exact ih _ (by simp only [Value.list.sizeOf_spec] at hsize; omega) w rfl
          obtain ⟨n, hn⟩ := exists_forall_mem (fun n m w => hmonos w n m) hitems
          exact ⟨n, .items fun w hw => hn w hw item (hclosed.parts _ hp _ (List.mem_singleton.mpr rfl))⟩
        | _ => exact ⟨0, fun u _ _ => by rw [check] <;> simp⟩
      | union ps =>
        exact ⟨m, .union fun q hq => hm q ⟨hclosed.parts _ hp _ hq, .single (.alternative hq)⟩⟩
      | reference token =>
        obtain ⟨n, hn⟩ := exists_followsWithin hs (hs.acc hC hclosed hp)
        exact ⟨n + m, .reference hn fun trail q hl =>
          hm q ⟨hclosed.leads hp hl, hl.transGen fun _ _ => .target⟩⟩

/-- Headroom for so many names is enough to follow patterns of the set, and to check against them the
values that it has. -/
structure Suffices (s : Scope) (C : Set Pattern) (n : Nat) : Prop where
  follow : ∀ p ∈ C, s.FollowsWithin n p
  check : ∀ v, literal v ∈ C → ∀ p ∈ C, s.ChecksWithin n v p

theorem exists_suffices (hs : s.Guarded) (hC : C.Finite) (hclosed : s.withEmpty.IsClosed C)
    (hplain : ∀ shape, element shape ∉ C) : ∃ n, s.Suffices C n := by
  obtain ⟨n, hn⟩ := exists_forall_mem_of_finite hC (P := s.FollowsWithin)
    (fun _ _ _ hle h => h.mono hle) fun p hp => exists_followsWithin hs (hs.acc hC hclosed hp)
  obtain ⟨m, hm⟩ := exists_forall_mem_of_finite hC
    (P := fun n e => ∀ v, e = literal v → ∀ p ∈ C, s.ChecksWithin n v p)
    (fun _ _ _ hle h v he p hp => (h v he p hp).mono hle) fun e _ => by
      cases e with
      | literal v =>
        obtain ⟨m, hm⟩ := exists_checksWithin hs hC hclosed hplain v
        refine ⟨m, fun w hw => ?_⟩
        cases hw
        exact hm
      | _ => exact ⟨0, fun v hv => by cases hv⟩
  exact ⟨max n m, fun p hp => (hn p hp).mono (Nat.le_max_left n m), fun v hv p hp =>
    (hm _ hv v rfl p hp).mono (Nat.le_max_right n m)⟩

end Scope

end PayloadContracts
