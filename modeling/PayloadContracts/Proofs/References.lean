import PayloadContracts.Slot
import PayloadContracts.Proofs.Tables

/-!
Following references goes along chains of names. Main statement: `Scope.follow_eq_ok_iff`.
-/

namespace PayloadContracts

theorem Pattern.isReference_eq_false {p : Pattern} (h : ∀ token, p = .reference token → False) :
    p.isReference = false := by
  cases p with
  | reference token => exact (h token rfl).elim
  | _ => rfl

namespace Scope

variable {s t inner : Scope} {p q : Pattern} {name : String} {trail : List String}

/-- Looking up references from the first pattern on goes through the names and ends at the second. -/
inductive Leads (s : Scope) : Pattern → List String → Pattern → Prop
  | stop {p : Pattern} (h : p.isReference = false) : Leads s p [] p
  | hop {name : String} {next q : Pattern} {trail : List String} (h : s.lookup name = .ok next)
      (rest : Leads s next trail q) : Leads s (.reference name) (name :: trail) q

/-- The scope once the names have been entered. -/
def below (s : Scope) (trail : List String) : Scope := { s with path := s.path ++ trail }

@[simp] theorem below_nil (s : Scope) : s.below [] = s := by
  simp [below]

theorem below_cons (s : Scope) (name : String) (trail : List String) :
    s.below (name :: trail) = (s.below [name]).below trail := by
  simp [below]

theorem below_below (s : Scope) (trail more : List String) :
    (s.below trail).below more = s.below (trail ++ more) := by
  simp [below]

theorem headroom_below (s : Scope) (trail : List String) :
    (s.below trail).headroom = s.headroom - trail.length := by
  simp only [headroom, below, List.length_append]
  omega

theorem enter_eq_ok_iff : s.enter name = .ok inner ↔ 0 < s.headroom ∧ inner = s.below [name] := by
  rw [enter, headroom, Nat.sub_pos_iff_lt, below]
  by_cases h : s.path.length < s.depthLimit
  · simp [h, eq_comm]
  · simp [h]

theorem lookup_congr (h : t.definitions = s.definitions) (name : String) :
    t.lookup name = s.lookup name := by
  rw [lookup, lookup, h]

theorem Leads.mono (h : s.Leads p trail q)
    (hl : ∀ name next, s.lookup name = .ok next → t.lookup name = .ok next) : t.Leads p trail q := by
  induction h with
  | stop h => exact .stop h
  | hop h _ ih => exact .hop (hl _ _ h) ih

theorem Leads.unique {trail' : List String} {q' : Pattern} (h : s.Leads p trail q)
    (h' : s.Leads p trail' q') : trail = trail' ∧ q = q' := by
  induction h generalizing trail' with
  | stop h =>
    cases h' with
    | stop => exact ⟨rfl, rfl⟩
    | hop => simp [Pattern.isReference] at h
  | hop hl _ ih =>
    cases h' with
    | stop h => simp [Pattern.isReference] at h
    | hop hl' rest =>
      rw [hl] at hl'
      cases hl'
      obtain ⟨rfl, rfl⟩ := ih rest
      exact ⟨rfl, rfl⟩

theorem Leads.isReference_eq_false (h : s.Leads p trail q) : q.isReference = false := by
  induction h with
  | stop h => exact h
  | hop _ _ ih => exact ih

theorem Leads.of_mem (h : s.Leads p trail q) (hname : name ∈ trail) :
    ∃ more, s.Leads (.reference name) more q ∧ more.length ≤ trail.length := by
  induction h with
  | stop => cases hname
  | @hop first next q trail hl rest ih =>
    obtain rfl | hname := List.mem_cons.mp hname
    · exact ⟨name :: trail, .hop hl rest, Nat.le_refl _⟩
    · obtain ⟨more, hmore, hlen⟩ := ih hname
      exact ⟨more, hmore, Nat.le_succ_of_le hlen⟩

/-- A name that comes twice would come again and again. -/
theorem Leads.nodup (h : s.Leads p trail q) : trail.Nodup := by
  induction h with
  | stop => exact List.nodup_nil
  | @hop name next q trail hl rest ih =>
    refine List.nodup_cons.mpr ⟨fun hname => ?_, ih⟩
    obtain ⟨more, hmore, hlen⟩ := rest.of_mem hname
    obtain ⟨rfl, -⟩ := hmore.unique (.hop hl rest)
    rw [List.length_cons] at hlen
    omega

theorem leads_below {names : List String} :
    (s.below names).Leads p trail q ↔ s.Leads p trail q :=
  ⟨fun h => h.mono fun _ _ hl => hl, fun h => h.mono fun _ _ hl => hl⟩

/-- Looking up the names of the trail in turn goes from the first pattern to the second, which may be
a reference again. -/
inductive Hops (s : Scope) : Pattern → List String → Pattern → Prop
  | refl (p : Pattern) : Hops s p [] p
  | hop {name : String} {next q : Pattern} {trail : List String} (h : s.lookup name = .ok next)
      (rest : Hops s next trail q) : Hops s (.reference name) (name :: trail) q

theorem leads_iff : s.Leads p trail q ↔ s.Hops p trail q ∧ q.isReference = false := by
  constructor
  · intro h
    induction h with
    | stop h => exact ⟨.refl _, h⟩
    | hop hl _ ih => exact ⟨.hop hl ih.1, ih.2⟩
  · rintro ⟨h, hq⟩
    induction h with
    | refl => exact .stop hq
    | hop hl _ ih => exact .hop hl (ih hq)

theorem hops_below {names : List String} : (s.below names).Hops p trail q ↔ s.Hops p trail q := by
  constructor <;> intro h <;> induction h with
  | refl => exact .refl _
  | hop hl _ ih => exact .hop hl ih

/-- How following ends before a pattern once names have been seen: with the pattern itself, or at a
reference whose name was seen, stands for nothing, or cannot be entered. -/
inductive Settles (s : Scope) (seen : List String) :
    Pattern → Except ContractError (Pattern × Scope) → Prop
  | reached {q : Pattern} (h : q.isReference = false) : Settles s seen q (.ok (q, s))
  | again {name : String} (h : name ∈ seen) :
    Settles s seen (.reference name) (.error (.nestedTooDeep name seen.length))
  | unknown {name : String} {e : ContractError} (hnew : name ∉ seen) (h : s.lookup name = .error e) :
    Settles s seen (.reference name) (.error (.patternNotFound name))
  | noRoom {name : String} {next : Pattern} (hnew : name ∉ seen) (h : s.lookup name = .ok next)
      (hroom : s.headroom = 0) :
    Settles s seen (.reference name) (.error (.nestedTooDeep name s.depthLimit))

theorem lookup_eq_error {token : String} {e : ContractError} (h : s.lookup token = .error e) :
    e = .patternNotFound token := by
  unfold lookup at h
  split at h
  · cases h
  · split at h
    · split at h <;> cases h
      rfl
    · cases h
    · cases h
      rfl

theorem enter_eq_error_iff {e : ContractError} :
    s.enter name = .error e ↔ s.headroom = 0 ∧ e = .nestedTooDeep name s.depthLimit := by
  rw [enter, headroom, Nat.sub_eq_zero_iff_le, ← Nat.not_lt]
  by_cases h : s.path.length < s.depthLimit
  · simp [h]
  · simp [h, eq_comm]

theorem followFrom_unknown {seen : List String} {token : String} {e : ContractError}
    (hnew : token ∉ seen) (hl : s.lookup token = .error e) :
    followFrom seen (.reference token) s = .error (.patternNotFound token) := by
  rw [followFrom, if_neg hnew, hl, lookup_eq_error hl]

theorem followFrom_hop {seen : List String} {token : String} (hnew : token ∉ seen)
    (hl : s.lookup token = .ok q) (hroom : 0 < s.headroom) :
    followFrom seen (.reference token) s = followFrom (seen ++ [token]) q (s.below [token]) := by
  have henter : s.enter token = .ok (s.below [token]) := enter_eq_ok_iff.mpr ⟨hroom, rfl⟩
  rw [followFrom, if_neg hnew, hl]
  dsimp only
  split
  · rename_i he
    cases henter.symm.trans he
  · rename_i he
    cases henter.symm.trans he
    rfl

theorem followFrom_of_settles {seen : List String} {r : Except ContractError (Pattern × Scope)}
    (h : s.Settles seen p r) : followFrom seen p s = r := by
  cases h with
  | reached h =>
    cases p with
    | reference => cases h
    | _ => rw [followFrom]; simp
  | again h => rw [followFrom, if_pos h]
  | unknown hnew h => exact followFrom_unknown hnew h
  | @noRoom name _ hnew h hroom =>
    have henter : s.enter name = .error (.nestedTooDeep name s.depthLimit) :=
      enter_eq_error_iff.mpr ⟨hroom, rfl⟩
    rw [followFrom, if_neg hnew, h]
    dsimp only
    split
    · rename_i he
      cases henter.symm.trans he
      rfl
    · rename_i he
      cases henter.symm.trans he

/-- Names are entered one by one as long as they are new and there is headroom for them. -/
theorem followFrom_of_hops (seen entered : List String) (h : s.Hops p trail q) (hnd : trail.Nodup)
    (hnew : ∀ name ∈ trail, name ∉ seen) (hroom : trail.length ≤ (s.below entered).headroom) :
    followFrom seen p (s.below entered) = followFrom (seen ++ trail) q (s.below (entered ++ trail)) := by
  induction h generalizing seen entered with
  | refl => simp
  | @hop name next q trail hl rest ih =>
    obtain ⟨hname, hnd⟩ := List.nodup_cons.mp hnd
    have hrest : ∀ n ∈ trail, n ∉ seen ++ [name] := by
      intro n hn hs
      obtain hs | hs := List.mem_append.mp hs
      · exact hnew n (List.mem_cons_of_mem _ hn) hs
      · exact hname (List.mem_singleton.mp hs ▸ hn)
    have hbelow : trail.length ≤ (s.below (entered ++ [name])).headroom := by
      rw [← below_below, headroom_below, List.length_singleton]
      exact Nat.le_sub_one_of_lt hroom
    have hfirst : (s.below entered).lookup name = .ok next := hl
    rw [followFrom_hop (hnew name List.mem_cons_self) hfirst (Nat.zero_lt_of_lt hroom), below_below,
      ih _ _ hnd hrest hbelow, ← List.append_cons, ← List.append_cons]

theorem exists_settles (seen : List String) (p : Pattern) (s : Scope) :
    ∃ trail q, s.Hops p trail q ∧ trail.Nodup ∧ (∀ name ∈ trail, name ∉ seen) ∧
      trail.length ≤ s.headroom ∧ (s.below trail).Settles (seen ++ trail) q (followFrom seen p s) := by
  have hstop : ∀ {seen p s r}, Settles s seen p r → ∃ trail q, s.Hops p trail q ∧ trail.Nodup ∧
      (∀ name ∈ trail, name ∉ seen) ∧ trail.length ≤ s.headroom ∧
        (s.below trail).Settles (seen ++ trail) q r := fun {seen p s r} h =>
    ⟨[], p, .refl p, List.nodup_nil, by simp, Nat.zero_le _, by simpa using h⟩
  fun_induction followFrom seen p s with
  | case1 seen s name hseen => exact hstop (.again hseen)
  | case2 seen s name hnew e he =>
    rw [lookup_eq_error he]
    exact hstop (.unknown hnew he)
  | case3 seen s name hnew next hn e he =>
    obtain ⟨hroom, rfl⟩ := enter_eq_error_iff.mp he
    exact hstop (.noRoom hnew hn hroom)
  | case4 seen s name hseen next hn entered he ih =>
    obtain ⟨hroom, rfl⟩ := enter_eq_ok_iff.mp he
    obtain ⟨trail, q, hl, hnd, hnew, hlen, hq⟩ := ih
    rw [headroom_below, List.length_singleton] at hlen
    have hname : name ∉ trail := fun h => hnew name h (by simp)
    refine ⟨name :: trail, q, .hop hn (hops_below.mp hl), List.nodup_cons.mpr ⟨hname, hnd⟩, ?_, ?_, ?_⟩
    · rintro n (_ | ⟨_, h⟩)
      · exact hseen
      · exact fun hs => hnew n h (List.mem_append_left _ hs)
    · rw [List.length_cons]; omega
    · rwa [below_below, List.singleton_append, List.append_assoc, List.singleton_append] at hq
  | case5 _ _ _ hp => exact hstop (.reached (Pattern.isReference_eq_false hp))

/-- Following enters new names while there is headroom, until it settles. -/
theorem followFrom_eq_iff {seen : List String} {r : Except ContractError (Pattern × Scope)} :
    followFrom seen p s = r ↔
      ∃ trail q, s.Hops p trail q ∧ trail.Nodup ∧ (∀ name ∈ trail, name ∉ seen) ∧
        trail.length ≤ s.headroom ∧ (s.below trail).Settles (seen ++ trail) q r := by
  constructor
  · rintro rfl
    exact exists_settles seen p s
  · rintro ⟨trail, q, hl, hnd, hnew, hlen, hq⟩
    have hrun := followFrom_of_hops seen [] hl hnd hnew (by simpa using hlen)
    rw [below_nil] at hrun
    exact hrun.trans (followFrom_of_settles hq)

/-- Following goes along chains of new names for which there is headroom. -/
theorem followFrom_eq_ok_iff {seen : List String} :
    followFrom seen p s = .ok (q, inner) ↔
      ∃ trail, s.Leads p trail q ∧ trail.Nodup ∧ (∀ name ∈ trail, name ∉ seen) ∧
        trail.length ≤ s.headroom ∧ inner = s.below trail := by
  rw [followFrom_eq_iff]
  constructor
  · rintro ⟨trail, q, hl, hnd, hnew, hlen, hq⟩
    cases hq with
    | reached h => exact ⟨trail, leads_iff.mpr ⟨hl, h⟩, hnd, hnew, hlen, rfl⟩
  · rintro ⟨trail, hl, hnd, hnew, hlen, rfl⟩
    obtain ⟨hl, hq⟩ := leads_iff.mp hl
    exact ⟨trail, q, hl, hnd, hnew, hlen, .reached hq⟩

theorem follow_eq_ok_iff :
    s.follow p = .ok (q, inner) ↔
      ∃ trail, s.Leads p trail q ∧ trail.Nodup ∧ trail.length ≤ s.headroom ∧
        inner = s.below trail := by
  simp [follow, followFrom_eq_ok_iff]

theorem follow_of_leads (h : s.Leads p trail q) (hroom : trail.length ≤ s.headroom) :
    s.follow p = .ok (q, s.below trail) :=
  follow_eq_ok_iff.mpr ⟨trail, h, h.nodup, hroom, rfl⟩

/-- A chain is followed to its one end, if there is headroom for its names. -/
theorem exists_follow_iff {P : Pattern → Scope → Prop} (h : s.Leads p trail q) :
    (∃ r inner, s.follow p = .ok (r, inner) ∧ P r inner) ↔
      trail.length ≤ s.headroom ∧ P q (s.below trail) := by
  constructor
  · rintro ⟨r, inner, hf, hP⟩
    obtain ⟨trail', h', -, hroom, rfl⟩ := follow_eq_ok_iff.mp hf
    obtain ⟨rfl, rfl⟩ := h'.unique h
    exact ⟨hroom, hP⟩
  · rintro ⟨hroom, hP⟩
    exact ⟨q, _, follow_of_leads h hroom, hP⟩

theorem followFrom_self {seen : List String} (h : p.isReference = false) :
    followFrom seen p s = .ok (p, s) :=
  followFrom_eq_ok_iff.mpr ⟨[], .stop h, List.nodup_nil, by simp, by simp, by simp⟩

theorem follow_self (h : p.isReference = false) : s.follow p = .ok (p, s) := followFrom_self h

end Scope

end PayloadContracts
