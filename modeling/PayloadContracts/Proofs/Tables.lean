import PayloadContracts.Entries
import Mathlib.Data.List.Perm.Subperm
import Mathlib.Data.List.Forall2

/-!
Tables with each name once, tables that agree name by name, and related facts on lists.
-/

namespace PayloadContracts

theorem exists_of_forall₂_right {α β : Type} {R : α → β → Prop} {xs : List α} {ys : List β}
    (h : List.Forall₂ R xs ys) {y : β} (hy : y ∈ ys) : ∃ x ∈ xs, R x y := by
  induction h with
  | nil => cases hy
  | cons hxy _ ih =>
    obtain rfl | hy := List.mem_cons.mp hy
    · exact ⟨_, List.mem_cons_self, hxy⟩
    · obtain ⟨x, hx, hR⟩ := ih hy
      exact ⟨x, List.mem_cons_of_mem _ hx, hR⟩

theorem exists_of_forall₂_left {α β : Type} {R : α → β → Prop} {xs : List α} {ys : List β}
    (h : List.Forall₂ R xs ys) {x : α} (hx : x ∈ xs) : ∃ y ∈ ys, R x y :=
  exists_of_forall₂_right (List.Forall₂.flip (R := fun y x => R x y) h) hx

theorem exists_between {α β γ : Type} {R : α → β → Prop} {S : β → γ → Prop} {xs : List α}
    {zs : List γ} (h : List.Forall₂ (fun x z => ∃ y, R x y ∧ S y z) xs zs) :
    ∃ ys, List.Forall₂ R xs ys ∧ List.Forall₂ S ys zs := by
  induction h with
  | nil => exact ⟨[], .nil, .nil⟩
  | cons hxz _ ih =>
    obtain ⟨y, hR, hS⟩ := hxz
    obtain ⟨ys, hxs, hzs⟩ := ih
    exact ⟨y :: ys, .cons hR hxs, .cons hS hzs⟩

theorem forall₂_trans {α β γ : Type} {R : α → β → Prop} {S : β → γ → Prop} {xs : List α}
    {ys : List β} {zs : List γ} (h : List.Forall₂ R xs ys) (h' : List.Forall₂ S ys zs) :
    List.Forall₂ (fun x z => ∃ y, R x y ∧ S y z) xs zs := by
  induction h generalizing zs with
  | nil =>
    cases h'
    exact .nil
  | cons hxy _ ih =>
    cases h' with
    | cons hyz hrest => exact .cons ⟨_, hxy, hyz⟩ (ih hrest)

theorem forall₂_symm {α β : Type} {R : α → β → Prop} {S : β → α → Prop} {xs : List α} {ys : List β}
    (h : List.Forall₂ R xs ys) (hS : ∀ x ∈ xs, ∀ y, R x y → S y x) : List.Forall₂ S ys xs := by
  induction h with
  | nil => exact .nil
  | cons hxy _ ih =>
    obtain ⟨hfirst, hrest⟩ := List.forall_mem_cons.mp hS
    exact .cons (hfirst _ hxy) (ih hrest)

theorem exists_forall_mem {α : Type} {P : Nat → α → Prop}
    (hmono : ∀ n m x, n ≤ m → P n x → P m x) {xs : List α} (h : ∀ x ∈ xs, ∃ n, P n x) :
    ∃ n, ∀ x ∈ xs, P n x := by
  induction xs with
  | nil => exact ⟨0, by simp⟩
  | cons x xs ih =>
    obtain ⟨n, hn⟩ := h x List.mem_cons_self
    obtain ⟨m, hm⟩ := ih fun y hy => h y (List.mem_cons_of_mem _ hy)
    refine ⟨max n m, fun y hy => ?_⟩
    obtain rfl | hy := List.mem_cons.mp hy
    · exact hmono _ _ _ (Nat.le_max_left n m) hn
    · exact hmono _ _ _ (Nat.le_max_right n m) (hm y hy)

theorem exists_forall₂ {α β : Type} {R : Nat → α → β → Prop}
    (hmono : ∀ n m x y, n ≤ m → R n x y → R m x y) {xs : List α} {ys : List β}
    (h : List.Forall₂ (fun x y => ∃ n, R n x y) xs ys) : ∃ n, List.Forall₂ (R n) xs ys := by
  obtain ⟨hlength, hzip⟩ := List.forall₂_iff_zip.mp h
  obtain ⟨n, hn⟩ := exists_forall_mem (P := fun n (pair : α × β) => R n pair.1 pair.2)
    (fun n m pair => hmono n m pair.1 pair.2) fun pair (hp : pair ∈ xs.zip ys) => hzip hp
  exact ⟨n, List.forall₂_iff_zip.mpr ⟨hlength, fun hp => hn _ hp⟩⟩

namespace Entries

variable {α β γ : Type}

theorem mem_names {entries : Entries α} {entry : String × α} (h : entry ∈ entries) :
    entry.1 ∈ entries.names :=
  List.mem_map_of_mem h

@[simp] theorem names_map (f : String × α → β) (entries : Entries α) :
    names (entries.map fun entry => (entry.1, f entry)) = names entries := by
  simp [names, Function.comp_def]

theorem mem_names_of_get? {entries : Entries α} {key : String} {content : α}
    (h : get? entries key = some content) : key ∈ entries.names :=
  mem_names (mem_of_get? h)

theorem exists_get?_of_mem_names {entries : Entries α} {key : String} (h : key ∈ entries.names) :
    ∃ content, get? entries key = some content := by
  by_contra hn
  apply get?_eq_none_iff.mp _ h
  exact Option.eq_none_iff_forall_ne_some.mpr fun content hc => hn ⟨content, hc⟩

theorem get?_of_mem {entries : Entries α} (hd : Distinct entries) {entry : String × α}
    (h : entry ∈ entries) : get? entries entry.1 = some entry.2 := by
  induction entries with
  | nil => simp at h
  | cons first rest ih =>
    obtain ⟨hfirst, hrest⟩ := List.nodup_cons.mp hd
    rw [get?_cons]
    obtain rfl | h := List.mem_cons.mp h
    · exact if_pos rfl
    · have hne : first.1 ≠ entry.1 := fun he => hfirst (he ▸ mem_names h)
      rw [if_neg hne]
      exact ih hrest h

theorem insert_of_not_mem {entries : Entries α} {key : String} (h : key ∉ entries.names)
    (content : α) : insert entries key content = entries ++ [(key, content)] := by
  induction entries with
  | nil => rfl
  | cons first rest ih =>
    have hfirst : first.1 ≠ key := fun he => h (he ▸ List.mem_cons_self)
    have hrest : key ∉ names rest := fun hk => h (List.mem_cons_of_mem _ hk)
    rw [insert, if_neg hfirst, ih hrest]
    rfl

theorem mem_of_mem_insert {entries : Entries α} {key : String} {content : α}
    {entry : String × α} (h : entry ∈ insert entries key content) :
    entry ∈ entries ∨ entry = (key, content) := by
  induction entries with
  | nil => exact .inr (List.mem_singleton.mp h)
  | cons first rest ih =>
    rw [insert] at h
    split at h
    · rename_i hname
      obtain rfl | h := List.mem_cons.mp h
      · exact .inr (by rw [← hname])
      · exact .inl (List.mem_cons_of_mem _ h)
    · obtain rfl | h := List.mem_cons.mp h
      · exact .inl List.mem_cons_self
      · exact (ih h).imp_left (List.mem_cons_of_mem _)

theorem mem_of_mem_extend {entries more : Entries α} {entry : String × α}
    (h : entry ∈ extend entries more) : entry ∈ entries ∨ entry ∈ more := by
  induction more generalizing entries with
  | nil => exact .inl h
  | cons first more ih =>
    obtain h | h := ih h
    · exact (mem_of_mem_insert h).imp_right fun he => List.mem_cons.mpr (.inl he)
    · exact .inr (List.mem_cons_of_mem _ h)

theorem mem_names_extend {entries more : Entries α} {name : String} :
    name ∈ (extend entries more).names ↔ name ∈ entries.names ∨ name ∈ more.names := by
  induction more generalizing entries with
  | nil => simp [extend, names]
  | cons first more ih =>
    have hstep : extend entries (first :: more) = extend (insert entries first.1 first.2) more := rfl
    have hinsert : name ∈ (insert entries first.1 first.2).names ↔
        name ∈ entries.names ∨ name = first.1 := by
      rw [names_insert]
      split
      · rename_i hfirst
        exact ⟨.inl, fun h => h.elim id fun he => he ▸ hfirst⟩
      · simp
    have hcons : names (first :: more) = first.1 :: names more := rfl
    rw [hstep, ih, hinsert, hcons, List.mem_cons, or_assoc]

theorem extend_of_distinct {entries more : Entries α} (h : Distinct (entries ++ more)) :
    extend entries more = entries ++ more := by
  induction more generalizing entries with
  | nil => simp [extend]
  | cons first rest ih =>
    have hsplit : entries ++ first :: rest = (entries ++ [first]) ++ rest := by simp
    have hfirst : first.1 ∉ entries.names := by
      rw [Distinct, names, List.map_append, List.map_cons] at h
      intro hmem
      exact (List.nodup_append.mp h).2.2 _ hmem _ List.mem_cons_self rfl
    rw [hsplit] at h ⊢
    rw [← ih h, extend, List.foldl_cons, insert_of_not_mem hfirst]
    rfl

theorem get?_append (entries more : Entries α) (key : String) :
    get? (entries ++ more) key = (get? entries key).or (get? more key) := by
  induction entries with
  | nil => rfl
  | cons first rest ih =>
    rw [List.cons_append, get?_cons, get?_cons, ih]
    split <;> rfl

/-- What is put in later counts before what was put in earlier, and before what was there. -/
theorem get?_extend (entries more : Entries α) (key : String) :
    get? (extend entries more) key = (get? more.reverse key).or (get? entries key) := by
  induction more generalizing entries with
  | nil => rfl
  | cons first more ih =>
    have hstep : extend entries (first :: more) = extend (insert entries first.1 first.2) more := rfl
    rw [hstep, ih, get?_insert, List.reverse_cons, get?_append, Option.or_assoc, get?_cons]
    split <;> rfl

/-- The last entry of a name counts. -/
theorem get?_ofList (entries : List (String × α)) (key : String) :
    get? (ofList entries) key = get? (entries : Entries α).reverse key := by
  rw [ofList, get?_extend, get?_nil, Option.or_none]

/-- A table is built as it stands when no name comes twice. -/
theorem ofList_of_distinct {entries : List (String × α)} (h : Distinct entries) :
    ofList entries = entries := by
  have happend : Distinct (([] : Entries α) ++ entries) := h
  exact extend_of_distinct happend

/-- As many entries on both sides, and each on the left related to the one of its name. -/
def Agrees (R : α → β → Prop) (a : Entries α) (b : Entries β) : Prop :=
  a.length = b.length ∧ ∀ entry ∈ a, ∃ x, get? b entry.1 = some x ∧ R entry.2 x

namespace Agrees

variable {R : α → β → Prop} {a : Entries α} {b : Entries β}

theorem get? (h : Agrees R a b) {key : String} {x : α} (hx : Entries.get? a key = some x) :
    ∃ y, Entries.get? b key = some y ∧ R x y :=
  h.2 _ (mem_of_get? hx)

theorem names_perm (h : Agrees R a b) (hd : Distinct a) : a.names.Perm b.names := by
  have hsub : a.names ⊆ b.names := by
    intro key hk
    obtain ⟨x, hx⟩ := exists_get?_of_mem_names hk
    obtain ⟨y, hy, -⟩ := h.get? hx
    exact mem_names_of_get? hy
  apply (List.subperm_of_subset hd hsub).perm_of_length_le
  simp only [names, List.length_map, h.1, Nat.le_refl]

theorem get?_right (h : Agrees R a b) (hd : Distinct a) {key : String} {y : β}
    (hy : Entries.get? b key = some y) : ∃ x, Entries.get? a key = some x ∧ R x y := by
  have hk : key ∈ a.names := (h.names_perm hd).mem_iff.mpr (mem_names_of_get? hy)
  obtain ⟨x, hx⟩ := exists_get?_of_mem_names hk
  obtain ⟨z, hz, hR⟩ := h.get? hx
  obtain rfl : z = y := by rw [hz] at hy; exact Option.some.inj hy
  exact ⟨x, hx, hR⟩

theorem distinct (h : Agrees R a b) (hd : Distinct a) : Distinct b :=
  (h.names_perm hd).nodup_iff.mp hd

theorem exists_of_mem (h : Agrees R a b) (hd : Distinct a) {entry : String × β} (he : entry ∈ b) :
    ∃ x, (entry.1, x) ∈ a ∧ R x entry.2 := by
  obtain ⟨x, hx, hR⟩ := h.get?_right hd (get?_of_mem (h.distinct hd) he)
  exact ⟨x, mem_of_get? hx, hR⟩

theorem symm {S : β → α → Prop} (h : Agrees R a b) (hd : Distinct a)
    (hS : ∀ entry ∈ a, ∀ y, R entry.2 y → S y entry.2) : Agrees S b a := by
  refine ⟨h.1.symm, fun entry he => ?_⟩
  obtain ⟨x, hx, hR⟩ := h.exists_of_mem hd he
  exact ⟨x, get?_of_mem hd hx, hS _ hx _ hR⟩

theorem insert (h : Agrees R a b) (hd : Distinct a) {key : String} {x : α} {y : β} (hxy : R x y) :
    Agrees R (insert a key x) (insert b key y) := by
  constructor
  · have hlength : (Entries.insert a key x).names.length = (Entries.insert b key y).names.length := by
      have hb := (h.names_perm hd).length_eq
      rw [names_insert, names_insert]
      simp only [← (h.names_perm hd).mem_iff]
      split <;> simp [hb]
    simpa only [names, List.length_map] using hlength
  · intro entry he
    have hget := get?_of_mem (hd.insert key x) he
    rw [get?_insert] at hget ⊢
    split at hget
    · rename_i hkey
      cases hget
      exact ⟨y, if_pos hkey, hxy⟩
    · rename_i hkey
      rw [if_neg hkey]
      exact h.get? hget

theorem extend {R : α → α → Prop} {a b : Entries α} (h : Agrees R a b) (hd : Distinct a)
    {more : Entries α} (hR : ∀ entry ∈ more, R entry.2 entry.2) :
    Agrees R (extend a more) (extend b more) := by
  induction more generalizing a b with
  | nil => exact h
  | cons first more ih =>
    obtain ⟨hfirst, hrest⟩ := List.forall_mem_cons.mp hR
    exact ih (h.insert hd hfirst) (hd.insert first.1 first.2) hrest

theorem trans {S : β → γ → Prop} {T : α → γ → Prop} {c : Entries γ} (h : Agrees R a b)
    (h' : Agrees S b c) (hT : ∀ entry ∈ a, ∀ y z, R entry.2 y → S y z → T entry.2 z) :
    Agrees T a c := by
  refine ⟨h.1.trans h'.1, fun entry he => ?_⟩
  obtain ⟨y, hy, hR⟩ := h.2 entry he
  obtain ⟨z, hz, hS⟩ := h'.get? hy
  exact ⟨z, hz, hT entry he y z hR hS⟩

end Agrees

theorem agrees_self {R : α → α → Prop} {a : Entries α} (hd : Distinct a)
    (hR : ∀ entry ∈ a, R entry.2 entry.2) : Agrees R a a :=
  ⟨rfl, fun entry he => ⟨entry.2, get?_of_mem hd he, hR entry he⟩⟩

end Entries

end PayloadContracts
