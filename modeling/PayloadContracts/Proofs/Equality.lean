import PayloadContracts.Value.Same
import PayloadContracts.Proofs.Tables

/-!
Equality of values part by part. It is transitive, and reflexive on values whose tables have each
name once.
-/

namespace PayloadContracts

theorem agree_map_iff {α β : Type} {f : α → β → Bool} {xs : List α} {ys : List β} :
    agree (xs.map f) ys = true ↔ List.Forall₂ (fun x y => f x y = true) xs ys := by
  induction xs generalizing ys with
  | nil => cases ys <;> simp [agree]
  | cons x xs ih => cases ys <;> simp [agree, ih]

theorem Entries.agree_map_iff {α β : Type} {f : String × α → β → Bool} {a : Entries α}
    {b : Entries β} :
    Entries.agree (a.map fun entry => (entry.1, f entry)) b = true ↔
      a.length = b.length ∧ ∀ entry ∈ a, ∃ x, Entries.get? b entry.1 = some x ∧ f entry x = true := by
  simp only [Entries.agree, List.length_map, List.all_map, Bool.and_eq_true, beq_iff_eq,
    List.all_eq_true, Function.comp_apply]
  refine and_congr_right fun _ => forall₂_congr fun entry _ => ?_
  cases Entries.get? b entry.1 <;> simp

namespace Value

/-- Each table inside the value has each name once, as tables of the reader do. -/
def Tidy : Value → Prop
  | object fields => Entries.Distinct fields ∧ ∀ field ∈ fields, Tidy field.2
  | list items => ∀ item ∈ items, Tidy item
  | node n => Entries.Distinct n.attributes ∧ ∀ child ∈ n.children, Tidy child
  | _ => True
termination_by v => sizeOf v
decreasing_by
  · rename_i h; have := Entries.sizeOf_snd_lt h; simp; omega
  · rename_i h; have := List.sizeOf_lt_of_mem h; simp; omega
  · rename_i h; have := List.sizeOf_lt_of_mem h; have := n.sizeOf_children_lt; simp; omega

theorem tidy_object {fields : Entries Value} :
    (object fields).Tidy ↔ Entries.Distinct fields ∧ ∀ field ∈ fields, field.2.Tidy := by
  rw [Tidy]

theorem tidy_list {items : List Value} : (list items).Tidy ↔ ∀ item ∈ items, item.Tidy := by
  rw [Tidy]

theorem tidy_node {n : Node Value} :
    (node n).Tidy ↔ Entries.Distinct n.attributes ∧ ∀ child ∈ n.children, child.Tidy := by
  rw [Tidy]

@[simp] theorem tidy_text (s : String) : (text s).Tidy := by
  rw [Tidy]
  · trivial
  all_goals simp

/-- Values have no parts, or fields, or items, or children. -/
@[elab_as_elim]
theorem partsInduction {motive : Value → Prop}
    (null : motive null) (boolean : ∀ b, motive (boolean b)) (number : ∀ x, motive (number x))
    (text : ∀ s, motive (text s))
    (object : ∀ fields, (∀ field ∈ fields, motive field.2) → motive (object fields))
    (list : ∀ items, (∀ item ∈ items, motive item) → motive (list items))
    (node : ∀ n, (∀ child ∈ n.children, motive child) → motive (node n)) (v : Value) : motive v :=
  match v with
  | .null => null
  | .boolean b => boolean b
  | .number x => number x
  | .text s => text s
  | .object fields =>
    object fields fun field _ => partsInduction null boolean number text object list node field.2
  | .list items =>
    list items fun item _ => partsInduction null boolean number text object list node item
  | .node n =>
    node n fun child _ => partsInduction null boolean number text object list node child
termination_by sizeOf v
decreasing_by
  · rename_i h; have := Entries.sizeOf_snd_lt h; simp; omega
  · rename_i h; have := List.sizeOf_lt_of_mem h; simp; omega
  · rename_i h; have := List.sizeOf_lt_of_mem h; have := n.sizeOf_children_lt; simp; omega

theorem same_object {fields : Entries Value} {v : Value} :
    (object fields).same v = true ↔
      ∃ parts, v = object parts ∧ Entries.Agrees (fun x y => x.same y = true) fields parts := by
  cases v <;> simp [same, Entries.agree_map_iff, Entries.Agrees]

theorem same_list {items : List Value} {v : Value} :
    (list items).same v = true ↔
      ∃ others, v = list others ∧ List.Forall₂ (fun x y => x.same y = true) items others := by
  cases v <;> simp [same, agree_map_iff]

theorem sameTexts_iff {a b : Entries String} :
    Entries.sameTexts a b = true ↔ Entries.Agrees (· = ·) a b := by
  rw [Entries.sameTexts, Entries.agree_map_iff (f := fun entry text => entry.2 == text)]
  simp only [beq_iff_eq, Entries.Agrees]

theorem same_node {n : Node Value} {v : Value} :
    (node n).same v = true ↔
      ∃ m, v = node m ∧ n.name = m.name ∧ n.qualifier = m.qualifier ∧
        Entries.Agrees (· = ·) n.attributes m.attributes ∧
        List.Forall₂ (fun x y => x.same y = true) n.children m.children := by
  cases v <;> simp [same, agree_map_iff, sameTexts_iff, and_assoc]

theorem same_refl {v : Value} (h : v.Tidy) : v.same v = true := by
  induction v using partsInduction with
  | null => rw [same]
  | boolean b => simp [same]
  | number x => simp [same, Number.same_refl]
  | text s => simp [same]
  | object fields ih =>
    obtain ⟨hd, hfields⟩ := tidy_object.mp h
    exact same_object.mpr
      ⟨fields, rfl, Entries.agrees_self hd fun field hf => ih field hf (hfields field hf)⟩
  | list items ih =>
    have hitems := tidy_list.mp h
    exact same_list.mpr
      ⟨items, rfl, List.forall₂_same.mpr fun item hi => ih item hi (hitems item hi)⟩
  | node n ih =>
    obtain ⟨hd, hchildren⟩ := tidy_node.mp h
    exact same_node.mpr ⟨n, rfl, rfl, rfl, Entries.agrees_self hd fun _ _ => rfl,
      List.forall₂_same.mpr fun child hc => ih child hc (hchildren child hc)⟩

theorem forall₂_same_trans {us vs ws : List Value}
    (ih : ∀ u ∈ us, ∀ v w, u.same v = true → v.same w = true → u.same w = true)
    (h : List.Forall₂ (fun x y => x.same y = true) us vs)
    (h' : List.Forall₂ (fun x y => x.same y = true) vs ws) :
    List.Forall₂ (fun x y => x.same y = true) us ws := by
  induction h generalizing ws with
  | nil => exact h'
  | cons huv _ ihs =>
    cases h' with
    | cons hvw hrest =>
      refine List.Forall₂.cons (ih _ List.mem_cons_self _ _ huv hvw) ?_
      exact ihs (fun u hu => ih u (List.mem_cons_of_mem _ hu)) hrest

theorem same_trans {u v w : Value} (h : u.same v = true) (h' : v.same w = true) :
    u.same w = true := by
  induction u using partsInduction generalizing v w with
  | null => cases v <;> simp [same] at h; exact h'
  | boolean b => cases v <;> simp [same] at h; exact h ▸ h'
  | number x =>
    cases v <;> simp only [same, Bool.false_eq_true] at h
    cases w <;> simp only [same, Bool.false_eq_true] at h'
    simpa only [same] using Number.same_trans h h'
  | text s => cases v <;> simp [same] at h; exact h ▸ h'
  | object fields ih =>
    obtain ⟨parts, rfl, hp⟩ := same_object.mp h
    obtain ⟨others, rfl, ho⟩ := same_object.mp h'
    exact same_object.mpr
      ⟨others, rfl, hp.trans ho fun field hf _ _ hxy hyz => ih field hf hxy hyz⟩
  | list items ih =>
    obtain ⟨parts, rfl, hp⟩ := same_list.mp h
    obtain ⟨others, rfl, ho⟩ := same_list.mp h'
    exact same_list.mpr
      ⟨others, rfl, forall₂_same_trans (fun item hi _ _ hxy hyz => ih item hi hxy hyz) hp ho⟩
  | node n ih =>
    obtain ⟨m, rfl, hname, hq, ha, hc⟩ := same_node.mp h
    obtain ⟨k, rfl, hname', hq', ha', hc'⟩ := same_node.mp h'
    refine same_node.mpr ⟨k, rfl, hname.trans hname', hq.trans hq', ?_, ?_⟩
    · exact ha.trans ha' fun _ _ _ _ hxy hyz => hxy.trans hyz
    · exact forall₂_same_trans (fun child hi _ _ hxy hyz => ih child hi hxy hyz) hc hc'

/-- What equals a value with each name once in each table has each name once, too. -/
theorem Tidy.of_same {v w : Value} (ht : v.Tidy) (h : v.same w = true) : w.Tidy := by
  induction v using partsInduction generalizing w with
  | object fields ih =>
    obtain ⟨parts, rfl, hp⟩ := same_object.mp h
    obtain ⟨hd, hfields⟩ := tidy_object.mp ht
    refine tidy_object.mpr ⟨hp.distinct hd, fun part hpart => ?_⟩
    obtain ⟨x, hx, hsame⟩ := hp.exists_of_mem hd hpart
    exact ih _ hx (hfields _ hx) hsame
  | list items ih =>
    obtain ⟨others, rfl, ho⟩ := same_list.mp h
    refine tidy_list.mpr fun other hother => ?_
    obtain ⟨item, hi, hsame⟩ := exists_of_forall₂_right ho hother
    exact ih item hi (tidy_list.mp ht item hi) hsame
  | node n ih =>
    obtain ⟨m, rfl, -, -, ha, hc⟩ := same_node.mp h
    obtain ⟨hd, hchildren⟩ := tidy_node.mp ht
    refine tidy_node.mpr ⟨ha.distinct hd, fun child hchild => ?_⟩
    obtain ⟨x, hx, hsame⟩ := exists_of_forall₂_right hc hchild
    exact ih x hx (hchildren x hx) hsame
  | _ => cases w <;> simp_all [same, Tidy]

theorem same_symm {v w : Value} (ht : v.Tidy) (h : v.same w = true) : w.same v = true := by
  induction v using partsInduction generalizing w with
  | object fields ih =>
    obtain ⟨parts, rfl, hp⟩ := same_object.mp h
    obtain ⟨hd, hfields⟩ := tidy_object.mp ht
    exact same_object.mpr ⟨fields, rfl, hp.symm hd fun field hf _ => ih field hf (hfields field hf)⟩
  | list items ih =>
    obtain ⟨others, rfl, ho⟩ := same_list.mp h
    exact same_list.mpr
      ⟨items, rfl, forall₂_symm ho fun item hi _ => ih item hi (tidy_list.mp ht item hi)⟩
  | node n ih =>
    obtain ⟨m, rfl, hname, hq, ha, hc⟩ := same_node.mp h
    obtain ⟨hd, hchildren⟩ := tidy_node.mp ht
    exact same_node.mpr ⟨n, rfl, hname.symm, hq.symm, ha.symm hd fun _ _ _ => Eq.symm,
      forall₂_symm hc fun child hi _ => ih child hi (hchildren child hi)⟩
  | number x => cases w <;> simp_all [same, Number.same_comm]
  | _ => cases w <;> simp_all [same]

end Value

end PayloadContracts
