import PayloadContracts.Proofs.Loosening

/-!
Checks do not tell equal values apart. Main statement: `Pattern.check_of_same`.
-/

namespace PayloadContracts

theorem Entries.get?_filter {α : Type} (keep : String → Bool) (entries : Entries α) (key : String) :
    Entries.get? (entries.filter fun entry => keep entry.1) key =
      if keep key then Entries.get? entries key else none := by
  induction entries with
  | nil => simp
  | cons entry rest ih =>
    obtain ⟨name, content⟩ := entry
    rw [List.filter_cons]
    by_cases hname : name = key
    · subst hname
      by_cases hk : keep name = true
      · simp [hk, Entries.get?_cons]
      · simp [hk, ih]
    · by_cases hk : keep name = true
      · simp [hk, Entries.get?_cons, hname, ih]
      · simp [hk, Entries.get?_cons, hname, ih]

theorem get?_contentAttributes {α : Type} (attributes : Entries α) (name : String) :
    Entries.get? (contentAttributes attributes) name =
      if !isNamespace name then Entries.get? attributes name else none :=
  Entries.get?_filter (fun name => !isNamespace name) attributes name

theorem mem_names_iff_get? {α : Type} {entries : Entries α} {key : String} :
    key ∈ entries.names ↔ ∃ content, Entries.get? entries key = some content :=
  ⟨Entries.exists_get?_of_mem_names, fun ⟨_, h⟩ => Entries.mem_names_of_get? h⟩

theorem keyMismatch?_congr {declared declared' present present' : List String} {policy : KeyPolicy}
    {mark : String} (hdeclared : ∀ name, name ∈ declared ↔ name ∈ declared')
    (hpresent : ∀ name, name ∈ present ↔ name ∈ present')
    (hk : keyMismatch? declared present policy mark = none) :
    keyMismatch? declared' present' policy mark = none := by
  rw [keyMismatch?_eq_none_iff] at hk ⊢
  simp only [← hdeclared, ← hpresent]
  exact hk

namespace Value

variable {v w : Value}

theorem isLayout_of_same (h : w.same v = true) : w.isLayout = v.isLayout := by
  cases w <;> cases v <;> simp_all [same, isLayout]

theorem accepts_of_same (h : w.same v = true) (slot : Slot (Value → Verdict)) :
    slot.accepts w = slot.accepts v := by
  unfold Slot.accepts
  cases slot.name <;> cases w <;> cases v <;> simp_all [same]

theorem admits_of_same {kind : Scalar} (h : w.same v = true) (hw : kind.admits w = true) :
    kind.admits v = true := by
  cases kind <;> cases w <;> cases v <;> simp_all [same, Scalar.admits, isNull, isLayout]

/-- Equal, where the first has each name once in each table. -/
def Equals (w v : Value) : Prop := w.Tidy ∧ w.same v = true

theorem forall₂_equals {ws vs : List Value} (ht : ∀ w ∈ ws, w.Tidy)
    (h : List.Forall₂ (fun w v => w.same v = true) ws vs) : List.Forall₂ Equals ws vs :=
  (List.forall₂_and_left ws vs).mpr ⟨ht, h⟩

theorem forall₂_filter_layout {ws vs : List Value} (h : List.Forall₂ Equals ws vs) :
    List.Forall₂ Equals (ws.filter fun w => !w.isLayout) (vs.filter fun v => !v.isLayout) := by
  induction h with
  | nil => exact .nil
  | cons hwv _ ih =>
    rw [List.filter_cons, List.filter_cons, isLayout_of_same hwv.2]
    split
    · exact .cons hwv ih
    · exact ih

end Value

namespace Pattern

/-- A value is accepted with each value equal to it. -/
theorem check_of_same {p : Pattern} {s : Scope} {w v : Value} (ht : w.Tidy)
    (hs : w.same v = true) (h : p.check w s = .accepted) : p.check v s = .accepted := by
  induction p, s using scopeInduction generalizing w v with
  | literal e s =>
    exact check_literal_eq_accepted.mpr (Value.same_trans (check_literal_eq_accepted.mp h) hs)
  | scalar kind s =>
    exact check_scalar_eq_accepted.mpr (Value.admits_of_same hs (check_scalar_eq_accepted.mp h))
  | record fields isOpen s ih =>
    obtain ⟨parts, rfl, hkeys, hparts⟩ := check_record_eq_accepted.mp h
    obtain ⟨others, rfl, hagree⟩ := Value.same_object.mp hs
    obtain ⟨hd, htidy⟩ := Value.tidy_object.mp ht
    refine check_record_eq_accepted.mpr ⟨others, rfl, ?_, fun field hf part hpart => ?_⟩
    · exact keyMismatch?_congr (fun _ => Iff.rfl) (fun name => (hagree.names_perm hd).mem_iff) hkeys
    · obtain ⟨x, hx, hsame⟩ := hagree.get?_right hd hpart
      exact ih field hf (htidy _ (Entries.mem_of_get? hx)) hsame (hparts field hf x hx)
  | element shape s ih =>
    obtain ⟨n, full, inner, rfl, hn, hr, ⟨hkeys, htexts⟩, places, hplaces, hslots⟩ :=
      check_element_eq_accepted.mp h
    obtain ⟨m, rfl, hname, -, hagree, hchildren⟩ := Value.same_node.mp hs
    obtain ⟨hd, htidy⟩ := Value.tidy_node.mp ht
    obtain ⟨-, hparts⟩ := ih full inner hr
    have hget : ∀ name, Entries.get? (contentAttributes n.attributes) name =
        Entries.get? (contentAttributes m.attributes) name := by
      intro name
      rw [get?_contentAttributes, get?_contentAttributes]
      cases hm : Entries.get? m.attributes name with
      | some text =>
        obtain ⟨text', hx, rfl⟩ := hagree.get?_right hd hm
        rw [hx]
      | none =>
        rw [Entries.get?_eq_none_iff, ← (hagree.names_perm hd).mem_iff,
          ← Entries.get?_eq_none_iff] at hm
        rw [hm]
    refine check_element_eq_accepted.mpr ⟨m, full, inner, rfl, hname ▸ hn, hr, ⟨?_, ?_⟩, places,
      hplaces, ?_⟩
    · refine keyMismatch?_congr (fun _ => Iff.rfl) (fun name => ?_) hkeys
      rw [mem_names_iff_get?, mem_names_iff_get?, hget]
    · intro entry he text htext
      exact htexts entry he text (hget _ ▸ htext)
    · apply Slot.Admits.checkSlots (R := Value.Equals) (fun _ _ hwv => Value.accepts_of_same hwv.2)
        ⟨Value.tidy_text "", by simp [Value.same]⟩ _
        (Value.forall₂_filter_layout (Value.forall₂_equals htidy hchildren)) hslots
      rw [List.forall₂_map_left_iff, List.forall₂_map_right_iff, List.forall₂_same]
      intro place hp
      obtain ⟨child, hc, hslot⟩ := exists_of_forall₂_right hplaces hp
      refine Scope.placeCheck_admits rfl rfl (fun _ _ hwv => .inr hwv.2) (fun w v hwv hw => ?_)
        (fun _ htext => htext)
      rw [Scope.content_slot hslot] at hw ⊢
      exact hparts child hc hwv.1 hwv.2 hw
  | union ps s ih =>
    obtain ⟨q, hq, hc⟩ := check_union_eq_accepted.mp h
    exact check_union_eq_accepted.mpr ⟨q, hq, ih q hq ht hs hc⟩
  | reference token s ih =>
    obtain ⟨q, inner, hf, hc⟩ := check_reference_eq_accepted.mp h
    exact check_reference_eq_accepted.mpr ⟨q, inner, hf, ih q inner hf ht hs hc⟩
  | list item s ih =>
    obtain ⟨items, rfl, hitems⟩ := check_list_eq_accepted.mp h
    obtain ⟨others, rfl, hall⟩ := Value.same_list.mp hs
    refine check_list_eq_accepted.mpr ⟨others, rfl, fun v hv => ?_⟩
    obtain ⟨w, hw, hsame⟩ := exists_of_forall₂_right hall hv
    exact ih (Value.tidy_list.mp ht w hw) hsame (hitems w hw)

end Pattern

end PayloadContracts
