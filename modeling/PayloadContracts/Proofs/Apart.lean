import PayloadContracts.Proofs.Segments

/-!
Children of which each place has one at most, with the places of one name kept apart by places that
always have a child. Main statement: `checkSlots_of_chunks`.
-/

namespace PayloadContracts

section

variable {α : Type} {kept : Slot α → Prop} {check : Slot α → Value → Verdict} {place : Slot α}
  {places : List (Slot α)} {chunks : List (List Value)} {name : Option String} {v : Value}

/-- Between a place that may have more or fewer children than one and a later place of its name there
is one that is kept. -/
def KeptApart (kept : Slot α → Prop) (places : List (Slot α)) : Prop :=
  ∀ front a between b rest, places = front ++ a :: (between ++ b :: rest) → a.name = b.name →
    a.occurs = .required ∨ ∃ place ∈ between, kept place

/-- Up to the first kept place none has the name. -/
def Shielded (kept : Slot α → Prop) (name : Option String) (places : List (Slot α)) : Prop :=
  ∀ between b rest, places = between ++ b :: rest → b.name = name → ∃ place ∈ between, kept place

theorem shielded_cons :
    Shielded kept name (place :: places) ↔
      place.name ≠ name ∧ (kept place ∨ Shielded kept name places) := by
  constructor
  · intro h
    refine ⟨fun he => ?_, or_iff_not_imp_left.mpr fun hk between b rest he hb => ?_⟩
    · obtain ⟨_, hp, -⟩ := h [] place places rfl he
      cases hp
    · obtain ⟨next, hn, hkept⟩ := h (place :: between) b rest (by rw [he]; rfl) hb
      obtain rfl | hn := List.mem_cons.mp hn
      · exact absurd hkept hk
      · exact ⟨next, hn, hkept⟩
  · rintro ⟨hne, h⟩ between b rest he hb
    cases between with
    | nil =>
      obtain ⟨rfl, -⟩ := List.cons.inj he
      exact absurd hb hne
    | cons first between =>
      obtain ⟨rfl, hrest⟩ := List.cons.inj he
      obtain hk | h := h
      · exact ⟨place, List.mem_cons_self, hk⟩
      · obtain ⟨next, hn, hkept⟩ := h between b rest hrest hb
        exact ⟨next, List.mem_cons_of_mem _ hn, hkept⟩

theorem keptApart_cons :
    KeptApart kept (place :: places) ↔
      (place.occurs = .required ∨ Shielded kept place.name places) ∧ KeptApart kept places := by
  constructor
  · intro h
    refine ⟨or_iff_not_imp_left.mpr fun ho between b rest he hb => ?_, fun front a between b rest he => ?_⟩
    · exact (h [] place between b rest (by rw [he]; rfl) hb.symm).resolve_left ho
    · exact h (place :: front) a between b rest (by rw [he]; rfl)
  · rintro ⟨hplace, h⟩ front a between b rest he hname
    cases front with
    | nil =>
      obtain ⟨rfl, hrest⟩ := List.cons.inj he
      exact hplace.imp_right fun hs => hs between b rest hrest hname.symm
    | cons first front => exact h front a between b rest (List.cons.inj he).2 hname

theorem Shielded.head? (h : Shielded kept name places) : ∀ next ∈ places.head?, next.name ≠ name := by
  intro next hn
  cases places with
  | nil => cases hn
  | cons first places =>
    cases hn
    exact (shielded_cons.mp h).1

theorem keptApart_of_nodup (h : (places.map Slot.name).Nodup) : KeptApart kept places := by
  intro front a between b rest he hb
  have hs : [a, b].Sublist places := by
    rw [he]
    exact .trans (.cons_cons a (List.singleton_sublist.mpr (by simp))) (List.sublist_append_right _ _)
  have hd := h.sublist (hs.map Slot.name)
  simp [hb] at hd

/-- What a place has: nothing if it is neither required nor kept, or one child. -/
inductive Chunk (kept : Slot α → Prop) (ok : Slot α → Value → Prop) (place : Slot α) :
    List Value → Prop
  | absent (ho : place.occurs ≠ .required) (hk : ¬kept place) : Chunk kept ok place []
  | present {v : Value} (h : ok place v) : Chunk kept ok place [v]

variable {ok : Slot α → Value → Prop}

theorem Chunk.imp {ok' : Slot α → Value → Prop} {chunk : List Value} (h : Chunk kept ok place chunk)
    (hok : ∀ v, ok place v → ok' place v) : Chunk kept ok' place chunk := by
  cases h with
  | absent ho hk => exact .absent ho hk
  | present hv => exact .present (hok _ hv)

theorem Chunk.each {chunk : List Value} (h : Chunk kept ok place chunk) :
    (∀ v ∈ chunk, ok place v) ∧ place.occurs.Allows chunk.length := by
  cases h with
  | absent ho => exact ⟨List.forall_mem_nil _, Occurs.allows_zero ho⟩
  | present hv => exact ⟨List.forall_mem_singleton.mpr hv, Occurs.allows_one _⟩

/-- The next child does not have a name that later places are shielded from. -/
theorem Shielded.takeWhile_flatten (h : Shielded kept place.name places)
    (hchunks : List.Forall₂ (Chunk kept ok) places chunks)
    (haccepts : ∀ next ∈ places, ∀ v, ok next v → next.accepts v = true) :
    chunks.flatten.takeWhile place.accepts = [] := by
  induction hchunks with
  | nil => rfl
  | @cons next chunk places chunks hchunk _ ih =>
    cases hchunk with
    | absent _ hk =>
      exact ih ((shielded_cons.mp h).2.resolve_left hk) fun next hn =>
        haccepts next (List.mem_cons_of_mem _ hn)
    | present hv =>
      refine List.takeWhile_cons_of_neg fun hp => (shielded_cons.mp h).1 ?_
      exact Slot.name_eq_of_accepts (haccepts next List.mem_cons_self _ hv) hp

/-- The check from left to right finds the children that each of the places has. -/
theorem checkSlots_of_chunks
    (h : List.Forall₂ (Chunk kept fun place v => check place v = .accepted) places chunks)
    (happart : KeptApart kept places)
    (haccepts : ∀ place ∈ places, ∀ v, check place v = .accepted → place.accepts v = true) :
    checkSlots (places.map (Slot.fill check)) chunks.flatten = .accepted := by
  induction h with
  | nil => rfl
  | @cons place chunk places chunks hchunk hchunks ih =>
    have hlater : ∀ next ∈ places, ∀ v, check next v = .accepted → next.accepts v = true :=
      fun next hn => haccepts next (List.mem_cons_of_mem _ hn)
    obtain ⟨hplace, happart⟩ := keptApart_cons.mp happart
    have hrest := ih happart hlater
    by_cases ho : (place.fill check).occurs = .required
    · cases hchunk with
      | absent hne => exact absurd ho hne
      | present hv => exact (checkSlots_required_cons ho).mpr ⟨hv, hrest⟩
    · have ho' : place.occurs ≠ .required := ho
      have hshield := hplace.resolve_left ho'
      obtain ⟨heach, hcount⟩ := hchunk.each
      have hrun : ((chunk :: chunks).flatten.takeWhile (place.fill check).accepts) = chunk := by
        rw [List.flatten_cons, List.takeWhile_append_of_pos, Slot.fill_accepts,
          hshield.takeWhile_flatten hchunks hlater, List.append_nil]
        exact fun v hv => haccepts place List.mem_cons_self v (heach v hv)
      refine (checkSlots_run ho).mpr ?_
      rw [hrun, Slot.share_fill, Slot.share_of_allows ho' hshield.head? hcount, List.flatten_cons,
        List.take_left, List.drop_left]
      exact ⟨checkAll_eq_accepted.mpr heach, hrest⟩

end

end PayloadContracts
