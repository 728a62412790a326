import PayloadContracts.Value.Text
import PayloadContracts.Proofs.Equality
import PayloadContracts.Proofs.Trimming

/-!
Markup tells what it was written from. Main statement: `Node.markup_eq_iff`.
-/

namespace PayloadContracts

namespace Text

/-- What a name is made of: neither white space nor anything that ends a name or a value in markup. -/
def isNameChar (c : Char) : Bool := !isBlank c && c ∉ ['<', '>', '&', '"', '/', '=']

structure IsName (s : String) : Prop where
  nonempty : s ≠ ""
  plain : ∀ c ∈ s.toList, isNameChar c = true

instance (s : String) : Decidable (IsName s) :=
  decidable_of_iff (s ≠ "" ∧ s.toList.all isNameChar = true)
    ⟨fun h => ⟨h.1, List.all_eq_true.mp h.2⟩, fun h => ⟨h.nonempty, List.all_eq_true.mpr h.plain⟩⟩

/-- Every occurrence of the character replaced. -/
def replaceChar (mark : Char) (text : String) (cs : List Char) : List Char :=
  cs.flatMap fun c => if c = mark then text.toList else [c]

end Text

open Text

namespace Value

/-- Two texts are not side by side. -/
def Apart (v w : Value) : Prop := ∀ s t, v = text s → w ≠ text t

/-- Text that is not empty, and elements with names and such content, no two texts side by side. -/
inductive IsContent : Value → Prop
  | text {s : String} (nonempty : s ≠ "") : IsContent (text s)
  | node {n : Node Value} (name : IsName n.name) (qualifier : ∀ q ∈ n.qualifier, IsName q)
      (attributes : ∀ entry ∈ n.attributes, IsName entry.1)
      (children : ∀ child ∈ n.children, IsContent child)
      (apart : n.children.IsChain Apart) : IsContent (node n)

/-- The same text, or elements with one real name, the same attributes in order and the same content. -/
inductive SameContent : Value → Value → Prop
  | text (s : String) : SameContent (text s) (text s)
  | node {m n : Node Value} (realName : m.realName = n.realName) (attributes : m.attributes = n.attributes)
      (children : List.Forall₂ SameContent m.children n.children) : SameContent (node m) (node n)

end Value

variable {c d : Char} {as bs cs ds xs ys : List Char} {s t : String} {m n : Node Value} {vs ws : List Value}

/-- The four characters are replaced one after the other, the ampersand first. -/
theorem toList_escapedMarkup (s : String) :
    (escapedMarkup s).toList =
      replaceChar '"' "&quot;" (replaceChar '>' "&gt;"
        (replaceChar '<' "&lt;" (replaceChar '&' "&amp;" s.toList))) := by
  simp only [escapedMarkup, String.toList_ofList, replaceChar, List.flatMap_assoc]
  refine List.flatMap_congr fun c _ => ?_
  unfold escapeMarkup
  split_ifs with hamp hlt hgt hquot
  · rfl
  · rw [hlt]; rfl
  · rw [hgt]; rfl
  · rw [hquot]; rfl
  · simp only [List.flatMap_cons, List.flatMap_nil, List.append_nil, if_neg hlt, if_neg hgt, if_neg hquot]

/-- The character that an entity stands for, without the ampersand, and what follows it. -/
def readEntity? : List Char → Option (Char × List Char)
  | 'a' :: 'm' :: 'p' :: ';' :: rest => some ('&', rest)
  | 'l' :: 't' :: ';' :: rest => some ('<', rest)
  | 'g' :: 't' :: ';' :: rest => some ('>', rest)
  | 'q' :: 'u' :: 'o' :: 't' :: ';' :: rest => some ('"', rest)
  | _ => none

/-- The first character of an escaped text, and what follows it. -/
def unescape? : List Char → Option (Char × List Char)
  | [] => none
  | c :: rest => if c = '&' then readEntity? rest else some (c, rest)

theorem unescape?_escapeMarkup (c : Char) (rest : List Char) :
    unescape? (escapeMarkup c ++ rest) = some (c, rest) := by
  unfold escapeMarkup
  split_ifs with hamp hlt hgt hquot
  · rw [hamp]; rfl
  · rw [hlt]; rfl
  · rw [hgt]; rfl
  · rw [hquot]; rfl
  · exact if_neg hamp

theorem flatMap_escapeMarkup_inj (h : cs.flatMap escapeMarkup = ds.flatMap escapeMarkup) : cs = ds := by
  induction cs generalizing ds with
  | nil =>
    cases ds with
    | nil => rfl
    | cons d ds =>
      have hread : none = some _ := (congrArg unescape? h).trans (unescape?_escapeMarkup d _)
      cases hread
  | cons c cs ih =>
    have hread := (unescape?_escapeMarkup c _).symm.trans (congrArg unescape? h)
    cases ds with
    | nil => cases hread
    | cons d ds =>
      obtain ⟨rfl, hrest⟩ := Prod.mk.inj (Option.some.inj (hread.trans (unescape?_escapeMarkup d _)))
      rw [ih hrest]

/-- What escaped text is made of: no angle bracket opens in it, and no quotation ends. -/
def isTextChar (c : Char) : Bool := c ≠ '<' && c ≠ '"'

theorem isTextChar_of_mem_escapeMarkup (hc : c ∈ escapeMarkup d) : isTextChar c = true := by
  have hall : (escapeMarkup d).all isTextChar = true := by
    unfold escapeMarkup
    split_ifs with hamp hlt hgt hquot
    · rfl
    · rfl
    · rfl
    · rfl
    · simp [isTextChar, hlt, hquot]
  exact List.all_eq_true.mp hall c hc

theorem forall_mem_head?_cons {P : Char → Prop} (h : P c) : ∀ d ∈ (c :: xs).head?, P d := by
  rintro _ ⟨⟩
  exact h

/-- Two texts of one kind of characters are told from what follows them and begins with another. -/
theorem append_inj_of_head {p : Char → Bool} (has : ∀ c ∈ as, p c = true) (hbs : ∀ c ∈ bs, p c = true)
    (hxs : ∀ c ∈ xs.head?, p c = false) (hys : ∀ c ∈ ys.head?, p c = false) (h : as ++ xs = bs ++ ys) :
    as = bs ∧ xs = ys := by
  constructor
  · rw [← takeWhile_append_of_head has hxs, h, takeWhile_append_of_head hbs hys]
  · rw [← dropWhile_append_of_head has hxs, h, dropWhile_append_of_head hbs hys]

theorem toList_intercalate_empty (texts : List String) :
    ("".intercalate texts).toList = texts.flatMap String.toList := by
  rw [String.toList_intercalate]
  induction texts with
  | nil => rfl
  | cons text rest ih =>
    cases rest with
    | nil => simp
    | cons next rest =>
      rw [List.map_cons, List.map_cons, List.intercalate_cons_cons, ← List.map_cons, ih]
      simp

/-- An attribute as it stands in a tag. -/
def attributeChars (entry : String × String) : List Char :=
  ' ' :: (entry.1.toList ++ '=' :: '"' :: (entry.2.toList.flatMap escapeMarkup ++ ['"']))

/-- Children as they stand between the tags of an element. -/
def Value.contents (children : List Value) : List Char := children.flatMap fun child => child.content.toList

/-- What follows the attributes of an element. -/
def Node.closing (n : Node Value) : List Char :=
  if n.children = [] then ['/', '>']
  else '>' :: (Value.contents n.children ++ '<' :: '/' :: (n.realName.toList ++ ['>']))

theorem Node.toList_markup (n : Node Value) :
    n.markup.toList =
      '<' :: (n.realName.toList ++ (n.attributes.flatMap attributeChars ++ n.closing)) := by
  have hattributes : ("".intercalate (n.attributes.map fun entry =>
      " " ++ entry.1 ++ "=\"" ++ escapedMarkup entry.2 ++ "\"")).toList =
        n.attributes.flatMap attributeChars := by
    rw [toList_intercalate_empty, List.flatMap_map]
    refine List.flatMap_congr fun entry _ => ?_
    simp [attributeChars, escapedMarkup]
  have hcontents : ("".intercalate (n.children.map fun child => child.content)).toList =
      Value.contents n.children := by
    rw [toList_intercalate_empty, List.flatMap_map, Value.contents]
  rw [Node.markup, Node.closing]
  simp only [List.isEmpty_iff]
  split
  · simp only [String.toList_append, hattributes, List.append_assoc]
    rfl
  · simp only [String.toList_append, hattributes, hcontents, List.append_assoc]
    rfl

theorem escaped_append_inj
    (hxs : ∀ c ∈ xs.head?, isTextChar c = false) (hys : ∀ c ∈ ys.head?, isTextChar c = false)
    (h : cs.flatMap escapeMarkup ++ xs = ds.flatMap escapeMarkup ++ ys) : cs = ds ∧ xs = ys := by
  have htext : ∀ cs : List Char, ∀ c ∈ cs.flatMap escapeMarkup, isTextChar c = true := by
    intro cs c hc
    obtain ⟨d, -, hc⟩ := List.mem_flatMap.mp hc
    exact isTextChar_of_mem_escapeMarkup hc
  obtain ⟨hcs, hrest⟩ := append_inj_of_head (htext cs) (htext ds) hxs hys h
  exact ⟨flatMap_escapeMarkup_inj hcs, hrest⟩

theorem name_append_inj (hs : IsName s) (ht : IsName t)
    (hxs : ∀ c ∈ xs.head?, isNameChar c = false) (hys : ∀ c ∈ ys.head?, isNameChar c = false)
    (h : s.toList ++ xs = t.toList ++ ys) : s = t ∧ xs = ys := by
  obtain ⟨hname, hrest⟩ := append_inj_of_head hs.plain ht.plain hxs hys h
  exact ⟨String.toList_injective hname, hrest⟩

theorem attributes_append_inj {a b : List (String × String)}
    (ha : ∀ entry ∈ a, IsName entry.1) (hb : ∀ entry ∈ b, IsName entry.1)
    (hxs : ∀ c ∈ xs.head?, c ≠ ' ') (hys : ∀ c ∈ ys.head?, c ≠ ' ')
    (h : a.flatMap attributeChars ++ xs = b.flatMap attributeChars ++ ys) : a = b ∧ xs = ys := by
  induction a generalizing b with
  | nil =>
    cases b with
    | nil => exact ⟨rfl, h⟩
    | cons e b => exact absurd rfl (hxs ' ' (congrArg List.head? h))
  | cons e a ih =>
    cases b with
    | nil => exact absurd rfl (hys ' ' (congrArg List.head? h).symm)
    | cons f b =>
      obtain ⟨hkey, ha⟩ := List.forall_mem_cons.mp ha
      obtain ⟨hkey', hb⟩ := List.forall_mem_cons.mp hb
      simp only [List.flatMap_cons, attributeChars, List.cons_append, List.append_assoc, List.nil_append,
        List.cons.injEq, true_and] at h
      obtain ⟨hname, h⟩ := name_append_inj hkey hkey'
        (forall_mem_head?_cons (by decide)) (forall_mem_head?_cons (by decide)) h
      simp only [List.cons.injEq, true_and] at h
      obtain ⟨hvalue, h⟩ := escaped_append_inj
        (forall_mem_head?_cons (by decide)) (forall_mem_head?_cons (by decide)) h
      obtain ⟨rfl, hrest⟩ := ih ha hb (List.cons.inj h).2
      exact ⟨congrArg (· :: a) (Prod.ext hname (String.toList_injective hvalue)), hrest⟩

namespace Node

theorem realName_isName (hname : IsName n.name) (hqualifier : ∀ q ∈ n.qualifier, IsName q) :
    IsName n.realName := by
  have hcolon : IsName ":" := by decide
  unfold realName
  split
  · next q hq =>
    refine ⟨fun h => ?_, ?_⟩
    · have hchars := congrArg String.toList h
      simp at hchars
    · simp only [String.toList_append, List.forall_mem_append]
      exact ⟨⟨(hqualifier q hq).plain, hcolon.plain⟩, hname.plain⟩
  · exact hname

theorem head_closing (n : Node Value) : ∀ c ∈ (n.closing ++ xs).head?, c = '/' ∨ c = '>' := by
  rw [closing]
  split
  · exact forall_mem_head?_cons (.inl rfl)
  · exact forall_mem_head?_cons (.inr rfl)

end Node

namespace Value

theorem content_text (s : String) : (text s).content.toList = s.toList.flatMap escapeMarkup := by
  rw [content, escapedMarkup, String.toList_ofList]

theorem content_node (n : Node Value) : (node n).content = n.markup := by
  rw [content]

theorem exists_content_text (h : (text s).IsContent) :
    ∃ c rest, (text s).content.toList = c :: rest ∧ c ≠ '<' := by
  cases h with
  | text nonempty =>
    obtain ⟨d, ds, hs⟩ := List.exists_cons_of_ne_nil (mt String.toList_eq_nil_iff.mp nonempty)
    have hne : escapeMarkup d ≠ [] := by
      intro hd
      cases hd ▸ unescape?_escapeMarkup d []
    obtain ⟨c, rest, hc⟩ := List.exists_cons_of_ne_nil hne
    refine ⟨c, rest ++ ds.flatMap escapeMarkup, by simp [content_text, hs, hc], ?_⟩
    rintro rfl
    cases isTextChar_of_mem_escapeMarkup (hc ▸ List.mem_cons_self)

theorem exists_content_node (h : (node n).IsContent) :
    ∃ c rest, (node n).content.toList = '<' :: c :: rest ∧ c ≠ '/' := by
  cases h with
  | node name qualifier _ _ _ =>
    have hname := Node.realName_isName name qualifier
    obtain ⟨c, cs, hc⟩ := List.exists_cons_of_ne_nil (mt String.toList_eq_nil_iff.mp hname.nonempty)
    refine ⟨c, cs ++ (n.attributes.flatMap attributeChars ++ n.closing), ?_, ?_⟩
    · rw [content_node, Node.toList_markup, hc, List.cons_append]
    · rintro rfl
      cases hname.plain '/' (hc ▸ List.mem_cons_self)

theorem contents_cons_append (v : Value) (vs : List Value) (xs : List Char) :
    contents (v :: vs) ++ xs = v.content.toList ++ (contents vs ++ xs) := by
  rw [contents, List.flatMap_cons, List.append_assoc, ← contents]

/-- Text goes on up to a tag. -/
theorem head_contents (hvs : ∀ v ∈ vs, v.IsContent) (hapart : (text s :: vs).IsChain Apart) :
    ∀ c ∈ (contents vs ++ '<' :: xs).head?, isTextChar c = false := by
  cases vs with
  | nil => exact forall_mem_head?_cons rfl
  | cons v vs =>
    have hv := hvs v List.mem_cons_self
    cases v with
    | text t => exact absurd rfl ((List.isChain_cons_cons.mp hapart).1 s t rfl)
    | node n =>
      obtain ⟨d, rest, hd, -⟩ := exists_content_node hv
      rw [contents_cons_append, hd]
      exact forall_mem_head?_cons rfl
    | _ => cases hv

theorem content_ne_closing {v : Value} (h : v.IsContent) : v.content.toList ++ xs ≠ '<' :: '/' :: ys := by
  intro heq
  cases h with
  | text nonempty =>
    obtain ⟨c, rest, hc, hne⟩ := exists_content_text (.text nonempty)
    rw [hc] at heq
    exact hne (List.cons.inj heq).1
  | node name qualifier attributes children apart =>
    obtain ⟨c, rest, hc, hne⟩ := exists_content_node (.node name qualifier attributes children apart)
    rw [hc] at heq
    exact hne (List.cons.inj (List.cons.inj heq).2).1

theorem content_text_ne_node (hs : (text s).IsContent) (hn : (node n).IsContent) :
    (text s).content.toList ++ xs ≠ (node n).content.toList ++ ys := by
  intro heq
  obtain ⟨c, rest, hc, hne⟩ := exists_content_text hs
  obtain ⟨d, others, hd, -⟩ := exists_content_node hn
  rw [hc, hd] at heq
  exact hne (List.cons.inj heq).1

/-- Children up to a closing tag are told apart if the elements among them are. -/
theorem contents_append_inj (hvs : ∀ v ∈ vs, v.IsContent) (hws : ∀ w ∈ ws, w.IsContent)
    (hapart : vs.IsChain Apart) (hapart' : ws.IsChain Apart)
    (hnodes : ∀ m, node m ∈ vs → ∀ n xs ys, (node n).IsContent →
      m.markup.toList ++ xs = n.markup.toList ++ ys → SameContent (node m) (node n) ∧ xs = ys)
    (h : contents vs ++ '<' :: '/' :: xs = contents ws ++ '<' :: '/' :: ys) :
    List.Forall₂ SameContent vs ws ∧ xs = ys := by
  induction vs generalizing ws with
  | nil =>
    cases ws with
    | nil => exact ⟨.nil, (List.cons.inj (List.cons.inj h).2).2⟩
    | cons w ws =>
      rw [contents_cons_append] at h
      exact absurd h.symm (content_ne_closing (hws w List.mem_cons_self))
  | cons v vs ih =>
    rw [List.forall_mem_cons] at hvs
    obtain ⟨hv, hvs⟩ := hvs
    rw [contents_cons_append] at h
    cases ws with
    | nil => exact absurd h (content_ne_closing hv)
    | cons w ws =>
      rw [List.forall_mem_cons] at hws
      obtain ⟨hw, hws⟩ := hws
      rw [contents_cons_append] at h
      have hrest : contents vs ++ '<' :: '/' :: xs = contents ws ++ '<' :: '/' :: ys →
          List.Forall₂ SameContent vs ws ∧ xs = ys :=
        ih hvs hws hapart.of_cons hapart'.of_cons fun m hm => hnodes m (List.mem_cons_of_mem _ hm)
      cases v with
      | text s =>
        cases w with
        | text t =>
          rw [content_text, content_text] at h
          obtain ⟨hchars, h⟩ := escaped_append_inj (head_contents hvs hapart) (head_contents hws hapart') h
          obtain ⟨hchildren, hxs⟩ := hrest h
          obtain rfl := String.toList_injective hchars
          exact ⟨.cons (.text s) hchildren, hxs⟩
        | node n => exact absurd h (content_text_ne_node hv hw)
        | _ => cases hw
      | node m =>
        cases w with
        | text t => exact absurd h.symm (content_text_ne_node hw hv)
        | node n =>
          rw [content_node, content_node] at h
          obtain ⟨hsame, h⟩ := hnodes m List.mem_cons_self n _ _ hw h
          obtain ⟨hchildren, hxs⟩ := hrest h
          exact ⟨.cons hsame hchildren, hxs⟩
        | _ => cases hw
      | _ => cases hv

end Value

namespace Node

theorem head_attributes (n : Node Value) (attributes : List (String × String)) :
    ∀ c ∈ (attributes.flatMap attributeChars ++ (n.closing ++ xs)).head?, isNameChar c = false := by
  cases attributes with
  | nil =>
    intro c hc
    rcases n.head_closing c hc with rfl | rfl <;> decide
  | cons entry attributes => exact forall_mem_head?_cons (by decide)

theorem closing_append_inj (hname : m.realName = n.realName)
    (hchildren : ∀ xs ys,
      Value.contents m.children ++ '<' :: '/' :: xs = Value.contents n.children ++ '<' :: '/' :: ys →
        List.Forall₂ Value.SameContent m.children n.children ∧ xs = ys)
    (h : m.closing ++ xs = n.closing ++ ys) :
    List.Forall₂ Value.SameContent m.children n.children ∧ xs = ys := by
  rw [closing, closing] at h
  split at h
  · next hm =>
    split at h
    · next hn =>
      rw [hm, hn]
      exact ⟨.nil, List.append_cancel_left h⟩
    · cases (List.cons.inj h).1
  · split at h
    · cases (List.cons.inj h).1
    · simp only [List.cons_append, List.append_assoc, List.cons.injEq, true_and, hname] at h
      obtain ⟨hsame, htail⟩ := hchildren _ _ h
      exact ⟨hsame, (List.cons.inj (List.append_cancel_left htail)).2⟩

/-- Whatever follows, elements with the same markup have the same content. -/
theorem markup_append_inj {v : Value} (hv : v.IsContent) : ∀ m, v = .node m → ∀ n xs ys,
    (Value.node n).IsContent → m.markup.toList ++ xs = n.markup.toList ++ ys →
      Value.SameContent (.node m) (.node n) ∧ xs = ys := by
  -- What follows is any text, for an element among others is followed by them.
  induction hv with
  | text => rintro m ⟨⟩
  | @node m name qualifier attributes children apart ih =>
    rintro _ ⟨⟩ n xs ys hn h
    cases hn with
    | node name' qualifier' attributes' children' apart' =>
      simp only [toList_markup, List.cons_append, List.append_assoc, List.cons.injEq, true_and] at h
      obtain ⟨hname, h⟩ := name_append_inj (realName_isName name qualifier)
        (realName_isName name' qualifier') (m.head_attributes _) (n.head_attributes _) h
      have hspace : ∀ (k : Node Value) (zs : List Char), ∀ c ∈ (k.closing ++ zs).head?, c ≠ ' ' := by
        intro k zs c hc
        rcases k.head_closing c hc with rfl | rfl <;> decide
      obtain ⟨hattributes, h⟩ :=
        attributes_append_inj attributes attributes' (hspace m xs) (hspace n ys) h
      obtain ⟨hchildren, hrest⟩ := closing_append_inj hname
        (fun _ _ => Value.contents_append_inj children children' apart apart'
          fun k hk n' xs' ys' => ih _ hk k rfl n' xs' ys') h
      exact ⟨.node hname hattributes hchildren, hrest⟩

end Node

namespace Value

theorem contents_eq (h : List.Forall₂ SameContent vs ws)
    (ih : ∀ v ∈ vs, ∀ w, SameContent v w → v.content = w.content) : contents vs = contents ws := by
  induction h with
  | nil => rfl
  | cons hsame _ ihs =>
    obtain ⟨hv, hvs⟩ := List.forall_mem_cons.mp ih
    rw [contents, List.flatMap_cons, hv _ hsame, ← contents, ihs hvs, contents, contents, List.flatMap_cons]

theorem SameContent.content_eq {v w : Value} (h : SameContent v w) : v.content = w.content := by
  induction v using partsInduction generalizing w with
  | text s =>
    cases h
    rfl
  | node m ih =>
    cases h with
    | @node _ n realName attributes children =>
      have hempty : m.children = [] ↔ n.children = [] := by
        rw [← List.length_eq_zero_iff, children.length_eq, List.length_eq_zero_iff]
      rw [content_node, content_node]
      refine String.toList_injective ?_
      rw [Node.toList_markup, Node.toList_markup, Node.closing, Node.closing, realName, attributes,
        contents_eq children fun child hc _ => ih child hc]
      simp only [hempty]
  | _ => cases h

end Value

/-- The markup of an element tells its real name, its attributes and its content, whatever characters are
in the values of its attributes and in its texts. -/
theorem Node.markup_eq_iff (hm : (Value.node m).IsContent) (hn : (Value.node n).IsContent) :
    m.markup = n.markup ↔ Value.SameContent (.node m) (.node n) := by
  constructor
  · intro h
    have happend : m.markup.toList ++ [] = n.markup.toList ++ [] := by rw [h]
    exact (markup_append_inj hm m rfl n [] [] hn happend).1
  · intro h
    have hcontent := h.content_eq
    rwa [Value.content_node, Value.content_node] at hcontent

namespace Chapter

/-- An empty element of one local name. -/
def mark : Node Value := ⟨"i", none, [], []⟩

/-- An attribute with characters of markup in it. -/
def titles : List (String × String) := [("title", "\"/><i a=\"&quot;")]

/-- The colons of a real name may be in its qualifier or in its local part. -/
def first : Node Value := ⟨"b:c", some "a", titles, [.node mark]⟩

def second : Node Value := ⟨"c", some "a:b", titles, [.node mark]⟩

/-- Text that reads like the markup of the element. -/
def third : Node Value := ⟨"c", some "a:b", titles, [.text "<i/>"]⟩

theorem isContent_mark : (Value.node mark).IsContent :=
  .node (by decide) (by simp [mark]) (by simp [mark]) (by simp [mark]) (by simp [mark])

theorem isName_titles : ∀ entry ∈ titles, Text.IsName entry.1 := by
  rw [titles, List.forall_mem_singleton]
  decide

theorem isContent_chapter {name qualifier : String} {child : Value} (hname : Text.IsName name)
    (hqualifier : Text.IsName qualifier) (hchild : child.IsContent) :
    (Value.node ⟨name, some qualifier, titles, [child]⟩).IsContent := by
  refine .node hname ?_ isName_titles (List.forall_mem_singleton.mpr hchild) (.singleton _)
  rintro _ ⟨⟩
  exact hqualifier

theorem isContent_first : (Value.node first).IsContent :=
  isContent_chapter (by decide) (by decide) isContent_mark

theorem isContent_second : (Value.node second).IsContent :=
  isContent_chapter (by decide) (by decide) isContent_mark

theorem isContent_third : (Value.node third).IsContent :=
  isContent_chapter (by decide) (by decide) (.text (by decide))

theorem sameContent_first_second : Value.SameContent (.node first) (.node second) :=
  .node (by decide) rfl (.cons (.node rfl rfl .nil) .nil)

theorem not_sameContent_second_third : ¬Value.SameContent (.node second) (.node third) := by
  rintro (_ | ⟨-, -, _ | ⟨⟨⟩, -⟩⟩)

end Chapter

open Chapter

/-- One real name makes one markup, however it is qualified, and an element is told from text like it. -/
theorem Node.markup_eq_iff_chapters :
    (Value.node first).IsContent ∧ (Value.node second).IsContent ∧ (Value.node third).IsContent ∧
      first.markup = second.markup ∧ second.markup ≠ third.markup :=
  ⟨isContent_first, isContent_second, isContent_third,
    (markup_eq_iff isContent_first isContent_second).mpr sameContent_first_second,
    fun h => not_sameContent_second_third ((markup_eq_iff isContent_second isContent_third).mp h)⟩

end PayloadContracts
