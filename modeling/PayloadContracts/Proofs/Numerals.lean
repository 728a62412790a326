import PayloadContracts.Pattern.Scalar
import PayloadContracts.Proofs.Trimming
import Mathlib.Computability.Language

/-!
The languages of written numbers. Main statement: `Number.looksNumeric_agrees`.
-/

namespace PayloadContracts

open scoped Computability

namespace Numerals

/-- One character of a class. -/
def one (p : Char → Bool) : Language Char := {cs | ∃ c, p c = true ∧ cs = [c]}

def sign : Language Char := 1 + one fun c => c = '+' || c = '-'

def point : Language Char := one fun c => c = '.'

/-- A word in letters of either case. -/
def word (w : String) : Language Char := {cs | cs.map Char.toLower = w.toList}

section Grammar

variable (isDigit : Char → Bool)

def digits : Language Char := one isDigit * (one isDigit)∗

def exponent : Language Char := one (fun c => c = 'e' || c = 'E') * sign * digits isDigit

def mantissa : Language Char := digits isDigit * (1 + point) * (one isDigit)∗ + point * digits isDigit

/-- Digits with a point among, before or after them, between a sign and an exponent. -/
def form : Language Char := sign * mantissa isDigit * (1 + exponent isDigit)

/-- Digits without a point, or with one and digits before or after it, between a sign and an exponent. -/
def decimal : Language Char :=
  sign * (digits isDigit + digits isDigit * point * (one isDigit)∗ +
    (one isDigit)∗ * point * digits isDigit) * (1 + exponent isDigit)

end Grammar

/-- What stands for a number: a decimal in plain digits, or one of three words. -/
def numeric : Language Char :=
  decimal Text.isPlainDigit + sign * (word "inf" + word "infinity" + word "nan")

variable {p q : Char → Bool} {cs ds m : List Char}

theorem mantissa_eq (p : Char → Bool) :
    mantissa p = digits p + digits p * point * (one p)∗ + (one p)∗ * point * digits p := by
  have hmore : digits p * (one p)∗ = digits p := by rw [digits, mul_assoc, kstar_mul_kstar]
  have hsplit : (one p)∗ = 1 + digits p := one_add_mul_kstar.symm
  have hle : digits p * point * digits p ≤ digits p * point * (one p)∗ := by
    rw [hsplit, mul_add (digits p * point)]
    exact le_add_self
  have hfront : (one p)∗ * point * digits p = point * digits p + digits p * point * digits p := by
    rw [hsplit, add_mul, one_mul, add_mul]
  calc mantissa p
      = digits p + digits p * point * (one p)∗ + point * digits p := by
        rw [mantissa, mul_add, mul_one, add_mul, hmore]
    _ = digits p + (digits p * point * (one p)∗ + digits p * point * digits p) + point * digits p := by
        rw [add_eq_left_iff_le.mpr hle]
    _ = digits p + digits p * point * (one p)∗ + (one p)∗ * point * digits p := by
        rw [hfront]; ac_rfl

theorem decimal_eq_form (p : Char → Bool) : decimal p = form p := by
  rw [decimal, form, mantissa_eq]

theorem mem_kstar_one : ds ∈ (one p)∗ ↔ ∀ c ∈ ds, p c = true := by
  constructor
  · rintro h c hc
    obtain ⟨parts, rfl, hparts⟩ := Language.mem_kstar.mp h
    obtain ⟨part, hpart, hc⟩ := List.mem_flatten.mp hc
    obtain ⟨d, hd, rfl⟩ := hparts part hpart
    rwa [List.mem_singleton.mp hc]
  · intro h
    refine Language.mem_kstar.mpr ⟨ds.map fun c => [c], by simp [← List.flatMap_def], ?_⟩
    intro part hpart
    obtain ⟨c, hc, rfl⟩ := List.mem_map.mp hpart
    exact ⟨c, h c hc, rfl⟩

theorem mem_digits : ds ∈ digits p ↔ ds ≠ [] ∧ ∀ c ∈ ds, p c = true := by
  constructor
  · intro h
    obtain ⟨_, ⟨c, hc, rfl⟩, rest, hrest, rfl⟩ := Language.mem_mul.mp h
    exact ⟨by simp, List.forall_mem_cons.mpr ⟨hc, mem_kstar_one.mp hrest⟩⟩
  · rintro ⟨hne, h⟩
    obtain ⟨c, rest, rfl⟩ := List.exists_cons_of_ne_nil hne
    obtain ⟨hc, hrest⟩ := List.forall_mem_cons.mp h
    exact Language.mem_mul.mpr ⟨[c], ⟨c, hc, rfl⟩, rest, mem_kstar_one.mpr hrest, rfl⟩

/-- The characters of numbers other than digits are none. -/
def IsDigitClass (p : Char → Bool) : Prop := ∀ c ∈ ['+', '-', '.', 'e', 'E'], p c = false

theorem mem_sign : cs ∈ sign ↔ cs = [] ∨ cs = ['+'] ∨ cs = ['-'] := by
  constructor
  · rintro (h | ⟨c, hc, rfl⟩)
    · exact .inl h
    · obtain rfl | rfl : c = '+' ∨ c = '-' := by simpa using hc
      · exact .inr (.inl rfl)
      · exact .inr (.inr rfl)
  · rintro (rfl | rfl | rfl)
    · exact .inl rfl
    · exact .inr ⟨'+', by decide, rfl⟩
    · exact .inr ⟨'-', by decide, rfl⟩

theorem exists_splitSign (cs : List Char) : ∃ front ∈ sign, cs = front ++ (Numeral.splitSign cs).2 := by
  unfold Numeral.splitSign
  split
  · exact ⟨['+'], mem_sign.mpr (.inr (.inl rfl)), rfl⟩
  · exact ⟨['-'], mem_sign.mpr (.inr (.inr rfl)), rfl⟩
  · exact ⟨[], mem_sign.mpr (.inl rfl), rfl⟩

theorem splitSign_append {front : List Char} (hfront : front ∈ sign)
    (hcs : ∀ c ∈ cs.head?, c ≠ '+' ∧ c ≠ '-') : (Numeral.splitSign (front ++ cs)).2 = cs := by
  obtain rfl | rfl | rfl := mem_sign.mp hfront
  · rw [List.nil_append, Numeral.splitSign.eq_def]
    split
    · exact absurd rfl (hcs '+' rfl).1
    · exact absurd rfl (hcs '-' rfl).2
    · rfl
  · rfl
  · rfl

theorem ne_sign_of_digit (hp : IsDigitClass p) {c : Char} (hc : p c = true) : c ≠ '+' ∧ c ≠ '-' := by
  constructor
  · rintro rfl
    cases hc.symm.trans (hp '+' (by decide))
  · rintro rfl
    cases hc.symm.trans (hp '-' (by decide))

theorem mem_exponent : cs ∈ exponent p ↔
    ∃ c front ds, (c = 'e' ∨ c = 'E') ∧ front ∈ sign ∧ ds ∈ digits p ∧ cs = c :: (front ++ ds) := by
  constructor
  · intro h
    obtain ⟨_, hstart, ds, hds, rfl⟩ := Language.mem_mul.mp h
    obtain ⟨_, ⟨c, hc, rfl⟩, front, hfront, rfl⟩ := Language.mem_mul.mp hstart
    exact ⟨c, front, ds, by simpa using hc, hfront, hds, by simp⟩
  · rintro ⟨c, front, ds, hc, hfront, hds, rfl⟩
    have hstart : [c] ++ front ∈ one (fun c => c = 'e' || c = 'E') * sign :=
      Language.append_mem_mul ⟨c, by simpa using hc, rfl⟩ hfront
    exact Language.append_mem_mul hstart hds

theorem isSome_readExponent (hp : IsDigitClass p) :
    (Numeral.readExponent p cs).isSome = true ↔ cs ∈ 1 + exponent p := by
  rw [Language.mem_add, Language.mem_one]
  cases cs with
  | nil => simp [Numeral.readExponent]
  | cons c rest =>
    have hread : (Numeral.readExponent p (c :: rest)).isSome = true ↔
        (c = 'e' ∨ c = 'E') ∧ (Numeral.splitSign rest).2 ∈ digits p := by
      rw [mem_digits, Numeral.readExponent]
      split
      · simp_all
      · simp_all
    rw [hread, mem_exponent]
    constructor
    · rintro ⟨hc, hds⟩
      obtain ⟨front, hfront, hrest⟩ := exists_splitSign rest
      exact .inr ⟨c, front, _, hc, hfront, hds, by rw [← hrest]⟩
    · rintro (h | ⟨_, front, ds, hc, hfront, hds, heq⟩)
      · cases h
      · cases heq
        obtain ⟨hne, hall⟩ := mem_digits.mp hds
        refine ⟨hc, ?_⟩
        rwa [splitSign_append hfront fun d hd => ne_sign_of_digit hp (hall d (List.mem_of_mem_head? hd))]

theorem head_exponent {rest : List Char} (hrest : rest ∈ 1 + exponent p) :
    ∀ c ∈ rest.head?, c = 'e' ∨ c = 'E' := by
  intro c hc
  rcases (Language.mem_add _ _ _).mp hrest with hrest | hrest
  · rw [(Language.mem_one _).mp hrest] at hc
    cases hc
  · obtain ⟨d, front, ds, hd, -, -, rfl⟩ := mem_exponent.mp hrest
    cases hc
    exact hd

/-- All digits as far as they go, with or without a point after the first of them. -/
theorem mem_mantissa : m ∈ mantissa p ↔
    (m ≠ [] ∧ ∀ c ∈ m, p c = true) ∨
      ∃ whole fraction, (∀ c ∈ whole, p c = true) ∧ (∀ c ∈ fraction, p c = true) ∧
        ¬(whole = [] ∧ fraction = []) ∧ m = whole ++ '.' :: fraction := by
  constructor
  · rw [mantissa, mul_add, mul_one, add_mul]
    rintro ((h | h) | h)
    · obtain ⟨ds, hds, more, hmore, rfl⟩ := Language.mem_mul.mp h
      obtain ⟨hne, hds⟩ := mem_digits.mp hds
      exact .inl ⟨by simp [hne], List.forall_mem_append.mpr ⟨hds, mem_kstar_one.mp hmore⟩⟩
    · obtain ⟨_, hstart, fraction, hfraction, rfl⟩ := Language.mem_mul.mp h
      obtain ⟨whole, hwhole, _, ⟨c, hc, rfl⟩, rfl⟩ := Language.mem_mul.mp hstart
      obtain ⟨hne, hwhole⟩ := mem_digits.mp hwhole
      obtain rfl : c = '.' := by simpa using hc
      exact .inr ⟨whole, fraction, hwhole, mem_kstar_one.mp hfraction, fun h => hne h.1, by simp⟩
    · obtain ⟨_, ⟨c, hc, rfl⟩, fraction, hfraction, rfl⟩ := Language.mem_mul.mp h
      obtain ⟨hne, hfraction⟩ := mem_digits.mp hfraction
      obtain rfl : c = '.' := by simpa using hc
      exact .inr ⟨[], fraction, by simp, hfraction, fun h => hne h.2, rfl⟩
  · have hpoint : ['.'] ∈ point := ⟨'.', by decide, rfl⟩
    rw [mantissa_eq]
    rintro (h | ⟨whole, fraction, hwhole, hfraction, hne, rfl⟩)
    · exact .inl (.inl (mem_digits.mpr h))
    · rw [List.append_cons]
      by_cases hw : whole = []
      · have hf : fraction ≠ [] := fun hf => hne ⟨hw, hf⟩
        exact .inr (Language.append_mem_mul
          (Language.append_mem_mul (mem_kstar_one.mpr hwhole) hpoint) (mem_digits.mpr ⟨hf, hfraction⟩))
      · exact .inl (.inr (Language.append_mem_mul
          (Language.append_mem_mul (mem_digits.mpr ⟨hw, hwhole⟩) hpoint) (mem_kstar_one.mpr hfraction)))

theorem head_mantissa (hp : IsDigitClass p) (hm : m ∈ mantissa p) {rest : List Char} :
    ∀ c ∈ (m ++ rest).head?, c ≠ '+' ∧ c ≠ '-' := by
  intro c hc
  rcases mem_mantissa.mp hm with ⟨hne, hm⟩ | ⟨whole, fraction, hwhole, -, -, rfl⟩
  · obtain ⟨d, m, rfl⟩ := List.exists_cons_of_ne_nil hne
    cases hc
    exact ne_sign_of_digit hp (hm c List.mem_cons_self)
  · cases whole with
    | nil =>
      cases hc
      decide
    | cons d whole =>
      cases hc
      exact ne_sign_of_digit hp (hwhole c List.mem_cons_self)

/-- A mantissa with what follows it, cut as it is read. -/
theorem split_mantissa (hp : IsDigitClass p) {rest : List Char} (hm : m ∈ mantissa p)
    (hrest : ∀ c ∈ rest.head?, c = 'e' ∨ c = 'E') :
    ∃ fraction, Numeral.splitFraction p ((m ++ rest).dropWhile p) = (fraction, rest) ∧
      ¬((m ++ rest).takeWhile p = [] ∧ fraction = []) := by
  have hstop : ∀ c ∈ rest.head?, p c = false := by
    intro c hc
    rcases hrest c hc with rfl | rfl
    · exact hp 'e' (by decide)
    · exact hp 'E' (by decide)
  rcases mem_mantissa.mp hm with ⟨hne, hm⟩ | ⟨whole, fraction, hwhole, hfraction, hne, rfl⟩
  · refine ⟨[], ?_, fun h => hne ((Text.takeWhile_append_of_head hm hstop).symm.trans h.1)⟩
    rw [Text.dropWhile_append_of_head hm hstop, Numeral.splitFraction.eq_def]
    split
    · rcases hrest '.' rfl with h | h <;> exact absurd h (by decide)
    · rfl
  · have hpoint : ∀ c ∈ ('.' :: (fraction ++ rest)).head?, p c = false := by
      intro c hc
      cases hc
      exact hp '.' (by decide)
    rw [List.append_assoc, List.cons_append, Text.takeWhile_append_of_head hwhole hpoint,
      Text.dropWhile_append_of_head hwhole hpoint, Numeral.splitFraction,
      Text.takeWhile_append_of_head hfraction hstop, Text.dropWhile_append_of_head hfraction hstop]
    exact ⟨fraction, rfl, hne⟩

/-- What is read before an exponent is a mantissa. -/
theorem exists_mantissa (cs : List Char) {fraction rest : List Char}
    (hsplit : Numeral.splitFraction p (cs.dropWhile p) = (fraction, rest))
    (hne : ¬(cs.takeWhile p = [] ∧ fraction = [])) : ∃ m ∈ mantissa p, cs = m ++ rest := by
  have hwhole : ∀ c ∈ cs.takeWhile p, p c = true := fun c hc => List.mem_takeWhile_imp hc
  have hcs : cs = cs.takeWhile p ++ cs.dropWhile p := List.takeWhile_append_dropWhile.symm
  rw [Numeral.splitFraction.eq_def] at hsplit
  split at hsplit
  · next tail htail =>
    cases hsplit
    refine ⟨cs.takeWhile p ++ '.' :: tail.takeWhile p, mem_mantissa.mpr (.inr
      ⟨_, _, hwhole, fun c hc => List.mem_takeWhile_imp hc, hne, rfl⟩), ?_⟩
    rw [List.append_assoc, List.cons_append, List.takeWhile_append_dropWhile, ← htail]
    exact hcs
  · cases hsplit
    exact ⟨_, mem_mantissa.mpr (.inl ⟨fun h => hne ⟨h, rfl⟩, hwhole⟩), hcs⟩

theorem mem_form : cs ∈ form p ↔
    ∃ front m rest, front ∈ sign ∧ m ∈ mantissa p ∧ rest ∈ 1 + exponent p ∧ cs = front ++ m ++ rest := by
  constructor
  · intro h
    obtain ⟨_, hstart, rest, hrest, rfl⟩ := Language.mem_mul.mp h
    obtain ⟨front, hfront, m, hm, rfl⟩ := Language.mem_mul.mp hstart
    exact ⟨front, m, rest, hfront, hm, hrest, rfl⟩
  · rintro ⟨front, m, rest, hfront, hm, hrest, rfl⟩
    exact Language.append_mem_mul (Language.append_mem_mul hfront hm) hrest

theorem isSome_read?_iff : (Numeral.read? p cs).isSome = true ↔
    ¬((Numeral.splitSign cs).2.takeWhile p = [] ∧
      (Numeral.splitFraction p ((Numeral.splitSign cs).2.dropWhile p)).1 = []) ∧
    (Numeral.readExponent p
      (Numeral.splitFraction p ((Numeral.splitSign cs).2.dropWhile p)).2).isSome = true := by
  simp only [Numeral.read?]
  split <;> simp_all

/-- Reading gives a numeral exactly for the texts of the form. -/
theorem isSome_read? (hp : IsDigitClass p) : (Numeral.read? p cs).isSome = true ↔ cs ∈ form p := by
  rw [isSome_read?_iff]
  constructor
  · rintro ⟨hne, hrest⟩
    obtain ⟨front, hfront, hcs⟩ := exists_splitSign cs
    obtain ⟨m, hm, htail⟩ := exists_mantissa _ rfl hne
    refine mem_form.mpr ⟨front, m, _, hfront, hm, (isSome_readExponent hp).mp hrest, ?_⟩
    rw [List.append_assoc]
    exact hcs.trans (congrArg (front ++ ·) htail)
  · intro h
    obtain ⟨front, m, rest, hfront, hm, hrest, rfl⟩ := mem_form.mp h
    obtain ⟨fraction, hsplit, hne⟩ := split_mantissa hp hm (head_exponent hrest)
    have hsign : (Numeral.splitSign (front ++ (m ++ rest))).2 = m ++ rest :=
      splitSign_append hfront (head_mantissa hp hm)
    rw [List.append_assoc, hsign, hsplit]
    exact ⟨hne, (isSome_readExponent hp).mpr hrest⟩

/-- The other characters of a number are its signs, its point and the letter before its exponent. -/
theorem digit_or_mark_of_form (h : cs ∈ form p) :
    ∀ c ∈ cs, p c = true ∨ c ∈ ['+', '-', '.', 'e', 'E'] := by
  have hsign : ∀ front ∈ sign, ∀ c ∈ front, p c = true ∨ c ∈ ['+', '-', '.', 'e', 'E'] := by
    intro front hfront c hc
    rcases mem_sign.mp hfront with rfl | rfl | rfl <;> simp_all
  obtain ⟨front, m, rest, hfront, hm, hrest, rfl⟩ := mem_form.mp h
  refine List.forall_mem_append.mpr ⟨List.forall_mem_append.mpr ⟨hsign front hfront, ?_⟩, ?_⟩
  · rcases mem_mantissa.mp hm with ⟨-, hm⟩ | ⟨whole, fraction, hwhole, hfraction, -, rfl⟩
    · exact fun c hc => .inl (hm c hc)
    · refine List.forall_mem_append.mpr ⟨fun c hc => .inl (hwhole c hc), ?_⟩
      exact List.forall_mem_cons.mpr ⟨.inr (by decide), fun c hc => .inl (hfraction c hc)⟩
  · rcases (Language.mem_add _ _ _).mp hrest with hrest | hrest
    · rw [(Language.mem_one _).mp hrest]
      simp
    · obtain ⟨c, front, ds, hc, hfront, hds, rfl⟩ := mem_exponent.mp hrest
      refine List.forall_mem_cons.mpr ⟨by rcases hc with rfl | rfl <;> simp, ?_⟩
      exact List.forall_mem_append.mpr ⟨hsign front hfront, fun c hc => .inl ((mem_digits.mp hds).2 c hc)⟩

/-- A number stays one in another class with all its digits. -/
theorem form_of_digits (h : cs ∈ form p) (hq : ∀ c ∈ cs, p c = true → q c = true) : cs ∈ form q := by
  obtain ⟨front, m, rest, hfront, hm, hrest, rfl⟩ := mem_form.mp h
  refine mem_form.mpr ⟨front, m, rest, hfront, ?_, ?_, rfl⟩
  · have hq : ∀ c ∈ m, p c = true → q c = true := fun c hc => hq c (by simp [hc])
    refine mem_mantissa.mpr ((mem_mantissa.mp hm).imp ?_ ?_)
    · exact fun ⟨hne, hm⟩ => ⟨hne, fun c hc => hq c hc (hm c hc)⟩
    · rintro ⟨whole, fraction, hwhole, hfraction, hne, rfl⟩
      exact ⟨whole, fraction, fun c hc => hq c (by simp [hc]) (hwhole c hc),
        fun c hc => hq c (by simp [hc]) (hfraction c hc), hne, rfl⟩
  · rcases (Language.mem_add _ _ _).mp hrest with hrest | hrest
    · exact .inl hrest
    · obtain ⟨c, front', ds, hc, hfront', hds, rfl⟩ := mem_exponent.mp hrest
      obtain ⟨hne, hds⟩ := mem_digits.mp hds
      have hq : ∀ d ∈ ds, q d = true := fun d hd => hq d (by simp [hd]) (hds d hd)
      exact .inr (mem_exponent.mpr ⟨c, front', ds, hc, hfront', mem_digits.mpr ⟨hne, hq⟩, rfl⟩)

/-- Of two classes, the numbers in the smaller are those of the other with no other digits in them. -/
theorem mem_form_iff (hp : IsDigitClass p) (hqp : ∀ c, q c = true → p c = true) :
    cs ∈ form q ↔ cs ∈ form p ∧ ∀ c ∈ cs, p c = true → q c = true := by
  refine ⟨fun h => ⟨form_of_digits h fun c _ => hqp c, fun c hc hd => ?_⟩, fun h => form_of_digits h.1 h.2⟩
  refine (digit_or_mark_of_form h c hc).resolve_right fun hmark => ?_
  cases hd.symm.trans (hp c hmark)

theorem isDigitClass_isDecimalDigit : IsDigitClass Text.isDecimalDigit := by
  simp only [IsDigitClass, List.forall_mem_cons]
  exact ⟨rfl, rfl, rfl, rfl, rfl, List.forall_mem_nil _⟩

theorem isDigitClass_isPlainDigit : IsDigitClass Text.isPlainDigit := by
  simp only [IsDigitClass, List.forall_mem_cons]
  exact ⟨rfl, rfl, rfl, rfl, rfl, List.forall_mem_nil _⟩

theorem eq_of_toLower_eq_n {c : Char} (h : c.toLower = 'n') : c = 'n' ∨ c = 'N' := by
  unfold Char.toLower at h
  split at h
  · have hval : c.val + 32 = 78 + 32 := congrArg Char.val h
    exact .inr (Char.ext ((UInt32.add_left_inj 32).mp hval))
  · exact .inl h

/-- The words for numbers have a letter in them that no decimal has. -/
theorem not_form_of_word (h : cs ∈ sign * (word "inf" + word "infinity" + word "nan")) :
    cs ∉ form Text.isDecimalDigit := by
  intro hform
  obtain ⟨front, -, w, hw, rfl⟩ := Language.mem_mul.mp h
  have hn : 'n' ∈ w.map Char.toLower := by
    rcases hw with (hw | hw) | hw <;> exact hw ▸ by decide
  obtain ⟨c, hc, hlower⟩ := List.mem_map.mp hn
  have hchar := digit_or_mark_of_form hform c (List.mem_append_right _ hc)
  rcases eq_of_toLower_eq_n hlower with rfl | rfl <;> exact absurd hchar (by decide)

end Numerals

namespace Text

theorem not_isDecimalDigit_of_isBlank {c : Char} (h : isBlank c = true) : isDecimalDigit c = false := by
  have hgap : ∀ z ∈ zeros, (0x21 ≤ z ∧ z + 10 ≤ 0x85) ∨ (0xA1 ≤ z ∧ z + 10 ≤ 0x1680) ∨
      (0x1681 ≤ z ∧ z + 10 ≤ 0x2000) ∨ 0x3001 ≤ z := by decide
  refine List.any_eq_false.mpr fun z hz hdigit => ?_
  have hgap := hgap z hz
  simp only [isBlank, Bool.or_eq_true, Bool.and_eq_true, decide_eq_true_eq, beq_iff_eq] at h hdigit
  omega

end Text

variable {s : String}

open Numerals Text

namespace Number

/-- Every digit in the text is one of `0` to `9`. -/
def HasPlainDigits (s : String) : Prop := ∀ c ∈ s.toList, isDecimalDigit c = true → isPlainDigit c = true

theorem looksNumeric_iff_form : looksNumeric s = true ↔ trimChars s.toList ∈ form isDecimalDigit :=
  isSome_read? isDigitClass_isDecimalDigit

theorem isSome_read?_iff_form : (read? s).isSome = true ↔ trimChars s.toList ∈ form isPlainDigit := by
  have hplain : (Numeral.read? isPlainDigit (trimChars s.toList)).isSome = true ↔ _ :=
    isSome_read? isDigitClass_isPlainDigit
  rw [read?]
  split
  · rw [Option.isSome_map, hplain]
  · next hl =>
    refine iff_of_false (by simp) fun h => hl ?_
    exact looksNumeric_iff_form.mpr (form_of_digits h fun _ _ => isDecimalDigit_of_isPlainDigit)

theorem isSome_read?_iff_plain : (read? s).isSome = true ↔ looksNumeric s = true ∧ HasPlainDigits s := by
  rw [isSome_read?_iff_form, looksNumeric_iff_form,
    mem_form_iff isDigitClass_isDecimalDigit fun _ => isDecimalDigit_of_isPlainDigit]
  refine and_congr_right fun _ => forall_congr' fun c => ?_
  cases h : isBlank c with
  | true => simp [not_isDecimalDigit_of_isBlank h]
  | false => rw [mem_trimChars h]

/-- A text is read just if it looks numeric and stands for a number; the words do not look numeric. -/
theorem isSome_read?_iff_numeric :
    (read? s).isSome = true ↔ looksNumeric s = true ∧ trimChars s.toList ∈ numeric := by
  rw [looksNumeric_iff_form, isSome_read?_iff_form, numeric, decimal_eq_form]
  constructor
  · exact fun h => ⟨form_of_digits h fun _ _ => isDecimalDigit_of_isPlainDigit, .inl h⟩
  · exact fun ⟨hform, h⟩ => h.resolve_right fun hword => not_form_of_word hword hform

end Number

theorem Scalar.exists_value?_number :
    (∃ x, Scalar.number.value? s = some (.number x)) ↔ (Number.read? s).isSome = true := by
  have htrim : Number.read? (trim s) = Number.read? s := by
    rw [Number.read?, Number.read?, Number.looksNumeric_trim, trim, String.toList_ofList, trimChars_trimChars]
  simp only [value?, htrim]
  cases Number.read? s <;> simp

/-- What looks like a number, in the digits of any script, is read as one unless a digit in it is none of
`0` to `9`; so it is with the texts of `(number in string)` and the numbers that `(number)` reads from them. -/
theorem Number.looksNumeric_agrees (s : String) :
    (looksNumeric s = true ↔ trimChars s.toList ∈ form isDecimalDigit) ∧
    ((read? s).isSome = true ↔ looksNumeric s = true ∧ trimChars s.toList ∈ numeric) ∧
    ((looksNumeric s = true ↔ (read? s).isSome = true) ↔ (looksNumeric s = true → HasPlainDigits s)) ∧
    ((Scalar.numberInString.admits (.text s) = true → ∃ x, Scalar.number.value? s = some (.number x)) ↔
      (Scalar.numberInString.admits (.text s) = true → HasPlainDigits s)) := by
  have hadmits : Scalar.numberInString.admits (.text s) = looksNumeric s := rfl
  refine ⟨looksNumeric_iff_form, isSome_read?_iff_numeric, ?_, ?_⟩
  · rw [isSome_read?_iff_plain]
    tauto
  · rw [Scalar.exists_value?_number, isSome_read?_iff_plain, hadmits]
    tauto

/-- An Arabic three looks numeric, and is no number to either reader. -/
theorem Number.not_looksNumeric_agrees :
    (¬∀ s, looksNumeric s = true ↔ (read? s).isSome = true) ∧
      Scalar.numberInString.admits (.text "٣") = true ∧ Scalar.number.value? "٣" = none := by
  refine ⟨fun h => absurd ((h "٣").mp ?_) ?_, ?_, ?_⟩ <;> decide

end PayloadContracts
