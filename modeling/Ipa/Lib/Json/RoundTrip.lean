import Ipa.Lib.Json.Decode
import Mathlib.Data.List.Induction

/-!
# Reading what was written

`loads_dumps`: a value that can be stored (`Value.Storable`) is written by `dumps` and read back from
the UTF-8 encoding of its text.  Three things keep a value from being stored: an integer with too many
digits, too many values in one another, and a string in which a high surrogate stands right before a
low one, which would be read as one code point.

Every reader is followed over one part of the text, with any rest behind it: `scanString_escape` for a
code point, `scanInteger_decimal` for a number, `scanList_joined` for the elements of a value.
-/

namespace PyJson

variable {c d : CodePoint} {s text rest : Text} {digits depth : ℕ}

/-! ## Strings -/

theorem hexValue_hexDigit : ∀ i < 16, hexValue (hexDigit i) = some i := by decide

/-- The four digits of an escape. -/
theorem hexValues_hexDigits {n : ℕ} (h : n < 0x10000) :
    hexValues (hexDigit (n / 0x1000)) (hexDigit (n / 0x100 % 0x10)) (hexDigit (n / 0x10 % 0x10))
      (hexDigit (n % 0x10)) = some (.ofNat n) := by
  have h₁ : n / 0x1000 < 16 := by omega
  simp only [hexValues, hexValue_hexDigit _ h₁, hexValue_hexDigit _ (Nat.mod_lt _ (by decide : 0 < 16)),
    Option.bind_eq_bind, Option.bind_some, Option.pure_def]
  congr 2
  omega

theorem scanString_plain (hquote : c ≠ dquote) (hslash : c ≠ backslash) (h : 0x20 ≤ c.val) :
    scanString (c :: text) = push c (scanString text) := by
  rw [scanString.eq_def]
  simp only
  rw [if_neg hquote, if_neg (Nat.not_lt.2 h), if_pos hslash]

theorem scanString_backslash {e : CodePoint} (he : e ≠ 'u') (h : unescape e = some c) :
    scanString (backslash :: e :: text) = push c (scanString text) := by
  rw [scanString.eq_def]
  simp only
  rw [if_neg (by decide), if_neg (by decide), if_neg (by decide), if_pos he, h]

/-- No escape of a low surrogate comes next. -/
def NoLow (text : Text) : Prop :=
  ∀ y₁ y₂ y₃ y₄ text', text = backslash :: 'u' :: y₁ :: y₂ :: y₃ :: y₄ :: text' →
    ∃ d, hexValues y₁ y₂ y₃ y₄ = some d ∧ ¬ d.Low

theorem scanString_unicode (hc : c.val < 0x10000) (hlow : c.High → NoLow text) :
    scanString (unicodeEscape c ++ text) = push c (scanString text) := by
  show scanString (backslash :: 'u' :: _ :: _ :: _ :: _ :: text) = _
  rw [scanString, if_neg (by decide), if_neg (by decide), if_neg (by decide),
    if_neg (by decide), hexValues_hexDigits hc, CodePoint.ofNat_val]
  simp only
  split
  · rename_i p q y₁ y₂ y₃ y₄ text'
    split_ifs with hpair
    · obtain ⟨hhigh, rfl, rfl⟩ := hpair
      obtain ⟨d, hd, hnot⟩ := hlow hhigh y₁ y₂ y₃ y₄ text' rfl
      rw [hd]
      simp only
      rw [if_neg hnot]
    · rfl
  · rfl

theorem scanString_pair (hc : c.val < 0x10000) (hd : d.val < 0x10000) (hhigh : c.High) (hlow : d.Low) :
    scanString (unicodeEscape c ++ (unicodeEscape d ++ text)) = push (.join c d) (scanString text) := by
  show scanString (backslash :: 'u' :: _ :: _ :: _ :: _ :: backslash :: 'u' :: _ :: _ :: _ :: _ :: text) = _
  rw [scanString, if_neg (by decide), if_neg (by decide), if_neg (by decide),
    if_neg (by decide), hexValues_hexDigits hc, CodePoint.ofNat_val]
  simp only
  rw [if_pos ⟨hhigh, trivial, trivial⟩, hexValues_hexDigits hd, CodePoint.ofNat_val]
  simp only
  rw [if_pos hlow]

/-- Every code point is written as itself, as a backslash and a letter, or as one or two escapes. -/
theorem escape_cases (c : CodePoint) :
    (escape c = [c] ∧ c ≠ dquote ∧ c ≠ backslash ∧ 0x20 ≤ c.val ∧ c.val ≤ 0x7E) ∨
    (∃ e, escape c = [backslash, e] ∧ e ≠ 'u' ∧ unescape e = some c ∧ 0 < e.val ∧ e.val < 0x80) ∨
    (escape c = unicodeEscape c ∧ c.val < 0x10000) ∨
    (escape c = unicodeEscape c.split.1 ++ unicodeEscape c.split.2 ∧ 0x10000 ≤ c.val) := by
  by_cases h₁ : c = dquote
  · subst h₁
    exact .inr (.inl ⟨dquote, rfl, by decide, by decide, by decide⟩)
  by_cases h₂ : c = backslash
  · subst h₂
    exact .inr (.inl ⟨backslash, rfl, by decide, by decide, by decide⟩)
  by_cases h₃ : 0x20 ≤ c.val ∧ c.val ≤ 0x7E
  · exact .inl ⟨by rw [escape, if_neg h₁, if_neg h₂, if_pos h₃], h₁, h₂, h₃⟩
  by_cases h₄ : c = .ofNat 0x08
  · subst h₄
    exact .inr (.inl ⟨'b', rfl, by decide, by decide, by decide⟩)
  by_cases h₅ : c = .ofNat 0x0C
  · subst h₅
    exact .inr (.inl ⟨'f', rfl, by decide, by decide, by decide⟩)
  by_cases h₆ : c = '\n'
  · subst h₆
    exact .inr (.inl ⟨'n', rfl, by decide, by decide, by decide⟩)
  by_cases h₇ : c = '\r'
  · subst h₇
    exact .inr (.inl ⟨'r', rfl, by decide, by decide, by decide⟩)
  by_cases h₈ : c = '\t'
  · subst h₈
    exact .inr (.inl ⟨'t', rfl, by decide, by decide, by decide⟩)
  have hescape : escape c = if c.val < 0x10000 then unicodeEscape c
      else unicodeEscape c.split.1 ++ unicodeEscape c.split.2 := by
    rw [escape, if_neg h₁, if_neg h₂, if_neg h₃, if_neg h₄, if_neg h₅, if_neg h₆, if_neg h₇, if_neg h₈]
  by_cases h₉ : c.val < 0x10000
  · exact .inr (.inr (.inl ⟨by rw [hescape, if_pos h₉], h₉⟩))
  · exact .inr (.inr (.inr ⟨by rw [hescape, if_neg h₉], Nat.not_lt.1 h₉⟩))

theorem unicodeEscape_inj_low {text' : Text} {y₁ y₂ y₃ y₄ : CodePoint} (hc : c.val < 0x10000)
    (hlow : ¬ c.Low)
    (h : unicodeEscape c ++ text = backslash :: 'u' :: y₁ :: y₂ :: y₃ :: y₄ :: text') :
    ∃ d, hexValues y₁ y₂ y₃ y₄ = some d ∧ ¬ d.Low := by
  simp only [unicodeEscape, List.cons_append, List.nil_append, List.cons.injEq, true_and] at h
  obtain ⟨rfl, rfl, rfl, rfl, -⟩ := h
  exact ⟨c, (hexValues_hexDigits hc).trans (congrArg some c.ofNat_val), hlow⟩

/-- What is written for a string that does not start with a low surrogate does not start with the
escape of one. -/
theorem noLow_flatMap_escape (h : ∀ d ∈ s.head?, ¬ d.Low) (text : Text) :
    NoLow (s.flatMap escape ++ dquote :: text) := by
  intro y₁ y₂ y₃ y₄ text' heq
  cases s with
  | nil => exact absurd (List.cons.inj heq).1 (by decide)
  | cons d s =>
    have hd : ¬ d.Low := h d rfl
    rw [List.flatMap_cons, List.append_assoc] at heq
    rcases escape_cases d with ⟨hesc, -, hslash, -⟩ | ⟨e, hesc, he, -⟩ | ⟨hesc, hlt⟩ | ⟨hesc, hge⟩
    · rw [hesc] at heq
      exact absurd (List.cons.inj heq).1 hslash
    · rw [hesc] at heq
      exact absurd (List.cons.inj (List.cons.inj heq).2).1 he
    · rw [hesc] at heq
      exact unicodeEscape_inj_low hlt hd heq
    · rw [hesc, List.append_assoc] at heq
      have hhigh := CodePoint.high_split hge
      have hlt : d.split.1.val < 0xDC00 := hhigh.2
      exact unicodeEscape_inj_low (by omega) (fun hlow => absurd hlow.1 (by omega)) heq

/-- A code point that is written is read. -/
theorem scanString_escape (h : c.High → NoLow text) :
    scanString (escape c ++ text) = push c (scanString text) := by
  rcases escape_cases c with ⟨hesc, hquote, hslash, hge, -⟩ | ⟨e, hesc, he, hunescape, -⟩ | ⟨hesc, hlt⟩ |
    ⟨hesc, hge⟩
  · rw [hesc]
    exact scanString_plain hquote hslash hge
  · rw [hesc]
    exact scanString_backslash he hunescape
  · rw [hesc]
    exact scanString_unicode hlt h
  · have hhigh := CodePoint.high_split hge
    have hlow : c.split.2.Low := CodePoint.low_split
    have hlt : c.split.1.val < 0xDC00 := hhigh.2
    have hlt' : c.split.2.val < 0xE000 := hlow.2
    rw [hesc, List.append_assoc, scanString_pair (by omega) (by omega) hhigh hlow,
      CodePoint.join_split hge]

/-- A string that is written is read. -/
theorem scanString_quote (h : Unpaired s) (rest : Text) :
    scanString (s.flatMap escape ++ dquote :: rest) = .ok (s, rest) := by
  induction s with
  | nil =>
    show scanString (dquote :: rest) = _
    rw [scanString.eq_def]
    exact if_pos rfl
  | cons c s ih =>
    obtain ⟨hc, hs⟩ := h
    have hlow : c.High → NoLow (s.flatMap escape ++ dquote :: rest) :=
      fun hhigh => noLow_flatMap_escape (hc hhigh) rest
    rw [List.flatMap_cons, List.append_assoc, scanString_escape hlow, ih hs]
    rfl

/-! ## Numbers -/

/-- What may follow a value: a comma, a closing bracket, or nothing. -/
def Ends (rest : Text) : Prop := ∀ c ∈ rest.head?, c = ',' ∨ c = ']' ∨ c = rbrace

theorem ends_cons (h : c = ',' ∨ c = ']' ∨ c = rbrace) (rest : Text) : Ends (c :: rest) := by
  rintro d hd
  obtain rfl := Option.some.inj hd
  exact h

/-- The first code point of such a rest is none of those that a number goes on with. -/
theorem Ends.cases (h : Ends rest) :
    rest = [] ∨ ∃ c text, rest = c :: text ∧ isDigit c = false ∧ c ≠ '.' ∧ c ≠ 'e' ∧ c ≠ 'E' := by
  cases rest with
  | nil => exact .inl rfl
  | cons c text =>
    refine .inr ⟨c, text, rfl, ?_⟩
    rcases h c rfl with rfl | rfl | rfl <;> decide

/-- A decimal digit as it is written. -/
def digit (i : ℕ) : CodePoint := .ofNat (Nat.digitChar i).toNat

theorem isDigit_digit : ∀ i < 10, isDigit (digit i) = true := by decide

theorem val_digit : ∀ i < 10, (digit i).val - 0x30 = i := by decide

/-- The digits of a number: one digit, or those of a positive number and one more. -/
theorem decimal_induction {motive : ℕ → Text → Prop} (single : ∀ i < 10, motive i [digit i])
    (snoc : ∀ n i, 0 < n → i < 10 → motive n (decimal n) →
      motive (10 * n + i) (decimal n ++ [digit i])) (n : ℕ) : motive n (decimal n) := by
  induction n using Nat.strongRecOn with
  | ind n ih =>
    by_cases hn : n < 10
    · have hdecimal : decimal n = [digit n] := by
        rw [decimal, Nat.toDigits_of_lt_base hn]
        rfl
      rw [hdecimal]
      exact single n hn
    · have hdecimal : decimal n = decimal (n / 10) ++ [digit (n % 10)] := by
        rw [decimal, Nat.toDigits_of_base_le (by decide) (Nat.not_lt.1 hn), List.map_append]
        rfl
      have hsplit : n = 10 * (n / 10) + n % 10 := (Nat.div_add_mod n 10).symm
      have hsnoc := snoc (n / 10) (n % 10) (by omega) (by omega) (ih (n / 10) (by omega))
      rwa [← hsplit, ← hdecimal] at hsnoc

theorem ofDigits_decimal (n : ℕ) : ofDigits (decimal n) = n := by
  induction n using decimal_induction with
  | single i hi => exact (congrArg (0 + ·) (val_digit i hi)).trans (Nat.zero_add i)
  | snoc n i _ hi ih =>
    rw [ofDigits, List.foldl_append, ← ofDigits, ih]
    exact congrArg (10 * n + ·) (val_digit i hi)

/-- The digits of a number start with a zero only if it is the only one. -/
theorem decimal_cases (n : ℕ) :
    decimal n = [('0' : CodePoint)] ∨ ∃ c text, decimal n = c :: text ∧ c ≠ '0' ∧ isDigit c = true ∧
      ∀ d ∈ text, isDigit d = true := by
  induction n using decimal_induction with
  | single i hi =>
    have key : ∀ i < 10, digit i = '0' ∨ digit i ≠ '0' := by decide
    rcases key i hi with hzero | hne
    · exact .inl (congrArg ([·]) hzero)
    · exact .inr ⟨digit i, [], rfl, hne, isDigit_digit i hi, by simp⟩
  | snoc n i hn hi ih =>
    rcases ih with hzero | ⟨c, text, htext, hc, hdigit, htail⟩
    · have hn0 : n = 0 := by
        rw [← ofDigits_decimal n, hzero]
        rfl
      exact absurd hn (by omega)
    · refine .inr ⟨c, text ++ [digit i], by rw [htext]; rfl, hc, hdigit, ?_⟩
      rw [List.forall_mem_append]
      exact ⟨htail, by simpa using isDigit_digit i hi⟩

theorem isDigit_of_mem_decimal {n : ℕ} (h : c ∈ decimal n) : isDigit c = true := by
  rcases decimal_cases n with hzero | ⟨c', text, htext, -, hdigit, htail⟩
  · rw [hzero, List.mem_singleton] at h
    rw [h]
    decide
  · rw [htext, List.mem_cons] at h
    rcases h with rfl | hmem
    · exact hdigit
    · exact htail c hmem

theorem scanInteger_decimal (n : ℕ) (h : Ends rest) :
    scanInteger (decimal n ++ rest) = some (decimal n, rest) := by
  rcases decimal_cases n with hzero | ⟨c, text, htext, hc, hdigit, htail⟩
  · rw [hzero, List.singleton_append, scanInteger, if_pos rfl]
  · have htake : (text ++ rest).takeWhile isDigit = text ∧ (text ++ rest).dropWhile isDigit = rest := by
      rw [List.takeWhile_append_of_pos htail, List.dropWhile_append_of_pos htail]
      rcases h.cases with rfl | ⟨d, rest', rfl, hd, -⟩
      · exact ⟨List.append_nil text, rfl⟩
      · rw [List.takeWhile_cons_of_neg (by simp [hd]), List.dropWhile_cons_of_neg (by simp [hd])]
        exact ⟨List.append_nil text, rfl⟩
    rw [htext, List.cons_append, scanInteger, if_neg hc, if_pos hdigit, htake.1, htake.2]

theorem scanFraction_of_ends (h : Ends rest) : scanFraction rest = ([], rest) := by
  rcases h.cases with rfl | ⟨c, text, rfl, -, hdot, -⟩
  · rfl
  · cases text with
    | nil => rfl
    | cons d text => rw [scanFraction, if_neg fun hand => hdot hand.1]

theorem scanExponent_of_ends (h : Ends rest) : scanExponent rest = ([], rest) := by
  rcases h.cases with rfl | ⟨c, text, rfl, -, -, hlower, hupper⟩
  · rfl
  · rw [scanExponent, if_neg (not_or.2 ⟨hlower, hupper⟩)]

/-- Digits that are written are read as the number. -/
theorem matchUnsigned_decimal {n : ℕ} (negative : Bool) (hdigits : (decimal n).length ≤ digits)
    (h : Ends rest) : matchUnsigned digits negative (decimal n ++ rest) =
      .ok (.int (if negative then -n else n), rest) := by
  rw [matchUnsigned, scanInteger_decimal n h]
  simp only
  rw [scanFraction_of_ends h]
  simp only
  rw [scanExponent_of_ends h]
  simp only
  rw [if_pos ⟨trivial, trivial⟩, if_neg (Nat.not_lt.2 hdigits), ofDigits_decimal]

theorem scanScalar_of_not_prefix (h : ∀ k ∈ constants, ¬ k.1 <+: text) :
    scanScalar digits text = matchNumber digits text := by
  have hnone : (constants.find? fun k => k.1.isPrefixOf text) = none :=
    List.find?_eq_none.2 fun k hk hk' => h k hk (List.isPrefixOf_iff_prefix.1 hk')
  rw [scanScalar, hnone]

/-- No constant starts with a digit, or with a minus sign and a digit. -/
theorem not_prefix_of_isDigit (hc : isDigit c = true) (text : Text) :
    ∀ k ∈ constants, ¬ k.1 <+: c :: text ∧ ¬ k.1 <+: ('-' : CodePoint) :: c :: text := by
  have key : ∀ k ∈ constants, ∃ x y, k.1.take 2 = [x, y] ∧ isDigit x = false ∧ isDigit y = false := by
    simp only [constants, List.forall_mem_cons]
    refine ⟨⟨_, _, rfl, ?_⟩, ⟨_, _, rfl, ?_⟩, ⟨_, _, rfl, ?_⟩, ⟨_, _, rfl, ?_⟩, ⟨_, _, rfl, ?_⟩,
      ⟨_, _, rfl, ?_⟩, by simp⟩ <;> decide
  intro k hk
  obtain ⟨x, y, htake, hx, hy⟩ := key k hk
  have hsplit : k.1 = x :: y :: k.1.drop 2 := by
    conv_lhs => rw [← List.take_append_drop 2 k.1, htake]
    rfl
  rw [hsplit]
  constructor
  · rintro ⟨text', htext'⟩
    obtain rfl : x = c := (List.cons.inj htext').1
    exact absurd hc (by simp [hx])
  · rintro ⟨text', htext'⟩
    obtain rfl : y = c := (List.cons.inj (List.cons.inj htext').2).1
    exact absurd hc (by simp [hy])

/-- An integer that is written is read. -/
theorem scanScalar_intText {n : ℤ} (hdigits : (decimal n.natAbs).length ≤ digits) :
    ∃ text, intText digits n = .ok text ∧
      ∀ rest, Ends rest → scanScalar digits (text ++ rest) = .ok (.int n, rest) := by
  refine ⟨_, if_neg (Nat.not_lt.2 hdigits), fun rest hrest => ?_⟩
  obtain ⟨c, text, htext, hc⟩ : ∃ c text, decimal n.natAbs = c :: text ∧ isDigit c = true := by
    rcases decimal_cases n.natAbs with hzero | ⟨c, text, htext, -, hdigit, -⟩
    · exact ⟨_, _, hzero, by decide⟩
    · exact ⟨c, text, htext, hdigit⟩
  have hminus : c ≠ '-' := by
    rintro rfl
    exact absurd hc (by decide)
  have hread := fun negative => matchUnsigned_decimal negative hdigits hrest
  rw [htext, List.cons_append] at hread
  split_ifs with hn
  · have hnumber : -(n.natAbs : ℤ) = n := by omega
    have hkinds := fun k hk => (not_prefix_of_isDigit hc (text ++ rest) k hk).2
    rw [htext, List.cons_append, List.cons_append, scanScalar_of_not_prefix hkinds, matchNumber,
      if_pos rfl, hread, if_pos rfl, hnumber]
  · have hnumber : (n.natAbs : ℤ) = n := by omega
    have hkinds := fun k hk => (not_prefix_of_isDigit hc (text ++ rest) k hk).1
    rw [htext, List.cons_append, scanScalar_of_not_prefix hkinds, matchNumber, if_neg hminus, hread,
      if_neg (by decide), hnumber]

/-! ## Elements -/

section Elements

variable {A : Type} {close : CodePoint} {p : Text → Except Error (A × Text)} {fuel : ℕ} {a : A}

/-- The first code point of a value: no whitespace and no closing bracket. -/
def Starts (text : Text) : Prop :=
  ∃ c t, text = c :: t ∧ isWhitespace c = false ∧ c ≠ ']' ∧ c ≠ rbrace

/-- The element is written as the text: all of it is ASCII, and it is read with any rest behind it. -/
structure WrittenAs (p : Text → Except Error (A × Text)) (a : A) (text : Text) : Prop where
  ascii : Ascii text
  starts : Starts text
  read : ∀ rest, Ends rest → p (text ++ rest) = .ok (a, rest)

theorem skipWhitespace_of_starts (h : Starts text) (rest : Text) :
    skipWhitespace (text ++ rest) = text ++ rest := by
  obtain ⟨c, t, rfl, hc, -⟩ := h
  exact List.dropWhile_cons_of_neg (by simp [hc])

theorem joined_cons_cons (text text' : Text) (texts : List Text) :
    joined (text :: text' :: texts) =
      text ++ ((',' : CodePoint) :: (' ' : CodePoint) :: joined (text' :: texts)) := by
  rw [joined, List.intercalate_cons_cons]
  exact List.append_assoc ..

theorem starts_joined (texts : List Text) (h : Starts text) : Starts (joined (text :: texts)) := by
  obtain ⟨c, t, rfl, hc⟩ := h
  cases texts with
  | nil => exact ⟨c, t, List.intercalate_singleton .., hc⟩
  | cons text' texts => exact ⟨c, _, joined_cons_cons .., hc⟩

/-- Elements that are written are read, up to the closing bracket. -/
theorem scanList_joined (hclose : close = ']' ∨ close = rbrace) {elements : List A}
    {texts : List Text} (hwritten : List.Forall₂ (WrittenAs p) elements texts) (hne : texts ≠ [])
    (hfuel : texts.length ≤ fuel) (rest : Text) :
    scanList close p fuel (joined texts ++ close :: rest) = .ok (elements, rest) := by
  induction hwritten generalizing fuel with
  | nil => exact absurd rfl hne
  | @cons a text elements texts ha hwritten ih =>
    obtain ⟨fuel, rfl⟩ : ∃ n, fuel = n + 1 :=
      Nat.exists_eq_succ_of_ne_zero (Nat.ne_of_gt (Nat.lt_of_lt_of_le (Nat.succ_pos _) hfuel))
    cases hwritten with
    | nil =>
      have hread := ha.read (close :: rest) (ends_cons (.inr hclose) rest)
      have hskip : skipWhitespace (close :: rest) = close :: rest := by
        rcases hclose with rfl | rfl <;> rfl
      rw [joined, List.intercalate_singleton, scanList, hread]
      simp only [bind, Except.bind, hskip]
      exact if_pos trivial
    | @cons a' text' elements texts ha' hwritten =>
      have hread := ha.read
        ((',' : CodePoint) :: (' ' : CodePoint) :: (joined (text' :: texts) ++ close :: rest))
        (ends_cons (.inl rfl) _)
      have hcomma : (',' : CodePoint) ≠ close := by
        rcases hclose with rfl | rfl <;> decide
      have hnext : skipWhitespace ((' ' : CodePoint) :: (joined (text' :: texts) ++ close :: rest)) =
          joined (text' :: texts) ++ close :: rest :=
        skipWhitespace_of_starts (starts_joined texts ha'.starts) (close :: rest)
      have hrest := ih (by simp) (Nat.le_of_succ_le_succ hfuel)
      rw [joined_cons_cons, List.append_assoc, List.cons_append, List.cons_append, scanList, hread]
      show (if (',' : CodePoint) = close then _ else if (',' : CodePoint) = ',' then _ else _) = _
      rw [if_neg hcomma, if_pos rfl, hnext, hrest]
      rfl

theorem length_le_joined {elements : List A} {texts : List Text}
    (hwritten : List.Forall₂ (WrittenAs p) elements texts) : texts.length ≤ (joined texts).length := by
  induction hwritten with
  | nil => exact Nat.le_refl _
  | @cons a text elements texts ha hwritten ih =>
    obtain ⟨c, t, rfl, -⟩ := ha.starts
    cases texts with
    | nil => simp [joined]
    | cons text' texts =>
      rw [joined_cons_cons]
      simp only [List.length_cons, List.length_append] at ih ⊢
      omega

/-- All the elements that are written are read, after the opening bracket. -/
theorem scanBody_joined (hclose : close = ']' ∨ close = rbrace) {elements : List A}
    {texts : List Text} (hwritten : List.Forall₂ (WrittenAs p) elements texts) (rest : Text) :
    scanBody close p (joined texts ++ close :: rest) = .ok (elements, rest) := by
  have hlength := length_le_joined hwritten
  cases hwritten with
  | nil =>
    have hskip : skipWhitespace (close :: rest) = close :: rest := by
      rcases hclose with rfl | rfl <;> rfl
    show scanBody close p (close :: rest) = _
    unfold scanBody
    rw [hskip]
    exact if_pos rfl
  | @cons a text elements texts ha hwritten =>
    have hstarts := starts_joined texts ha.starts
    have hskip := skipWhitespace_of_starts hstarts (close :: rest)
    obtain ⟨c, t, htext, -, hbracket, hbrace⟩ := hstarts
    have hne : c ≠ close := by
      rcases hclose with rfl | rfl
      · exact hbracket
      · exact hbrace
    have hfuel : (text :: texts).length ≤ (t ++ close :: rest).length + 2 := by
      rw [htext] at hlength
      simp only [List.length_cons, List.length_append] at hlength ⊢
      omega
    have hread := scanList_joined hclose (.cons ha hwritten) (List.cons_ne_nil _ _) hfuel rest
    unfold scanBody
    rw [hskip]
    rw [htext, List.cons_append] at hread ⊢
    simp only
    rw [if_neg hne, hread]

/-- The text of the elements is ASCII. -/
theorem ascii_joined {elements : List A} {texts : List Text}
    (hwritten : List.Forall₂ (WrittenAs p) elements texts) : Ascii (joined texts) := by
  induction hwritten with
  | nil => exact fun c hc => absurd hc List.not_mem_nil
  | @cons a text elements texts ha hwritten ih =>
    cases texts with
    | nil =>
      rw [joined, List.intercalate_singleton]
      exact ha.ascii
    | cons text' texts =>
      rw [joined_cons_cons, ascii_append, ascii_cons, ascii_cons]
      exact ⟨ha.ascii, by decide, by decide, ih⟩

end Elements

/-! ## Values -/

mutual

/-- `dumps` writes the value, with room for `depth` nested calls, and `loads` reads it back. -/
def Value.Storable (digits : ℕ) : Value → ℕ → Prop
  | .null, _ | .bool _, _ => True
  | .int n, _ => (decimal n.natAbs).length ≤ digits
  | .float _, _ => False
  | .str s, _ => Unpaired s
  | .arr _, 0 | .obj _, 0 => False
  | .arr items, depth + 1 => StorableItems digits items depth
  | .obj members, depth + 1 => (members.map Prod.fst).Nodup ∧ StorableMembers digits members depth

/-- The items of a list can be stored at this depth. -/
def StorableItems (digits : ℕ) : List Value → ℕ → Prop
  | [], _ => True
  | item :: items, depth => item.Storable digits depth ∧ StorableItems digits items depth

/-- The members of a dictionary can be stored at this depth. -/
def StorableMembers (digits : ℕ) : List (Text × Value) → ℕ → Prop
  | [], _ => True
  | (k, v) :: members, depth =>
    (Unpaired k ∧ v.Storable digits depth) ∧ StorableMembers digits members depth

end

theorem assign_of_notMem {k : Text} {v : Value} {members : List (Text × Value)}
    (h : k ∉ members.map Prod.fst) : assign k v members = members ++ [(k, v)] := by
  induction members with
  | nil => rfl
  | cons m members ih =>
    rw [List.map_cons, List.mem_cons, not_or] at h
    rw [assign, if_neg (Ne.symm h.1), ih h.2]
    rfl

/-- Members with different keys are a dictionary. -/
theorem dict_of_nodup {members : List (Text × Value)} (h : (members.map Prod.fst).Nodup) :
    dict members = members := by
  induction members using List.reverseRecOn with
  | nil => rfl
  | append_singleton members m ih =>
    rw [List.map_append, List.nodup_append] at h
    have hne : m.1 ∉ members.map Prod.fst :=
      fun hm => h.2.2 _ hm _ (List.mem_singleton_self _) rfl
    rw [dict, List.foldl_append, ← dict, ih h.1]
    exact assign_of_notMem hne

theorem ascii_unicodeEscape (h : c.val < 0x10000) : Ascii (unicodeEscape c) := by
  have key : ∀ i < 16, 0 < (hexDigit i).val ∧ (hexDigit i).val < 0x80 := by decide
  have hmod : ∀ n, n % 0x10 < 16 := fun n => Nat.mod_lt n (by decide)
  simp only [unicodeEscape, ascii_cons]
  exact ⟨by decide, by decide, key _ (by omega), key _ (hmod _), key _ (hmod _), key _ (hmod _),
    fun c hc => absurd hc List.not_mem_nil⟩

theorem ascii_escape (c : CodePoint) : Ascii (escape c) := by
  rcases escape_cases c with ⟨hesc, -, -, hge, hle⟩ | ⟨e, hesc, -, -, he⟩ | ⟨hesc, hlt⟩ | ⟨hesc, hge⟩
  · rw [hesc, ascii_cons]
    exact ⟨⟨by omega, by omega⟩, fun c hc => absurd hc List.not_mem_nil⟩
  · rw [hesc, ascii_cons, ascii_cons]
    exact ⟨by decide, he, fun c hc => absurd hc List.not_mem_nil⟩
  · rw [hesc]
    exact ascii_unicodeEscape hlt
  · have hlt : c.split.1.val < 0xDC00 := (CodePoint.high_split hge).2
    have hlt' : c.split.2.val < 0xE000 := CodePoint.low_split.2
    rw [hesc, ascii_append]
    exact ⟨ascii_unicodeEscape (by omega), ascii_unicodeEscape (by omega)⟩

theorem ascii_quote (s : Text) : Ascii (quote s) := by
  have hs : Ascii (s.flatMap escape) := by
    intro c hc
    obtain ⟨d, -, hd⟩ := List.mem_flatMap.1 hc
    exact ascii_escape d c hd
  rw [quote, ascii_cons, ascii_append, ascii_cons]
  exact ⟨by decide, hs, by decide, fun c hc => absurd hc List.not_mem_nil⟩

/-- A value that starts neither as a string nor as an object nor as a list. -/
theorem scanOnce_scalar (hquote : c ≠ dquote) (hbrace : c ≠ lbrace) (hbracket : c ≠ '[') :
    scanOnce digits depth (c :: text) = scanScalar digits (c :: text) := by
  cases depth <;> rw [scanOnce, if_neg hquote, if_neg hbrace, if_neg hbracket]

/-- A constant is written as its name. -/
theorem writtenAs_constant {name : Text} {v : Value} (hname : name ∈ [ascii "null", ascii "true", ascii "false"])
    (h : ∀ rest, scanScalar digits (name ++ rest) = .ok (v, rest)) :
    WrittenAs (scanOnce digits depth) v name := by
  have hstart : ∃ c t, name = c :: t ∧ c ≠ dquote ∧ c ≠ lbrace ∧ c ≠ '[' ∧ isWhitespace c = false ∧
      c ≠ ']' ∧ c ≠ rbrace := by
    simp only [List.mem_cons, List.not_mem_nil, or_false] at hname
    rcases hname with rfl | rfl | rfl <;> exact ⟨_, _, rfl, by decide⟩
  have hascii : Ascii name := by
    simp only [List.mem_cons, List.not_mem_nil, or_false] at hname
    rcases hname with rfl | rfl | rfl <;> unfold Ascii <;> decide
  obtain ⟨c, t, rfl, hquote, hbrace, hbracket, hc⟩ := hstart
  exact ⟨hascii, ⟨c, t, rfl, hc⟩, fun rest _ =>
    (scanOnce_scalar hquote hbrace hbracket).trans (h rest)⟩

theorem ascii_of_isDigit (h : ∀ c ∈ text, isDigit c = true) : Ascii text := by
  intro c hc
  have hdigit : 0x30 ≤ c.val ∧ c.val ≤ 0x39 := of_decide_eq_true (h c hc)
  omega

theorem writtenAs_int {n : ℤ} (hdigits : (decimal n.natAbs).length ≤ digits) :
    ∃ text, intText digits n = .ok text ∧ WrittenAs (scanOnce digits depth) (.int n) text := by
  obtain ⟨text, htext, hread⟩ := scanScalar_intText hdigits
  have hdecimal : ∀ c ∈ decimal n.natAbs, isDigit c = true := fun c => isDigit_of_mem_decimal
  have hascii : Ascii text ∧ ∃ c t, text = c :: t ∧ (isDigit c = true ∨ c = '-') := by
    rw [intText, if_neg (Nat.not_lt.2 hdigits)] at htext
    obtain rfl := Except.ok.inj htext
    split_ifs with hn
    · exact ⟨ascii_cons.2 ⟨by decide, ascii_of_isDigit hdecimal⟩, _, _, rfl, .inr rfl⟩
    · refine ⟨ascii_of_isDigit hdecimal, ?_⟩
      rcases decimal_cases n.natAbs with hzero | ⟨c, t, ht, -, hdigit, -⟩
      · exact ⟨_, _, hzero, .inl (by decide)⟩
      · exact ⟨c, t, ht, .inl hdigit⟩
  obtain ⟨hascii, c, t, rfl, hc⟩ := hascii
  have hne : ∀ d : CodePoint, isDigit d = false → d ≠ '-' → c ≠ d := by
    rintro d hd hminus rfl
    rcases hc with hdigit | rfl
    · exact absurd hdigit (by simp [hd])
    · exact hminus rfl
  have hspace : isWhitespace c = false := by
    rcases hc with hdigit | rfl
    · have hval : 0x30 ≤ c.val ∧ c.val ≤ 0x39 := of_decide_eq_true hdigit
      simp only [isWhitespace, decide_eq_false_iff_not, not_or]
      exact ⟨hne _ (by decide) (by decide), hne _ (by decide) (by decide),
        hne _ (by decide) (by decide), hne _ (by decide) (by decide)⟩
    · decide
  refine ⟨_, htext, hascii, ⟨c, t, rfl, hspace, hne _ (by decide) (by decide),
    hne _ (by decide) (by decide)⟩, fun rest hrest => ?_⟩
  exact (scanOnce_scalar (hne _ (by decide) (by decide)) (hne _ (by decide) (by decide))
    (hne _ (by decide) (by decide))).trans (hread rest hrest)

theorem writtenAs_str (h : Unpaired s) : WrittenAs (scanOnce digits depth) (.str s) (quote s) := by
  refine ⟨ascii_quote s, ⟨dquote, _, rfl, by decide⟩, fun rest _ => ?_⟩
  have hread := scanString_quote h rest
  rw [quote, List.cons_append, List.append_assoc, List.singleton_append]
  cases depth <;> rw [scanOnce, if_pos rfl, hread] <;> rfl

theorem writtenAs_member {k : Text} {v : Value} {p : Text → Except Error (Value × Text)}
    (hk : Unpaired k) (hv : WrittenAs p v text) :
    WrittenAs (scanMember p) (k, v) (quote k ++ PyJson.ascii ": " ++ text) := by
  refine ⟨?_, ⟨dquote, _, rfl, by decide⟩, fun rest hrest => ?_⟩
  · rw [ascii_append, ascii_append]
    refine ⟨⟨ascii_quote k, ?_⟩, hv.ascii⟩
    unfold Ascii
    decide
  · have hread := scanString_quote hk (PyJson.ascii ": " ++ (text ++ rest))
    have hskip : skipWhitespace ((' ' : CodePoint) :: (text ++ rest)) = text ++ rest :=
      skipWhitespace_of_starts hv.starts rest
    have hcolon : skipWhitespace (PyJson.ascii ": " ++ (text ++ rest)) =
      (':' : CodePoint) :: (' ' : CodePoint) :: (text ++ rest) := rfl
    have hvalue := hv.read rest hrest
    rw [quote, List.append_assoc, List.cons_append, List.cons_append, List.append_assoc,
      List.append_assoc, List.singleton_append, scanMember, if_pos rfl, hread]
    simp only [bind, Except.bind, hcolon, hskip, hvalue]
    rfl

theorem writtenAs_arr {items : List Value} {texts : List Text}
    (h : List.Forall₂ (WrittenAs (scanOnce digits depth)) items texts) :
    WrittenAs (scanOnce digits (depth + 1)) (.arr items) ('[' :: (joined texts ++ [(']' : CodePoint)])) := by
  refine ⟨?_, ⟨'[', _, rfl, by decide⟩, fun rest _ => ?_⟩
  · rw [ascii_cons, ascii_append, ascii_cons]
    exact ⟨by decide, ascii_joined h, by decide, fun c hc => absurd hc List.not_mem_nil⟩
  · have hread := scanBody_joined (.inl rfl) h rest
    rw [List.cons_append, List.append_assoc, List.singleton_append, scanOnce, if_neg (by decide),
      if_neg (by decide), if_pos rfl, scanItems, hread]
    rfl

theorem writtenAs_obj {members : List (Text × Value)} {texts : List Text}
    (hnodup : (members.map Prod.fst).Nodup)
    (h : List.Forall₂ (WrittenAs (scanMember (scanOnce digits depth))) members texts) :
    WrittenAs (scanOnce digits (depth + 1)) (.obj members) (lbrace :: (joined texts ++ [rbrace])) := by
  refine ⟨?_, ⟨lbrace, _, rfl, by decide⟩, fun rest _ => ?_⟩
  · rw [ascii_cons, ascii_append, ascii_cons]
    exact ⟨by decide, ascii_joined h, by decide, fun c hc => absurd hc List.not_mem_nil⟩
  · have hread := scanBody_joined (.inr rfl) h rest
    rw [List.cons_append, List.append_assoc, List.singleton_append, scanOnce, if_neg (by decide),
      if_pos rfl, scanMembers, hread]
    show Except.ok (Value.obj (dict members), rest) = _
    rw [dict_of_nodup hnodup]

mutual

/-- A value that can be stored is written, and read. -/
theorem encode_storable : ∀ (v : Value) (depth : ℕ), v.Storable digits depth →
    ∃ text, encode .default digits v depth = .ok text ∧ WrittenAs (scanOnce digits depth) v text
  | .null, depth, _ => ⟨_, rfl, writtenAs_constant (by simp) fun _ => rfl⟩
  | .bool true, depth, _ => ⟨_, rfl, writtenAs_constant (by simp) fun _ => rfl⟩
  | .bool false, depth, _ => ⟨_, rfl, writtenAs_constant (by simp) fun _ => rfl⟩
  | .int n, depth, h => by
    rw [encode]
    exact writtenAs_int h
  | .float _, _, h => absurd h id
  | .str s, depth, h => ⟨_, rfl, writtenAs_str h⟩
  | .arr items, depth + 1, h => by
    obtain ⟨texts, htexts, hwritten⟩ := encodeItems_storable items depth h
    rw [encode, htexts]
    exact ⟨_, rfl, writtenAs_arr hwritten⟩
  | .obj members, depth + 1, h => by
    obtain ⟨texts, htexts, hwritten⟩ := encodeMembers_storable members depth h.2
    rw [encode, htexts]
    exact ⟨_, rfl, writtenAs_obj h.1 hwritten⟩

theorem encodeItems_storable : ∀ (items : List Value) (depth : ℕ), StorableItems digits items depth →
    ∃ texts, encodeItems .default digits items depth = .ok texts ∧
      List.Forall₂ (WrittenAs (scanOnce digits depth)) items texts
  | [], depth, _ => ⟨[], rfl, .nil⟩
  | item :: items, depth, h => by
    obtain ⟨text, htext, hwritten⟩ := encode_storable item depth h.1
    obtain ⟨texts, htexts, hwrittens⟩ := encodeItems_storable items depth h.2
    refine ⟨text :: texts, ?_, .cons hwritten hwrittens⟩
    rw [encodeItems, htext, htexts]
    rfl

theorem encodeMembers_storable : ∀ (members : List (Text × Value)) (depth : ℕ),
    StorableMembers digits members depth →
    ∃ texts, encodeMembers .default digits members depth = .ok texts ∧
      List.Forall₂ (WrittenAs (scanMember (scanOnce digits depth))) members texts
  | [], depth, _ => ⟨[], rfl, .nil⟩
  | (k, v) :: members, depth, h => by
    obtain ⟨text, htext, hwritten⟩ := encode_storable v depth h.1.2
    obtain ⟨texts, htexts, hwrittens⟩ := encodeMembers_storable members depth h.2
    refine ⟨_ :: texts, ?_, .cons (writtenAs_member h.1.1 hwritten) hwrittens⟩
    rw [encodeMembers, htext, htexts]
    rfl

end

/-! ## Bytes -/

/-- An ASCII text is taken for UTF-8. -/
theorem detectEncoding_of_ascii (h : Ascii text) :
    detectEncoding (text.map fun c => .ofNat c.val) = .utf8 := by
  have hbyte : ∀ c ∈ text, ∀ b : UInt8, b.toNat = 0 ∨ 0x80 ≤ b.toNat → UInt8.ofNat c.val ≠ b := by
    rintro c hc b hb rfl
    have hval := h c hc
    rw [UInt8.toNat_ofNat'] at hb
    omega
  have hmark : ∀ (b : UInt8) (mark : List UInt8), b.toNat = 0 ∨ 0x80 ≤ b.toNat →
      (b :: mark).isPrefixOf (text.map fun c => UInt8.ofNat c.val) = false := by
    intro b mark hb
    cases text with
    | nil => rfl
    | cons c text =>
      have hne : b ≠ UInt8.ofNat c.val := (hbyte c List.mem_cons_self b hb).symm
      rw [List.map_cons, List.isPrefixOf, beq_false_of_ne hne, Bool.false_and]
  unfold detectEncoding
  simp only [hmark _ _ (.inl rfl : UInt8.toNat 0x00 = 0 ∨ _),
    hmark _ _ (.inr (by decide) : _ ∨ 0x80 ≤ UInt8.toNat 0xFF),
    hmark _ _ (.inr (by decide) : _ ∨ 0x80 ≤ UInt8.toNat 0xFE),
    hmark _ _ (.inr (by decide) : _ ∨ 0x80 ≤ UInt8.toNat 0xEF)]
  have hzero : ∀ c ∈ text, UInt8.ofNat c.val ≠ 0 := fun c hc => hbyte c hc 0 (.inl rfl)
  rcases text with _ | ⟨a, _ | ⟨b, _ | ⟨c, _ | ⟨d, text⟩⟩⟩⟩
  · rfl
  · rfl
  · have ha := hzero a (by simp)
    have hb := hzero b (by simp)
    simp [ha, hb]
  · rfl
  · have ha := hzero a (by simp)
    have hb := hzero b (by simp)
    simp [ha, hb]

/-- A value that can be stored is written, and `loads` reads it from the bytes. -/
theorem loads_dumps {limits : Limits} {v : Value} (h : v.Storable limits.digits limits.depth) :
    ∃ text raw, dumps limits v = .ok text ∧ encodeUtf8 text = some raw ∧ loads limits raw = .ok v := by
  obtain ⟨text, htext, hwritten⟩ := encode_storable v limits.depth h
  refine ⟨text, _, htext, encodeUtf8_of_ascii hwritten.ascii, ?_⟩
  have hread := hwritten.read [] (fun c hc => by simp at hc)
  have hskip := skipWhitespace_of_starts hwritten.starts []
  rw [List.append_nil] at hread hskip
  rw [loads, detectEncoding_of_ascii hwritten.ascii, decodeBytes,
    decodeUtf8_of_ascii hwritten.ascii]
  simp only [decode, hskip, hread]
  rfl

end PyJson
