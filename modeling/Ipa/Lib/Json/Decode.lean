import Ipa.Lib.Json.Encode

/-!
# Reading JSON

`loads` as `json.loads` of Python for bytes.  Every reader returns what it has read and the rest of
the text.  The loop over the elements of a value has fuel for more elements than there are code points; it
never runs out (`scanOnce_fuel`), because each element takes one at least (`progress_scanOnce`).
-/

namespace PyJson

/-! ## Strings -/

/-- The value of a hexadecimal digit. -/
def hexValue (c : CodePoint) : Option ℕ :=
  if 0x30 ≤ c.val ∧ c.val ≤ 0x39 then some (c.val - 0x30)
  else if 0x61 ≤ c.val ∧ c.val ≤ 0x66 then some (c.val - 0x57)
  else if 0x41 ≤ c.val ∧ c.val ≤ 0x46 then some (c.val - 0x37)
  else none

/-- The code point with four hexadecimal digits. -/
def hexValues (a b c d : CodePoint) : Option CodePoint := do
  let a ← hexValue a
  let b ← hexValue b
  let c ← hexValue c
  let d ← hexValue d
  return .ofNat (0x1000 * a + 0x100 * b + 0x10 * c + d)

/-- What a backslash and `c` stand for, where `c` is not `u`. -/
def unescape (c : CodePoint) : Option CodePoint :=
  if c = dquote ∨ c = backslash ∨ c = '/' then some c
  else if c = 'b' then some (.ofNat 0x08)
  else if c = 'f' then some (.ofNat 0x0C)
  else if c = 'n' then some '\n'
  else if c = 'r' then some '\r'
  else if c = 't' then some '\t'
  else none

/-- A code point in front of a string. -/
def push (c : CodePoint) : Except Error (Text × Text) → Except Error (Text × Text) :=
  Except.map fun r => (c :: r.1, r.2)

/-- `scanstring_unicode` in its strict mode, after the opening quote. -/
def scanString : Text → Except Error (Text × Text)
  | [] => .error .value
  | c :: text =>
    if c = dquote then .ok ([], text)
    else if c.val < 0x20 then .error .value
    else if c ≠ backslash then push c (scanString text)
    else match text with
      | [] => .error .value
      | e :: text =>
        if e ≠ 'u' then
          match unescape e with
          | none => .error .value
          | some c => push c (scanString text)
        else match text with
          | x₁ :: x₂ :: x₃ :: x₄ :: text =>
            match hexValues x₁ x₂ x₃ x₄ with
            | none => .error .value
            | some c =>
              match text with
              | p :: q :: y₁ :: y₂ :: y₃ :: y₄ :: text' =>
                if c.High ∧ p = backslash ∧ q = 'u' then
                  match hexValues y₁ y₂ y₃ y₄ with
                  | none => .error .value
                  | some d =>
                    if d.Low then push (.join c d) (scanString text')
                    else push c (scanString (p :: q :: y₁ :: y₂ :: y₃ :: y₄ :: text'))
                else push c (scanString (p :: q :: y₁ :: y₂ :: y₃ :: y₄ :: text'))
              | text => push c (scanString text)
          | _ => .error .value

/-! ## Numbers -/

/-- A decimal digit. -/
def isDigit (c : CodePoint) : Bool := 0x30 ≤ c.val ∧ c.val ≤ 0x39

/-- The number with the given decimal digits. -/
def ofDigits (digits : Text) : ℕ := digits.foldl (fun n c => 10 * n + (c.val - 0x30)) 0

/-- A fraction, if there is one. -/
def scanFraction : Text → Text × Text
  | c :: d :: text =>
    if c = '.' ∧ isDigit d then (c :: (d :: text).takeWhile isDigit, (d :: text).dropWhile isDigit)
    else ([], c :: d :: text)
  | text => ([], text)

/-- A sign, if there is one. -/
def scanSign : Text → Text × Text
  | c :: text => if c = '+' ∨ c = '-' then ([c], text) else ([], c :: text)
  | [] => ([], [])

/-- An exponent, if there is one. -/
def scanExponent : Text → Text × Text
  | c :: text =>
    if c = 'e' ∨ c = 'E' then
      match (scanSign text).2.takeWhile isDigit with
      | [] => ([], c :: text)
      | digits => (c :: ((scanSign text).1 ++ digits), (scanSign text).2.dropWhile isDigit)
    else ([], c :: text)
  | [] => ([], [])

/-- The digits of the integer part: a zero alone, or digits that do not start with one. -/
def scanInteger : Text → Option (Text × Text)
  | [] => none
  | c :: text =>
    if c = '0' then some ([c], text)
    else if isDigit c then some (c :: text.takeWhile isDigit, text.dropWhile isDigit)
    else none

/-- `_match_number_unicode`, after the sign. -/
def matchUnsigned (digits : ℕ) (negative : Bool) (text : Text) : Except Error (Value × Text) :=
  match scanInteger text with
  | none => .error .value
  | some (integer, text) =>
    let (fraction, text) := scanFraction text
    let (exponent, text) := scanExponent text
    let sign : Text := if negative then [('-' : CodePoint)] else []
    if fraction = [] ∧ exponent = [] then
      if digits < integer.length then .error .value
      else .ok (.int (if negative then -(ofDigits integer : ℤ) else ofDigits integer), text)
    else .ok (.float (sign ++ integer ++ fraction ++ exponent), text)

/-- `_match_number_unicode`. -/
def matchNumber (digits : ℕ) : Text → Except Error (Value × Text)
  | [] => .error .value
  | c :: text =>
    if c = '-' then matchUnsigned digits true text else matchUnsigned digits false (c :: text)

/-! ## Values -/

/-- A character that may stand between the parts of a document. -/
def isWhitespace (c : CodePoint) : Bool := c = ' ' ∨ c = '\t' ∨ c = '\n' ∨ c = '\r'

/-- The text from its first other character on. -/
def skipWhitespace (text : Text) : Text := text.dropWhile isWhitespace

/-- The elements from the next one on, separated by commas, and the closing bracket. -/
def scanList {A : Type} (close : CodePoint) (scanElement : Text → Except Error (A × Text)) :
    ℕ → Text → Except Error (List A × Text)
  | 0, _ => .error .value
  | fuel + 1, text => do
    let (element, text) ← scanElement text
    match skipWhitespace text with
    | [] => .error .value
    | c :: text =>
      if c = close then .ok ([element], text)
      else if c = ',' then do
        let (elements, text) ← scanList close scanElement fuel (skipWhitespace text)
        return (element :: elements, text)
      else .error .value

/-- All the elements, after the opening bracket. -/
def scanBody {A : Type} (close : CodePoint) (scanElement : Text → Except Error (A × Text))
    (text : Text) : Except Error (List A × Text) :=
  match skipWhitespace text with
  | [] => .error .value
  | c :: text =>
    if c = close then .ok ([], text) else scanList close scanElement (text.length + 2) (c :: text)

section

variable (scanOnce : Text → Except Error (Value × Text))

/-- `_parse_array_unicode`. -/
def scanItems : Text → Except Error (List Value × Text) := scanBody ']' scanOnce

/-- A member of an object: its key, a colon and its value. -/
def scanMember : Text → Except Error ((Text × Value) × Text)
  | [] => .error .value
  | c :: text =>
    if c = dquote then do
      let (k, text) ← scanString text
      match skipWhitespace text with
      | [] => .error .value
      | c :: text =>
        if c = ':' then do
          let (v, text) ← scanOnce (skipWhitespace text)
          return ((k, v), text)
        else .error .value
    else .error .value

/-- `_parse_object_unicode`, without the dictionary. -/
def scanMembers : Text → Except Error (List (Text × Value) × Text) :=
  scanBody rbrace (scanMember scanOnce)

end

/-- Assign a value to a key of a dictionary: in place, or at its end. -/
def assign (k : Text) (v : Value) : List (Text × Value) → List (Text × Value)
  | [] => [(k, v)]
  | (k', v') :: members => if k' = k then (k, v) :: members else (k', v') :: assign k v members

/-- The dictionary of members in the order in which they are read. -/
def dict (members : List (Text × Value)) : List (Text × Value) :=
  members.foldl (fun d m => assign m.1 m.2 d) []

/-- The constants, with what they are read as. -/
def constants : List (Text × Value) :=
  [(ascii "null", .null), (ascii "true", .bool true), (ascii "false", .bool false),
    (ascii "NaN", .float (ascii "NaN")), (ascii "Infinity", .float (ascii "Infinity")),
    (ascii "-Infinity", .float (ascii "-Infinity"))]

/-- A constant or a number. -/
def scanScalar (digits : ℕ) (text : Text) : Except Error (Value × Text) :=
  match constants.find? fun k => k.1.isPrefixOf text with
  | some (k, v) => .ok (v, text.drop k.length)
  | none => matchNumber digits text

/-- `scan_once_unicode`, with room for `depth` nested calls. -/
def scanOnce (digits : ℕ) : ℕ → Text → Except Error (Value × Text)
  | _, [] => .error .value
  | depth, c :: text =>
    if c = dquote then (scanString text).map fun r => (.str r.1, r.2)
    else if c = lbrace then
      match depth with
      | 0 => .error .recursion
      | depth + 1 => (scanMembers (scanOnce digits depth) text).map fun r => (.obj (dict r.1), r.2)
    else if c = '[' then
      match depth with
      | 0 => .error .recursion
      | depth + 1 => (scanItems (scanOnce digits depth) text).map fun r => (.arr r.1, r.2)
    else scanScalar digits (c :: text)

/-- `JSONDecoder.decode`. -/
def decode (limits : Limits) (text : Text) : Except Error Value := do
  let (value, rest) ← scanOnce limits.digits limits.depth (skipWhitespace text)
  if skipWhitespace rest = [] then .ok value else .error .value

/-! ## Progress -/

section Progress

variable {text rest s : Text} {c : CodePoint} {digits : ℕ} {v : Value}

theorem push_eq_ok {x : Except Error (Text × Text)} (h : push c x = .ok (s, rest)) :
    ∃ s', x = .ok (s', rest) ∧ s = c :: s' := by
  cases x with
  | error e => cases h
  | ok r =>
    cases h
    exact ⟨_, rfl, rfl⟩

/-- A string that is read takes its closing quote at least. -/
theorem scanString_lt (h : scanString text = .ok (s, rest)) : rest.length < text.length := by
  fun_induction scanString text generalizing s with
  | case1 | case3 | case5 | case6 | case8 | case9 | case14 => cases h
  | case2 =>
    cases h
    exact Nat.lt_succ_self _
  | case4 | case7 | case10 | case11 | case12 | case13 =>
    rename_i ih
    obtain ⟨s', h', -⟩ := push_eq_ok h
    have hlt := ih h'
    simp only [List.length_cons] at hlt ⊢
    omega

theorem length_skipWhitespace_le (text : Text) : (skipWhitespace text).length ≤ text.length :=
  (List.dropWhile_suffix _).length_le

theorem append_scanFraction (text : Text) : (scanFraction text).1 ++ (scanFraction text).2 = text := by
  fun_cases scanFraction text with
  | case1 c d text h => rw [List.cons_append, List.takeWhile_append_dropWhile]
  | _ => rfl

theorem append_scanSign (text : Text) : (scanSign text).1 ++ (scanSign text).2 = text := by
  fun_cases scanSign text <;> rfl

theorem append_scanExponent (text : Text) : (scanExponent text).1 ++ (scanExponent text).2 = text := by
  fun_cases scanExponent text with
  | case2 c text h =>
    rw [List.cons_append, List.append_assoc, List.takeWhile_append_dropWhile, append_scanSign]
  | _ => rfl

theorem append_scanInteger {integer : Text} (h : scanInteger text = some (integer, rest)) :
    integer ++ rest = text ∧ integer ≠ [] := by
  revert h
  fun_cases scanInteger text with
  | case2 | case3 =>
    intro h
    cases h
    simp [List.takeWhile_append_dropWhile]
  | _ =>
    intro h
    cases h

theorem matchUnsigned_lt {negative : Bool} (h : matchUnsigned digits negative text = .ok (v, rest)) :
    rest.length < text.length := by
  unfold matchUnsigned at h
  cases hi : scanInteger text with
  | none =>
    rw [hi] at h
    cases h
  | some r =>
    obtain ⟨integer, text'⟩ := r
    obtain ⟨htext, hne⟩ := append_scanInteger hi
    have hpos : 0 < integer.length := List.length_pos_iff.2 hne
    have hlen := congrArg List.length htext
    have hfraction := congrArg List.length (append_scanFraction text')
    have hexponent := congrArg List.length (append_scanExponent (scanFraction text').2)
    have hrest : rest = (scanExponent (scanFraction text').2).2 := by
      rw [hi] at h
      dsimp only at h
      split_ifs at h <;> cases h <;> rfl
    rw [List.length_append] at hlen hfraction hexponent
    rw [hrest]
    omega

theorem matchNumber_lt (h : matchNumber digits text = .ok (v, rest)) : rest.length < text.length := by
  cases text with
  | nil => cases h
  | cons c text =>
    rw [matchNumber] at h
    split_ifs at h with hc
    · exact Nat.lt_succ_of_lt (matchUnsigned_lt h)
    · exact matchUnsigned_lt h

theorem scanScalar_lt (h : scanScalar digits text = .ok (v, rest)) : rest.length < text.length := by
  have hne : ∀ k ∈ constants, k.1 ≠ [] := by decide
  unfold scanScalar at h
  cases hk : constants.find? fun k => k.1.isPrefixOf text with
  | none =>
    rw [hk] at h
    exact matchNumber_lt h
  | some k =>
    rw [hk] at h
    cases h
    have hfound := List.find?_some hk
    have hprefix : k.1 <+: text := List.isPrefixOf_iff_prefix.1 hfound
    have hpos : 0 < k.1.length := List.length_pos_iff.2 (hne k (List.mem_of_find?_eq_some hk))
    have hle := hprefix.length_le
    rw [List.length_drop]
    omega

/-! The loops over the items and the members of a value. -/

variable {A B : Type} {close : CodePoint} {p : Text → Except Error (A × Text)} {fuel fuel' : ℕ}

/-- What is read takes a code point at least. -/
def Progress (p : Text → Except Error (A × Text)) : Prop :=
  ∀ text a rest, p text = .ok (a, rest) → rest.length < text.length

theorem progress_scanList (hp : Progress p) : Progress (scanList close p fuel) := by
  induction fuel with
  | zero =>
    intro text elements rest h
    cases h
  | succ fuel ih =>
    intro text elements rest h
    obtain ⟨⟨element, text'⟩, helement, h⟩ := bind_eq_ok_iff.1 h
    have hlt := hp _ _ _ helement
    have hle := length_skipWhitespace_le text'
    cases hskip : skipWhitespace text' with
    | nil =>
      simp only [hskip] at h
      cases h
    | cons c text'' =>
      simp only [hskip] at h hle
      rw [List.length_cons] at hle
      split_ifs at h
      · cases h
        omega
      · obtain ⟨⟨elements', rest'⟩, helements, h⟩ := bind_eq_ok_iff.1 h
        cases h
        have hlt' := ih _ _ _ helements
        have hle' := length_skipWhitespace_le text''
        show rest'.length < text.length
        omega

/-- The loop ends before the fuel does. -/
theorem scanList_fuel (hp : Progress p) (hfuel : text.length < fuel) (hfuel' : text.length < fuel') :
    scanList close p fuel text = scanList close p fuel' text := by
  induction fuel generalizing text fuel' with
  | zero => exact absurd hfuel (Nat.not_lt_zero _)
  | succ fuel ih =>
    obtain ⟨fuel', rfl⟩ := Nat.exists_eq_succ_of_ne_zero (Nat.ne_of_gt (Nat.zero_lt_of_lt hfuel'))
    rw [scanList, scanList]
    cases helement : p text with
    | error e => rfl
    | ok r =>
      obtain ⟨element, text'⟩ := r
      have hlt := hp _ _ _ helement
      have hle := length_skipWhitespace_le text'
      simp only [bind, Except.bind]
      cases hskip : skipWhitespace text' with
      | nil => rfl
      | cons c text'' =>
        have hle' := length_skipWhitespace_le text''
        rw [hskip, List.length_cons] at hle
        have hrest : scanList close p fuel (skipWhitespace text'') =
            scanList close p fuel' (skipWhitespace text'') := ih (by omega) (by omega)
        simp only
        rw [hrest]

theorem progress_scanBody (hp : Progress p) : Progress (scanBody close p) := by
  intro text elements rest h
  have hle := length_skipWhitespace_le text
  unfold scanBody at h
  cases hskip : skipWhitespace text with
  | nil =>
    simp only [hskip] at h
    cases h
  | cons c text' =>
    simp only [hskip] at h
    rw [hskip] at hle
    split_ifs at h
    · cases h
      exact hle
    · exact Nat.lt_of_lt_of_le (progress_scanList hp _ _ _ h) hle

theorem progress_scanMember {p : Text → Except Error (Value × Text)} (hp : Progress p) :
    Progress (scanMember p) := by
  intro text member rest h
  cases text with
  | nil => cases h
  | cons c text =>
    rw [scanMember] at h
    split_ifs at h
    obtain ⟨⟨k, text'⟩, hk, h⟩ := bind_eq_ok_iff.1 h
    have hlt := scanString_lt hk
    have hle := length_skipWhitespace_le text'
    cases hskip : skipWhitespace text' with
    | nil =>
      simp only [hskip] at h
      cases h
    | cons c' text'' =>
      simp only [hskip] at h hle
      rw [List.length_cons] at hle ⊢
      split_ifs at h
      obtain ⟨⟨v, rest'⟩, hv, h⟩ := bind_eq_ok_iff.1 h
      cases h
      have hlt' := hp _ _ _ hv
      have hle' := length_skipWhitespace_le text''
      show rest'.length < text.length + 1
      omega

theorem map_eq_ok {x : Except Error A} {f : A → B} {b : B} (h : x.map f = .ok b) :
    ∃ a, x = .ok a ∧ f a = b := by
  cases x with
  | error e => cases h
  | ok a =>
    cases h
    exact ⟨a, rfl, rfl⟩

theorem progress_scanOnce (digits depth : ℕ) : Progress (scanOnce digits depth) := by
  induction depth with
  | zero =>
    intro text v rest h
    cases text with
    | nil => cases h
    | cons c text =>
      rw [scanOnce] at h
      split_ifs at h
      · obtain ⟨⟨s, rest'⟩, hs, h⟩ := map_eq_ok h
        cases h
        exact Nat.lt_succ_of_lt (scanString_lt hs)
      · exact scanScalar_lt h
  | succ depth ih =>
    intro text v rest h
    cases text with
    | nil => cases h
    | cons c text =>
      rw [scanOnce] at h
      split_ifs at h
      · obtain ⟨⟨s, rest'⟩, hs, h⟩ := map_eq_ok h
        cases h
        exact Nat.lt_succ_of_lt (scanString_lt hs)
      · obtain ⟨⟨members, rest'⟩, hmembers, h⟩ := map_eq_ok h
        cases h
        exact Nat.lt_succ_of_lt (progress_scanBody (progress_scanMember ih) _ _ _ hmembers)
      · obtain ⟨⟨items, rest'⟩, hitems, h⟩ := map_eq_ok h
        cases h
        exact Nat.lt_succ_of_lt (progress_scanBody ih _ _ _ hitems)
      · exact scanScalar_lt h

/-- In every loop of a reader the fuel is more than enough. -/
theorem scanOnce_fuel (digits depth : ℕ) {fuel : ℕ} (h : text.length < fuel) :
    scanList ']' (scanOnce digits depth) fuel text =
        scanList ']' (scanOnce digits depth) (text.length + 1) text ∧
      scanList rbrace (scanMember (scanOnce digits depth)) fuel text =
        scanList rbrace (scanMember (scanOnce digits depth)) (text.length + 1) text :=
  ⟨scanList_fuel (progress_scanOnce digits depth) h (Nat.lt_succ_self _),
    scanList_fuel (progress_scanMember (progress_scanOnce digits depth)) h (Nat.lt_succ_self _)⟩

end Progress

/-! ## Bytes -/

/-- The encodings of a document. -/
inductive Encoding
  | utf8 | utf8Sig | utf16 | utf16be | utf16le | utf32 | utf32be | utf32le
deriving DecidableEq

/-- `json.detect_encoding`. -/
def detectEncoding (raw : List UInt8) : Encoding :=
  if [0x00, 0x00, 0xFE, 0xFF].isPrefixOf raw ∨ [0xFF, 0xFE, 0x00, 0x00].isPrefixOf raw then .utf32
  else if [0xFE, 0xFF].isPrefixOf raw ∨ [0xFF, 0xFE].isPrefixOf raw then .utf16
  else if [0xEF, 0xBB, 0xBF].isPrefixOf raw then .utf8Sig
  else match raw with
    | a :: b :: c :: d :: _ =>
      if a = 0 then (if b ≠ 0 then .utf16be else .utf32be)
      else if b = 0 then (if c ≠ 0 ∨ d ≠ 0 then .utf16le else .utf32le)
      else .utf8
    | [a, b] => if a = 0 then .utf16be else if b = 0 then .utf16le else .utf8
    | _ => .utf8

/-- `raw.decode(encoding, 'surrogatepass')`; a byte order mark is left out. -/
def decodeBytes (raw : List UInt8) : Encoding → Option Text
  | .utf8 => decodeUtf8 raw
  | .utf8Sig => decodeUtf8 (raw.drop 3)
  | .utf16 => decodeUtf16 (raw.head? = some 0xFE) (raw.drop 2)
  | .utf16be => decodeUtf16 true raw
  | .utf16le => decodeUtf16 false raw
  | .utf32 => decodeUtf32 (raw.head? = some 0x00) (raw.drop 4)
  | .utf32be => decodeUtf32 true raw
  | .utf32le => decodeUtf32 false raw

/-- `json.loads(raw)`. -/
def loads (limits : Limits) (raw : List UInt8) : Except Error Value :=
  match decodeBytes raw (detectEncoding raw) with
  | none => .error .value
  | some text => decode limits text

end PyJson
