import Ipa.Lib.Json.Text
import Mathlib.Data.Int.Notation

/-!
# Writing JSON

`dumps` as `json.dumps` of Python: the interpreter limits the digits of integers and the nesting of
values.  With the default arguments (`Options.default`) all of the text is ASCII; `Options.compact` leaves
characters as they are, has no blanks and refuses floats that are not finite.
-/

namespace PyJson

/-- A value of Python that JSON has.  A float is given by a text of it. -/
inductive Value
  | null
  | bool (b : Bool)
  | int (n : ℤ)
  | float (text : Text)
  | str (s : Text)
  | arr (items : List Value)
  | obj (members : List (Text × Value))

/-- `ValueError` and `RecursionError`. -/
inductive Error
  | value
  | recursion
deriving DecidableEq

theorem bind_eq_ok_iff {E : Type*} {A B : Type} {x : Except E A} {f : A → Except E B} {b : B} :
    x >>= f = .ok b ↔ ∃ a, x = .ok a ∧ f a = .ok b := by
  cases x with
  | error e => exact iff_of_false (fun h => nomatch h) fun ⟨_, h, _⟩ => nomatch h
  | ok a => exact ⟨fun h => ⟨a, rfl, h⟩, fun ⟨_, h, hb⟩ => by cases h; exact hb⟩

/-- Limits of the interpreter: the digits of an integer that is converted to or from a text, and the
nested calls that the stack has room for. -/
structure Limits where
  digits : ℕ
  depth : ℕ

/-! ## Parts -/

/-- The double quote. -/
def dquote : CodePoint := .ofNat 0x22

/-- The backslash. -/
def backslash : CodePoint := .ofNat 0x5C

/-- The left brace. -/
def lbrace : CodePoint := .ofNat 0x7B

/-- The right brace. -/
def rbrace : CodePoint := .ofNat 0x7D

/-- A hexadecimal digit. -/
def hexDigit (i : ℕ) : CodePoint := .ofNat (if i < 10 then 0x30 + i else 0x57 + i)

/-- `\uXXXX`. -/
def unicodeEscape (c : CodePoint) : Text :=
  [backslash, 'u', hexDigit (c.val / 0x1000), hexDigit (c.val / 0x100 % 0x10),
    hexDigit (c.val / 0x10 % 0x10), hexDigit (c.val % 0x10)]

/-- `ascii_escape_unichar`. -/
def escape (c : CodePoint) : Text :=
  if c = dquote then [backslash, dquote]
  else if c = backslash then [backslash, backslash]
  else if 0x20 ≤ c.val ∧ c.val ≤ 0x7E then [c]
  else if c = .ofNat 0x08 then [backslash, 'b']
  else if c = .ofNat 0x0C then [backslash, 'f']
  else if c = '\n' then [backslash, 'n']
  else if c = '\r' then [backslash, 'r']
  else if c = '\t' then [backslash, 't']
  else if c.val < 0x10000 then unicodeEscape c
  else unicodeEscape c.split.1 ++ unicodeEscape c.split.2

/-- A string between quotes. -/
def quote (s : Text) : Text := dquote :: (s.flatMap escape ++ [dquote])

/-- `escape_unichar`. -/
def escapeControl (c : CodePoint) : Text :=
  if c = dquote then [backslash, dquote]
  else if c = backslash then [backslash, backslash]
  else if c = .ofNat 0x08 then [backslash, 'b']
  else if c = .ofNat 0x0C then [backslash, 'f']
  else if c = '\n' then [backslash, 'n']
  else if c = '\r' then [backslash, 'r']
  else if c = '\t' then [backslash, 't']
  else if c.val < 0x20 then unicodeEscape c
  else [c]

/-- A string between quotes, with its characters as they are. -/
def quoteText (s : Text) : Text := dquote :: (s.flatMap escapeControl ++ [dquote])

/-- The decimal digits of a number. -/
def decimal (n : ℕ) : Text := (Nat.toDigits 10 n).map fun c => .ofNat c.toNat

/-- The text of an integer. -/
def intText (digits : ℕ) (n : ℤ) : Except Error Text :=
  if digits < (decimal n.natAbs).length then .error .value
  else .ok (if n < 0 then '-' :: decimal n.natAbs else decimal n.natAbs)

/-- Texts with a separator between them. -/
def joined (texts : List Text) : Text := (ascii ", ").intercalate texts

/-- The texts of the floats that are not finite. -/
def notFinite : List Text := [ascii "NaN", ascii "Infinity", ascii "-Infinity"]

/-- How strings are quoted, the separators, and whether floats that are not finite are written. -/
structure Options where
  quote : Text → Text
  comma : Text
  colon : Text
  allowNan : Bool

/-- The default arguments. -/
def Options.default : Options := ⟨PyJson.quote, ascii ", ", ascii ": ", true⟩

/-- `ensure_ascii=False, allow_nan=False, separators=(",", ":")`. -/
def Options.compact : Options := ⟨quoteText, ascii ",", ascii ":", false⟩

/-! ## Values -/

mutual

/-- `encoder_listencode_obj`, with room for `depth` nested calls. -/
def encode (options : Options) (digits : ℕ) : Value → ℕ → Except Error Text
  | .null, _ => .ok (ascii "null")
  | .bool b, _ => .ok (ascii (if b then "true" else "false"))
  | .int n, _ => intText digits n
  | .float text, _ => if !options.allowNan && text ∈ notFinite then .error .value else .ok text
  | .str s, _ => .ok (options.quote s)
  | .arr _, 0 | .obj _, 0 => .error .recursion
  | .arr items, depth + 1 => do
    let texts ← encodeItems options digits items depth
    return '[' :: (options.comma.intercalate texts ++ [(']' : CodePoint)])
  | .obj members, depth + 1 => do
    let texts ← encodeMembers options digits members depth
    return lbrace :: (options.comma.intercalate texts ++ [rbrace])

/-- The texts of the items. -/
def encodeItems (options : Options) (digits : ℕ) : List Value → ℕ → Except Error (List Text)
  | [], _ => .ok []
  | item :: items, depth => do
    let text ← encode options digits item depth
    let texts ← encodeItems options digits items depth
    return text :: texts

/-- The texts of the members. -/
def encodeMembers (options : Options) (digits : ℕ) : List (Text × Value) → ℕ → Except Error (List Text)
  | [], _ => .ok []
  | (k, v) :: members, depth => do
    let text ← encode options digits v depth
    let texts ← encodeMembers options digits members depth
    return (options.quote k ++ options.colon ++ text) :: texts

end

/-- `json.dumps(value)`. -/
def dumps (limits : Limits) (value : Value) : Except Error Text :=
  encode .default limits.digits value limits.depth

/-- `json.dumps(value, ensure_ascii=False, allow_nan=False, separators=(",", ":")).encode("utf-8")`. -/
def dumpsCompact (limits : Limits) (value : Value) : Except Error (List UInt8) :=
  match encode .compact limits.digits value limits.depth with
  | .error e => .error e
  | .ok text =>
    match encodeUtf8 text with
    | none => .error .value
    | some raw => .ok raw

end PyJson
