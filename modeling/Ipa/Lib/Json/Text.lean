import Mathlib.Data.List.Basic
import Mathlib.Tactic.Common

/-!
# Texts and their encodings

A text is a list of code points (`CodePoint`); unlike a `String` it may have surrogates, and two
texts are the same only if their code points are.  `encodeUtf8` is strict.  The decoders let
surrogates pass.

* `decodeUtf8_encodeUtf8`: an ASCII text is read back from its UTF-8 encoding.
-/

namespace PyJson

/-! ## Code points -/

/-- A code point, surrogates included. -/
@[ext]
structure CodePoint where
  val : ℕ
  isLt : val < 0x110000
deriving DecidableEq

/-- A text as its code points. -/
abbrev Text := List CodePoint

namespace CodePoint

/-- The code point with the number `n`. -/
def ofNat (n : ℕ) : CodePoint := ⟨n % 0x110000, Nat.mod_lt _ (by decide)⟩

instance : Coe Char CodePoint := ⟨fun c => .ofNat c.toNat⟩

/-- A high surrogate. -/
def High (c : CodePoint) : Prop := 0xD800 ≤ c.val ∧ c.val < 0xDC00

instance (c : CodePoint) : Decidable c.High := inferInstanceAs (Decidable (_ ∧ _))

/-- A low surrogate. -/
def Low (c : CodePoint) : Prop := 0xDC00 ≤ c.val ∧ c.val < 0xE000

instance (c : CodePoint) : Decidable c.Low := inferInstanceAs (Decidable (_ ∧ _))

/-- The code point that a pair of surrogates stands for. -/
def join (high low : CodePoint) : CodePoint :=
  .ofNat (0x10000 + 0x400 * (high.val - 0xD800) + (low.val - 0xDC00))

/-- The surrogates that stand for a code point from `0x10000` on. -/
def split (c : CodePoint) : CodePoint × CodePoint :=
  (.ofNat (0xD800 + (c.val - 0x10000) / 0x400), .ofNat (0xDC00 + (c.val - 0x10000) % 0x400))

variable {c : CodePoint} {n : ℕ}

@[simp]
theorem val_ofNat (h : n < 0x110000) : (ofNat n).val = n := Nat.mod_eq_of_lt h

@[simp]
theorem ofNat_val (c : CodePoint) : ofNat c.val = c := CodePoint.ext (val_ofNat c.isLt)

theorem val_split_fst (h : 0x10000 ≤ c.val) : c.split.1.val = 0xD800 + (c.val - 0x10000) / 0x400 := by
  have hc := c.isLt
  exact val_ofNat (by omega)

theorem val_split_snd : c.split.2.val = 0xDC00 + (c.val - 0x10000) % 0x400 := by
  have hmod : (c.val - 0x10000) % 0x400 < 0x400 := Nat.mod_lt _ (by decide)
  exact val_ofNat (by omega)

theorem high_split (h : 0x10000 ≤ c.val) : c.split.1.High := by
  have hc := c.isLt
  rw [High, val_split_fst h]
  omega

theorem low_split : c.split.2.Low := by
  rw [Low, val_split_snd]
  omega

theorem join_split (h : 0x10000 ≤ c.val) : join c.split.1 c.split.2 = c := by
  have hc := c.isLt
  rw [join, val_split_fst h, val_split_snd]
  apply CodePoint.ext
  rw [val_ofNat (by omega)]
  omega

end CodePoint

/-- The text of ASCII characters. -/
def ascii (s : String) : Text := s.toList.map fun c => .ofNat c.toNat

/-- A text of ASCII characters without NUL. -/
def Ascii (text : Text) : Prop := ∀ c ∈ text, 0 < c.val ∧ c.val < 0x80

/-- No high surrogate stands right before a low one. -/
def Unpaired : Text → Prop
  | [] => True
  | c :: s => (c.High → ∀ d ∈ s.head?, ¬ d.Low) ∧ Unpaired s

/-! ## Encodings -/

/-- The bytes of a code point. -/
def utf8Bytes (c : CodePoint) : List UInt8 :=
  if c.val < 0x80 then [.ofNat c.val]
  else if c.val < 0x800 then [.ofNat (0xC0 + c.val / 0x40), .ofNat (0x80 + c.val % 0x40)]
  else if c.val < 0x10000 then
    [.ofNat (0xE0 + c.val / 0x1000), .ofNat (0x80 + c.val / 0x40 % 0x40),
      .ofNat (0x80 + c.val % 0x40)]
  else
    [.ofNat (0xF0 + c.val / 0x40000), .ofNat (0x80 + c.val / 0x1000 % 0x40),
      .ofNat (0x80 + c.val / 0x40 % 0x40), .ofNat (0x80 + c.val % 0x40)]

/-- The UTF-8 encoding of a text, if it has no surrogates. -/
def encodeUtf8 (text : Text) : Option (List UInt8) :=
  if text.any fun c => c.High ∨ c.Low then none else some (text.flatMap utf8Bytes)

/-- What the first byte of a code point announces: how many bytes follow, the bounds of the first of
them, and the bits that it has itself. -/
def utf8Lead (b : ℕ) : Option (ℕ × ℕ × ℕ × ℕ) :=
  if b < 0x80 then some (0, 0x80, 0xC0, b)
  else if b < 0xC2 then none
  else if b < 0xE0 then some (1, 0x80, 0xC0, b - 0xC0)
  else if b = 0xE0 then some (2, 0xA0, 0xC0, 0)
  else if b < 0xF0 then some (2, 0x80, 0xC0, b - 0xE0)
  else if b = 0xF0 then some (3, 0x90, 0xC0, 0)
  else if b < 0xF4 then some (3, 0x80, 0xC0, b - 0xF0)
  else if b = 0xF4 then some (3, 0x80, 0x90, 4)
  else none

/-- Read the rest of a code point of which `owed` bytes are missing, and what follows. -/
def decodeUtf8From : (owed low high bits : ℕ) → List UInt8 → Option Text
  | 0, _, _, _, [] => some []
  | _ + 1, _, _, _, [] => none
  | 0, _, _, _, b :: raw =>
    match utf8Lead b.toNat with
    | none => none
    | some (0, _, _, bits) => (decodeUtf8From 0 0 0 0 raw).map (.ofNat bits :: ·)
    | some (owed + 1, low, high, bits) => decodeUtf8From (owed + 1) low high bits raw
  | owed + 1, low, high, bits, b :: raw =>
    if low ≤ b.toNat ∧ b.toNat < high then
      let bits := 0x40 * bits + (b.toNat - 0x80)
      match owed with
      | 0 => (decodeUtf8From 0 0 0 0 raw).map (.ofNat bits :: ·)
      | owed + 1 => decodeUtf8From (owed + 1) 0x80 0xC0 bits raw
    else none

/-- Decode UTF-8, surrogates included. -/
def decodeUtf8 (raw : List UInt8) : Option Text := decodeUtf8From 0 0 0 0 raw

/-- The numbers of `k` bytes each; the most significant byte comes first if `big`. -/
def units (k : ℕ) (big : Bool) (raw : List UInt8) : Option (List ℕ) :=
  if raw.length % k ≠ 0 then none
  else some <| (raw.toChunks k).map fun unit =>
    (if big then unit else unit.reverse).foldl (fun n b => 0x100 * n + b.toNat) 0

/-- The code points of UTF-16 units. -/
def joinUnits : Text → Text
  | [] => []
  | [u] => [u]
  | u :: v :: rest =>
    if u.High ∧ v.Low then .join u v :: joinUnits rest else u :: joinUnits (v :: rest)

/-- Decode UTF-16; the most significant byte comes first if `big`. -/
def decodeUtf16 (big : Bool) (raw : List UInt8) : Option Text :=
  (units 2 big raw).map fun us => joinUnits (us.map .ofNat)

/-- Decode UTF-32; the most significant byte comes first if `big`. -/
def decodeUtf32 (big : Bool) (raw : List UInt8) : Option Text :=
  (units 4 big raw).bind fun us => if us.all (· < 0x110000) then some (us.map .ofNat) else none

/-! ## ASCII -/

variable {c : CodePoint} {text text' : Text}

theorem ascii_append : Ascii (text ++ text') ↔ Ascii text ∧ Ascii text' := by
  simp only [Ascii, List.forall_mem_append]

theorem ascii_cons : Ascii (c :: text) ↔ (0 < c.val ∧ c.val < 0x80) ∧ Ascii text := by
  simp only [Ascii, List.forall_mem_cons]

/-- The bytes of an ASCII text. -/
theorem encodeUtf8_of_ascii (h : Ascii text) :
    encodeUtf8 text = some (text.map fun c => .ofNat c.val) := by
  have hany : (text.any fun c => c.High ∨ c.Low) = false := by
    rw [List.any_eq_false]
    intro c hc hsurrogate
    have hlt := (h c hc).2
    rcases of_decide_eq_true hsurrogate with hhigh | hlow
    · exact absurd hhigh.1 (by omega)
    · exact absurd hlow.1 (by omega)
  have hbytes : text.flatMap utf8Bytes = text.map fun c => .ofNat c.val := by
    rw [List.map_eq_flatMap]
    refine List.flatMap_congr fun c hc => ?_
    rw [utf8Bytes, if_pos (h c hc).2]
  rw [encodeUtf8, hany, if_neg (by decide), hbytes]

theorem decodeUtf8_of_ascii (h : Ascii text) :
    decodeUtf8 (text.map fun c => .ofNat c.val) = some text := by
  induction text with
  | nil => rfl
  | cons c text ih =>
    obtain ⟨hc, htext⟩ := ascii_cons.1 h
    have hnat : (UInt8.ofNat c.val).toNat = c.val := by
      rw [UInt8.toNat_ofNat']
      omega
    have hlead : utf8Lead c.val = some (0, 0x80, 0xC0, c.val) := by
      rw [utf8Lead, if_pos hc.2]
    have hrest : decodeUtf8From 0 0 0 0 (text.map fun c => .ofNat c.val) = some text := ih htext
    rw [decodeUtf8, List.map_cons, decodeUtf8From, hnat, hlead]
    simp [hrest]

end PyJson
