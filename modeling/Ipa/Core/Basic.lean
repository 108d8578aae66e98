import Mathlib.Algebra.Order.Ring.Int
import Mathlib.Data.List.Nodup
import Mathlib.Data.List.TakeDrop
import Mathlib.Tactic.Common

/-!
# Enumerations and scalar values

The enumerations persisted in PostgreSQL with the canonical step order (`stepOrder`, `stepsFrom`),
identifiers with their 36-character text (`UUID.str`), JSON values and instants of time.
-/

namespace Ipa

/-! ## Enumerations -/

/-- A single stage of the document processing pipeline. -/
inductive PipelineStep
  | store | decompose | ocr | extract | embed | review
deriving DecidableEq, Repr

/-- Execution state of one pipeline step for one document. -/
inductive StepStatus
  | pending | running | succeeded | failed | skipped
deriving DecidableEq, Repr

/-- Coarse state of a document as shown to API clients. -/
inductive DocumentStatus
  | received | processing | pendingReview | validated | completed | failed | quarantined
deriving DecidableEq, Repr

/-- The persisted text of a document status. -/
def DocumentStatus.value : DocumentStatus → String
  | received => "received"
  | processing => "processing"
  | pendingReview => "pending_review"
  | validated => "validated"
  | completed => "completed"
  | failed => "failed"
  | quarantined => "quarantined"

theorem DocumentStatus.value_injective : Function.Injective DocumentStatus.value := by
  intro a b h
  cases a <;> cases b <;> first | rfl | exact absurd h (by decide)

/-- Origin of an extraction version. -/
inductive ExtractionSource
  | model | human
deriving DecidableEq, Repr

/-- Execution order of the pipeline. -/
def stepOrder : List PipelineStep :=
  [.store, .decompose, .ocr, .extract, .embed, .review]

/-- `step` and every step after it, in execution order.  The lookup error of the source cannot
happen: every step is listed (`mem_stepOrder`). -/
def stepsFrom (step : PipelineStep) : List PipelineStep :=
  stepOrder.drop (stepOrder.idxOf step)

@[simp]
theorem mem_stepOrder (step : PipelineStep) : step ∈ stepOrder := by
  cases step <;> decide

theorem nodup_stepOrder : stepOrder.Nodup := by decide

/-- `s` is at or before `s'` in the pipeline. -/
def PipelineStep.AtOrBefore (s s' : PipelineStep) : Prop := stepOrder.idxOf s ≤ stepOrder.idxOf s'

instance (s s' : PipelineStep) : Decidable (s.AtOrBefore s') :=
  inferInstanceAs (Decidable (_ ≤ _))

/-- `stepsFrom` lists exactly the steps at or after its argument. -/
theorem mem_stepsFrom_iff {s s' : PipelineStep} : s' ∈ stepsFrom s ↔ s.AtOrBefore s' := by
  cases s <;> cases s' <;> decide

/-! ## Identifiers -/

/-- A 128-bit identifier. -/
structure UUID where
  int : BitVec 128
deriving DecidableEq, Repr

/-- The last `k` hexadecimal digits of `n`, most significant first. -/
def hexDigits : ℕ → ℕ → List Char
  | 0, _ => []
  | k + 1, n => hexDigits k (n / 16) ++ [Nat.digitChar (n % 16)]

@[simp]
theorem length_hexDigits (k n : ℕ) : (hexDigits k n).length = k := by
  induction k generalizing n with
  | zero => rfl
  | succ k ih => simp [hexDigits, ih]

theorem digitChar_inj : ∀ i < 16, ∀ j < 16, Nat.digitChar i = Nat.digitChar j → i = j := by decide

theorem hexDigits_inj {k n m : ℕ} (hn : n < 16 ^ k) (hm : m < 16 ^ k)
    (h : hexDigits k n = hexDigits k m) : n = m := by
  induction k generalizing n m with
  | zero => omega
  | succ k ih =>
    rw [pow_succ] at hn hm
    obtain ⟨hdiv, hmod⟩ := List.append_inj' h rfl
    have hq : n / 16 = m / 16 := ih (by omega) (by omega) hdiv
    have hr : n % 16 = m % 16 :=
      digitChar_inj _ (Nat.mod_lt _ (by decide)) _ (Nat.mod_lt _ (by decide))
        (List.singleton_inj.1 hmod)
    omega

/-- A character that is no hexadecimal digit. -/
theorem notMem_hexDigits {c : Char} (hc : ∀ i < 16, Nat.digitChar i ≠ c) (k n : ℕ) :
    c ∉ hexDigits k n := by
  induction k generalizing n with
  | zero => exact List.not_mem_nil
  | succ k ih =>
    rw [hexDigits, List.mem_append, List.mem_singleton, not_or]
    exact ⟨ih _, (hc _ (Nat.mod_lt _ (by decide))).symm⟩

/-- The 32 hexadecimal digits of an identifier. -/
def UUID.hex (u : UUID) : List Char := hexDigits 32 u.int.toNat

theorem UUID.hex_injective : Function.Injective UUID.hex := by
  intro u v h
  have hu : u.int.toNat < 16 ^ 32 := u.int.isLt
  have hv : v.int.toNat < 16 ^ 32 := v.int.isLt
  have hint : u.int = v.int := BitVec.eq_of_toNat_eq (hexDigits_inj hu hv h)
  cases u
  cases v
  exact congrArg UUID.mk hint

/-- The text of an identifier: its digits in groups of 8, 4, 4, 4 and 12. -/
def UUID.str (u : UUID) : String :=
  String.ofList (u.hex.take 8 ++ '-' :: (u.hex.drop 8).take 4 ++ '-' :: (u.hex.drop 12).take 4 ++
    '-' :: (u.hex.drop 16).take 4 ++ '-' :: u.hex.drop 20)

/-- Dropping the dashes of the text gives the digits back. -/
theorem UUID.filter_toList_str (u : UUID) : u.str.toList.filter (· ≠ '-') = u.hex := by
  have hne : ∀ l : List Char, l.Sublist u.hex → l.filter (· ≠ '-') = l := by
    intro l hl
    refine List.filter_eq_self.2 fun c hc => decide_eq_true ?_
    rintro rfl
    exact notMem_hexDigits (by decide) 32 _ (hl.subset hc)
  have hd : ([8, 12, 16, 20] : List ℕ).map (fun n => u.hex.drop n) =
      [(u.hex.drop 8).take 4 ++ u.hex.drop 12, (u.hex.drop 12).take 4 ++ u.hex.drop 16,
        (u.hex.drop 16).take 4 ++ u.hex.drop 20, u.hex.drop 20] := by
    have hsplit : ∀ n, u.hex.drop n = (u.hex.drop n).take 4 ++ u.hex.drop (n + 4) := fun n => by
      rw [← List.drop_drop, List.take_append_drop]
    simp only [List.map_cons, List.map_nil, ← hsplit]
  simp only [List.map_cons, List.map_nil, List.cons.injEq, and_true] at hd
  obtain ⟨h8, h12, h16⟩ := hd
  have ht : ∀ n, ((u.hex.drop n).take 4).Sublist u.hex := fun n =>
    (List.take_sublist _ _).trans (List.drop_sublist _ _)
  simp only [UUID.str, String.toList_ofList, List.filter_append, List.filter_cons, ne_eq,
    not_true, decide_false, Bool.false_eq_true, if_false]
  simp only [← ne_eq]
  rw [hne _ (List.take_sublist _ _), hne _ (ht 8), hne _ (ht 12), hne _ (ht 16),
    hne _ (List.drop_sublist _ _)]
  simp only [List.append_assoc]
  rw [← h16, ← h12, ← h8, List.take_append_drop]

theorem UUID.str_injective : Function.Injective UUID.str := by
  intro u v h
  apply UUID.hex_injective
  rw [← u.filter_toList_str, ← v.filter_toList_str, h]

/-- The value of a hexadecimal digit. -/
def hexValue (c : Char) : Option ℕ := (List.range 16).find? fun i => Nat.digitChar i = c.toLower

/-- The number with the given hexadecimal digits. -/
def ofHexDigits (digits : List Char) : Option ℕ :=
  digits.foldlM (fun n c => (hexValue c).map (16 * n + ·)) 0

theorem hexValue_digitChar : ∀ i < 16, hexValue (Nat.digitChar i) = some i := by decide

theorem ofHexDigits_hexDigits {k n : ℕ} (hn : n < 16 ^ k) :
    ofHexDigits (hexDigits k n) = some n := by
  induction k generalizing n with
  | zero =>
    have : n = 0 := by omega
    rw [this]
    rfl
  | succ k ih =>
    rw [pow_succ] at hn
    have hq : ofHexDigits (hexDigits k (n / 16)) = some (n / 16) := ih (by omega)
    unfold ofHexDigits at hq ⊢
    rw [hexDigits, List.foldlM_append, hq]
    simp only [Option.bind_eq_bind, Option.bind_some, List.foldlM_cons, List.foldlM_nil,
      hexValue_digitChar _ (Nat.mod_lt n (by decide : 0 < 16)), Option.map_some, Option.pure_def]
    congr 1
    omega

/-- Read an identifier: 32 hexadecimal digits, dashes anywhere.  No stored text has the prefixes and
braces that the constructor strips as well. -/
def UUID.parse (text : String) : Option UUID :=
  let digits := text.toList.filter (· ≠ '-')
  if digits.length = 32 then (ofHexDigits digits).map fun n => ⟨BitVec.ofNat 128 n⟩ else none

@[simp]
theorem UUID.parse_str (u : UUID) : UUID.parse u.str = some u := by
  have hu : u.int.toNat < 16 ^ 32 := u.int.isLt
  rw [UUID.parse, UUID.filter_toList_str, UUID.hex, if_pos (length_hexDigits 32 _),
    ofHexDigits_hexDigits hu, Option.map_some, BitVec.ofNat_toNat, BitVec.setWidth_eq]

/-! ## JSON values and time -/

/-- A JSON value.  A number with a fraction or an exponent is kept as its literal. -/
inductive Json
  | null
  | bool (b : Bool)
  | int (n : ℤ)
  | decimal (literal : String)
  | str (s : String)
  | arr (items : List Json)
  | obj (members : List (String × Json))
deriving Repr

/-- A text as it stands in a JSON document. -/
def Json.quote (s : String) : String :=
  let escape := fun c : Char =>
    if c.toNat = 34 ∨ c.toNat = 92 then [Char.ofNat 92, c]
    else if c.toNat = 8 then "\\b".toList
    else if c.toNat = 9 then "\\t".toList
    else if c.toNat = 10 then "\\n".toList
    else if c.toNat = 12 then "\\f".toList
    else if c.toNat = 13 then "\\r".toList
    else if c.toNat < 32 then "\\u".toList ++ hexDigits 4 c.toNat
    else [c]
  String.ofList (Char.ofNat 34 :: s.toList.flatMap escape ++ [Char.ofNat 34])

mutual

/-- The text of a value. -/
def Json.text : Json → String
  | .null => "null"
  | .bool b => toString b
  | .int n => toString n
  | .decimal literal => literal
  | .str s => quote s
  | .arr items => "[" ++ ", ".intercalate (texts items) ++ "]"
  | .obj members => "\x7b" ++ ", ".intercalate (memberTexts members) ++ "\x7d"

/-- The texts of items. -/
def Json.texts : List Json → List String
  | [] => []
  | item :: items => item.text :: texts items

/-- The texts of members. -/
def Json.memberTexts : List (String × Json) → List String
  | [] => []
  | (k, v) :: members => (quote k ++ ": " ++ v.text) :: memberTexts members

end

/-- What the operator `->>` makes of a member: a text without its quotes, nothing of a null. -/
def Json.astext : Json → Option String
  | .null => none
  | .str s => some s
  | v => some v.text

/-- A JSON object: its members in insertion order, the first one with a key being its value. -/
abbrev JsonObject := List (String × Json)

/-- The members of both objects, those of the second one in place of members of the first one. -/
def JsonObject.merge (o o' : JsonObject) : JsonObject :=
  o' ++ o.filter fun m => (o'.lookup m.1).isNone

theorem lookup_filter_isNone (o o' : JsonObject) {k : String} (h : o'.lookup k = none) :
    (o.filter fun m => (o'.lookup m.1).isNone).lookup k = o.lookup k := by
  induction o with
  | nil => rfl
  | cons m o ih =>
    obtain ⟨k', v⟩ := m
    by_cases hk : k = k'
    · subst hk
      rw [List.filter_cons_of_pos (by rw [h]; rfl), List.lookup_cons_self, List.lookup_cons_self]
    · have hne : (k == k') = false := beq_false_of_ne hk
      cases hm : (o'.lookup k').isNone with
      | true =>
        rw [List.filter_cons_of_pos (by exact hm), List.lookup_cons, List.lookup_cons, ih]
      | false =>
        rw [List.filter_cons_of_neg (by simp [hm]), ih, List.lookup_cons, hne]

theorem lookup_merge (o o' : JsonObject) (k : String) :
    (o.merge o').lookup k = (o'.lookup k).or (o.lookup k) := by
  unfold JsonObject.merge
  rw [List.lookup_append]
  cases h : o'.lookup k with
  | none => rw [lookup_filter_isNone o o' h]
  | some v => rfl

/-- An instant in microseconds since the epoch, the resolution of `timestamptz`. -/
abbrev Timestamp := ℤ

/-! ## Bytes -/

/-- Bytes. -/
abbrev Bytes := List UInt8

/-- The UTF-8 encoding of a text. -/
def utf8 (s : String) : Bytes := s.toByteArray.data.toList

theorem utf8_injective : Function.Injective utf8 := by
  intro s t h
  rw [← String.toByteArray_inj]
  exact ByteArray.ext (Array.toList_inj.1 h)

end Ipa
