import Ipa.Lib.Json.Encode

/-!
# Values with a compact text

* `dumpsCompact_isOk_iff`: the values that `dumpsCompact` writes.  No text in them has a surrogate, no
  integer too many digits, every float is finite (`Value.Writable`), and there are not too many values in
  one another (`Value.nesting`).
-/

namespace PyJson

variable {c : CodePoint} {s text : Text} {digits depth : ℕ} {texts : List Text}

/-! ## Texts that UTF-8 has -/

/-- A text without surrogates. -/
def Encodable (text : Text) : Prop := ∀ c ∈ text, ¬ c.High ∧ ¬ c.Low

instance (text : Text) : Decidable (Encodable text) := inferInstanceAs (Decidable (∀ c ∈ text, _))

theorem encodeUtf8_isSome_iff : (encodeUtf8 text).isSome ↔ Encodable text := by
  unfold encodeUtf8
  split_ifs with h
  · obtain ⟨c, hc, hsurrogate⟩ := List.any_eq_true.1 h
    refine iff_of_false (by simp) fun hencodable => ?_
    exact (of_decide_eq_true hsurrogate).elim (hencodable c hc).1 (hencodable c hc).2
  · refine iff_of_true rfl fun c hc => ?_
    rw [← not_or]
    intro hsurrogate
    exact h (List.any_eq_true.2 ⟨c, hc, decide_eq_true hsurrogate⟩)

theorem encodable_append : Encodable (s ++ text) ↔ Encodable s ∧ Encodable text := by
  simp only [Encodable, List.forall_mem_append]

theorem encodable_cons : Encodable (c :: text) ↔ (¬ c.High ∧ ¬ c.Low) ∧ Encodable text := by
  simp only [Encodable, List.forall_mem_cons]

theorem encodable_of_ascii (h : Ascii text) : Encodable text := by
  intro c hc
  have hlt := (h c hc).2
  constructor
  · exact fun hhigh => absurd hhigh.1 (by omega)
  · exact fun hlow => absurd hlow.1 (by omega)

theorem encodable_intercalate {sep : Text} (hsep : Encodable sep) :
    Encodable (sep.intercalate texts) ↔ ∀ text ∈ texts, Encodable text := by
  induction texts with
  | nil => exact iff_of_true (fun c hc => absurd hc List.not_mem_nil) fun t ht => absurd ht List.not_mem_nil
  | cons text texts ih =>
    cases texts with
    | nil => simp
    | cons text' texts =>
      rw [List.intercalate_cons_cons, encodable_append, encodable_append, ih,
        List.forall_mem_cons (a := text)]
      exact ⟨fun h => ⟨h.1.1, h.2⟩, fun h => ⟨⟨h.1, hsep⟩, h.2⟩⟩

theorem encodable_escapeControl : Encodable (escapeControl c) ↔ ¬ c.High ∧ ¬ c.Low := by
  have hspecial : ∀ d : ℕ, d < 0x80 → Encodable (escapeControl (.ofNat d)) := by decide
  have hlt : ∀ {d : ℕ}, c = .ofNat d → d < 0x80 → ¬ c.High ∧ ¬ c.Low := by
    rintro d rfl hd
    have hval : (CodePoint.ofNat d).val = d := CodePoint.val_ofNat (by omega)
    simp only [CodePoint.High, CodePoint.Low, hval]
    omega
  by_cases hc : c.val < 0x80
  · have heq : c = .ofNat c.val := (CodePoint.ofNat_val c).symm
    refine iff_of_true ?_ (hlt heq hc)
    rw [heq]
    exact hspecial c.val hc
  · have hne : ∀ d : ℕ, d < 0x80 → c ≠ .ofNat d := by
      rintro d hd rfl
      rw [CodePoint.val_ofNat (by omega)] at hc
      exact hc hd
    have hself : escapeControl c = [c] := by
      have hcontrol : ¬ c.val < 0x20 := by omega
      have hquote : c ≠ dquote := hne 0x22 (by decide)
      have hslash : c ≠ backslash := hne 0x5C (by decide)
      have hnewline : c ≠ '\n' := hne 0x0A (by decide)
      have hreturn : c ≠ '\r' := hne 0x0D (by decide)
      have htab : c ≠ '\t' := hne 0x09 (by decide)
      rw [escapeControl, if_neg hquote, if_neg hslash, if_neg (hne 0x08 (by decide)),
        if_neg (hne 0x0C (by decide)), if_neg hnewline, if_neg hreturn, if_neg htab, if_neg hcontrol]
    rw [hself]
    simp [Encodable]

theorem encodable_quoteText : Encodable (quoteText s) ↔ Encodable s := by
  have hquote : ¬ dquote.High ∧ ¬ dquote.Low := by decide
  rw [quoteText, encodable_cons, encodable_append]
  have hflat : Encodable (s.flatMap escapeControl) ↔ Encodable s := by
    induction s with
    | nil => rfl
    | cons c s ih => rw [List.flatMap_cons, encodable_append, ih, encodable_escapeControl, encodable_cons]
  rw [hflat]
  exact ⟨fun h => h.2.1, fun h => ⟨hquote, h, by decide⟩⟩

theorem ascii_decimal (n : ℕ) : Ascii (decimal n) := by
  intro c hc
  obtain ⟨d, hd, rfl⟩ := List.mem_map.1 hc
  have hdigit : d.isDigit := Nat.isDigit_of_mem_toDigits (by decide) (by decide) hd
  rw [Char.isDigit, Bool.and_eq_true, decide_eq_true_eq, decide_eq_true_eq] at hdigit
  have hlow : 48 ≤ d.toNat := hdigit.1
  have hhigh : d.toNat ≤ 57 := hdigit.2
  rw [CodePoint.val_ofNat (by omega)]
  omega

theorem intText_eq_ok_iff {n : ℤ} : intText digits n = .ok text ↔ (decimal n.natAbs).length ≤ digits ∧
    text = (if n < 0 then '-' :: decimal n.natAbs else decimal n.natAbs : Text) := by
  rw [intText]
  by_cases h : digits < (decimal n.natAbs).length
  · rw [if_pos h]
    exact iff_of_false (fun h => nomatch h) fun hw => Nat.not_lt.2 hw.1 h
  · rw [if_neg h, Except.ok.injEq]
    exact ⟨fun heq => ⟨Nat.not_lt.1 h, heq.symm⟩, fun hw => hw.2.symm⟩

theorem encodable_intText {n : ℤ} (h : intText digits n = .ok text) : Encodable text := by
  have hdecimal := encodable_of_ascii (ascii_decimal n.natAbs)
  rw [(intText_eq_ok_iff.1 h).2]
  split_ifs
  · exact encodable_cons.2 ⟨by decide, hdecimal⟩
  · exact hdecimal

/-! ## Values -/

mutual

/-- How many lists and objects are in one another. -/
def Value.nesting : Value → ℕ
  | .arr items => itemsNesting items + 1
  | .obj members => membersNesting members + 1
  | .null | .bool _ | .int _ | .float _ | .str _ => 0

/-- The nesting of the items. -/
def itemsNesting : List Value → ℕ
  | [] => 0
  | item :: items => max item.nesting (itemsNesting items)

/-- The nesting of the members. -/
def membersNesting : List (Text × Value) → ℕ
  | [] => 0
  | (_, v) :: members => max v.nesting (membersNesting members)

end

mutual

/-- No text has a surrogate, no integer more than `digits` digits, and every float is finite. -/
def Value.Writable (digits : ℕ) : Value → Prop
  | .null | .bool _ => True
  | .int n => (decimal n.natAbs).length ≤ digits
  | .float text => text ∉ notFinite ∧ Encodable text
  | .str s => Encodable s
  | .arr items => WritableItems digits items
  | .obj members => WritableMembers digits members

/-- All items are so. -/
def WritableItems (digits : ℕ) : List Value → Prop
  | [] => True
  | item :: items => item.Writable digits ∧ WritableItems digits items

/-- All members are so. -/
def WritableMembers (digits : ℕ) : List (Text × Value) → Prop
  | [] => True
  | (k, v) :: members => (Encodable k ∧ v.Writable digits) ∧ WritableMembers digits members

end

theorem writableMembers_iff {members : List (Text × Value)} : WritableMembers digits members ↔
    ∀ m ∈ members, Encodable m.1 ∧ m.2.Writable digits := by
  induction members with
  | nil => simp [WritableMembers]
  | cons m members ih => rw [WritableMembers, ih, List.forall_mem_cons]

theorem membersNesting_le_iff {members : List (Text × Value)} : membersNesting members ≤ depth ↔
    ∀ m ∈ members, m.2.nesting ≤ depth := by
  induction members with
  | nil => simp [membersNesting]
  | cons m members ih => rw [membersNesting, Nat.max_le, ih, List.forall_mem_cons]

/-- The texts of some elements between two brackets. -/
theorem exists_enclosed_iff {x : Except Error (List Text)} {opening closing : CodePoint}
    (hopening : Encodable [opening]) (hclosing : Encodable [closing]) :
    (∃ text, (x >>= fun texts =>
        .ok (opening :: (Options.compact.comma.intercalate texts ++ [closing]))) = .ok text ∧
      Encodable text) ↔ ∃ texts, x = .ok texts ∧ ∀ text ∈ texts, Encodable text := by
  have htext : ∀ texts : List Text,
      Encodable (opening :: (Options.compact.comma.intercalate texts ++ [closing])) ↔
        ∀ text ∈ texts, Encodable text := by
    intro texts
    rw [encodable_cons, encodable_append, encodable_intercalate (by decide)]
    exact ⟨fun h => h.2.1, fun h => ⟨(encodable_cons.1 hopening).1, h, hclosing⟩⟩
  constructor
  · rintro ⟨text, hencode, hencodable⟩
    obtain ⟨texts, htexts, heq⟩ := bind_eq_ok_iff.1 hencode
    obtain rfl := Except.ok.inj heq
    exact ⟨texts, htexts, (htext texts).1 hencodable⟩
  · rintro ⟨texts, htexts, hencodable⟩
    exact ⟨_, bind_eq_ok_iff.2 ⟨texts, htexts, rfl⟩, (htext texts).2 hencodable⟩

mutual

theorem encode_compact_iff : ∀ (v : Value) (depth : ℕ),
    (∃ text, encode .compact digits v depth = .ok text ∧ Encodable text) ↔
      v.Writable digits ∧ v.nesting ≤ depth
  | .null, depth => iff_of_true ⟨_, rfl, by decide⟩ ⟨trivial, Nat.zero_le _⟩
  | .bool b, depth => by
    refine iff_of_true ⟨_, rfl, ?_⟩ ⟨trivial, Nat.zero_le _⟩
    cases b <;> decide
  | .int n, depth => by
    rw [encode, Value.Writable, Value.nesting]
    constructor
    · rintro ⟨text, htext, -⟩
      exact ⟨(intText_eq_ok_iff.1 htext).1, Nat.zero_le _⟩
    · intro hw
      have htext := intText_eq_ok_iff.2 ⟨hw.1, rfl⟩
      exact ⟨_, htext, encodable_intText htext⟩
  | .float text, depth => by
    rw [encode, Value.Writable, Value.nesting]
    by_cases h : text ∈ notFinite
    · rw [if_pos (by simp [Options.compact, h])]
      exact iff_of_false (fun ⟨_, h, _⟩ => nomatch h) fun hw => hw.1.1 h
    · rw [if_neg (by simp [h])]
      constructor
      · rintro ⟨_, heq, hencodable⟩
        obtain rfl := Except.ok.inj heq
        exact ⟨⟨h, hencodable⟩, Nat.zero_le _⟩
      · exact fun hw => ⟨text, rfl, hw.1.2⟩
  | .str s, depth => by
    rw [encode, Value.Writable, Value.nesting]
    constructor
    · rintro ⟨_, heq, hencodable⟩
      obtain rfl := Except.ok.inj heq
      exact ⟨encodable_quoteText.1 hencodable, Nat.zero_le _⟩
    · exact fun hw => ⟨_, rfl, encodable_quoteText.2 hw.1⟩
  | .arr items, 0 => iff_of_false (fun ⟨_, h, _⟩ => nomatch h) fun hw => absurd hw.2 (Nat.not_succ_le_zero _)
  | .arr items, depth + 1 => by
    rw [encode, Value.Writable, Value.nesting, Nat.succ_le_succ_iff, ← encodeItems_compact_iff items depth]
    exact exists_enclosed_iff (by decide) (by decide)
  | .obj members, 0 => iff_of_false (fun ⟨_, h, _⟩ => nomatch h) fun hw => absurd hw.2 (Nat.not_succ_le_zero _)
  | .obj members, depth + 1 => by
    rw [encode, Value.Writable, Value.nesting, Nat.succ_le_succ_iff,
      ← encodeMembers_compact_iff members depth]
    exact exists_enclosed_iff (by decide) (by decide)

theorem encodeItems_compact_iff : ∀ (items : List Value) (depth : ℕ),
    (∃ texts, encodeItems .compact digits items depth = .ok texts ∧ ∀ text ∈ texts, Encodable text) ↔
      WritableItems digits items ∧ itemsNesting items ≤ depth
  | [], depth => iff_of_true ⟨[], rfl, nofun⟩ ⟨trivial, Nat.zero_le _⟩
  | item :: items, depth => by
    rw [encodeItems, WritableItems, itemsNesting, Nat.max_le]
    have hitem := encode_compact_iff item depth
    have hitems := encodeItems_compact_iff items depth
    constructor
    · rintro ⟨texts, hencode, hencodable⟩
      obtain ⟨text, htext, hencode⟩ := bind_eq_ok_iff.1 hencode
      obtain ⟨texts', htexts, heq⟩ := bind_eq_ok_iff.1 hencode
      obtain rfl := Except.ok.inj heq
      rw [List.forall_mem_cons] at hencodable
      obtain ⟨hwritable, hle⟩ := hitem.1 ⟨text, htext, hencodable.1⟩
      obtain ⟨hwritables, hles⟩ := hitems.1 ⟨texts', htexts, hencodable.2⟩
      exact ⟨⟨hwritable, hwritables⟩, hle, hles⟩
    · rintro ⟨⟨hwritable, hwritables⟩, hle, hles⟩
      obtain ⟨text, htext, hencodable⟩ := hitem.2 ⟨hwritable, hle⟩
      obtain ⟨texts, htexts, hencodables⟩ := hitems.2 ⟨hwritables, hles⟩
      exact ⟨text :: texts, bind_eq_ok_iff.2 ⟨text, htext, bind_eq_ok_iff.2 ⟨texts, htexts, rfl⟩⟩,
        List.forall_mem_cons.2 ⟨hencodable, hencodables⟩⟩

theorem encodeMembers_compact_iff : ∀ (members : List (Text × Value)) (depth : ℕ),
    (∃ texts, encodeMembers .compact digits members depth = .ok texts ∧
      ∀ text ∈ texts, Encodable text) ↔
      WritableMembers digits members ∧ membersNesting members ≤ depth
  | [], depth => iff_of_true ⟨[], rfl, nofun⟩ ⟨trivial, Nat.zero_le _⟩
  | (k, v) :: members, depth => by
    rw [encodeMembers, WritableMembers, membersNesting, Nat.max_le]
    have hvalue := encode_compact_iff v depth
    have hmembers := encodeMembers_compact_iff members depth
    have htext : ∀ text, Encodable (Options.compact.quote k ++ Options.compact.colon ++ text) ↔
        Encodable k ∧ Encodable text := by
      intro text
      rw [encodable_append, encodable_append]
      exact ⟨fun h => ⟨encodable_quoteText.1 h.1.1, h.2⟩,
        fun h => ⟨⟨encodable_quoteText.2 h.1, by decide⟩, h.2⟩⟩
    constructor
    · rintro ⟨texts, hencode, hencodable⟩
      obtain ⟨text, hvalueText, hencode⟩ := bind_eq_ok_iff.1 hencode
      obtain ⟨texts', htexts, heq⟩ := bind_eq_ok_iff.1 hencode
      obtain rfl := Except.ok.inj heq
      rw [List.forall_mem_cons, htext] at hencodable
      obtain ⟨hwritable, hle⟩ := hvalue.1 ⟨text, hvalueText, hencodable.1.2⟩
      obtain ⟨hwritables, hles⟩ := hmembers.1 ⟨texts', htexts, hencodable.2⟩
      exact ⟨⟨⟨hencodable.1.1, hwritable⟩, hwritables⟩, hle, hles⟩
    · rintro ⟨⟨⟨hk, hwritable⟩, hwritables⟩, hle, hles⟩
      obtain ⟨text, hvalueText, hencodable⟩ := hvalue.2 ⟨hwritable, hle⟩
      obtain ⟨texts, htexts, hencodables⟩ := hmembers.2 ⟨hwritables, hles⟩
      exact ⟨_, bind_eq_ok_iff.2 ⟨text, hvalueText, bind_eq_ok_iff.2 ⟨texts, htexts, rfl⟩⟩,
        List.forall_mem_cons.2 ⟨(htext text).2 ⟨hk, hencodable⟩, hencodables⟩⟩

end

/-- The values that have a compact text. -/
theorem dumpsCompact_isOk_iff {limits : Limits} {v : Value} :
    (∃ raw, dumpsCompact limits v = .ok raw) ↔ v.Writable limits.digits ∧ v.nesting ≤ limits.depth := by
  rw [← encode_compact_iff, dumpsCompact]
  cases encode .compact limits.digits v limits.depth with
  | error e => exact iff_of_false (fun ⟨_, h⟩ => nomatch h) fun ⟨_, h, _⟩ => nomatch h
  | ok text =>
    have hiff : (∃ text', Except.ok text = (Except.ok text' : Except Error Text) ∧ Encodable text') ↔
        Encodable text :=
      ⟨fun ⟨_, heq, h⟩ => Except.ok.inj heq ▸ h, fun h => ⟨text, rfl, h⟩⟩
    rw [hiff, ← encodeUtf8_isSome_iff]
    dsimp only
    cases encodeUtf8 text with
    | none => exact iff_of_false (fun ⟨_, h⟩ => nomatch h) (by simp)
    | some raw => exact iff_of_true ⟨raw, rfl⟩ rfl

end PyJson
