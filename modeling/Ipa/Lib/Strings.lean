import Mathlib.Data.List.DropRight
import Mathlib.Data.List.Infix

/-!
# Replacing, splitting and stripping texts

Texts are lists.

* `replaceAll`: the occurrences of `old` from the left give way to `new`.  When neither can begin
  inside the other in the wrong place (`Clash`), no occurrence is left (`not_infix_replaceAll`).
* `items`: the parts between separators, stripped, without the empty ones.  The lists that come back
  from a text are those of clean items (`items_intercalate_iff`).
-/

namespace Strings

variable {A : Type*}

/-! ## Replacing -/

section Replace

variable [DecidableEq A] {old new : List A}

/-- `replaceAll` inside an occurrence of which `n` characters are left. -/
def replaceFrom (old new : List A) : ℕ → List A → List A
  | _, [] => []
  | n + 1, _ :: s => replaceFrom old new n s
  | 0, c :: s =>
    if old <+: c :: s then new ++ replaceFrom old new (old.length - 1) s else c :: replaceFrom old new 0 s

/-- Every occurrence of `old`, which is not empty, from the left. -/
def replaceAll (old new s : List A) : List A := replaceFrom old new 0 s

@[simp]
theorem replaceAll_nil : replaceAll old new [] = [] := rfl

theorem replaceFrom_eq (n : ℕ) (s : List A) : replaceFrom old new n s = replaceAll old new (s.drop n) := by
  induction s generalizing n with
  | nil => simp [replaceFrom]
  | cons c s ih =>
    cases n with
    | zero => rfl
    | succ n => exact ih n

theorem replaceAll_append (hold : old ≠ []) (s : List A) :
    replaceAll old new (old ++ s) = new ++ replaceAll old new s := by
  obtain ⟨c, old', rfl⟩ := List.exists_cons_of_ne_nil hold
  have hbegins : c :: old' <+: c :: (old' ++ s) := List.prefix_append (c :: old') s
  rw [replaceAll, List.cons_append, replaceFrom, if_pos hbegins, replaceFrom_eq]
  simp

theorem replaceAll_cons {c : A} {s : List A} (h : ¬ old <+: c :: s) :
    replaceAll old new (c :: s) = c :: replaceAll old new s := by
  rw [replaceAll, replaceFrom, if_neg h, replaceAll]

/-- A text is read from the left: an occurrence, or a character where none begins. -/
theorem occurrences_induction {motive : List A → Prop} (hold : old ≠ []) (nil : motive [])
    (occurrence : ∀ s, motive s → motive (old ++ s))
    (cons : ∀ c s, ¬ old <+: c :: s → motive s → motive (c :: s)) (s : List A) : motive s := by
  induction hn : s.length using Nat.strong_induction_on generalizing s with
  | _ n ih =>
    cases s with
    | nil => exact nil
    | cons c s =>
      by_cases hfound : old <+: c :: s
      · obtain ⟨rest, hrest⟩ := hfound
        rw [← hrest]
        refine occurrence rest (ih rest.length ?_ rest rfl)
        have hlength := congrArg List.length hrest
        have hpos := List.length_pos_iff.2 hold
        simp only [List.length_append] at hlength
        omega
      · exact cons c s hfound (ih s.length (by simp only [List.length_cons] at hn; omega) s rfl)

/-- Neither begins the other. -/
def Clash (u v : List A) : Prop := ¬ u <+: v ∧ ¬ v <+: u

instance (u v : List A) : Decidable (Clash u v) := inferInstanceAs (Decidable (_ ∧ _))

omit [DecidableEq A] in
theorem not_clash {u v s : List A} (hu : u <+: s) (hv : v <+: s) : ¬ Clash u v := fun hclash =>
  (List.prefix_or_prefix_of_prefix hu hv).elim hclash.1 hclash.2

/-- What begins the new text, and clashes with all that is put in, has begun the old one. -/
theorem prefix_of_prefix_replaceAll (hold : old ≠ []) {x s : List A}
    (hx : ∀ v ∈ x.tails, v ≠ [] → Clash v new) (h : x <+: replaceAll old new s) : x <+: s := by
  induction s using occurrences_induction hold generalizing x with
  | nil => exact h
  | occurrence s ih =>
    rw [replaceAll_append hold] at h
    by_cases hnil : x = []
    · rw [hnil]
      exact List.nil_prefix
    · exact absurd (hx x ((List.mem_tails _ _).2 List.suffix_rfl) hnil) (not_clash h (List.prefix_append new _))
  | cons c s hfound ih =>
    rw [replaceAll_cons hfound] at h
    cases x with
    | nil => exact List.nil_prefix
    | cons c' x =>
      obtain ⟨rfl, hrest⟩ := List.cons_prefix_cons.1 h
      refine List.cons_prefix_cons.2 ⟨rfl, ih (fun v hv => hx v ?_) hrest⟩
      exact (List.mem_tails _ _).2 (((List.mem_tails _ _).1 hv).trans (List.suffix_cons c' x))

omit [DecidableEq A] in
/-- What occurs in `l ++ r` begins in `l`, or occurs in `r`. -/
theorem infix_append_cases {x l r : List A} (h : x <:+: l ++ r) :
    (∃ v ∈ l.tails, v ≠ [] ∧ x <+: v ++ r) ∨ x <:+: r := by
  induction l with
  | nil => exact .inr h
  | cons c l ih =>
    obtain h | h := List.infix_cons_iff.1 h
    · exact .inl ⟨c :: l, (List.mem_tails _ _).2 List.suffix_rfl, List.cons_ne_nil c l, h⟩
    · obtain ⟨v, hv, hne, hbegins⟩ | h := ih h
      · exact .inl ⟨v, (List.mem_tails _ _).2 (((List.mem_tails _ _).1 hv).trans (List.suffix_cons c l)), hne, hbegins⟩
      · exact .inr h

/-- A text that does not occur, or is the one that is replaced, does not occur afterwards: it clashes
with the new text where it would begin before it or in it. -/
theorem not_infix_replaceAll (hold : old ≠ []) {x s : List A} (hx : x ≠ [])
    (hbefore : ∀ v ∈ x.tail.tails, v ≠ [] → Clash v new) (hinside : ∀ v ∈ new.tails, v ≠ [] → Clash x v)
    (h : ¬ x <:+: s ∨ x = old) : ¬ x <:+: replaceAll old new s := by
  induction s using occurrences_induction hold with
  | nil => simpa using hx
  | occurrence s ih =>
    rw [replaceAll_append hold]
    intro hoccurs
    obtain ⟨v, hv, hne, hbegins⟩ | hoccurs := infix_append_cases hoccurs
    · exact not_clash hbegins (List.prefix_append v _) (hinside v hv hne)
    · exact ih (h.imp_left fun hnot hs => hnot (hs.trans (List.suffix_append old s).isInfix)) hoccurs
  | cons c s hfound ih =>
    rw [replaceAll_cons hfound]
    intro hoccurs
    obtain hbegins | hoccurs := List.infix_cons_iff.1 hoccurs
    · obtain ⟨c', x', rfl⟩ := List.exists_cons_of_ne_nil hx
      obtain ⟨rfl, hrest⟩ := List.cons_prefix_cons.1 hbegins
      have hbegan : c' :: x' <+: c' :: s :=
        List.cons_prefix_cons.2 ⟨rfl, prefix_of_prefix_replaceAll hold hbefore hrest⟩
      obtain hnot | heq := h
      · exact hnot hbegan.isInfix
      · exact hfound (heq ▸ hbegan)
    · exact ih (h.imp_left fun hnot hs => hnot (hs.trans (List.suffix_cons c s).isInfix)) hoccurs

theorem replaceAll_eq_self {s : List A} (h : ¬ old <:+: s) : replaceAll old new s = s := by
  induction s with
  | nil => rfl
  | cons c s ih =>
    rw [replaceAll_cons fun hfound => h hfound.isInfix,
      ih fun hoccurs => h (hoccurs.trans (List.suffix_cons c s).isInfix)]

end Replace

/-! ## Items between separators -/

section Items

variable {p : A → Bool}

/-- Without the characters at both ends that satisfy `p`. -/
def strip (p : A → Bool) (s : List A) : List A := (s.dropWhile p).rdropWhile p

@[simp]
theorem strip_nil : strip p [] = [] := rfl

theorem strip_sublist (s : List A) : (strip p s).Sublist s := by
  have hstart : strip p s <+: s.dropWhile p := List.rdropWhile_prefix p _
  exact hstart.sublist.trans (List.dropWhile_sublist p)

theorem strip_strip (s : List A) : strip p (strip p s) = strip p s := by
  have hstart : (strip p s).dropWhile p = strip p s := by
    rw [List.dropWhile_eq_self_iff]
    intro hpos
    obtain ⟨rest, hrest⟩ : strip p s <+: s.dropWhile p := List.rdropWhile_prefix p _
    have hfirst : (s.dropWhile p)[0]? = some (strip p s)[0] := by
      rw [← hrest, List.getElem?_append_left hpos]
      exact List.getElem?_eq_getElem hpos
    have hlt : 0 < (s.dropWhile p).length := by
      by_contra hnot
      rw [List.getElem?_eq_none (by omega)] at hfirst
      cases hfirst
    rw [List.getElem?_eq_getElem hlt] at hfirst
    rw [← Option.some.inj hfirst]
    exact List.dropWhile_get_zero_not p s hlt
  rw [strip, hstart, strip, List.rdropWhile_idempotent]

variable [DecidableEq A] {sep : A}

/-- The stripped parts between the separators, without the empty ones. -/
def items (p : A → Bool) (sep : A) (s : List A) : List (List A) :=
  ((s.splitOn sep).map (strip p)).filter (· ≠ [])

/-- An item as it comes out of `items`. -/
structure Clean (p : A → Bool) (sep : A) (item : List A) : Prop where
  ne_nil : item ≠ []
  stripped : strip p item = item
  sep_notMem : sep ∉ item

theorem sep_notMem_of_mem_splitOn {s part : List A} (h : part ∈ s.splitOn sep) : sep ∉ part := by
  induction s generalizing part with
  | nil =>
    rw [List.splitOn_nil, List.mem_singleton] at h
    simp [h]
  | cons c s ih =>
    rw [List.splitOn_cons_eq_if_modifyHead] at h
    split_ifs at h with hc
    · obtain rfl | h := List.mem_cons.1 h
      · exact List.not_mem_nil
      · exact ih h
    · obtain ⟨first, parts, hparts⟩ := List.exists_cons_of_ne_nil (List.splitOn_ne_nil sep s)
      rw [hparts] at h ih
      obtain rfl | h := List.mem_cons.1 h
      · rw [List.mem_cons, not_or]
        exact ⟨fun heq => hc (beq_iff_eq.2 heq.symm), ih List.mem_cons_self⟩
      · exact ih (List.mem_cons_of_mem _ h)

theorem clean_of_mem_items {s item : List A} (h : item ∈ items p sep s) : Clean p sep item := by
  obtain ⟨hmem, hne⟩ := List.mem_filter.1 h
  obtain ⟨part, hpart, rfl⟩ := List.mem_map.1 hmem
  exact ⟨of_decide_eq_true hne, strip_strip part,
    fun hsep => sep_notMem_of_mem_splitOn hpart ((strip_sublist part).subset hsep)⟩

/-- A list comes back from the text that joins it if and only if its items are clean. -/
theorem items_intercalate_iff {l : List (List A)} :
    items p sep ([sep].intercalate l) = l ↔ ∀ item ∈ l, Clean p sep item := by
  constructor
  · intro h item hitem
    rw [← h] at hitem
    exact clean_of_mem_items hitem
  · intro h
    by_cases hl : l = []
    · rw [hl]
      simp [items]
    · have hmap : l.map (strip p) = l :=
        (List.map_congr_left fun item hitem => (h item hitem).stripped).trans (List.map_id l)
      rw [items, List.splitOn_intercalate sep (fun item hitem => (h item hitem).sep_notMem) hl, hmap,
        List.filter_eq_self]
      exact fun item hitem => decide_eq_true (h item hitem).ne_nil

end Items

end Strings
