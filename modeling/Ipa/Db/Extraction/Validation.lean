import Ipa.Db.Base
import Ipa.Lib.Listing
import Ipa.Lib.RowSessions
import Mathlib.Data.Prod.Lex

/-!
# Validation decisions

`addValidation` inserts a decision and `listValidations` lists those of a document, newest first.  Any
number of sessions do both (`ValidationSessions`); no call changes or deletes a decision.

* `list_validations_grows`: a later listing has the decisions of an earlier one in their order, and
  ends with them exactly when the decisions that have become visible in between come before them.
-/

namespace Ipa

open Listing ReadCommitted Transition

/-- Outcome of a validation pass over an extraction version. -/
inductive ValidationDecision
  | approved | rejected | corrected
deriving DecidableEq, Repr

/-- A row of `validations`; the DTO that the repository returns has the same fields. -/
structure Validation where
  id : UUID
  documentId : UUID
  extractionVersionId : UUID
  decision : ValidationDecision
  reviewerId : Option UUID
  notes : Option String
  correctedFields : Option JsonObject
  auto : Bool
  createdAt : Timestamp

/-- A call of `add_validation` in a transaction that started at `now`; `refsExist` says whether the rows
that the decision refers to exist. -/
structure ValidationCall where
  documentId : UUID
  extractionVersionId : UUID
  decision : ValidationDecision
  reviewerId : Option UUID
  notes : Option String
  correctedFields : Option JsonObject
  auto : Bool
  now : Timestamp
  refsExist : Bool

namespace ValidationSessions

/-- `add_validation` when it draws the identifier `id`. -/
def addValidation (id : UUID) (call : ValidationCall) : Option Validation → Outcome Validation DbError
  | none => .write {
      id := id
      documentId := call.documentId
      extractionVersionId := call.extractionVersionId
      decision := call.decision
      reviewerId := call.reviewerId
      notes := call.notes
      correctedFields := call.correctedFields
      auto := call.auto
      createdAt := call.now }
  | some _ => .raise .uniqueViolation

/-- The calls as statements; the primary key is the only unique column. -/
def statements : Statements UUID Validation ValidationCall UUID DbError where
  onRow := addValidation
  index := Validation.id
  clash _ _ := .uniqueViolation
  foreign _ call _ := if call.refsExist then none else some .foreignKeyViolation

end ValidationSessions

/-- Sessions on the table. -/
abbrev ValidationSessions (T : Type*) := RowSessions T UUID Validation ValidationCall

/-- What the sessions do. -/
abbrev ValidationEvent (T : Type*) := RowEvent T UUID Validation ValidationCall DbError

namespace ValidationSessions

variable {T : Type*} [DecidableEq T]

/-- The events `tr` lead from the rows of `table` to the state `s`. -/
abbrev Reached (table : Table Validation.id) (tr : List (ValidationEvent T)) (s : ValidationSessions T) :
    Prop :=
  Run (RowSessions.Step statements) (RowSessions.init table) tr s

/-- What the listing is ordered by: descending in both columns. -/
def order (row : Validation) : (ℤ ×ₗ ℕ)ᵒᵈ := OrderDual.toDual (toLex (row.createdAt, row.id.int.toNat))

/-- `list_validations`. -/
def listValidations (s : ValidationSessions T) (t : T) (documentId : UUID) : List Validation :=
  sortBy order ((s.select t).filter fun row => row.documentId = documentId)

theorem order_lt_iff {row row' : Validation} : order row < order row' ↔
    row'.createdAt < row.createdAt ∨
      row'.createdAt = row.createdAt ∧ row'.id.int.toNat < row.id.int.toNat := by
  rw [order, order, OrderDual.toDual_lt_toDual, Prod.Lex.toLex_lt_toLex]

variable {table : Table Validation.id} {s s' : ValidationSessions T} {tr tr' : List (ValidationEvent T)}

theorem inv_of_reached (h : Reached table tr s) : RowSessions.Inv statements table.lookup tr s :=
  RowSessions.inv_run table.nodup h

theorem nodup_order (h : Reached table tr s) (t : T) (documentId : UUID) :
    (((s.select t).filter fun row => row.documentId = documentId).map order).Nodup := by
  have hids : (((s.select t).filter fun row => row.documentId = documentId).map Validation.id).Nodup :=
    ((inv_of_reached h).nodup_select t).sublist (List.filter_sublist.map _)
  rw [List.Nodup, List.pairwise_map] at hids ⊢
  refine hids.imp fun {row row'} hne horder => hne ?_
  have hint : row.id.int.toNat = row'.id.int.toNat :=
    congrArg (fun k => (ofLex (OrderDual.ofDual k)).2) horder
  have hbits : row.id.int = row'.id.int := BitVec.eq_of_toNat_eq hint
  rw [← UUID.mk.injEq] at hbits
  exact hbits

/-- A listing by a session that has added nothing itself is part of every later one, in its order.  The
later one ends with it exactly when each decision that has become visible in between comes, by the start
of its transaction and then by its identifier, behind none of them. -/
theorem list_validations_grows (h : Reached table tr s) (h' : Run (RowSessions.Step statements) s tr' s')
    (t t' : T) (hidle : s.phase t = .active []) (documentId : UUID) :
    (s.listValidations t documentId).Sublist (s'.listValidations t' documentId) ∧
    (s.listValidations t documentId <:+ s'.listValidations t' documentId ↔
      ∀ row ∈ s'.select t', row.documentId = documentId → row ∉ s.select t →
        ∀ row' ∈ s.listValidations t documentId, row'.createdAt < row.createdAt ∨
          row'.createdAt = row.createdAt ∧ row'.id.int.toNat < row.id.int.toNat) := by
  have hinv := inv_of_reached h
  have hreached' : Reached table (tr ++ tr') s' := Run.append_iff.2 ⟨s, h, h'⟩
  have hfixed : ∀ id call row row', addValidation id call (some row) ≠ .write row' := by
    intro id call row row' hwrite
    cases hwrite
  have hsubset : s.select t ⊆ s'.select t' :=
    hinv.select_subset hfixed (RowSessions.openEntries_eq hidle) h' t'
  have hnodup := nodup_order hreached' t' documentId
  have hsubperm : ((s.select t).filter fun row => row.documentId = documentId).Subperm
      ((s'.select t').filter fun row => row.documentId = documentId) := by
    refine ((hinv.nodup_select t).of_map.filter _).subperm fun row hrow => ?_
    rw [List.mem_filter] at hrow ⊢
    exact ⟨hsubset hrow.1, hrow.2⟩
  have hsub := sortBy_sublist order hnodup hsubperm
  refine ⟨hsub, (suffix_iff_of_sublist hsub (pairwise_lt_sortBy order hnodup)).trans ?_⟩
  simp only [listValidations, mem_sortBy, List.mem_filter, decide_eq_true_eq, order_lt_iff]
  constructor
  · intro hfront row hrow hdocument hnew
    exact hfront row ⟨hrow, hdocument⟩ fun hold => hnew hold.1
  · rintro hfront row ⟨hrow, hdocument⟩ hnew
    exact hfront row hrow hdocument fun hold => hnew ⟨hold, hdocument⟩

/-- One session approves an extraction, later another one rejects it, and the rejection comes first. -/
theorem list_validations_grows_sample : ∃ (tr tr' : List (ValidationEvent Bool))
    (s s' : ValidationSessions Bool) (approved rejected : Validation), Reached (Table.empty _) tr s ∧
      Run (RowSessions.Step statements) s tr' s' ∧ rejected ∈ s'.listValidations true ⟨1⟩ ∧
      s.listValidations true ⟨1⟩ = [approved] ∧ [approved] <:+ s'.listValidations true ⟨1⟩ := by
  let approval : ValidationCall := ⟨⟨1⟩, ⟨2⟩, .approved, none, none, none, true, 0, true⟩
  let rejection : ValidationCall := ⟨⟨1⟩, ⟨2⟩, .rejected, some ⟨3⟩, none, none, false, 1, true⟩
  let approved : Validation := ⟨⟨7⟩, ⟨1⟩, ⟨2⟩, .approved, none, none, none, true, 0⟩
  let rejected : Validation := ⟨⟨8⟩, ⟨1⟩, ⟨2⟩, .rejected, some ⟨3⟩, none, none, false, 1⟩
  let s₀ : ValidationSessions Bool := RowSessions.init (Table.empty Validation.id)
  let s₁ : ValidationSessions Bool := ⟨s₀.keys.insert ⟨7⟩, s₀.cell.write true ⟨7⟩ approved,
    Function.update s₀.phase true (.active [(⟨7⟩, approval, approved)])⟩
  let s₂ : ValidationSessions Bool := ⟨s₁.keys, s₁.cell.commit true,
    Function.update s₁.phase true (.active [])⟩
  let s₃ : ValidationSessions Bool := ⟨s₂.keys.insert ⟨8⟩, s₂.cell.write false ⟨8⟩ rejected,
    Function.update s₂.phase false (.active [(⟨8⟩, rejection, rejected)])⟩
  let s₄ : ValidationSessions Bool := ⟨s₃.keys, s₃.cell.commit false,
    Function.update s₃.phase false (.active [])⟩
  have h₁ : RowSessions.Step statements s₀ (.write true ⟨7⟩ approval approved) s₁ := by
    refine .write (w := []) rfl (fun t v hw => nomatch hw) rfl ?_ rfl
    rintro k' - v' (hv | ⟨t, hw⟩)
    · cases hv
    · cases hw
  have h₂ : RowSessions.Step statements s₁ (.commit true [(⟨7⟩, approval, approved)]) s₂ := .commit rfl
  have h : Reached (Table.empty _) _ s₂ := (Run.single h₁).snoc h₂
  have hfree : (s₂.cell ⟨8⟩).FreeFor false := (inv_of_reached h).freeFor fun t ht => by
    rw [eq_true_of_ne_false ht]
    rfl
  have h₃ : RowSessions.Step statements s₂ (.write false ⟨8⟩ rejection rejected) s₃ := by
    refine .write (w := []) rfl hfree rfl ?_ rfl
    rintro k' - v' hv
    obtain rfl := List.mem_singleton.1 ((inv_of_reached h).keys k' v' hv)
    rcases hv with hv | ⟨t, hw⟩
    · cases hv
      decide
    · cases hw
  have h₄ : RowSessions.Step statements s₃ (.commit false [(⟨8⟩, rejection, rejected)]) s₄ := .commit rfl
  have h' : Run (RowSessions.Step statements) s₂ _ s₄ := (Run.single h₃).snoc h₄
  have hold : s₂.select true = [approved] := rfl
  have hnew : s₄.select true = [rejected, approved] := rfl
  have hlist : s₂.listValidations true ⟨1⟩ = [approved] := by
    rw [listValidations, hold]
    rfl
  obtain ⟨hsub, hiff⟩ := list_validations_grows h h' true true rfl ⟨1⟩
  refine ⟨_, _, s₂, s₄, approved, rejected, h, h', ?_, hlist, ?_⟩
  · rw [listValidations, mem_sortBy, hnew]
    exact List.mem_cons_self
  · rw [hlist] at hiff
    refine hiff.2 fun row hrow _ hrow' row' hmem => ?_
    rw [hnew] at hrow
    rw [hold] at hrow'
    obtain rfl := List.mem_singleton.1 hmem
    rcases List.mem_cons.1 hrow with rfl | hrow
    · exact .inl (by decide)
    · exact absurd hrow hrow'

end ValidationSessions

end Ipa

