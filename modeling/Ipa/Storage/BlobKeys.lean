import Ipa.Core.Ids
import Ipa.Storage.Blob

/-!
# Uploads under built keys

When every upload takes its key from the builders, a step of a call changes the object of no other
blob (`objects_step`), since no two blobs share a key.  So whatever a call finds under its key, and
keeps instead of its own bytes, was sent for the same blob.

* `blob_keys_apart`: the keys are injective, and in every run the objects under them are apart.
-/

namespace Ipa

open MinioBlobStore Transition

/-- A call whose key is built from what it stores. -/
structure NamedPut where
  name : BlobName
  call : PutCall
  key_eq : call.key = name.key

/-- The calls of the store. -/
abbrev namedCalls {C : Type*} (puts : C → NamedPut) (c : C) : PutCall := (puts c).call

section

variable {C : Type*}

/-- The objects of the bucket by what they are. -/
def BlobState.objects (s : BlobState C) (name : BlobName) : Option BlobObject := s.bucket name.key

/-- The object of a blob that was there at the start, or that a request for this blob has stored. -/
def StoredFor (puts : C → NamedPut) (s₀ : BlobState C) (tr : List (BlobAction C)) (name : BlobName)
    (object : BlobObject) : Prop :=
  s₀.objects name = some object ∨
    ∃ c failure, .putObject c failure true ∈ tr ∧ (puts c).name = name ∧
      (puts c).call.upload = .ok object

variable [DecidableEq C] {puts : C → NamedPut} {s₀ s s' : BlobState C} {a : BlobAction C}
  {tr : List (BlobAction C)} {name : BlobName} {object : BlobObject}

/-- A step leaves the object of a blob, deletes it, or stores what a call for this blob sends. -/
theorem objects_step (h : BlobStep (namedCalls puts) s a s') (name : BlobName) :
    s'.objects name = s.objects name ∨ s'.objects name = none ∨
      ∃ c failure object, a = .putObject c failure true ∧ (puts c).name = name ∧
        (puts c).call.upload = .ok object ∧ s'.objects name = some object := by
  cases h with
  | stat => exact .inl rfl
  | read => exact .inl rfl
  | @putObject c failure stored object habsent hupload hstored =>
    cases stored with
    | false => exact .inl rfl
    | true =>
      by_cases hname : (puts c).name = name
      · refine .inr (.inr ⟨c, failure, object, rfl, hname, hupload, ?_⟩)
        show Function.update s.bucket (puts c).call.key (some object) name.key = some object
        rw [(puts c).key_eq, hname, Function.update_self]
      · refine .inl ?_
        have hkey : name.key ≠ (puts c).call.key := by
          rw [(puts c).key_eq]
          exact fun hkey => hname (BlobName.key_injective hkey).symm
        exact Function.update_of_ne hkey _ _
  | delete key =>
    by_cases hkey : name.key = key
    · refine .inr (.inl ?_)
      show Function.update s.bucket key none name.key = none
      rw [hkey, Function.update_self]
    · exact .inl (Function.update_of_ne hkey _ _)

theorem storedFor_run (h : Run (BlobStep (namedCalls puts)) s₀ tr s)
    (hobject : s.objects name = some object) : StoredFor puts s₀ tr name object := by
  refine h.rec_inv (fun tr s => ∀ object, s.objects name = some object →
    StoredFor puts s₀ tr name object) (fun _ h => .inl h) ?_ object hobject
  intro tr s a s' _ ih hstep object hobject
  have hmono : StoredFor puts s₀ tr name object → StoredFor puts s₀ (tr ++ [a]) name object := by
    rintro (hstart | ⟨c, failure, hmem, hc⟩)
    · exact .inl hstart
    · exact .inr ⟨c, failure, List.mem_append_left _ hmem, hc⟩
  rcases objects_step hstep name with hsame | hnone | ⟨c, failure, sent, rfl, hname, hupload, hsent⟩
  · exact hmono (ih object (hsame.symm.trans hobject))
  · cases hnone.symm.trans hobject
  · obtain rfl : sent = object := Option.some.inj (hsent.symm.trans hobject)
    exact .inr ⟨c, failure, List.mem_append_right _ List.mem_cons_self, hname, hupload⟩

/-- Calls that agree on the bytes of each blob agree on the bytes of each key: no call past its check
sends other bytes than those under its key. -/
theorem settled_of_same_blob
    (hsame : ∀ c c' object object', (puts c).name = (puts c').name →
      (puts c).call.upload = .ok object → (puts c').call.upload = .ok object' →
      object.data = object'.data)
    (hstart : s₀.Agrees (namedCalls puts)) (h : Run (BlobStep (namedCalls puts)) s₀ tr s)
    (hobject : s.objects name = some object) :
    s.Settled (namedCalls puts) name.key object.data := by
  refine settled_of_same_bytes (fun c c' object object' hkey => ?_) hstart h hobject
  apply hsame
  apply BlobName.key_injective
  rw [← (puts c).key_eq, ← (puts c').key_eq]
  exact hkey

/-- No two blobs share a key.  So in every run of uploads under built keys the object of a blob is one
that was stored for it, and when a call finds an object and returns without storing its own, the
object that it keeps is one of the same blob. -/
theorem blob_keys_apart (puts : C → NamedPut) :
    Function.Injective BlobName.key ∧
    ∀ (s₀ s : BlobState C) (tr : List (BlobAction C)), Run (BlobStep (namedCalls puts)) s₀ tr s →
      (∀ name object, s.bucket name.key = some object → StoredFor puts s₀ tr name object) ∧
      ∀ c failure s', BlobStep (namedCalls puts) s (.stat c failure) s' →
        s'.Succeeded (namedCalls puts) c →
        ∃ object, s'.bucket (puts c).call.key = some object ∧
          StoredFor puts s₀ tr (puts c).name object := by
  refine ⟨BlobName.key_injective, fun s₀ s tr h => ⟨fun _ _ => storedFor_run h, ?_⟩⟩
  intro c failure s' hstat hreturned
  have hbefore : ¬ s.Succeeded (namedCalls puts) c := by
    intro hsucceeded
    cases hstat with
    | stat hidle => cases hidle.symm.trans hsucceeded
  obtain ⟨object, hobject⟩ := object_of_returns hstat hbefore hreturned
  refine ⟨object, hobject, storedFor_run h ?_⟩
  cases hstat with
  | stat =>
    rw [BlobState.objects, ← (puts c).key_eq]
    exact hobject

/-- The second of two uploads of an original finds what the first one has stored. -/
theorem blob_keys_apart_two_uploads :
    let call : Bool → PutCall :=
      fun c => .put (originalKey "ab") (if c then [1] else [2]) "image/png"
    let puts : Bool → NamedPut := fun c => ⟨.original "ab", call c, rfl⟩
    let s₀ : BlobState Bool := ⟨fun _ => none, fun _ => .idle⟩
    ∃ tr s s' object, Run (BlobStep (namedCalls puts)) s₀ tr s ∧
      BlobStep (namedCalls puts) s (.stat false none) s' ∧
      s'.bucket (originalKey "ab") = some object ∧ object.data = [1] ∧
      StoredFor puts s₀ tr (.original "ab") object := by
  intro call puts s₀
  have hkey : ∀ c, (namedCalls puts c).key = originalKey "ab" := fun _ => rfl
  let object : BlobObject := ⟨[1], "image/png"⟩
  let s₁ : BlobState Bool := ⟨s₀.bucket, Function.update s₀.phase true
    (afterExists (namedCalls puts true).key
      (blobExists (statObject s₀.bucket (namedCalls puts true).key none)))⟩
  let s₂ : BlobState Bool := ⟨Function.update s₁.bucket (namedCalls puts true).key (some object),
    Function.update s₁.phase true (afterPut (namedCalls puts true) none)⟩
  let s₃ : BlobState Bool := ⟨s₂.bucket, Function.update s₂.phase false
    (afterExists (namedCalls puts false).key
      (blobExists (statObject s₂.bucket (namedCalls puts false).key none)))⟩
  have hstored : s₂.bucket (originalKey "ab") = some object := by
    rw [← hkey true]
    exact Function.update_self (namedCalls puts true).key (some object) s₁.bucket
  have habsent : s₁.phase true = .absent := by
    simp [s₁, s₀, blobExists, statObject, noSuchKey, afterExists]
  have h₁ : BlobStep (namedCalls puts) s₀ (.stat true none) s₁ := .stat rfl (by simp)
  have h₂ : BlobStep (namedCalls puts) s₁ (.putObject true none true) s₂ :=
    .putObject habsent rfl fun _ => rfl
  have h₃ : BlobStep (namedCalls puts) s₂ (.stat false none) s₃ := .stat rfl (by simp)
  have hreturned : s₃.Succeeded (namedCalls puts) false := by
    simp [BlobState.Succeeded, s₃, hkey, hstored, statObject, blobExists, afterExists]
  have hrun := (Run.single h₁).snoc h₂
  obtain ⟨kept, hkept, hfor⟩ := ((blob_keys_apart puts).2 s₀ s₂ _ hrun).2 false none s₃ h₃ hreturned
  obtain rfl : object = kept := Option.some.inj (hstored.symm.trans hkept)
  exact ⟨_, s₂, s₃, object, hrun, h₃, hstored, rfl, hfor⟩

end

end Ipa
