import Ipa.Core.Errors
import Ipa.Lib.Run

/-!
# Concurrent writers of blobs

`MinioBlobStore.put` and `putStream` ask for the object and store it when there is none, the two
requests of each call with other requests between them (`BlobStep`).  The object store answers each
request at once, and `put_object` replaces an object that is there.

* `first_writer_wins`: what a successful call leaves under its key stays until a delete, if and only if
  the calls for the key that are then past their checks send the same bytes (`Settled`).
* `first_writer_loses`: of two calls that both find the key free, the second one overwrites.
* `settled_of_same_bytes`: calls that agree on the bytes of each key meet this.
-/

namespace Ipa

/-- An exception of the SDK: an error answer of the server with its code, or any other failure. -/
inductive SdkError
  | s3 (code text : String)
  | other (text : String)

/-- `str(exc)`. -/
def SdkError.text : SdkError → String
  | s3 _ text | other text => text

/-- An object with what is recorded beside its bytes. -/
structure BlobObject where
  data : Bytes
  contentType : String

/-- The objects of the bucket by their keys. -/
abbrev Bucket := String → Option BlobObject

namespace MinioBlobStore

/-- Error codes worth retrying. -/
def retryableS3Codes : List String :=
  ["InternalError", "ServiceUnavailable", "SlowDown", "RequestTimeout"]

/-- `_blob_error`. -/
def blobError (operation : String) (exc : SdkError) : IpaError :=
  { IpaError.new ("MinIO " ++ operation ++ " failed: " ++ exc.text) "blob_store_error" with
    retryable := match exc with
      | .s3 code _ => retryableS3Codes.contains code
      | .other _ => false }

/-- The text of the server's answer for a key without object. -/
def noSuchKey (key : String) : SdkError :=
  .s3 "NoSuchKey" ("S3 operation failed; code: NoSuchKey, object_name: " ++ key)

/-- `stat_object`: the object, unless the request fails. -/
def statObject (bucket : Bucket) (key : String) : Option SdkError → Except SdkError BlobObject
  | some failure => .error failure
  | none =>
    match bucket key with
    | some object => .ok object
    | none => .error (noSuchKey key)

/-- `get_object` answers like `stat_object`, with the bytes. -/
def getObject (bucket : Bucket) (key : String) (failure : Option SdkError) : Except SdkError Bytes :=
  (statObject bucket key failure).map (·.data)

/-- `exists`, which Lean reserves. -/
def blobExists (answer : Except SdkError BlobObject) : Except IpaError Bool :=
  match answer with
  | .ok _ => .ok true
  | .error (.s3 code text) =>
    if code = "NoSuchKey" then .ok false else .error (blobError "exists" (.s3 code text))
  | .error exc => .error (blobError "exists" exc)

/-- `get`: the chunks of the body put together are the body. -/
def get (bucket : Bucket) (key : String) (failure : Option SdkError) : Except IpaError Bytes :=
  match getObject bucket key failure with
  | .ok data => .ok data
  | .error (.s3 code text) =>
    if code = "NoSuchKey" then .error (notFoundError ("Blob " ++ key ++ " does not exist."))
    else .error (blobError "get_stream" (.s3 code text))
  | .error exc => .error (blobError "get_stream" exc)

/-- How reading the chunks of an upload fails: with an error of the platform, or with any other. -/
inductive ReaderError
  | ipa (error : IpaError)
  | other (exc : SdkError)

/-- A call that stores an object. -/
inductive PutCall
  | put (key : String) (data : Bytes) (contentType : String)
  | putStream (key : String) (reader : List Bytes) (failure : Option ReaderError)
      (contentType : String) (size : Option ℤ)

namespace PutCall

/-- The key that the call stores under. -/
def key : PutCall → String
  | put key _ _ | putStream key _ _ _ _ => key

/-- The operation that the errors of an upload name. -/
def operation : PutCall → String
  | put _ _ _ => "put"
  | putStream _ _ _ _ _ => "put_stream"

/-- The object that the call sends once it has found none, or the error it raises before. -/
def upload : PutCall → Except IpaError BlobObject
  | put _ data contentType => .ok ⟨data, contentType⟩
  | putStream _ _ (some (.ipa error)) _ _ => .error error
  | putStream _ _ (some (.other exc)) _ _ => .error (blobError "put_stream" exc)
  | putStream key reader none contentType size =>
    let written := reader.flatten.length
    match size with
    | none => .ok ⟨reader.flatten, contentType⟩
    | some size =>
      if size ≠ written then
        .error (.new ("Streamed " ++ toString written ++ " bytes for " ++ key ++
          " but caller declared " ++ toString size ++ ".") "blob_store_error")
      else .ok ⟨reader.flatten, contentType⟩

end PutCall

end MinioBlobStore

open MinioBlobStore

/-! ## Calls in any interleaving -/

/-- Where a call stands: not begun, past a check that found no object, or over. -/
inductive BlobPhase
  | idle
  | absent
  | returned (result : Except IpaError String)

/-- The bucket and the calls. -/
structure BlobState (C : Type*) where
  bucket : Bucket
  phase : C → BlobPhase

/-- The requests of the calls and the deletes.  A request may fail, and an upload that fails may have
stored its object all the same. -/
inductive BlobAction (C : Type*)
  | stat (c : C) (failure : Option SdkError)
  | read (c : C)
  | putObject (c : C) (failure : Option SdkError) (stored : Bool)
  | delete (key : String)

section

variable {C : Type*} [DecidableEq C] (calls : C → PutCall)

/-- The phase of a call after its check. -/
def afterExists (key : String) : Except IpaError Bool → BlobPhase
  | .ok true => .returned (.ok key)
  | .ok false => .absent
  | .error error => .returned (.error error)

/-- The phase of a call after its upload. -/
def afterPut (call : PutCall) : Option SdkError → BlobPhase
  | none => .returned (.ok call.key)
  | some exc => .returned (.error (blobError call.operation exc))

/-- One request of one call, or a deletion. -/
inductive BlobStep : BlobState C → BlobAction C → BlobState C → Prop
  /-- The server reports a missing key only when there is no object. -/
  | stat {s : BlobState C} {c : C} {failure : Option SdkError} (hidle : s.phase c = .idle)
      (hfailure : ∀ text, failure ≠ some (.s3 "NoSuchKey" text)) :
      BlobStep s (.stat c failure)
        ⟨s.bucket, Function.update s.phase c (afterExists (calls c).key
          (blobExists (statObject s.bucket (calls c).key failure)))⟩
  | read {s : BlobState C} {c : C} {error : IpaError} (habsent : s.phase c = .absent)
      (hupload : (calls c).upload = .error error) :
      BlobStep s (.read c) ⟨s.bucket, Function.update s.phase c (.returned (.error error))⟩
  | putObject {s : BlobState C} {c : C} {failure : Option SdkError} {stored : Bool}
      {object : BlobObject} (habsent : s.phase c = .absent) (hupload : (calls c).upload = .ok object)
      (hstored : failure = none → stored = true) :
      BlobStep s (.putObject c failure stored)
        ⟨if stored then Function.update s.bucket (calls c).key (some object) else s.bucket,
          Function.update s.phase c (afterPut (calls c) failure)⟩
  | delete {s : BlobState C} (key : String) :
      BlobStep s (.delete key) ⟨Function.update s.bucket key none, s.phase⟩

/-- Every call for `key` that is past a check that found no object sends these bytes, if it gets to
send any. -/
def BlobState.Settled (s : BlobState C) (key : String) (data : Bytes) : Prop :=
  ∀ c object, (calls c).key = key → s.phase c = .absent → (calls c).upload = .ok object →
    object.data = data

/-- The call has returned its key. -/
def BlobState.Succeeded (s : BlobState C) (c : C) : Prop :=
  s.phase c = .returned (.ok (calls c).key)

variable {calls} {s s' s'' : BlobState C} {a : BlobAction C} {c : C}

/-- An update moves only the call that it is about. -/
theorem eq_of_update_ne {phase : C → BlobPhase} {c c' : C} {p : BlobPhase}
    (h : Function.update phase c' p c ≠ phase c) : c = c' := by
  by_contra hc
  exact h (Function.update_of_ne hc _ _)

/-- A call that returns successfully leaves an object under its key. -/
theorem object_of_returns (h : BlobStep calls s a s') (hbefore : ¬ s.Succeeded calls c)
    (hafter : s'.Succeeded calls c) : ∃ object, s'.bucket (calls c).key = some object := by
  have hmoved : s'.phase c ≠ s.phase c := fun heq => hbefore (heq.symm.trans hafter)
  unfold BlobState.Succeeded at hafter
  cases h with
  | @stat c' failure hidle hfailure =>
    have hc : c = c' := eq_of_update_ne hmoved
    subst hc
    simp only [Function.update_self] at hafter
    cases hobject : s.bucket (calls c).key with
    | some object => exact ⟨object, rfl⟩
    | none =>
      cases failure with
      | none =>
        rw [statObject, hobject] at hafter
        cases hafter
      | some exc =>
        cases exc with
        | s3 code text =>
          have hcode : code ≠ "NoSuchKey" := fun hcode => hfailure text (by rw [hcode])
          simp [statObject, blobExists, hcode, afterExists] at hafter
        | other text => cases hafter
  | @read c' error habsent hupload =>
    have hc : c = c' := eq_of_update_ne hmoved
    subst hc
    simp only [Function.update_self] at hafter
    cases hafter
  | @putObject c' failure stored object habsent hupload hstored =>
    have hc : c = c' := eq_of_update_ne hmoved
    subst hc
    simp only [Function.update_self] at hafter
    cases failure with
    | some exc => cases hafter
    | none =>
      rw [hstored rfl]
      exact ⟨object, Function.update_self _ _ _⟩
  | delete key => exact absurd rfl hmoved

/-- A check finds no object only where there is none. -/
theorem bucket_eq_none_of_absent {bucket : Bucket} {key : String} {failure : Option SdkError}
    (hfailure : ∀ text, failure ≠ some (.s3 "NoSuchKey" text))
    (h : afterExists key (blobExists (statObject bucket key failure)) = .absent) : bucket key = none := by
  cases failure with
  | none =>
    cases hobject : bucket key with
    | none => rfl
    | some object =>
      rw [statObject, hobject] at h
      cases h
  | some exc =>
    cases exc with
    | s3 code text =>
      have hcode : code ≠ "NoSuchKey" := fun hcode => hfailure text (by rw [hcode])
      simp [statObject, blobExists, hcode, afterExists] at h
    | other text => cases h

/-- While the bytes under a key are those that the calls past their checks send, a step other than a
delete keeps them, and this. -/
theorem settled_step {key : String} {data : Bytes} (h : BlobStep calls s a s')
    (hdelete : a ≠ .delete key) (hdata : (s.bucket key).map (·.data) = some data)
    (hsettled : s.Settled calls key data) :
    (s'.bucket key).map (·.data) = some data ∧ s'.Settled calls key data := by
  cases h with
  | @stat c failure hidle hfailure =>
    refine ⟨hdata, fun c' object hkey habsent => hsettled c' object hkey ?_⟩
    by_cases hc : c' = c
    · subst hc
      simp only [Function.update_self] at habsent
      have hnone : s.bucket (calls c').key = none := bucket_eq_none_of_absent hfailure habsent
      rw [← hkey, hnone] at hdata
      cases hdata
    · simpa only [Function.update_of_ne hc] using habsent
  | @read c error habsent hupload =>
    refine ⟨hdata, fun c' object hkey hphase => hsettled c' object hkey ?_⟩
    by_cases hc : c' = c
    · rwa [hc]
    · simpa only [Function.update_of_ne hc] using hphase
  | @putObject c failure stored object habsent hupload hstored =>
    refine ⟨?_, fun c' object hkey hphase => hsettled c' object hkey ?_⟩
    · cases stored with
      | false => exact hdata
      | true =>
        show (Function.update s.bucket (calls c).key (some object) key).map (·.data) = some data
        by_cases hkey : (calls c).key = key
        · rw [hkey, Function.update_self, Option.map_some, hsettled c object hkey habsent hupload]
        · rwa [Function.update_of_ne (Ne.symm hkey)]
    · by_cases hc : c' = c
      · rwa [hc]
      · simpa only [Function.update_of_ne hc] using hphase
  | delete key' =>
    have hkey : key ≠ key' := fun hkey => hdelete (congrArg BlobAction.delete hkey.symm)
    refine ⟨?_, hsettled⟩
    show (Function.update s.bucket key' none key).map (·.data) = some data
    rwa [Function.update_of_ne hkey]

theorem settled_run {key : String} {data : Bytes} {tr : List (BlobAction C)}
    (h : Transition.Run (BlobStep calls) s tr s') (hdelete : .delete key ∉ tr)
    (hdata : (s.bucket key).map (·.data) = some data) (hsettled : s.Settled calls key data) :
    (s'.bucket key).map (·.data) = some data ∧ s'.Settled calls key data :=
  h.mono_inv (fun m => (m.bucket key).map (·.data) = some data ∧ m.Settled calls key data)
    (fun a => a ≠ .delete key) ⟨hdata, hsettled⟩
    (fun _ _ _ ha hm hstep => settled_step hstep ha hm.1 hm.2) fun _ ha heq => hdelete (heq ▸ ha)

/-- A call past its check replaces what is under its key. -/
theorem exists_overwrite {object : BlobObject} (habsent : s.phase c = .absent)
    (hupload : (calls c).upload = .ok object) :
    ∃ s', BlobStep calls s (.putObject c none true) s' ∧ s'.Succeeded calls c ∧
      s'.bucket (calls c).key = some object ∧ ∀ c', c' ≠ c → s'.phase c' = s.phase c' := by
  refine ⟨_, .putObject habsent hupload fun _ => rfl, ?_, ?_, fun c' hc => ?_⟩
  · exact Function.update_self c _ s.phase
  · exact Function.update_self (calls c).key _ s.bucket
  · exact Function.update_of_ne hc _ s.phase

theorem get_of_bytes {bucket : Bucket} {key : String} {data : Bytes}
    (h : (bucket key).map (·.data) = some data) : MinioBlobStore.get bucket key none = .ok data := by
  obtain ⟨object, hobject, rfl⟩ := Option.map_eq_some_iff.1 h
  have hanswer : getObject bucket key none = .ok object.data := by
    rw [getObject, statObject, hobject]
    rfl
  rw [MinioBlobStore.get, hanswer]

/-- When a call returns successfully there is an object under its key.  Its bytes stay until a delete
of the key, and every `get` in between returns them, whatever the calls do, if and only if every call
for the key that is then past its check sends the same bytes. -/
theorem first_writer_wins (h : BlobStep calls s a s') (hbefore : ¬ s.Succeeded calls c)
    (hafter : s'.Succeeded calls c) :
    ∃ object, s'.bucket (calls c).key = some object ∧
      (s'.Settled calls (calls c).key object.data ↔
        ∀ tr s'', Transition.Run (BlobStep calls) s' tr s'' → .delete (calls c).key ∉ tr →
          (s''.bucket (calls c).key).map (·.data) = some object.data ∧
          MinioBlobStore.get s''.bucket (calls c).key none = .ok object.data) := by
  obtain ⟨object, hobject⟩ := object_of_returns h hbefore hafter
  have hdata : (s'.bucket (calls c).key).map (·.data) = some object.data := by
    rw [hobject, Option.map_some]
  refine ⟨object, hobject, fun hsettled tr s'' hlater hdelete => ?_, fun hkept c' object' hkey habsent
    hupload => ?_⟩
  · have hkept := (settled_run hlater hdelete hdata hsettled).1
    exact ⟨hkept, get_of_bytes hkept⟩
  · obtain ⟨s'', hstep, -, hbucket, -⟩ := exists_overwrite habsent hupload
    have hsame := (hkept _ s'' (.single hstep) (by simp)).1
    rw [← hkey, hbucket] at hsame
    exact Option.some.inj hsame

/-- The object under the key of a call, if there is one, has the bytes that the call sends. -/
def BlobState.Agrees (calls : C → PutCall) (s : BlobState C) : Prop :=
  ∀ c object old, (calls c).upload = .ok object →
    s.bucket (calls c).key = some old → old.data = object.data

/-- Calls that agree on the bytes of each key meet the condition in every state of every run. -/
theorem settled_of_same_bytes {s₀ : BlobState C} {tr : List (BlobAction C)}
    (hsame : ∀ c c' object object', (calls c).key = (calls c').key → (calls c).upload = .ok object →
      (calls c').upload = .ok object' → object.data = object'.data)
    (hstart : s₀.Agrees calls) (h : Transition.Run (BlobStep calls) s₀ tr s) {key : String}
    {object : BlobObject} (hobject : s.bucket key = some object) : s.Settled calls key object.data := by
  have hagrees : s.Agrees calls := by
    refine h.state_inv (BlobState.Agrees calls) hstart fun m a m' hm hstep c object old hupload hold => ?_
    cases hstep with
    | stat => exact hm c object old hupload hold
    | read => exact hm c object old hupload hold
    | @putObject c' failure stored object' habsent hupload' hstored =>
      cases stored with
      | false => exact hm c object old hupload hold
      | true =>
        change Function.update m.bucket (calls c').key (some object') (calls c).key = some old at hold
        by_cases hc : (calls c).key = (calls c').key
        · rw [hc, Function.update_self] at hold
          obtain rfl := Option.some.inj hold
          exact (hsame c c' object object' hc hupload hupload').symm
        · rw [Function.update_of_ne hc] at hold
          exact hm c object old hupload hold
    | delete key =>
      change Function.update m.bucket key none (calls c).key = some old at hold
      by_cases hc : (calls c).key = key
      · rw [hc, Function.update_self] at hold
        cases hold
      · rw [Function.update_of_ne hc] at hold
        exact hm c object old hupload hold
  intro c object' hkey _ hupload
  rw [← hkey] at hobject
  exact (hagrees c object' object hupload hobject).symm

variable (calls) in
/-- A check that finds no object. -/
theorem exists_absent (hidle : s.phase c = .idle) (hfree : s.bucket (calls c).key = none) :
    ∃ s', BlobStep calls s (.stat c none) s' ∧ s'.bucket = s.bucket ∧ s'.phase c = .absent ∧
      ∀ c', c' ≠ c → s'.phase c' = s.phase c' := by
  have hanswer : blobExists (statObject s.bucket (calls c).key none) = .ok false := by
    simp [blobExists, statObject, noSuchKey, hfree]
  refine ⟨_, .stat hidle (by simp), rfl, ?_, fun c' hc => ?_⟩
  · rw [hanswer]
    exact Function.update_self c _ s.phase
  · exact Function.update_of_ne hc _ s.phase

variable (calls) in
/-- Two calls for one key that both find it free, one after the other. -/
theorem exists_race {c' : C} (hc : c' ≠ c) (hkey : (calls c').key = (calls c).key)
    {object object' : BlobObject} (hupload : (calls c).upload = .ok object)
    (hupload' : (calls c').upload = .ok object') :
    ∃ tr s s' s'', Transition.Run (BlobStep calls) ⟨fun _ => none, fun _ => .idle⟩ tr s ∧
      BlobStep calls s (.putObject c none true) s' ∧ BlobStep calls s' (.putObject c' none true) s'' ∧
      ¬ s.Succeeded calls c ∧ s'.Succeeded calls c ∧ s'.bucket (calls c).key = some object ∧
      s''.bucket (calls c).key = some object' ∧ (∀ d, d ≠ c → d ≠ c' → s'.phase d = .idle) := by
  obtain ⟨s₁, h₁, hbucket₁, habsent₁, hidle₁⟩ :=
    exists_absent calls (s := ⟨fun _ => none, fun _ => .idle⟩) (c := c) rfl rfl
  have hfree : s₁.bucket (calls c').key = none := by rw [hbucket₁]
  obtain ⟨s₂, h₂, -, habsent₂, hidle₂⟩ := exists_absent calls (hidle₁ c' hc) hfree
  have habsent : s₂.phase c = .absent := (hidle₂ c hc.symm).trans habsent₁
  obtain ⟨s₃, h₃, hreturned, hobject, hphase⟩ := exists_overwrite habsent hupload
  have habsent' : s₃.phase c' = .absent := (hphase c' hc).trans habsent₂
  obtain ⟨s₄, h₄, -, hobject', -⟩ := exists_overwrite habsent' hupload'
  refine ⟨_, s₂, s₃, s₄, (Transition.Run.single h₁).snoc h₂, h₃, h₄, fun hreturned => ?_, hreturned,
    hobject, ?_, fun d hd hd' => ?_⟩
  · cases habsent.symm.trans hreturned
  · rw [← hkey, hobject']
  · rw [hphase d hd, hidle₂ d hd', hidle₁ d hd]

end

/-- Two calls with the same bytes race, a third one with other bytes has not begun. -/
theorem first_writer_wins_third_call :
    let calls : Fin 3 → PutCall := fun c => .put "k" (if c = 2 then [2] else [1]) "image/png"
    ∃ s : BlobState (Fin 3), s.phase 1 = .absent ∧ s.phase 2 = .idle ∧
      ∀ tr s', Transition.Run (BlobStep calls) s tr s' → .delete "k" ∉ tr →
        (s'.bucket "k").map (·.data) = some [1] ∧ MinioBlobStore.get s'.bucket "k" none = .ok [1] := by
  intro calls
  obtain ⟨tr, s, s', s'', -, h, h', hbefore, hafter, hbucket, -, hidle⟩ :=
    exists_race calls (by decide : (1 : Fin 3) ≠ 0) rfl rfl rfl
  obtain ⟨object, hobject, hiff⟩ := first_writer_wins h hbefore hafter
  obtain rfl : object = ⟨[1], "image/png"⟩ := Option.some.inj (hobject.symm.trans hbucket)
  have hphase : s'.phase 1 = .absent := by
    cases h' with
    | putObject habsent => exact habsent
  have hsettled : s'.Settled calls "k" [1] := by
    intro c object _ habsent hupload
    obtain rfl : ⟨if c = 2 then [2] else [1], "image/png"⟩ = object := Except.ok.inj hupload
    have hc : c ≠ 2 := by
      rintro rfl
      cases (hidle 2 (by decide) (by decide)).symm.trans habsent
    exact if_neg hc
  exact ⟨s', hphase, hidle 2 (by decide) (by decide), hiff.1 hsettled⟩

/-- Of two calls that both find their key free, the second one replaces what the first one has stored
and returned. -/
theorem first_writer_loses :
    ¬ ∀ (calls : Bool → PutCall) (s₀ s s' s'' : BlobState Bool) (tr tr' : List (BlobAction Bool))
      (a : BlobAction Bool) (c : Bool), (∀ c, s₀.phase c = .idle) →
      Transition.Run (BlobStep calls) s₀ tr s → BlobStep calls s a s' →
      Transition.Run (BlobStep calls) s' tr' s'' → ¬ s.Succeeded calls c → s'.Succeeded calls c →
      .delete (calls c).key ∉ tr' →
      ∃ data, (s'.bucket (calls c).key).map (·.data) = some data ∧
        (s''.bucket (calls c).key).map (·.data) = some data ∧
        MinioBlobStore.get s''.bucket (calls c).key none = .ok data := by
  intro hall
  obtain ⟨tr, s, s', s'', htr, h, h', hbefore, hafter, hone, htwo, -⟩ :=
    exists_race (fun c => .put "k" (if c then [1] else [2]) "image/png") (by decide : false ≠ true)
      rfl rfl rfl
  obtain ⟨data, hdata, hdata', -⟩ := hall _ _ s s' s'' tr _ _ true (fun _ => rfl) htr h (.single h')
    hbefore hafter (by simp)
  rw [hone] at hdata
  rw [htwo, ← hdata] at hdata'
  exact absurd hdata' (by decide)

end Ipa
