import Ipa.Storage.Blob

/-!
# Streams

`MinioBlobStore.putStream` writes the chunks of its reader to a temporary file and sends the file;
`getStream` reads the body of an object chunk by chunk.  One call at a time, the SDK answering each
request at once.

* `bytes_spoolChunks`: the file holds the chunks one after another, and `written` is its length.
* `exists_readChunks`: the loop of `getStream` ends, and its chunks make up the body.
* `streams_eq_whole`: the two write paths and the two read paths agree.
-/

namespace Ipa

namespace MinioBlobStore

/-! ## The temporary file -/

/-- A file and the position in it. -/
structure Spool where
  bytes : Bytes
  position : ℕ

namespace Spool

/-- Write at the position of the file. -/
def write (spool : Spool) (chunk : Bytes) : Spool where
  bytes := spool.bytes.take spool.position ++ chunk ++
    spool.bytes.drop (spool.position + chunk.length)
  position := spool.position + chunk.length

/-- Move the position. -/
def seek (spool : Spool) (offset : ℕ) : Spool := { spool with position := offset }

/-- Read at most `n` bytes at the position. -/
def read (spool : Spool) (n : ℕ) : Bytes := (spool.bytes.drop spool.position).take n

theorem read_seek (bytes : Bytes) (position : ℕ) :
    (seek ⟨bytes, position⟩ 0).read bytes.length = bytes := by
  rw [read, seek, List.drop_zero, List.take_length]

end Spool

/-- The loop over the reader: the file, and `written`. -/
def spoolChunks (reader : List Bytes) (state : Spool × ℕ) : Spool × ℕ :=
  reader.foldl (fun (spool, written) chunk => (spool.write chunk, written + chunk.length)) state

/-- A file written from its start to its end has the chunks one after another. -/
theorem bytes_spoolChunks (reader : List Bytes) (bytes : Bytes) :
    spoolChunks reader (⟨bytes, bytes.length⟩, bytes.length) =
      (⟨bytes ++ reader.flatten, (bytes ++ reader.flatten).length⟩,
        (bytes ++ reader.flatten).length) := by
  induction reader generalizing bytes with
  | nil => simp [spoolChunks]
  | cons chunk reader ih =>
    have hwrite : Spool.write ⟨bytes, bytes.length⟩ chunk =
        ⟨bytes ++ chunk, (bytes ++ chunk).length⟩ := by
      simp [Spool.write]
    rw [spoolChunks, List.foldl_cons, ← spoolChunks]
    dsimp only
    rw [hwrite, ← List.length_append, ih, List.flatten_cons, List.append_assoc]

/-! ## Writing -/

/-- `put_object`: the object has the `length` bytes at the position of the stream.  A request that
fails leaves the bucket as it was. -/
def putObject (bucket : Bucket) (key : String) (stream : Spool) (length : ℕ) (contentType : String) :
    Option SdkError → Except SdkError Bucket
  | some exc => .error exc
  | none => .ok (Function.update bucket key (some ⟨stream.read length, contentType⟩))

/-- `put`. -/
def put (bucket : Bucket) (key : String) (data : Bytes) (contentType : String)
    (statFailure putFailure : Option SdkError) : Except IpaError String × Bucket :=
  match blobExists (statObject bucket key statFailure) with
  | .error error => (.error error, bucket)
  | .ok true => (.ok key, bucket)
  | .ok false =>
    match putObject bucket key ⟨data, 0⟩ data.length contentType putFailure with
    | .error exc => (.error (blobError "put" exc), bucket)
    | .ok bucket' => (.ok key, bucket')

/-- What the `try` block of `put_stream` raises. -/
inductive PutStreamExc
  | ipa (error : IpaError)
  | other (exc : SdkError)

/-- The `except` clauses. -/
def PutStreamExc.handle : PutStreamExc → IpaError
  | ipa error => error
  | other exc => blobError "put_stream" exc

/-- The exception with which the reader stops. -/
def ReaderError.exc : ReaderError → PutStreamExc
  | ipa error => .ipa error
  | other exc => .other exc

/-- The `try` block of `put_stream`: the bucket after it. -/
def putStreamBody (bucket : Bucket) (key : String) (reader : List Bytes)
    (readerFailure : Option ReaderError) (contentType : String) (size : Option ℤ)
    (putFailure : Option SdkError) : Except PutStreamExc Bucket :=
  let (spool, written) := spoolChunks reader (⟨[], 0⟩, 0)
  match readerFailure with
  | some failure => .error failure.exc
  | none =>
    if size.any (· ≠ (written : ℤ)) then
      .error (.ipa (.new ("Streamed " ++ toString written ++ " bytes for " ++ key ++
        " but caller declared " ++ toString (size.getD 0) ++ ".") "blob_store_error"))
    else
      match putObject bucket key (spool.seek 0) written contentType putFailure with
      | .error exc => .error (.other exc)
      | .ok bucket' => .ok bucket'

/-- `put_stream`: the result, the bucket, and what is left of the reader. -/
def putStream (bucket : Bucket) (key : String) (reader : List Bytes)
    (readerFailure : Option ReaderError) (contentType : String) (size : Option ℤ)
    (statFailure putFailure : Option SdkError) : (Except IpaError String × Bucket) × List Bytes :=
  match blobExists (statObject bucket key statFailure) with
  | .error error => ((.error error, bucket), reader)
  | .ok true => ((.ok key, bucket), reader)
  | .ok false =>
    match putStreamBody bucket key reader readerFailure contentType size putFailure with
    | .error exc => ((.error exc.handle, bucket), [])
    | .ok bucket' => ((.ok key, bucket'), [])

section Write

variable {bucket : Bucket} {key contentType : String} {data : Bytes} {reader : List Bytes}
  {readerFailure : Option ReaderError} {size : Option ℤ} {statFailure putFailure : Option SdkError}

/-- What is left in the bucket when an upload has been sent. -/
def sent (bucket : Bucket) (call : PutCall) (object : BlobObject) :
    Option SdkError → Except IpaError String × Bucket
  | none => (.ok call.key, Function.update bucket call.key (some object))
  | some exc => (.error (blobError call.operation exc), bucket)

/-- What a call does once it has found no object. -/
def PutCall.run (bucket : Bucket) (call : PutCall) (putFailure : Option SdkError) :
    Except IpaError String × Bucket :=
  match call.upload with
  | .error error => (.error error, bucket)
  | .ok object => sent bucket call object putFailure

theorem put_eq_run (habsent : blobExists (statObject bucket key statFailure) = .ok false) :
    put bucket key data contentType statFailure putFailure =
      (PutCall.put key data contentType).run bucket putFailure := by
  rw [put, habsent]
  cases putFailure with
  | none => simp [putObject, PutCall.run, PutCall.upload, sent, PutCall.key, Spool.read]
  | some exc => rfl

theorem putStream_eq_run (habsent : blobExists (statObject bucket key statFailure) = .ok false) :
    putStream bucket key reader readerFailure contentType size statFailure putFailure =
      ((PutCall.putStream key reader readerFailure contentType size).run bucket putFailure, []) := by
  have hspool : spoolChunks reader (⟨[], 0⟩, 0) =
      (⟨reader.flatten, reader.flatten.length⟩, reader.flatten.length) := bytes_spoolChunks reader []
  rw [putStream, habsent]
  dsimp only
  rw [putStreamBody, hspool]
  cases readerFailure with
  | some failure => cases failure <;> rfl
  | none =>
    dsimp only [PutCall.run, PutCall.upload]
    generalize reader.flatten = bytes
    cases size with
    | none =>
      cases putFailure with
      | none => simp [putObject, Spool.read_seek, sent, PutCall.key]
      | some exc => rfl
    | some size =>
      by_cases hsize : size = (bytes.length : ℤ)
      · cases putFailure with
        | none => simp [hsize, putObject, Spool.read_seek, sent, PutCall.key]
        | some exc => simp [hsize, putObject, sent, PutCall.operation, PutStreamExc.handle]
      · simp [hsize, PutStreamExc.handle]

theorem blobExists_of_none (h : bucket key = none) :
    blobExists (statObject bucket key none) = .ok false := by
  rw [statObject, h]
  simp [blobExists, noSuchKey]

theorem blobExists_of_isSome (h : (bucket key).isSome) :
    blobExists (statObject bucket key none) = .ok true := by
  obtain ⟨object, hobject⟩ := Option.isSome_iff_exists.1 h
  rw [statObject, hobject]
  rfl

/-- When the key is there nothing is written and the reader is left alone. -/
theorem putStream_of_isSome (h : (bucket key).isSome) :
    putStream bucket key reader readerFailure contentType size none putFailure =
      ((.ok key, bucket), reader) := by
  rw [putStream, blobExists_of_isSome h]

theorem put_of_isSome (h : (bucket key).isSome) :
    put bucket key data contentType none putFailure = (.ok key, bucket) := by
  rw [put, blobExists_of_isSome h]

/-- When the key is free the object is stored there, and nothing else changes. -/
theorem put_of_none (h : bucket key = none) :
    put bucket key data contentType none none =
      (.ok key, Function.update bucket key (some ⟨data, contentType⟩)) :=
  put_eq_run (blobExists_of_none h)

/-- With no declared size, or the right one, the stream is uploaded as its bytes are. -/
theorem putStream_fst_eq_put
    (h : size = none ∨ size = some (reader.flatten.length : ℤ) ∨ (bucket key).isSome) :
    (putStream bucket key reader none contentType size none none).1 =
      put bucket key reader.flatten contentType none none := by
  cases hkey : bucket key with
  | some object =>
    have hsome : (bucket key).isSome := by
      rw [hkey]
      rfl
    rw [putStream_of_isSome hsome, put_of_isSome hsome]
  | none =>
    have habsent := blobExists_of_none hkey
    have hupload : (PutCall.putStream key reader none contentType size).upload =
        .ok ⟨reader.flatten, contentType⟩ := by
      rcases h with rfl | rfl | hsome
      · rfl
      · exact if_neg (not_not.2 rfl)
      · rw [hkey] at hsome
        cases hsome
    rw [putStream_eq_run habsent, put_eq_run habsent, PutCall.run, hupload]
    rfl

/-- An upload that fails leaves the bucket as it was. -/
theorem putStream_fails (hkey : bucket key = none)
    (h : (∃ n, size = some n ∧ n ≠ reader.flatten.length) ∨ readerFailure ≠ none ∨
      putFailure ≠ none) :
    ∃ error : IpaError,
      (putStream bucket key reader readerFailure contentType size none putFailure).1 =
        (.error error, bucket) := by
  rw [putStream_eq_run (blobExists_of_none hkey), PutCall.run]
  cases hupload : (PutCall.putStream key reader readerFailure contentType size).upload with
  | error error => exact ⟨error, rfl⟩
  | ok object =>
    cases putFailure with
    | some exc => exact ⟨_, rfl⟩
    | none =>
      exfalso
      cases readerFailure with
      | some failure => cases failure <;> cases hupload
      | none =>
        obtain ⟨n, rfl, hn⟩ : ∃ n, size = some n ∧ n ≠ reader.flatten.length := by
          simpa using h
        have hraises : (PutCall.putStream key reader none contentType (some n)).upload =
            .error _ := if_pos hn
        rw [hraises] at hupload
        cases hupload

end Write

/-! ## Reading -/

/-- How many bytes `read(n)` returns when `rest` remains: no more than `n`, and none only at the
end. -/
structure BodyReader where
  count : Bytes → ℕ → ℕ
  count_le : ∀ rest n, count rest n ≤ n
  count_pos : ∀ rest n, rest ≠ [] → 1 ≤ n → 1 ≤ count rest n

/-- `response.read(chunk_size)`. -/
def BodyReader.read (body : BodyReader) (rest : Bytes) (n : ℕ) : Bytes := rest.take (body.count rest n)

theorem BodyReader.length_drop_read_lt {body : BodyReader} {rest : Bytes} {n : ℕ}
    (h : body.read rest n ≠ []) : (rest.drop (body.read rest n).length).length < rest.length := by
  have hpos : 0 < (body.read rest n).length := List.length_pos_iff.2 h
  have hle : (body.read rest n).length ≤ rest.length := List.length_take_le' _ _
  rw [List.length_drop]
  omega

/-- The loop of `get_stream`: the chunks that it yields, and the exception of the read that fails, if
the `i`-th one fails for some `i`. -/
def readChunks (body : BodyReader) (chunkSize : ℕ) (readFailure : ℕ → Option SdkError) (i : ℕ)
    (rest : Bytes) : List Bytes × Option SdkError :=
  match readFailure i with
  | some exc => ([], some exc)
  | none =>
    let chunk := body.read rest chunkSize
    if chunk = [] then ([], none)
    else
      let (chunks, exc) := readChunks body chunkSize readFailure (i + 1) (rest.drop chunk.length)
      (chunk :: chunks, exc)
termination_by rest.length
decreasing_by exact BodyReader.length_drop_read_lt ‹_›

/-- The exception of `get_stream`. -/
def streamError (key : String) : SdkError → IpaError
  | .s3 code text =>
    if code = "NoSuchKey" then notFoundError ("Blob " ++ key ++ " does not exist.")
    else blobError "get_stream" (.s3 code text)
  | exc => blobError "get_stream" exc

/-- `get_stream`: the chunks that it yields, and how it ends. -/
def getStream (bucket : Bucket) (key : String) (chunkSize : ℕ) (body : BodyReader)
    (openFailure : Option SdkError) (readFailure : ℕ → Option SdkError) :
    List Bytes × Except IpaError Unit :=
  match getObject bucket key openFailure with
  | .error exc => ([], .error (streamError key exc))
  | .ok data =>
    match readChunks body chunkSize readFailure 0 data with
    | (chunks, none) => (chunks, .ok ())
    | (chunks, some exc) => (chunks, .error (streamError key exc))

/-- The chunks that `get` asks for. -/
def defaultChunkSize : ℕ := 1024 * 1024

/-- `get`, which collects the chunks of `get_stream`. -/
def getByChunks (bucket : Bucket) (key : String) (body : BodyReader) (openFailure : Option SdkError)
    (readFailure : ℕ → Option SdkError) : Except IpaError Bytes :=
  match getStream bucket key defaultChunkSize body openFailure readFailure with
  | (chunks, .ok ()) => .ok chunks.flatten
  | (_, .error error) => .error error

section Read

variable {bucket : Bucket} {key : String} {chunkSize : ℕ} {body : BodyReader} {rest data : Bytes}
  {readFailure : ℕ → Option SdkError} {openFailure : Option SdkError}

theorem BodyReader.read_ne_nil (hsize : 1 ≤ chunkSize) (hrest : rest ≠ []) :
    body.read rest chunkSize ≠ [] := by
  have hpos := body.count_pos rest chunkSize hrest hsize
  have hlength : 0 < rest.length := List.length_pos_iff.2 hrest
  apply List.ne_nil_of_length_pos
  rw [BodyReader.read, List.length_take]
  omega

/-- The loop ends, and the chunks that it has yielded make up the body. -/
theorem exists_readChunks (body : BodyReader) (hsize : 1 ≤ chunkSize)
    (hread : ∀ i, readFailure i = none) (rest : Bytes) (i : ℕ) :
    ∃ chunks, readChunks body chunkSize readFailure i rest = (chunks, none) ∧
      chunks.flatten = rest ∧ ∀ chunk ∈ chunks, chunk ≠ [] := by
  induction hn : rest.length using Nat.strong_induction_on generalizing rest i with
  | _ n ih =>
    rw [readChunks, hread i]
    dsimp only
    by_cases hchunk : body.read rest chunkSize = []
    · have hrest : rest = [] := by
        by_contra hrest
        exact BodyReader.read_ne_nil hsize hrest hchunk
      rw [if_pos hchunk, hrest]
      exact ⟨[], rfl, rfl, fun _ h => absurd h List.not_mem_nil⟩
    · have hlt := BodyReader.length_drop_read_lt hchunk
      obtain ⟨chunks, hchunks, hflatten, hne⟩ := ih _ (hn ▸ hlt) _ (i + 1) rfl
      rw [if_neg hchunk, hchunks]
      refine ⟨body.read rest chunkSize :: chunks, rfl, ?_, ?_⟩
      · rw [List.flatten_cons, hflatten]
        exact List.prefix_iff_eq_append.1 (List.take_prefix _ _)
      · intro chunk hmem
        rcases List.mem_cons.1 hmem with rfl | hmem
        · exact hchunk
        · exact hne chunk hmem

theorem getStream_of_getObject (body : BodyReader) (hsize : 1 ≤ chunkSize)
    (hread : ∀ i, readFailure i = none) (hobject : getObject bucket key openFailure = .ok data) :
    ∃ chunks, getStream bucket key chunkSize body openFailure readFailure = (chunks, .ok ()) ∧
      chunks.flatten = data ∧ ∀ chunk ∈ chunks, chunk ≠ [] := by
  obtain ⟨chunks, hchunks, hrest⟩ := exists_readChunks body hsize hread data 0
  refine ⟨chunks, ?_, hrest⟩
  rw [getStream, hobject]
  dsimp only
  rw [hchunks]

theorem getByChunks_of_getObject (body : BodyReader) (hread : ∀ i, readFailure i = none)
    (hobject : getObject bucket key openFailure = .ok data) :
    getByChunks bucket key body openFailure readFailure = .ok data := by
  have hsize : 1 ≤ defaultChunkSize := by decide
  obtain ⟨chunks, hchunks, rfl, -⟩ := getStream_of_getObject body hsize hread hobject
  rw [getByChunks, hchunks]

/-- The answer for a key without object. -/
theorem getStream_of_none (body : BodyReader) (h : bucket key = none) :
    getStream bucket key chunkSize body none readFailure =
      ([], .error (notFoundError ("Blob " ++ key ++ " does not exist."))) := by
  rw [getStream, getObject, statObject, h]
  simp [Except.map, streamError, noSuchKey]

/-- `get` as the modules on concurrent calls have it. -/
theorem get_eq_getByChunks (body : BodyReader) (hread : ∀ i, readFailure i = none) :
    MinioBlobStore.get bucket key openFailure =
      getByChunks bucket key body openFailure readFailure := by
  cases hobject : getObject bucket key openFailure with
  | ok data =>
    rw [getByChunks_of_getObject body hread hobject, MinioBlobStore.get, hobject]
  | error exc =>
    rw [getByChunks, getStream, MinioBlobStore.get, hobject]
    cases exc with
    | s3 code text =>
      by_cases hcode : code = "NoSuchKey"
      · simp [streamError, hcode]
      · simp [streamError, hcode]
    | other text => rfl

end Read

/-! ## Both ways -/

/-- The upload of a stream does what the upload of its bytes does, unless the declared size differs:
it stores the bytes under a free key.  When the key is there nothing is written and the reader is left
alone; an upload that fails leaves the bucket as it was.  The chunks of a stream that is read are not
empty, make up the object and end. -/
theorem streams_eq_whole (bucket : Bucket) (key : String) (reader : List Bytes)
    (contentType : String) (size : Option ℤ) :
    ((size = none ∨ size = some (reader.flatten.length : ℤ) ∨ (bucket key).isSome) →
      (putStream bucket key reader none contentType size none none).1 =
        put bucket key reader.flatten contentType none none) ∧
    (bucket key = none → put bucket key reader.flatten contentType none none =
      (.ok key, Function.update bucket key (some ⟨reader.flatten, contentType⟩))) ∧
    (∀ readerFailure putFailure, (bucket key).isSome →
      putStream bucket key reader readerFailure contentType size none putFailure =
        ((.ok key, bucket), reader)) ∧
    (∀ readerFailure putFailure, bucket key = none →
      (∃ n, size = some n ∧ n ≠ reader.flatten.length) ∨ readerFailure ≠ none ∨ putFailure ≠ none →
      ∃ error : IpaError,
        (putStream bucket key reader readerFailure contentType size none putFailure).1 =
          (.error error, bucket)) ∧
    ∀ (body : BodyReader) (chunkSize : ℕ), 1 ≤ chunkSize →
      (∀ object, bucket key = some object →
        (∃ chunks, getStream bucket key chunkSize body none (fun _ => none) = (chunks, .ok ()) ∧
          chunks.flatten = object.data ∧ ∀ chunk ∈ chunks, chunk ≠ []) ∧
        getByChunks bucket key body none (fun _ => none) = .ok object.data) ∧
      ((getStream bucket key chunkSize body none fun _ => none).2 =
        .error (notFoundError ("Blob " ++ key ++ " does not exist.")) ↔ bucket key = none) ∧
      (getByChunks bucket key body none (fun _ => none) =
        .error (notFoundError ("Blob " ++ key ++ " does not exist.")) ↔ bucket key = none) := by
  refine ⟨putStream_fst_eq_put, put_of_none, fun _ _ => putStream_of_isSome,
    fun _ _ => putStream_fails, ?_⟩
  intro body chunkSize hsize
  cases hkey : bucket key with
  | none =>
    have hbytes : getByChunks bucket key body none (fun _ => none) =
        .error (notFoundError ("Blob " ++ key ++ " does not exist.")) := by
      rw [getByChunks, getStream_of_none body hkey]
    rw [getStream_of_none body hkey, hbytes]
    simp
  | some object =>
    have hobject : getObject bucket key none = .ok object.data := by
      rw [getObject, statObject, hkey]
      rfl
    obtain ⟨chunks, hchunks, hflatten⟩ := getStream_of_getObject body hsize (fun _ => rfl) hobject
    rw [hchunks, getByChunks_of_getObject body (fun _ => rfl) hobject]
    refine ⟨?_, by simp, by simp⟩
    rintro _ ⟨⟩
    exact ⟨⟨chunks, rfl, hflatten⟩, rfl⟩

end MinioBlobStore

end Ipa
