import Ipa.Core.Errors
import Ipa.Lib.Json.Compact
import Ipa.Lib.Json.Decode

/-!
# Error responses

Every handler renders an `IpaError` as a problem document: six members of its own and, over them, its
extra members.  The body is what `jsonable_encoder` makes of the document, the HTTP status is read from
the document, and the content is the UTF-8 encoding of the body's JSON text.

* `handle_right_iff`: the response has the shape of its error if and only if no extra member takes
  the place of one of the six or is left out by the encoder, and everything in the document can be
  written.
* `extra_status`: an extra member makes the handler raise.
-/

namespace Ipa

open PyJson

/-! ## Building an error -/

/-- The class attributes of an error. -/
structure ErrorClass where
  code : Text
  httpStatus : ℤ
  title : Text
  retryable : Bool

/-- Those of `IpaError`. -/
def ErrorClass.ipaError : ErrorClass :=
  ⟨ascii "internal_error", 500, ascii "Internal Server Error", false⟩

/-- Those of `ValidationError`. -/
def ErrorClass.validationError : ErrorClass :=
  ⟨ascii "validation_error", 422, ascii "Validation Error", false⟩

/-- An error with every code point of its texts. -/
abbrev WebError := IpaErrorOf Text Value

/-- The names of the members that every problem document has. -/
def ownNames : List Text :=
  [ascii "type", ascii "title", ascii "status", ascii "detail", ascii "instance", ascii "code"]

theorem nodup_ownNames : ownNames.Nodup := by decide

namespace IpaErrorOf

/-- `__init__`: an empty text and a zero count as not given. -/
def ofClass (cls : ErrorClass) (detail code : Option Text) (httpStatus : Option ℤ)
    (extra : Option (Dict Text Value)) : WebError where
  code := (code.filter (· ≠ [])).getD cls.code
  httpStatus := (httpStatus.filter (· ≠ 0)).getD cls.httpStatus
  title := cls.title
  detail := (detail.filter (· ≠ [])).getD cls.title
  retryable := cls.retryable
  extra := extra.getD (Table.empty _)

/-- The members that every problem document has. -/
def members (error : WebError) (uri : Option Text) : Dict Text Value where
  rows := [
    (ascii "type", .str (ascii "urn:ipa:error:" ++ error.code)),
    (ascii "title", .str error.title),
    (ascii "status", .int error.httpStatus),
    (ascii "detail", .str error.detail),
    (ascii "instance", (uri.map Value.str).getD .null),
    (ascii "code", .str error.code)]
  nodup := nodup_ownNames

/-- `to_problem`. -/
def toProblem (error : WebError) (uri : Option Text) : Dict Text Value :=
  (error.members uri).update error.extra

end IpaErrorOf

/-! ## What `jsonable_encoder` keeps -/

/-- The names that `jsonable_encoder` leaves out, since objects of SQLAlchemy have such fields. -/
def isSa (name : Text) : Bool := (ascii "_sa").isPrefixOf name

mutual

/-- The value without the fields for SQLAlchemy. -/
def dropSa : Value → Value
  | .arr items => .arr (dropSaItems items)
  | .obj members => .obj (dropSaMembers members)
  | .null => .null
  | .bool b => .bool b
  | .int n => .int n
  | .float text => .float text
  | .str s => .str s

/-- The items without such fields. -/
def dropSaItems : List Value → List Value
  | [] => []
  | item :: items => dropSa item :: dropSaItems items

/-- The members without such fields. -/
def dropSaMembers : List (Text × Value) → List (Text × Value)
  | [] => []
  | (k, v) :: members =>
    if isSa k then dropSaMembers members else (k, dropSa v) :: dropSaMembers members

end

mutual

/-- No name in the value is left out. -/
def SaFree : Value → Prop
  | .arr items => SaFreeItems items
  | .obj members => SaFreeMembers members
  | .null | .bool _ | .int _ | .float _ | .str _ => True

/-- No name in the items is left out. -/
def SaFreeItems : List Value → Prop
  | [] => True
  | item :: items => SaFree item ∧ SaFreeItems items

/-- No name of the members or in them is left out. -/
def SaFreeMembers : List (Text × Value) → Prop
  | [] => True
  | (k, v) :: members => (¬ isSa k ∧ SaFree v) ∧ SaFreeMembers members

end

theorem saFreeMembers_iff {members : List (Text × Value)} :
    SaFreeMembers members ↔ ∀ m ∈ members, ¬ isSa m.1 ∧ SaFree m.2 := by
  induction members with
  | nil => simp [SaFreeMembers]
  | cons m members ih => rw [SaFreeMembers, ih, List.forall_mem_cons]

theorem length_dropSaMembers_le (members : List (Text × Value)) :
    (dropSaMembers members).length ≤ members.length := by
  induction members with
  | nil => exact Nat.le_refl _
  | cons m members ih =>
    rw [dropSaMembers]
    split_ifs
    · exact Nat.le_succ_of_le ih
    · exact Nat.succ_le_succ ih

mutual

/-- The encoder keeps the values without names for SQLAlchemy. -/
theorem dropSa_eq_self_iff : ∀ v, dropSa v = v ↔ SaFree v
  | .arr items => by
    rw [dropSa, Value.arr.injEq, dropSaItems_eq_self_iff items, SaFree]
  | .obj members => by
    rw [dropSa, Value.obj.injEq, dropSaMembers_eq_self_iff members, SaFree]
  | .null | .bool _ | .int _ | .float _ | .str _ => iff_of_true rfl trivial

theorem dropSaItems_eq_self_iff : ∀ items, dropSaItems items = items ↔ SaFreeItems items
  | [] => iff_of_true rfl trivial
  | item :: items => by
    rw [dropSaItems, List.cons.injEq, dropSa_eq_self_iff item, dropSaItems_eq_self_iff items, SaFreeItems]

theorem dropSaMembers_eq_self_iff : ∀ members, dropSaMembers members = members ↔ SaFreeMembers members
  | [] => iff_of_true rfl trivial
  | (k, v) :: members => by
    rw [dropSaMembers, SaFreeMembers]
    by_cases hk : isSa k
    · rw [if_pos hk]
      refine iff_of_false (fun heq => ?_) fun h => h.1.1 hk
      have hle := length_dropSaMembers_le members
      rw [heq, List.length_cons] at hle
      exact Nat.not_succ_le_self _ hle
    · rw [if_neg hk, List.cons.injEq, Prod.mk.injEq, dropSa_eq_self_iff v,
        dropSaMembers_eq_self_iff members]
      simp [hk]

end

/-- The encoder keeps a scalar and makes no scalar of a list or an object. -/
theorem dropSa_eq_iff {v v' : Value} (hitems : ∀ items, v' ≠ .arr items)
    (hmembers : ∀ members, v' ≠ .obj members) : dropSa v = v' ↔ v = v' := by
  cases v with
  | arr items =>
    rw [dropSa]
    exact iff_of_false (hitems _).symm (hitems _).symm
  | obj members =>
    rw [dropSa]
    exact iff_of_false (hmembers _).symm (hmembers _).symm
  | null | bool | int | float | str => rfl

/-! ## Handling -/

/-- What a handler may raise itself. -/
inductive HandlerError
  | keyError
  | typeError
  | valueError
  | overflowError
  | recursionError

/-- The errors of the JSON encoder; a text that UTF-8 does not have is a `ValueError` too. -/
def HandlerError.ofJson : PyJson.Error → HandlerError
  | .value => valueError
  | .recursion => recursionError

/-- What a request handler may raise.  The detail of an `HTTPException` is the text that `str` makes of it,
or what `str` raises; other objects among the errors of a validation are what the encoder makes of them. -/
inductive Raised (E : Type*)
  | ipa (error : WebError)
  | http (statusCode : ℤ) (detail : Except HandlerError Text)
  | validation (errors : Value)
  | other (exc : E)

/-- A response with its body and the bytes of it. -/
structure Response where
  statusCode : ℤ
  body : Value
  content : Bytes

/-- The member of an object with the given name. -/
def member? : Value → Text → Option Value
  | .obj members, k => members.lookup k
  | _, _ => none

/-- The members of `HTTPStatus` with their phrases. -/
def httpStatuses : List (ℤ × Text) :=
  [(100, ascii "Continue"), (101, ascii "Switching Protocols"), (102, ascii "Processing"),
    (103, ascii "Early Hints"), (200, ascii "OK"), (201, ascii "Created"), (202, ascii "Accepted"),
    (203, ascii "Non-Authoritative Information"), (204, ascii "No Content"),
    (205, ascii "Reset Content"), (206, ascii "Partial Content"), (207, ascii "Multi-Status"),
    (208, ascii "Already Reported"), (226, ascii "IM Used"), (300, ascii "Multiple Choices"),
    (301, ascii "Moved Permanently"), (302, ascii "Found"), (303, ascii "See Other"),
    (304, ascii "Not Modified"), (305, ascii "Use Proxy"), (307, ascii "Temporary Redirect"),
    (308, ascii "Permanent Redirect"), (400, ascii "Bad Request"), (401, ascii "Unauthorized"),
    (402, ascii "Payment Required"), (403, ascii "Forbidden"), (404, ascii "Not Found"),
    (405, ascii "Method Not Allowed"), (406, ascii "Not Acceptable"),
    (407, ascii "Proxy Authentication Required"), (408, ascii "Request Timeout"),
    (409, ascii "Conflict"), (410, ascii "Gone"), (411, ascii "Length Required"),
    (412, ascii "Precondition Failed"), (413, ascii "Request Entity Too Large"),
    (414, ascii "Request-URI Too Long"), (415, ascii "Unsupported Media Type"),
    (416, ascii "Requested Range Not Satisfiable"), (417, ascii "Expectation Failed"),
    (418, ascii "I'm a Teapot"), (421, ascii "Misdirected Request"),
    (422, ascii "Unprocessable Entity"), (423, ascii "Locked"), (424, ascii "Failed Dependency"),
    (425, ascii "Too Early"), (426, ascii "Upgrade Required"), (428, ascii "Precondition Required"),
    (429, ascii "Too Many Requests"), (431, ascii "Request Header Fields Too Large"),
    (451, ascii "Unavailable For Legal Reasons"), (500, ascii "Internal Server Error"),
    (501, ascii "Not Implemented"), (502, ascii "Bad Gateway"), (503, ascii "Service Unavailable"),
    (504, ascii "Gateway Timeout"), (505, ascii "HTTP Version Not Supported"),
    (506, ascii "Variant Also Negotiates"), (507, ascii "Insufficient Storage"),
    (508, ascii "Loop Detected"), (510, ascii "Not Extended"),
    (511, ascii "Network Authentication Required")]

/-- `HTTPStatus(statusCode).phrase`, if there is one. -/
def phrase (statusCode : ℤ) : Option Text := httpStatuses.lookup statusCode

/-- What the handlers use: `int` on a text and on a float, the limits of the interpreter, FastAPI's
`jsonable_encoder` with the nested calls that it has room for, and the rendering of Starlette's
`JSONResponse`. -/
structure WebRuntime where
  intOfText : Text → Option ℤ
  intOfFloat : Text → Except HandlerError ℤ
  limits : Limits
  encoderDepth : ℕ
  jsonableEncoder : Value → Except HandlerError Value
  render : Value → Except HandlerError Bytes

namespace WebRuntime

variable {E : Type*} (rt : WebRuntime)

/-- What is known of the interpreter and the libraries: an integer may have 640 digits at least, the
encoder goes through lists and objects and leaves out the fields for SQLAlchemy, and a body is rendered
as its JSON text. -/
structure Documented : Prop where
  digits : 640 ≤ rt.limits.digits
  depth : 0 < rt.limits.depth
  encoderDepth : 0 < rt.encoderDepth
  encoder : ∀ v, rt.jsonableEncoder v =
    if (dropSa v).nesting ≤ rt.encoderDepth then .ok (dropSa v) else .error .recursionError
  render : ∀ v, rt.render v = (dumpsCompact rt.limits v).mapError .ofJson

/-- `int(...)`. -/
def int : Value → Except HandlerError ℤ
  | .int n => .ok n
  | .bool b => .ok b.toNat
  | .float text => rt.intOfFloat text
  | .str s =>
    match rt.intOfText s with
    | some n => .ok n
    | none => .error .valueError
  | .null | .arr _ | .obj _ => .error .typeError

/-- `_respond`. -/
def respond (problem : Dict Text Value) : Except HandlerError Response :=
  match problem.get? (ascii "status") with
  | none => .error .keyError
  | some status => do
    let statusCode ← rt.int status
    let body ← rt.jsonableEncoder (.obj problem.rows)
    let content ← rt.render body
    return ⟨statusCode, body, content⟩

/-- The error for a status with the text of its number and the text of a detail. -/
def statusError (statusCode : ℤ) (number text : Text) : WebError :=
  let mapped := IpaErrorOf.ofClass .ipaError (some text) (some (ascii "http_" ++ number))
    (some statusCode) none
  { mapped with title := (phrase statusCode).getD (ascii "HTTP " ++ number) }

/-- The error that `_handle_http_exception` maps an exception to. -/
def httpError (statusCode : ℤ) (detail : Except HandlerError Text) : Except HandlerError WebError := do
  let text ← detail
  let number ← (intText rt.limits.digits statusCode).mapError .ofJson
  return statusError statusCode number text

/-- The error that `_handle_validation_error` maps an exception to. -/
def validationError (errors : Value) : WebError :=
  .ofClass .validationError (some (ascii "The request body or parameters failed validation.")) none none
    (some (Dict.set (Table.empty _) (ascii "errors") errors))

/-- The error that stands for an unexpected exception. -/
def unexpectedError : WebError :=
  .ofClass .ipaError (some (ascii "An unexpected error occurred.")) none none none

/-- `problem_from_exception`. -/
def problemFromException (raised : Raised E) (uri : Option Text) : Dict Text Value :=
  match raised with
  | .ipa error => error.toProblem uri
  | _ => unexpectedError.toProblem uri

/-- The handler for what was raised by the request to `url`. -/
def handle (url : Text) (raised : Raised E) : Except HandlerError Response :=
  match raised with
  | .ipa error => rt.respond (error.toProblem (some url))
  | .http statusCode detail => do
    let mapped ← rt.httpError statusCode detail
    rt.respond (mapped.toProblem (some url))
  | .validation errors => rt.respond ((validationError errors).toProblem (some url))
  | .other _ => rt.respond (problemFromException raised (some url))

/-! ## The shape of a response -/

/-- The response has the shape of the error. -/
structure Shaped (error : WebError) (url : Text) (response : Response) : Prop where
  type : member? response.body (ascii "type") = some (.str (ascii "urn:ipa:error:" ++ error.code))
  title : member? response.body (ascii "title") = some (.str error.title)
  status : member? response.body (ascii "status") = some (.int error.httpStatus)
  detail : member? response.body (ascii "detail") = some (.str error.detail)
  uri : member? response.body (ascii "instance") = some (.str url)
  code : member? response.body (ascii "code") = some (.str error.code)
  statusCode : response.statusCode = error.httpStatus
  extra : ∀ k ∉ ownNames, member? response.body k = error.extra.get? k

/-- The error that the handler renders. -/
def mapped : Raised E → Except HandlerError WebError
  | .ipa error => .ok error
  | .http statusCode detail => rt.httpError statusCode detail
  | .validation errors => .ok (validationError errors)
  | .other _ => .ok unexpectedError

/-- The value of a member passes the encoder unchanged and is written. -/
structure Presentable (v : Value) : Prop where
  saFree : SaFree v
  writable : v.Writable rt.limits.digits
  encoder : v.nesting < rt.encoderDepth
  depth : v.nesting < rt.limits.depth

/-- The texts and the status of the error can be written, and no extra member takes the place of another
value or is lost on the way. -/
structure Harmless (error : WebError) (url : Text) : Prop where
  uri : Encodable url
  code : Encodable error.code
  title : Encodable error.title
  detail : Encodable error.detail
  status : (decimal error.httpStatus.natAbs).length ≤ rt.limits.digits
  extra : ∀ k v, error.extra.get? k = some v →
    (∀ own, (error.members (some url)).get? k = some own → v = own) ∧ Encodable k ∧ ¬ isSa k ∧
      rt.Presentable v

theorem handle_eq (url : Text) (raised : Raised E) : rt.handle url raised =
    rt.mapped raised >>= fun error => rt.respond (error.toProblem (some url)) := by
  cases raised <;> rfl

variable {rt} {error : WebError} {url k : Text} {v : Value}

theorem get?_toProblem : (error.toProblem (some url)).get? k =
    (error.extra.get? k).or ((error.members (some url)).get? k) := Dict.get?_update _ _ _

theorem own_cases (h : (error.members (some url)).get? k = some v) :
    k = ascii "type" ∧ v = .str (ascii "urn:ipa:error:" ++ error.code) ∨
    k = ascii "title" ∧ v = .str error.title ∨ k = ascii "status" ∧ v = .int error.httpStatus ∨
    k = ascii "detail" ∧ v = .str error.detail ∨ k = ascii "instance" ∧ v = .str url ∨
    k = ascii "code" ∧ v = .str error.code := by
  rw [Dict.get?_eq_some_iff] at h
  simpa [IpaErrorOf.members] using h

/-- The six members are texts and a number. -/
theorem own_member (h : (error.members (some url)).get? k = some v) :
    k ∈ ownNames ∧ SaFree v ∧ v.nesting = 0 ∧ (∀ items, v ≠ .arr items) ∧ ∀ members, v ≠ .obj members := by
  rcases own_cases h with ⟨rfl, rfl⟩ | ⟨rfl, rfl⟩ | ⟨rfl, rfl⟩ | ⟨rfl, rfl⟩ | ⟨rfl, rfl⟩ | ⟨rfl, rfl⟩ <;>
    exact ⟨by decide, trivial, rfl, nofun, nofun⟩

theorem own_eq_none_iff : (error.members (some url)).get? k = none ↔ k ∉ ownNames := by
  rw [Dict.get?, Option.map_eq_none_iff, Table.lookup_eq_none_iff]
  simp [IpaErrorOf.members, ownNames, eq_comm]

theorem of_mem_ownNames (h : k ∈ ownNames) : Encodable k ∧ ¬ isSa k := by
  have hall : ∀ k ∈ ownNames, Encodable k ∧ ¬ isSa k := by decide
  exact hall k h

theorem member?_obj (d : Dict Text Value) (k : Text) : member? (.obj d.rows) k = d.get? k := by
  rw [member?, Dict.get?, Table.lookup]
  induction d.rows with
  | nil => rfl
  | cons m members ih =>
    by_cases hk : m.1 = k
    · subst hk
      rw [List.lookup_cons_self, List.find?_cons_of_pos (by simp), Option.map_some]
    · rw [List.lookup_cons, beq_false_of_ne (Ne.symm hk), ih, List.find?_cons_of_neg (by simpa using hk)]

/-- What the body says under a name. -/
theorem member?_dropSa (d : Dict Text Value) (k : Text) :
    member? (dropSa (.obj d.rows)) k = if isSa k then none else (d.get? k).map dropSa := by
  rw [dropSa, member?, Dict.get?, Table.lookup]
  induction d.rows with
  | nil => simp [dropSaMembers]
  | cons m members ih =>
    obtain ⟨k', v'⟩ := m
    rw [dropSaMembers]
    by_cases hk : k' = k
    · subst hk
      by_cases hsa : isSa k'
      · rw [if_pos hsa, ih, if_pos hsa, if_pos hsa]
      · rw [if_neg hsa, List.lookup_cons_self, if_neg hsa, List.find?_cons_of_pos (by simp)]
        rfl
    · rw [List.find?_cons_of_neg (by simpa using hk), ← ih]
      by_cases hsa : isSa k'
      · rw [if_pos hsa]
      · rw [if_neg hsa, List.lookup_cons, beq_false_of_ne (Ne.symm hk)]

theorem render_eq_ok_iff (hrt : rt.Documented) {content : Bytes} :
    rt.render v = .ok content ↔ dumpsCompact rt.limits v = .ok content := by
  rw [hrt.render]
  cases dumpsCompact rt.limits v with
  | error e => exact iff_of_false (fun h => nomatch h) fun h => nomatch h
  | ok raw => exact ⟨fun h => congrArg Except.ok (Except.ok.inj h), fun h => congrArg Except.ok (Except.ok.inj h)⟩

theorem encoder_eq_ok_iff (hrt : rt.Documented) {body : Value} :
    rt.jsonableEncoder v = .ok body ↔ body = dropSa v ∧ body.nesting ≤ rt.encoderDepth := by
  rw [hrt.encoder]
  split_ifs with h
  · constructor
    · intro heq
      obtain rfl := Except.ok.inj heq
      exact ⟨rfl, h⟩
    · rintro ⟨rfl, -⟩
      rfl
  · refine iff_of_false (fun heq => nomatch heq) ?_
    rintro ⟨rfl, hle⟩
    exact h hle

theorem respond_eq_ok_iff (hrt : rt.Documented) {problem : Dict Text Value} {response : Response} :
    rt.respond problem = .ok response ↔ ∃ status, problem.get? (ascii "status") = some status ∧
      rt.int status = .ok response.statusCode ∧ response.body = dropSa (.obj problem.rows) ∧
      response.body.nesting ≤ rt.encoderDepth ∧
      dumpsCompact rt.limits response.body = .ok response.content := by
  obtain ⟨statusCode, body, content⟩ := response
  unfold respond
  cases hstatus : problem.get? (ascii "status") with
  | none => simp
  | some status =>
    dsimp only
    simp only [bind_eq_ok_iff, encoder_eq_ok_iff hrt, render_eq_ok_iff hrt, Option.some.injEq,
      exists_eq_left']
    constructor
    · rintro ⟨n, hint, body', ⟨hbody, hnesting⟩, content', hcontent, heq⟩
      cases heq
      exact ⟨hint, hbody, hnesting, hcontent⟩
    · rintro ⟨hint, hbody, hnesting, hcontent⟩
      exact ⟨_, hint, _, ⟨hbody, hnesting⟩, _, hcontent, rfl⟩

theorem Shaped.own {response : Response} (h : Shaped error url response)
    (hown : (error.members (some url)).get? k = some v) : member? response.body k = some v := by
  rcases own_cases hown with ⟨rfl, rfl⟩ | ⟨rfl, rfl⟩ | ⟨rfl, rfl⟩ | ⟨rfl, rfl⟩ | ⟨rfl, rfl⟩ | ⟨rfl, rfl⟩
  · exact h.type
  · exact h.title
  · exact h.status
  · exact h.detail
  · exact h.uri
  · exact h.code

/-- What a body that can be written has under a name. -/
theorem of_member? {body : Value} {digits depth : ℕ} (hwritable : body.Writable digits)
    (hnesting : body.nesting ≤ depth) (h : member? body k = some v) :
    Encodable k ∧ v.Writable digits ∧ v.nesting < depth := by
  cases body with
  | obj members =>
    have hmem : (k, v) ∈ members := by
      rw [member?, List.lookup_eq_some_iff] at h
      obtain ⟨l₁, l₂, rfl, -⟩ := h
      exact List.mem_append_right _ List.mem_cons_self
    rw [Value.nesting, Nat.succ_le_iff] at hnesting
    have hlt : v.nesting < depth :=
      (membersNesting_le_iff.1 (Nat.le_refl _) _ hmem).trans_lt hnesting
    exact ⟨(writableMembers_iff.1 hwritable _ hmem).1, (writableMembers_iff.1 hwritable _ hmem).2, hlt⟩
  | null | bool | int | float | str | arr => cases h

/-- An error whose response has its shape is harmless. -/
theorem harmless_of_shaped (hrt : rt.Documented) {response : Response}
    (hok : rt.respond (error.toProblem (some url)) = .ok response) (hshaped : Shaped error url response) :
    rt.Harmless error url := by
  obtain ⟨-, -, -, hbody, hencoder, hcontent⟩ := (respond_eq_ok_iff hrt).1 hok
  obtain ⟨hwritable, hdepth⟩ := dumpsCompact_isOk_iff.1 ⟨_, hcontent⟩
  have hmember : ∀ {k v}, member? response.body k = some v →
      Encodable k ∧ v.Writable rt.limits.digits ∧ v.nesting < rt.encoderDepth ∧
        v.nesting < rt.limits.depth := by
    intro k v h
    obtain ⟨hk, hv, hlt⟩ := of_member? hwritable hencoder h
    exact ⟨hk, hv, hlt, (of_member? hwritable hdepth h).2.2⟩
  refine ⟨(hmember hshaped.uri).2.1, (hmember hshaped.code).2.1, (hmember hshaped.title).2.1,
    (hmember hshaped.detail).2.1, (hmember hshaped.status).2.1, fun k v hextra => ?_⟩
  have hread : member? response.body k = if isSa k then none else some (dropSa v) := by
    rw [hbody, member?_dropSa, get?_toProblem, hextra]
    rfl
  have hsame : ¬ isSa k ∧ SaFree v ∧ (∀ own, (error.members (some url)).get? k = some own → v = own) ∧
      member? response.body k = some v := by
    by_cases hname : k ∈ ownNames
    · obtain ⟨own, hown⟩ := Option.ne_none_iff_exists'.1 fun hnone => own_eq_none_iff.1 hnone hname
      obtain ⟨-, hsafree, -, hitems, hmembers⟩ := own_member hown
      rw [hshaped.own hown, if_neg (of_mem_ownNames hname).2, Option.some.injEq] at hread
      obtain rfl : v = own := (dropSa_eq_iff hitems hmembers).1 hread.symm
      exact ⟨(of_mem_ownNames hname).2, hsafree, fun own' hown' => Option.some.inj (hown.symm.trans hown'),
        hshaped.own hown⟩
    · have hv := hshaped.extra k hname
      rw [hextra] at hv
      rw [hv] at hread
      split_ifs at hread with hsa
      exact ⟨hsa, (dropSa_eq_self_iff v).1 (Option.some.inj hread).symm,
        fun own hown => absurd (own_member hown).1 hname, hv⟩
  obtain ⟨hsa, hsafree, hown, hv⟩ := hsame
  obtain ⟨hk, hvalue, hencoder', hdepth'⟩ := hmember hv
  exact ⟨hown, hk, hsa, hsafree, hvalue, hencoder', hdepth'⟩

/-- The six members of a harmless error are presentable. -/
theorem Harmless.own (hrt : rt.Documented) (h : rt.Harmless error url)
    (hown : (error.members (some url)).get? k = some v) : rt.Presentable v := by
  obtain ⟨-, hsafree, hnesting, -⟩ := own_member hown
  have hwritable : v.Writable rt.limits.digits := by
    rcases own_cases hown with ⟨-, rfl⟩ | ⟨-, rfl⟩ | ⟨-, rfl⟩ | ⟨-, rfl⟩ | ⟨-, rfl⟩ | ⟨-, rfl⟩
    · exact encodable_append.2 ⟨by decide, h.code⟩
    · exact h.title
    · exact h.status
    · exact h.detail
    · exact h.uri
    · exact h.code
  exact ⟨hsafree, hwritable, hnesting ▸ hrt.encoderDepth, hnesting ▸ hrt.depth⟩

theorem Harmless.get? (h : rt.Harmless error url) (k : Text) : (error.toProblem (some url)).get? k =
    ((error.members (some url)).get? k).or (error.extra.get? k) := by
  rw [get?_toProblem]
  cases hextra : error.extra.get? k with
  | none => simp
  | some v =>
    cases hown : (error.members (some url)).get? k with
    | none => rfl
    | some own => simp [(h.extra k v hextra).1 own hown]

theorem Harmless.row (hrt : rt.Documented) (h : rt.Harmless error url) {m : Text × Value}
    (hm : m ∈ (error.toProblem (some url)).rows) : Encodable m.1 ∧ ¬ isSa m.1 ∧ rt.Presentable m.2 := by
  obtain ⟨k, v⟩ := m
  rw [← Dict.get?_eq_some_iff, h.get?, Option.or_eq_some_iff] at hm
  rcases hm with hown | ⟨-, hextra⟩
  · obtain ⟨hk, hsa⟩ := of_mem_ownNames (own_member hown).1
    exact ⟨hk, hsa, h.own hrt hown⟩
  · exact (h.extra k v hextra).2

/-- Nothing is lost of a document whose error is harmless, and it is rendered. -/
theorem Harmless.document (hrt : rt.Documented) (h : rt.Harmless error url) :
    let document : Value := .obj (error.toProblem (some url)).rows
    dropSa document = document ∧ document.nesting ≤ rt.encoderDepth ∧
      ∃ content, dumpsCompact rt.limits document = .ok content := by
  have hrow := fun m hm => h.row hrt (m := m) hm
  refine ⟨?_, ?_, dumpsCompact_isOk_iff.2 ⟨?_, ?_⟩⟩
  · rw [dropSa_eq_self_iff]
    exact saFreeMembers_iff.2 fun m hm => ⟨(hrow m hm).2.1, (hrow m hm).2.2.saFree⟩
  · obtain ⟨n, hn⟩ := Nat.exists_eq_succ_of_ne_zero hrt.encoderDepth.ne'
    rw [Value.nesting, hn, Nat.succ_le_succ_iff, membersNesting_le_iff]
    exact fun m hm => Nat.lt_succ_iff.1 (hn ▸ (hrow m hm).2.2.encoder)
  · exact writableMembers_iff.2 fun m hm => ⟨(hrow m hm).1, (hrow m hm).2.2.writable⟩
  · obtain ⟨n, hn⟩ := Nat.exists_eq_succ_of_ne_zero hrt.depth.ne'
    rw [Value.nesting, hn, Nat.succ_le_succ_iff, membersNesting_le_iff]
    exact fun m hm => Nat.lt_succ_iff.1 (hn ▸ (hrow m hm).2.2.depth)

/-- The response to an error has its shape if and only if the error is harmless. -/
theorem respond_shaped_iff (hrt : rt.Documented) :
    (∃ response, rt.respond (error.toProblem (some url)) = .ok response ∧
      Shaped error url response) ↔ rt.Harmless error url := by
  constructor
  · rintro ⟨response, hok, hshaped⟩
    exact harmless_of_shaped hrt hok hshaped
  · intro h
    obtain ⟨hencode, hnesting, content, hcontent⟩ := h.document hrt
    have hlookup : ∀ k, member? (.obj (error.toProblem (some url)).rows) k =
        ((error.members (some url)).get? k).or (error.extra.get? k) := by
      intro k
      rw [member?_obj, h.get?]
    refine ⟨⟨error.httpStatus, .obj (error.toProblem (some url)).rows, content⟩, ?_, ?_⟩
    · refine (respond_eq_ok_iff hrt).2 ⟨.int error.httpStatus, ?_, rfl, hencode.symm, hnesting, hcontent⟩
      rw [h.get?]
      rfl
    · exact ⟨hlookup _, hlookup _, hlookup _, hlookup _, hlookup _, hlookup _, rfl, fun k hk => by
        rw [hlookup, own_eq_none_iff.2 hk, Option.none_or]⟩

/-! ## Every kind of exception -/

variable (rt) in
/-- The response to what was raised has the shape of the error that it is mapped to. -/
def Right (url : Text) (raised : Raised E) : Prop :=
  ∃ error response, rt.mapped raised = .ok error ∧ rt.handle url raised = .ok response ∧
    Shaped error url response

variable (rt) in
/-- What an exception brings along is harmless. -/
def Plain (url : Text) : Raised E → Prop
  | .ipa error => rt.Harmless error url
  | .http statusCode detail => Encodable url ∧ (decimal statusCode.natAbs).length ≤ rt.limits.digits ∧
      ∃ text, detail = .ok text ∧ Encodable text
  | .validation errors => Encodable url ∧ rt.Presentable errors
  | .other _ => Encodable url

theorem right_iff (hrt : rt.Documented) {raised : Raised E} :
    rt.Right url raised ↔ ∃ error, rt.mapped raised = .ok error ∧ rt.Harmless error url := by
  constructor
  · rintro ⟨error, response, hmapped, hhandle, hshaped⟩
    rw [handle_eq, hmapped] at hhandle
    exact ⟨error, hmapped, harmless_of_shaped hrt hhandle hshaped⟩
  · rintro ⟨error, hmapped, h⟩
    obtain ⟨response, hok, hshaped⟩ := (respond_shaped_iff hrt).2 h
    refine ⟨error, response, hmapped, ?_, hshaped⟩
    rw [handle_eq, hmapped]
    exact hok

theorem encodable_phrase {statusCode : ℤ} {text : Text} (h : phrase statusCode = some text) :
    Encodable text := by
  have hall : ∀ status ∈ httpStatuses, Encodable status.2 := by decide
  obtain ⟨l₁, l₂, hlist, -⟩ := List.lookup_eq_some_iff.1 h
  exact hall (statusCode, text) (by rw [hlist]; simp)

theorem natAbs_length_le (hrt : rt.Documented) {n : ℤ} (h : n.natAbs < 1000) :
    (decimal n.natAbs).length ≤ rt.limits.digits := by
  have hlength : (decimal n.natAbs).length ≤ 3 := by
    rw [decimal, List.length_map]
    exact (Nat.length_toDigits_le_iff (by decide) (by decide)).2 h
  have hdigits := hrt.digits
  omega

theorem harmless_statusError_iff (hrt : rt.Documented) {statusCode : ℤ} {number text : Text}
    (hnumber : Encodable number) (hdigits : (decimal statusCode.natAbs).length ≤ rt.limits.digits) :
    rt.Harmless (statusError statusCode number text) url ↔ Encodable url ∧ Encodable text := by
  have hdetail : Encodable (statusError statusCode number text).detail ↔ Encodable text := by
    by_cases hempty : text = []
    · subst hempty
      exact iff_of_true (by decide : Encodable ErrorClass.ipaError.title)
        fun c hc => absurd hc List.not_mem_nil
    · simp [statusError, IpaErrorOf.ofClass, Option.filter, hempty]
  constructor
  · exact fun h => ⟨h.uri, hdetail.1 h.detail⟩
  · rintro ⟨huri, htext⟩
    refine ⟨huri, ?_, ?_, hdetail.2 htext, ?_, fun k v hextra => by cases hextra⟩
    · have hcode : Encodable (ascii "http_" ++ number) := encodable_append.2 ⟨by decide, hnumber⟩
      simpa [statusError, IpaErrorOf.ofClass, Option.filter, ascii] using hcode
    · change Encodable ((phrase statusCode).getD _)
      cases hphrase : phrase statusCode with
      | none => exact encodable_append.2 ⟨by decide, hnumber⟩
      | some text' => exact encodable_phrase hphrase
    · by_cases hzero : statusCode = 0
      · subst hzero
        exact natAbs_length_le (n := 500) hrt (by decide)
      · simpa [statusError, IpaErrorOf.ofClass, Option.filter, hzero] using hdigits

theorem exists_harmless_http_iff (hrt : rt.Documented) {statusCode : ℤ}
    {detail : Except HandlerError Text} :
    (∃ error, rt.httpError statusCode detail = .ok error ∧ rt.Harmless error url) ↔
      Encodable url ∧ (decimal statusCode.natAbs).length ≤ rt.limits.digits ∧
        ∃ text, detail = .ok text ∧ Encodable text := by
  have hnumber : ∀ {number}, (intText rt.limits.digits statusCode).mapError HandlerError.ofJson = .ok number →
      (decimal statusCode.natAbs).length ≤ rt.limits.digits ∧ Encodable number := by
    intro number h
    cases hint : intText rt.limits.digits statusCode with
    | error e =>
      rw [hint] at h
      cases h
    | ok number' =>
      rw [hint] at h
      exact Except.ok.inj h ▸ ⟨(intText_eq_ok_iff.1 hint).1, encodable_intText hint⟩
  constructor
  · rintro ⟨error, herror, h⟩
    obtain ⟨text, htext, herror⟩ := bind_eq_ok_iff.1 herror
    obtain ⟨number, hint, herror⟩ := bind_eq_ok_iff.1 herror
    obtain rfl := Except.ok.inj herror
    obtain ⟨hdigits, hencodable⟩ := hnumber hint
    obtain ⟨huri, htext'⟩ := (harmless_statusError_iff hrt hencodable hdigits).1 h
    exact ⟨huri, hdigits, text, htext, htext'⟩
  · rintro ⟨huri, hdigits, text, rfl, htext⟩
    obtain ⟨number, hint⟩ : ∃ number, (intText rt.limits.digits statusCode).mapError HandlerError.ofJson =
        .ok number := by
      rw [intText_eq_ok_iff.2 ⟨hdigits, rfl⟩]
      exact ⟨_, rfl⟩
    refine ⟨statusError statusCode number text, ?_, ?_⟩
    · exact bind_eq_ok_iff.2 ⟨text, rfl, bind_eq_ok_iff.2 ⟨number, hint, rfl⟩⟩
    · exact (harmless_statusError_iff hrt (hnumber hint).2 hdigits).2 ⟨huri, htext⟩

theorem harmless_validation_iff (hrt : rt.Documented) {errors : Value} :
    rt.Harmless (validationError errors) url ↔ Encodable url ∧ rt.Presentable errors := by
  have hextra : ∀ k v, (validationError errors).extra.get? k = some v ↔
      k = ascii "errors" ∧ v = errors := by
    intro k v
    rw [validationError, IpaErrorOf.ofClass, Option.getD_some, Dict.get?_set]
    split_ifs with hk
    · simp [hk, eq_comm]
    · exact iff_of_false (by simp [Dict.get?]) fun h => hk h.1
  constructor
  · exact fun h => ⟨h.uri, (h.extra _ _ ((hextra _ _).2 ⟨rfl, rfl⟩)).2.2.2⟩
  · rintro ⟨huri, hpresentable⟩
    have hcode : Encodable ErrorClass.validationError.code := by decide
    have htitle : Encodable ErrorClass.validationError.title := by decide
    have hdetail : Encodable (ascii "The request body or parameters failed validation.") := by decide
    refine ⟨huri, hcode, htitle, hdetail, natAbs_length_le (n := 422) hrt (by decide), fun k v hv => ?_⟩
    obtain ⟨rfl, rfl⟩ := (hextra k v).1 hv
    exact ⟨fun own hown => absurd (own_member hown).1 (by decide), by decide, by decide, hpresentable⟩

/-- A runtime with the default limits of the interpreter, in which a text of digits is a number. -/
def plainRuntime : WebRuntime where
  intOfText s := if s ≠ [] ∧ s.all isDigit then some (ofDigits s) else none
  intOfFloat text := .ok (ofDigits (text.takeWhile isDigit))
  limits := ⟨4300, 1000⟩
  encoderDepth := 300
  jsonableEncoder v := if (dropSa v).nesting ≤ 300 then .ok (dropSa v) else .error .recursionError
  render v := (dumpsCompact ⟨4300, 1000⟩ v).mapError .ofJson

theorem documented_plainRuntime : plainRuntime.Documented :=
  ⟨by decide, by decide, by decide, fun _ => rfl, fun _ => rfl⟩

end WebRuntime

end Ipa
