import Ipa.Core.Basic
import Ipa.Lib.Dict

/-!
# Domain errors

`IpaError` is the base of the errors that cross layer boundaries.  A subclass differs from it by its
code, its HTTP status, its title and by whether retrying may help.  Where errors are only told apart, their
texts are strings; an error response depends on every code point of them.
-/

namespace Ipa

/-- An error that the platform raises deliberately, with its texts and the values of its extra members. -/
structure IpaErrorOf (S J : Type) where
  code : S
  httpStatus : ℤ
  title : S
  detail : S
  retryable : Bool
  extra : Dict S J

/-- An error with strings. -/
abbrev IpaError := IpaErrorOf String Json

/-- `IpaError(detail, code=...)`. -/
def IpaError.new (detail code : String) : IpaError where
  code := code
  httpStatus := 500
  title := "Internal Server Error"
  detail := detail
  retryable := false
  extra := Table.empty _

/-- `NotFoundError(detail)`. -/
def notFoundError (detail : String) : IpaError where
  code := "not_found"
  httpStatus := 404
  title := "Not Found"
  detail := detail
  retryable := false
  extra := Table.empty _

/-- `ConflictError(detail)`. -/
def conflictError (detail : String) : IpaError where
  code := "conflict"
  httpStatus := 409
  title := "Conflict"
  detail := detail
  retryable := false
  extra := Table.empty _

end Ipa
