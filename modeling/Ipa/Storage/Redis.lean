import Ipa.Lib.KeyValue
import Ipa.Storage.CacheKeys

/-!
# Commands of the Redis server

A command acts on the store at once.  Its answer reaches the client unless the connection is down
(`Link`), and then the command has been executed or not.  A key given with an expiry may vanish at any
later moment; how much later is left open.
-/

namespace Ipa

open KeyValue

/-- Values by their keys. -/
abbrev RedisStore := KeyValue.Store String Bytes

/-- Errors of the client: the connection, a timeout, an error answer of the server. -/
inductive RedisError
  | connection (text : String)
  | timeout (text : String)
  | response (text : String)
deriving DecidableEq

/-- `_DEGRADED_ERRORS`: errors that a cache read or write degrades on. -/
def RedisError.Degraded : RedisError → Prop
  | connection _ | timeout _ => True
  | response _ => False

instance (e : RedisError) : Decidable e.Degraded := by
  cases e <;> unfold RedisError.Degraded <;> infer_instance

/-- Whether a command reaches the server, and its answer the client. -/
inductive Link
  | up
  | down (text : String) (timeout : Bool)
  | lost (text : String) (timeout : Bool)
deriving DecidableEq

namespace Redis

/-- The error of a connection that is down. -/
def linkError (text : String) (timeout : Bool) : RedisError :=
  if timeout then .timeout text else .connection text

/-- Send a command over the link. -/
def send {A : Type*} (link : Link) (command : RedisStore → RedisStore × Except RedisError A)
    (s : RedisStore) : RedisStore × Except RedisError A :=
  match link with
  | .up => command s
  | .down text timeout => (s, .error (linkError text timeout))
  | .lost text timeout => ((command s).1, .error (linkError text timeout))

/-- The answer to an expiry that is not positive. -/
def invalidExpire : RedisError := .response "invalid expire time in 'set' command"

/-- `GET key`. -/
def get (key : String) (s : RedisStore) : RedisStore × Except RedisError (Option Bytes) :=
  (s, .ok (s key))

/-- `SET key value EX ttl`. -/
def set (key : String) (value : Bytes) (ttl : ℤ) (s : RedisStore) :
    RedisStore × Except RedisError Unit :=
  if ttl ≤ 0 then (s, .error invalidExpire) else (put key value s, .ok ())

/-- `SET key value NX EX ttl`: whether the value was set. -/
def setNx (key : String) (value : Bytes) (ttl : ℤ) (s : RedisStore) :
    RedisStore × Except RedisError Bool :=
  if ttl ≤ 0 then (s, .error invalidExpire)
  else ((putNew key value s).1, .ok (putNew key value s).2)

/-- `DEL key`: the number of keys removed. -/
def del (key : String) (s : RedisStore) : RedisStore × Except RedisError ℕ :=
  (erase key s, .ok (if (s key).isSome then 1 else 0))

/-- `_RELEASE_LOCK_SCRIPT`: delete the key if it still holds the token. -/
def releaseLockScript (key : String) (token : Bytes) (s : RedisStore) :
    RedisStore × Except RedisError ℕ :=
  ((compareAndErase key token s).1, .ok (if (compareAndErase key token s).2 then 1 else 0))

end Redis

end Ipa
