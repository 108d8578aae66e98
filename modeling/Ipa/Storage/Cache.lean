import Ipa.Lib.Json.Decode
import Ipa.Storage.Redis

/-!
# The cache store

The operations of `RedisCacheStore` on one entry each.  Reads and writes of the cache degrade on an
outage; claims and locks do not.  The value of an entry is written with `json.dumps` and read with
`json.loads`: what raises `ValueError` there reads as a miss.
-/

namespace Ipa

open KeyValue

/-- An error that an operation of the cache store raises. -/
inductive CacheError
  | redis (e : RedisError)
  | json (e : PyJson.Error)
deriving DecidableEq

namespace RedisCacheStore

variable (limits : PyJson.Limits)

/-- The answer to a request that degrades to `default`. -/
def degrade {A : Type} (default : A) : Except RedisError A → Except CacheError A
  | .ok a => .ok a
  | .error e => if e.Degraded then .ok default else .error (.redis e)

/-- The value of an entry; an entry that is `null` or undecodable has none. -/
def decodeEntry (raw : Bytes) : Except CacheError (Option PyJson.Value) :=
  match PyJson.loads limits raw with
  | .ok .null => .ok none
  | .ok value => .ok (some value)
  | .error .value => .ok none
  | .error .recursion => .error (.json .recursion)

/-- What `get_json` makes of the answer. -/
def readAnswer (answer : Except RedisError (Option Bytes)) :
    Except CacheError (Option PyJson.Value) := do
  match ← degrade none answer with
  | none => return none
  | some raw => decodeEntry limits raw

/-- `get_json`. -/
def getJson (link : Link) (key : String) (s : RedisStore) :
    RedisStore × Except CacheError (Option PyJson.Value) :=
  (Redis.send link (Redis.get key) s).map id (readAnswer limits)

/-- What `json.dumps` makes of a value, as it is sent. -/
def encodeValue (value : PyJson.Value) : Except PyJson.Error Bytes := do
  let text ← PyJson.dumps limits value
  match PyJson.encodeUtf8 text with
  | none => throw .value
  | some raw => return raw

/-- `set_json`. -/
def setJson (link : Link) (key : String) (value : PyJson.Value) (ttl : ℤ) (s : RedisStore) :
    RedisStore × Except CacheError Unit :=
  match encodeValue limits value with
  | .error e => (s, .error (.json e))
  | .ok raw => (Redis.send link (Redis.set key raw ttl) s).map id (degrade ())

/-- What `delete` makes of the answer. -/
def deleteAnswer (answer : Except RedisError ℕ) : Except CacheError Unit :=
  (degrade 0 answer).map fun _ => ()

/-- `delete`. -/
def delete (link : Link) (key : String) (s : RedisStore) : RedisStore × Except CacheError Unit :=
  (Redis.send link (Redis.del key) s).map id deleteAnswer

/-- `claim_idempotency`. -/
def claimIdempotency (link : Link) (env : Segment) (key : String) (ttl : ℤ) (s : RedisStore) :
    RedisStore × Except RedisError Bool :=
  Redis.send link (Redis.setNx (buildKey env.text idemKind.text key) (utf8 "claimed") ttl) s

end RedisCacheStore

end Ipa
