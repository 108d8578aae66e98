import Ipa.Storage.Cache
import Ipa.Storage.Lock

/-!
# Entries do not interfere

Claims of idempotency keys, locks and cached values share one store.  A request (`CacheRequest`) acts
on the key of its entry alone (`actsAt_exec`), and the keys of different entries differ.

* `entries_independent`: the answers for one entry are those of the operations on it alone, and of the
  claims of a key within one live claim exactly one wins.
-/

namespace Ipa

open KeyValue

/-- A request to the store, and the expiry of an entry. -/
inductive CacheRequest
  | claimIdempotency (env : Segment) (key : String) (ttl : ℤ)
  | acquire (call : LockCall)
  | release (call : LockCall)
  | getJson (call : KeyCall)
  | setJson (call : KeyCall) (value : PyJson.Value) (ttl : ℤ)
  | delete (call : KeyCall)
  | expire (entry : Entry)

/-- The entry that a request is about. -/
def CacheRequest.entry : CacheRequest → Entry
  | claimIdempotency env key _ => (env, idemKind, key)
  | acquire call | release call => (call.env, lockKind, call.name)
  | getJson call | setJson call _ _ | delete call => call.entry
  | expire entry => entry

/-- A request and what becomes of it on its way. -/
structure CacheOp where
  link : Link
  request : CacheRequest

/-- The entry that the operation is about. -/
def CacheOp.entry (op : CacheOp) : Entry := op.request.entry

/-- What a caller is told. -/
inductive CacheAnswer
  | claimed (answer : Except RedisError Bool)
  | released (answer : Except RedisError ℕ)
  | value (answer : Except CacheError (Option PyJson.Value))
  | done (answer : Except CacheError Unit)
  | expired

namespace CacheOp

variable (limits : PyJson.Limits)

/-- What the operation does to the store, and what its caller is told. -/
def exec (op : CacheOp) (s : RedisStore) : RedisStore × CacheAnswer :=
  match op.request with
  | .claimIdempotency env key ttl =>
    (RedisCacheStore.claimIdempotency op.link env key ttl s).map id .claimed
  | .acquire call => (Redis.send op.link call.acquire s).map id .claimed
  | .release call => (Redis.send op.link call.release s).map id .released
  | .getJson call => (RedisCacheStore.getJson limits op.link call.key s).map id .value
  | .setJson call value ttl =>
    (RedisCacheStore.setJson limits op.link call.key value ttl s).map id .done
  | .delete call => (RedisCacheStore.delete op.link call.key s).map id .done
  | .expire entry => (erase entry.key s, .expired)

end CacheOp

/-! ## One operation -/

section ActsAt

variable {key : String} {link : Link} {limits : PyJson.Limits}

theorem actsAt_send {A : Type} {command : RedisStore → RedisStore × Except RedisError A}
    (h : ActsAt key command) : ActsAt key (Redis.send link command) := by
  cases link with
  | up => exact h
  | down text timeout => exact ActsAt.pure (Except.error (Redis.linkError text timeout))
  | lost text timeout =>
    exact h.map fun _ => (Except.error (Redis.linkError text timeout) : Except RedisError A)

theorem actsAt_get : ActsAt key (Redis.get key) :=
  ⟨fun _ _ _ => rfl, fun _ _ hs => ⟨congrArg Except.ok hs, hs⟩⟩

theorem actsAt_set (value : Bytes) (ttl : ℤ) : ActsAt key (Redis.set key value ttl) := by
  by_cases httl : ttl ≤ 0
  · rw [show Redis.set key value ttl = fun s => (s, .error Redis.invalidExpire) from
      funext fun s => if_pos httl]
    exact ActsAt.pure _
  · rw [show Redis.set key value ttl = fun s => (put key value s, .ok ()) from
      funext fun s => if_neg httl]
    exact ActsAt.put value _

theorem actsAt_setNx (value : Bytes) (ttl : ℤ) : ActsAt key (Redis.setNx key value ttl) := by
  by_cases httl : ttl ≤ 0
  · rw [show Redis.setNx key value ttl = fun s => (s, .error Redis.invalidExpire) from
      funext fun s => if_pos httl]
    exact ActsAt.pure _
  · rw [show Redis.setNx key value ttl = fun s =>
        ((putNew key value s).1, .ok (putNew key value s).2) from funext fun s => if_neg httl]
    exact (ActsAt.putNew value).map Except.ok

theorem actsAt_del : ActsAt key (Redis.del key) :=
  ActsAt.erase fun v => (Except.ok (if v.isSome then 1 else 0) : Except RedisError ℕ)

theorem actsAt_releaseLockScript (token : Bytes) :
    ActsAt key (Redis.releaseLockScript key token) :=
  (ActsAt.compareAndErase token).map fun b => (Except.ok (if b then 1 else 0) : Except RedisError ℕ)

theorem actsAt_getJson : ActsAt key (RedisCacheStore.getJson limits link key) :=
  (actsAt_send actsAt_get).map (RedisCacheStore.readAnswer limits)

theorem actsAt_setJson (value : PyJson.Value) (ttl : ℤ) :
    ActsAt key (RedisCacheStore.setJson limits link key value ttl) := by
  cases hraw : RedisCacheStore.encodeValue limits value with
  | error e =>
    rw [show RedisCacheStore.setJson limits link key value ttl = fun s => (s, .error (.json e)) from
      funext fun s => by rw [RedisCacheStore.setJson, hraw]]
    exact ActsAt.pure _
  | ok raw =>
    rw [show RedisCacheStore.setJson limits link key value ttl = fun s =>
        (Redis.send link (Redis.set key raw ttl) s).map id (RedisCacheStore.degrade ()) from
      funext fun s => by rw [RedisCacheStore.setJson, hraw]]
    exact (actsAt_send (actsAt_set raw ttl)).map (RedisCacheStore.degrade ())

theorem actsAt_delete : ActsAt key (RedisCacheStore.delete link key) :=
  (actsAt_send actsAt_del).map RedisCacheStore.deleteAnswer

/-- A request reads and writes the key of its entry alone. -/
theorem actsAt_exec (op : CacheOp) : ActsAt op.entry.key (op.exec limits) := by
  obtain ⟨link, request⟩ := op
  cases request with
  | claimIdempotency env key ttl => exact (actsAt_send (actsAt_setNx _ ttl)).map CacheAnswer.claimed
  | acquire call => exact (actsAt_send (actsAt_setNx _ _)).map CacheAnswer.claimed
  | release call => exact (actsAt_send (actsAt_releaseLockScript _)).map CacheAnswer.released
  | getJson call => exact actsAt_getJson.map CacheAnswer.value
  | setJson call value ttl => exact (actsAt_setJson value ttl).map CacheAnswer.done
  | delete call => exact actsAt_delete.map CacheAnswer.done
  | expire entry => exact ActsAt.erase fun _ => CacheAnswer.expired

theorem local_exec (limits : PyJson.Limits) :
    Local (fun op : CacheOp => op.entry.key) (CacheOp.exec limits) :=
  .of_actsAt actsAt_exec

end ActsAt

/-! ## Claims -/

/-- The request claims an idempotency key. -/
def CacheRequest.isClaim : CacheRequest → Bool
  | claimIdempotency _ _ _ => true
  | _ => false

/-- Requests after which the entry is free: it expires or is deleted. -/
def CacheRequest.ends : CacheRequest → Bool
  | delete _ | expire _ => true
  | _ => false

/-- The operation is a claim of the entry. -/
def CacheOp.Claims (op : CacheOp) (entry : Entry) : Prop :=
  op.request.isClaim = true ∧ op.entry = entry

instance (op : CacheOp) (entry : Entry) : Decidable (op.Claims entry) :=
  inferInstanceAs (Decidable (_ ∧ _))

/-- The operation ends the life of the entry. -/
def CacheOp.Ends (op : CacheOp) (entry : Entry) : Prop :=
  op.request.ends = true ∧ op.entry = entry

/-- The answer to a claim that has won. -/
def CacheAnswer.won : CacheAnswer → Bool
  | .claimed (.ok true) => true
  | _ => false

section Claims

variable {limits : PyJson.Limits} {op : CacheOp} {entry : Entry} {s : RedisStore} {key : String}

theorem occupied_send {A : Type} {link : Link}
    {command : RedisStore → RedisStore × Except RedisError A} (hs : s key ≠ none)
    (h : (command s).1 key ≠ none) : (Redis.send link command s).1 key ≠ none := by
  cases link with
  | up => exact h
  | down text timeout => exact hs
  | lost text timeout => exact h

/-- `SET NX` is refused, sets a free key, or leaves one that is taken. -/
theorem setNx_cases (key : String) (value : Bytes) (ttl : ℤ) (s : RedisStore) :
    Redis.setNx key value ttl s = (s, .error Redis.invalidExpire) ∨
    (s key = none ∧ Redis.setNx key value ttl s = (put key value s, .ok true)) ∨
    (s key ≠ none ∧ Redis.setNx key value ttl s = (s, .ok false)) := by
  unfold Redis.setNx
  split_ifs
  · exact .inl rfl
  · cases hs : s key with
    | none =>
      rw [putNew_of_none hs]
      exact .inr (.inl ⟨rfl, rfl⟩)
    | some v =>
      rw [putNew_of_some hs]
      exact .inr (.inr ⟨Option.some_ne_none v, rfl⟩)

theorem occupied_setNx (value : Bytes) (ttl : ℤ) (hs : s key ≠ none) :
    (Redis.setNx key value ttl s).1 key ≠ none := by
  rcases setNx_cases key value ttl s with hset | ⟨hnone, -⟩ | ⟨-, hset⟩
  · rwa [hset]
  · exact absurd hnone hs
  · rwa [hset]

theorem occupied_set (value : Bytes) (ttl : ℤ) (hs : s key ≠ none) :
    (Redis.set key value ttl s).1 key ≠ none := by
  unfold Redis.set
  split_ifs
  · exact hs
  · show put key value s key ≠ none
    rw [put_self]
    exact Option.some_ne_none _

/-- An operation that does not end the entry of an idempotency key leaves it occupied. -/
theorem occupied_exec (hidem : entry.2.1 = idemKind) (hs : s entry.key ≠ none)
    (hop : ¬ op.Ends entry) : (op.exec limits s).1 entry.key ≠ none := by
  by_cases hentry : op.entry = entry
  · subst hentry
    obtain ⟨link, request⟩ := op
    cases request with
    | claimIdempotency env key ttl =>
      exact occupied_send hs
        (occupied_setNx (utf8 "claimed") ttl hs)
    | acquire call | release call =>
      have hkind : lockKind = idemKind := hidem
      exact absurd hkind (by decide)
    | getJson call => exact occupied_send hs hs
    | setJson call value ttl =>
      show (RedisCacheStore.setJson limits link call.key value ttl s).1 _ ≠ none
      unfold RedisCacheStore.setJson
      cases RedisCacheStore.encodeValue limits value with
      | error e => exact hs
      | ok raw => exact occupied_send hs (occupied_set raw ttl hs)
    | delete call | expire entry => exact absurd ⟨rfl, rfl⟩ hop
  · have hkey : entry.key ≠ op.entry.key := fun h => hentry (Entry.key_injective h).symm
    rw [(actsAt_exec op).frame s _ hkey]
    exact hs

/-- A claim wins when its entry is free and the answer arrives, and then the entry is occupied. -/
theorem exec_claims (hop : op.Claims entry) : entry.2.1 = idemKind ∧
    ((op.exec limits s).2.won = true → s entry.key = none ∧ (op.exec limits s).1 entry.key ≠ none) ∧
    ((op.exec limits s).2 = .claimed (.ok false) → s entry.key ≠ none) := by
  obtain ⟨hclaim, rfl⟩ := hop
  obtain ⟨link, request⟩ := op
  cases request with
  | claimIdempotency env key ttl =>
    refine ⟨rfl, ?_⟩
    cases link with
    | up =>
      show ((CacheAnswer.claimed (Redis.setNx (Entry.key (env, idemKind, key)) (utf8 "claimed") ttl
          s).2).won = true → s (Entry.key (env, idemKind, key)) = none ∧
          (Redis.setNx (Entry.key (env, idemKind, key)) (utf8 "claimed") ttl s).1
            (Entry.key (env, idemKind, key)) ≠ none) ∧
        (CacheAnswer.claimed (Redis.setNx (Entry.key (env, idemKind, key)) (utf8 "claimed") ttl s).2 =
          .claimed (.ok false) → s (Entry.key (env, idemKind, key)) ≠ none)
      rcases setNx_cases (Entry.key (env, idemKind, key)) (utf8 "claimed") ttl s with
        hset | ⟨hnone, hset⟩ | ⟨hsome, hset⟩
      · rw [hset]
        simp [CacheAnswer.won]
      · rw [hset]
        simp [hnone]
      · rw [hset]
        simp [CacheAnswer.won, hsome]
    | down text timeout | lost text timeout =>
      constructor <;>
      · intro h
        cases h
  | _ => cases hclaim

/-- While an entry lives, no claim of it wins. -/
theorem not_won_of_lives (hidem : entry.2.1 = idemKind) (hs : s entry.key ≠ none) {ops : List CacheOp}
    (hops : ∀ op ∈ ops, ¬ op.Ends entry) :
    (answers (CacheOp.exec limits) ops s).filter (fun a => a.1.Claims entry ∧ a.2.won) = [] := by
  induction ops generalizing s with
  | nil => rfl
  | cons op ops ih =>
    rw [List.forall_mem_cons] at hops
    have hnot : ¬ (op.Claims entry ∧ (op.exec limits s).2.won = true) := by
      rintro ⟨hclaim, hwon⟩
      exact hs ((exec_claims hclaim).2.1 hwon).1
    rw [answers, List.filter_cons_of_neg (by simpa using hnot)]
    exact ih (occupied_exec hidem hs hops.1) hops.2

end Claims

/-- Logical entries do not interfere.  Two calls of the key builders give the same key only for the
same environment, kind and arguments.  In every sequence of operations the answers for one entry are
the same as when all operations on other entries are removed.  Of the claims of a key within one live
claim exactly one wins, and a claim of a free key that is answered wins. -/
theorem entries_independent (limits : PyJson.Limits) :
    (∀ call call' : KeyCall, call.key = call'.key →
      call.entry = call'.entry ∧ (¬ call.Generic → ¬ call'.Generic → call = call')) ∧
    (∀ (ops : List CacheOp) (s : RedisStore) (entry : Entry),
      (answers (CacheOp.exec limits) ops s).filter (fun a => a.1.entry = entry) =
        answers (CacheOp.exec limits) (ops.filter fun op => op.entry = entry) s) ∧
    (∀ (op : CacheOp) (ops : List CacheOp) (s : RedisStore) (entry : Entry), op.Claims entry →
      (op.exec limits s).2.won = true → (∀ op' ∈ ops, ¬ op'.Ends entry) →
      (answers (CacheOp.exec limits) (op :: ops) s).filter (fun a => a.1.Claims entry ∧ a.2.won) =
        [(op, (op.exec limits s).2)]) ∧
    ∀ (op : CacheOp) (s : RedisStore) (entry : Entry), op.Claims entry → s entry.key = none →
      ∀ b, (op.exec limits s).2 = .claimed (.ok b) → b = true := by
  refine ⟨fun call call' => KeyCall.key_inj, ?_, ?_, ?_⟩
  · intro ops s entry
    have hfilter := (local_exec limits).answers_filter entry.key ops (rfl : s entry.key = s entry.key)
    simpa only [Entry.key_injective.eq_iff] using hfilter
  · intro op ops s entry hclaim hwon hops
    have hidem : entry.2.1 = idemKind := (@exec_claims limits op entry s hclaim).1
    have hs := ((exec_claims hclaim).2.1 hwon).2
    rw [answers, List.filter_cons_of_pos (by simpa using ⟨hclaim, hwon⟩),
      not_won_of_lives hidem hs hops]
  · intro op s entry hclaim hs b hb
    cases b with
    | true => rfl
    | false => exact absurd hs ((exec_claims hclaim).2.2 hb)

/-- Of two claims of a key, with a lock of the same name between them, the first one wins. -/
theorem entries_independent_two_claims :
    let limits : PyJson.Limits := ⟨4300, 1000⟩
    let env : Segment := ⟨"local", by decide⟩
    let claim : CacheOp := ⟨.up, .claimIdempotency env "a:b" 60⟩
    let lock : CacheOp := ⟨.up, .acquire ⟨env, "a:b", 60, ⟨7⟩⟩⟩
    (answers (CacheOp.exec limits) [claim, lock, claim] fun _ => none).filter
        (fun a => a.1.Claims (env, idemKind, "a:b") ∧ a.2.won) = [(claim, .claimed (.ok true))] := by
  intro limits env claim lock
  refine (entries_independent limits).2.2.1 claim [lock, claim] (fun _ => none) _ ⟨rfl, rfl⟩ rfl ?_
  simp [CacheOp.Ends, CacheRequest.ends, lock, claim]

end Ipa
